import Tpcc.Consistency.Ytd

/-! The history rows and the year-to-date totals.  The loader enters a history amount of 10 for each
customer and totals of 30,000 and 300,000 times 100, so that the totals are ahead of the history
from the start; a payment adds its amount to the totals and at most as much to the history. -/

namespace Tpcc

open KvProgram Layout

variable {W : Nat} {s s' : Store Key (Value ℚ)} {run : List (Outcome ℚ)} {w d : Int}

/-- `H_AMOUNT` of a history row, and 0 where there is none. -/
def historyAmount (s : Store Key (Value ℚ)) (k : Key) : ℚ :=
  match s k with
  | some v => (historyVal.decode v).hAmount
  | none => 0

/-- The customers of `W` warehouses: warehouse, district and customer. -/
def payers (W : Nat) : Finset (Int × Int × Int) :=
  idsTo W ×ˢ idsTo 10 ×ˢ idsTo 3000

/-- The sum of `H_AMOUNT` over the history rows of the district `(w, d)`. -/
def historySum (W : Nat) (s : Store Key (Value ℚ)) (w d : Int) : ℚ :=
  ∑ p ∈ payers W, historyAmount s (historyKey w d p.1 p.2.1 p.2.2)

theorem mem_payers {p : Int × Int × Int} : p ∈ payers W ↔
    IsDistrict W p.1 p.2.1 ∧ 1 ≤ p.2.2 ∧ p.2.2 ≤ 3000 := by
  simp only [payers, Finset.mem_product, mem_idsTo, IsDistrict]
  tauto

theorem historyAmount_encode {k : Key} {row : HistoryVal ℚ}
    (h : s k = some (historyVal.encode row)) : historyAmount s k = row.hAmount := by
  simp [historyAmount, h]

/-- The history after a run: it has not caught up with the payments. -/
structure HistoryBehind (W : Nat) (run : List (Outcome ℚ)) (s : Store Key (Value ℚ)) : Prop where
  small : W ≤ 21474
  amounts : ∀ k, k.table = .history → 0 ≤ historyAmount s k
  sums : ∀ w d, IsDistrict W w d → historySum W s w d ≤ 30000 + totalPaid w d run

/-- After the load, only the customers of a district have paid there, 10 each. -/
theorem TablesLoaded.historyAmount_le (h : TablesLoaded W s) (hd : IsDistrict W w d)
    {p : Int × Int × Int} (hp : p ∈ payers W) :
    historyAmount s (historyKey w d p.1 p.2.1 p.2.2) ≤ if p.1 = w ∧ p.2.1 = d then 10 else 0 := by
  have small := h.small
  obtain ⟨⟨hcw, hcd⟩, hc⟩ := mem_payers.mp hp
  by_cases none : s (historyKey w d p.1 p.2.1 p.2.2) = none
  · simp only [historyAmount, none]
    split <;> norm_num
  · obtain ⟨v, hv, typed⟩ := h.typed_of_ne_none none
    obtain ⟨w', d', c', row, ⟨hw', hd'⟩, hc', same, rfl, amount⟩ := typed.history_row (by simp)
    obtain ⟨hw, hd⟩ := hd
    obtain ⟨rfl, rfl, own, district, _⟩ := historyKey_inj (by omega) hd (by omega) hcd hc
      (by omega) hd' (by omega) hd' hc' same
    rw [historyAmount_encode hv, amount, if_pos ⟨own, district⟩]
    norm_num [Amount.ofInt, Amount.quotient]

theorem TablesLoaded.historyBehind (h : TablesLoaded W s) : HistoryBehind W [] s := by
  constructor
  · exact h.small
  · intro k table
    by_cases none : s k = none
    · simp [historyAmount, none]
    · obtain ⟨v, hv, typed⟩ := h.typed_of_ne_none none
      obtain ⟨_, _, _, row, _, _, _, rfl, amount⟩ := typed.history_row table
      rw [historyAmount_encode hv, amount]
      norm_num [Amount.ofInt, Amount.quotient]
  · intro w d hd
    have customers : (payers W).filter (fun p => p.1 = w ∧ p.2.1 = d) ⊆
        (idsTo 3000).image fun c => (w, d, c) := by
      rintro ⟨cw, cd, c⟩ hp
      obtain ⟨mem, rfl, rfl⟩ := Finset.mem_filter.mp hp
      obtain ⟨_, low, high⟩ := mem_payers.mp mem
      rw [Finset.mem_image]
      exact ⟨c, mem_idsTo.mpr ⟨low, high⟩, rfl⟩
    have count : ((payers W).filter fun p => p.1 = w ∧ p.2.1 = d).card ≤ 3000 := by
      rw [← card_idsTo 3000]
      exact (Finset.card_le_card customers).trans Finset.card_image_le
    calc historySum W s w d
        ≤ ∑ p ∈ payers W, if p.1 = w ∧ p.2.1 = d then (10 : ℚ) else 0 :=
          Finset.sum_le_sum fun p hp => h.historyAmount_le hd hp
      _ = ((payers W).filter fun p => p.1 = w ∧ p.2.1 = d).card * 10 := by
          rw [← Finset.sum_filter, Finset.sum_const, nsmul_eq_mul]
      _ ≤ 30000 + totalPaid w d [] := by
          have : (((payers W).filter fun p => p.1 = w ∧ p.2.1 = d).card : ℚ) ≤ 3000 := by
            exact_mod_cast count
          rw [totalPaid_nil]
          linarith

/-- A step that pays nothing, and keeps the history. -/
theorem HistoryBehind.keep {outcome : Outcome ℚ} (h : HistoryBehind W run s)
    (unpaid : ∀ w d, outcome.paid w d = 0) (history : SameOn .history s s') :
    HistoryBehind W (outcome :: run) s' := by
  have same (k : Key) (table : k.table = .history) : historyAmount s' k = historyAmount s k := by
    rw [historyAmount, historyAmount, history k table]
  constructor
  · exact h.small
  · intro k table
    rw [same k table]
    exact h.amounts k table
  · intro w d hd
    rw [totalPaid_cons, unpaid, zero_add]
    exact (Finset.sum_congr rfl fun p _ => same _ (by simp)).trans_le (h.sums w d hd)

theorem PaymentResult.Effect.hAmount_nonneg {res : PaymentResult ℚ} (h : res.Effect id W s s') :
    0 ≤ res.hAmount := by
  obtain ⟨n, low, _, amount⟩ := h.amount
  have positive : (0 : ℚ) ≤ n := by exact_mod_cast (by omega : 0 ≤ n)
  rw [amount]
  exact div_nonneg positive (by norm_num)

/-- The history amounts after a payment: that of its customer at its district, and the old ones. -/
theorem PaymentResult.Effect.historyAmount_after {res : PaymentResult ℚ} (h : res.Effect id W s s')
    {k : Key} (table : k.table = .history) : historyAmount s' k =
      if k = historyKey res.warehouseId res.districtId res.cWId res.cDId res.customerId then
        res.hAmount
      else historyAmount s k := by
  obtain ⟨hist, paid, same⟩ := h.historyRow
  split
  · rename_i own
    rw [own, historyAmount_encode (same.row rfl), paid]
  · rename_i other
    rw [historyAmount, same.row_of_ne table other, historyAmount]

/-- A payment adds at most its amount to the history of its customer at its district. -/
theorem HistoryBehind.payment_le {res : PaymentResult ℚ} (h : HistoryBehind W run s)
    (effect : res.Effect id W s s') (hd : IsDistrict W w d) {p : Int × Int × Int}
    (hp : p ∈ payers W) : historyAmount s' (historyKey w d p.1 p.2.1 p.2.2) ≤
      historyAmount s (historyKey w d p.1 p.2.1 p.2.2) +
        if (res.cWId, res.cDId, res.customerId) = p then (Outcome.payment res).paid w d else 0 := by
  have small := h.small
  have positive := effect.hAmount_nonneg
  have old : 0 ≤ historyAmount s (historyKey w d p.1 p.2.1 p.2.2) := h.amounts _ (by simp)
  rw [effect.historyAmount_after (by simp)]
  split
  · rename_i own
    obtain ⟨⟨hcw, hcd⟩, hc⟩ := mem_payers.mp hp
    obtain ⟨hw', hd'⟩ := effect.isDistrict
    obtain ⟨hw, hd⟩ := hd
    have cw := effect.cWarehouse
    obtain ⟨rfl, rfl, first, second, third⟩ := historyKey_inj (by omega) hd (by omega) hcd hc
      (by omega) hd' (by omega) effect.cDistrict effect.customer own
    rw [if_pos (by rw [← first, ← second, ← third])]
    simpa [Outcome.paid, PaymentResult.At] using old
  · apply le_add_of_nonneg_right
    simp only [Outcome.paid]
    split
    · split
      · exact positive
      · exact le_rfl
    · exact le_rfl

/-- The history row of a payment, in place of the one that the customer had there. -/
theorem HistoryBehind.payment_step {res : PaymentResult ℚ} (h : HistoryBehind W run s)
    (effect : res.Effect id W s s') : HistoryBehind W (.payment res :: run) s' := by
  constructor
  · exact h.small
  · intro k table
    rw [effect.historyAmount_after table]
    split
    · exact effect.hAmount_nonneg
    · exact h.amounts k table
  · intro w d hd
    have payer : (res.cWId, res.cDId, res.customerId) ∈ payers W :=
      mem_payers.mpr ⟨⟨effect.cWarehouse, effect.cDistrict⟩, effect.customer⟩
    have before := h.sums w d hd
    calc historySum W s' w d
        ≤ ∑ p ∈ payers W, (historyAmount s (historyKey w d p.1 p.2.1 p.2.2) +
          if (res.cWId, res.cDId, res.customerId) = p then (Outcome.payment res).paid w d
          else 0) := Finset.sum_le_sum fun p hp => h.payment_le effect hd hp
      _ = historySum W s w d + (Outcome.payment res).paid w d := by
          rw [Finset.sum_add_distrib, Finset.sum_ite_eq, if_pos payer]
          rfl
      _ ≤ 30000 + totalPaid w d (.payment res :: run) := by
          rw [totalPaid_cons]
          linarith

theorem HistoryBehind.step {outcome : Outcome ℚ} (h : HistoryBehind W run s)
    (step : Step id W s outcome s') : HistoryBehind W (outcome :: run) s' := by
  cases outcome with
  | payment res => exact h.payment_step step.payment
  | _ => exact h.keep (fun _ _ => rfl) (step.sameOn (by simp [Outcome.tables]))

theorem Run.historyBehind (reached : Reached id W run s) : HistoryBehind W run s :=
  Run.invariant (fun _ loaded => loaded.tables.historyBehind) (fun _ _ _ _ h step => h.step step)
    reached

/-- The history rows account for the totals of every district and every warehouse. -/
structure HistoryAccounts (W : Nat) (s : Store Key (Value ℚ)) : Prop where
  district : ∀ w d, IsDistrict W w d → ∃ row : DistrictVal ℚ,
    s (districtKey w d) = some (districtVal.encode row) ∧ row.dYtd = historySum W s w d
  warehouse : ∀ w : Int, 1 ≤ w ∧ w ≤ W → ∃ row : WarehouseVal ℚ,
    s (warehouseKey w) = some (warehouseVal.encode row) ∧
      row.wYtd = ∑ d ∈ idsTo 10, historySum W s w d

/-- The total of a district is ahead of its history by at least 2,970,000. -/
theorem historySum_lt_dYtd (reached : Reached id W run s) (hd : IsDistrict W w d)
    {row : DistrictVal ℚ} (hrow : s (districtKey w d) = some (districtVal.encode row)) :
    historySum W s w d + 2970000 ≤ row.dYtd := by
  obtain ⟨same, total, ytd⟩ := (Run.yearToDate reached).district w d hd
  rw [hrow] at total
  obtain rfl := districtVal.encode_injective (Option.some.inj total)
  have behind := (Run.historyBehind reached).sums w d hd
  linarith

theorem historySum_lt_wYtd (reached : Reached id W run s) (hw : 1 ≤ w ∧ w ≤ W)
    {row : WarehouseVal ℚ} (hrow : s (warehouseKey w) = some (warehouseVal.encode row)) :
    ∑ d ∈ idsTo 10, historySum W s w d + 29700000 ≤ row.wYtd := by
  obtain ⟨same, total, ytd⟩ := (Run.yearToDate reached).warehouse w hw
  rw [hrow] at total
  obtain rfl := warehouseVal.encode_injective (Option.some.inj total)
  have behind : ∑ d ∈ idsTo 10, historySum W s w d ≤
      ∑ d ∈ idsTo 10, (30000 + totalPaid w d run) :=
    Finset.sum_le_sum fun d hd => (Run.historyBehind reached).sums w d ⟨hw, mem_idsTo.mp hd⟩
  rw [Finset.sum_add_distrib, Finset.sum_const, card_idsTo] at behind
  norm_num at behind
  linarith

/-- In no state that a client reaches does the history account for the total of any district or
warehouse. -/
theorem history_never_accounts (two : 2 ≤ W) (reached : Reached id W run s) :
    ¬HistoryAccounts W s ∧
    (∀ w d, IsDistrict W w d → ∀ row : DistrictVal ℚ,
      s (districtKey w d) = some (districtVal.encode row) → row.dYtd ≠ historySum W s w d) ∧
    ∀ w : Int, 1 ≤ w ∧ w ≤ W → ∀ row : WarehouseVal ℚ,
      s (warehouseKey w) = some (warehouseVal.encode row) →
        row.wYtd ≠ ∑ d ∈ idsTo 10, historySum W s w d := by
  have district : ∀ w d, IsDistrict W w d → ∀ row : DistrictVal ℚ,
      s (districtKey w d) = some (districtVal.encode row) → row.dYtd ≠ historySum W s w d := by
    intro w d hd row hrow same
    have := historySum_lt_dYtd reached hd hrow
    linarith
  refine ⟨fun accounts => ?_, district, ?_⟩
  · have first : IsDistrict W 1 1 := ⟨⟨le_rfl, by omega⟩, by decide⟩
    obtain ⟨row, hrow, same⟩ := accounts.district 1 1 first
    exact district 1 1 first row hrow same
  · intro w hw row hrow same
    have := historySum_lt_wYtd reached hw hrow
    linarith

theorem history_never_accounts_payment : ∃ s : Store Key (Value ℚ),
    Reached id 2 [.payment samplePayment] s ∧ ¬HistoryAccounts 2 s := by
  obtain ⟨s, reached⟩ := exists_payment
  exact ⟨s, reached, (history_never_accounts le_rfl reached).1⟩

/-- Already the loaded tables are not accounted for. -/
theorem loaded_history_behind : ¬∀ (W : Nat) (run : List (Outcome ℚ)) (s : Store Key (Value ℚ)),
    2 ≤ W → Reached id W run s → HistoryAccounts W s := by
  intro accounts
  obtain ⟨s, loaded⟩ := exists_loaded id (W := 2) (by norm_num)
  have reached : Reached id 2 [] s := .start loaded
  have first : IsDistrict 2 1 1 := ⟨by decide, by decide⟩
  obtain ⟨row, hrow, same⟩ := (accounts 2 [] s le_rfl reached).district 1 1 first
  have := historySum_lt_dYtd reached first hrow
  linarith

end Tpcc
