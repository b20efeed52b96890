import Mathlib.Algebra.BigOperators.Ring.Finset
import Mathlib.Algebra.Order.BigOperators.Group.Finset
import Tpcc.CustomerData

/-! The year-to-date totals of the warehouses and the districts, with exact amounts: what the
payments of a run add to them. -/

namespace Tpcc

open KvProgram Layout

variable {W : Nat} {s s' : Store Key (Value ℚ)} {run : List (Outcome ℚ)} {w d : Int}

/-- The identifiers from 1 to `n`. -/
def idsTo (n : Nat) : Finset Int := (Finset.range n).image fun i : Nat => (i : Int) + 1

theorem mem_idsTo {n : Nat} {i : Int} : i ∈ idsTo n ↔ 1 ≤ i ∧ i ≤ n := by
  simp only [idsTo, Finset.mem_image, Finset.mem_range]
  constructor
  · rintro ⟨j, hj, rfl⟩
    omega
  · exact fun h => ⟨(i - 1).toNat, by omega, by omega⟩

theorem card_idsTo (n : Nat) : (idsTo n).card = n := by
  rw [idsTo, Finset.card_image_of_injective, Finset.card_range]
  intro i j same
  dsimp only at same
  omega

/-- What a transaction pays at the district `(w, d)`. -/
def Outcome.paid (w d : Int) : Outcome ℚ → ℚ
  | .payment res => if res.At w d then res.hAmount else 0
  | _ => 0

/-- What the payments of a run pay at the district `(w, d)`. -/
def totalPaid (w d : Int) (run : List (Outcome ℚ)) : ℚ := (run.map (·.paid w d)).sum

@[simp] theorem totalPaid_nil : totalPaid w d [] = 0 := rfl

@[simp] theorem totalPaid_cons {outcome : Outcome ℚ} :
    totalPaid w d (outcome :: run) = outcome.paid w d + totalPaid w d run := rfl

/-- The totals of the warehouses and districts after a run. -/
structure YearToDate (W : Nat) (run : List (Outcome ℚ)) (s : Store Key (Value ℚ)) : Prop where
  small : W ≤ 21474
  warehouse : ∀ w : Int, 1 ≤ w ∧ w ≤ W → ∃ row : WarehouseVal ℚ,
    s (warehouseKey w) = some (warehouseVal.encode row) ∧
      row.wYtd = 30000000 + ∑ d ∈ idsTo 10, totalPaid w d run
  district : ∀ w d, IsDistrict W w d → ∃ row : DistrictVal ℚ,
    s (districtKey w d) = some (districtVal.encode row) ∧
      row.dYtd = 3000000 + totalPaid w d run

theorem TablesLoaded.yearToDate (h : TablesLoaded W s) : YearToDate W [] s := by
  constructor
  · exact h.small
  · intro w hw
    obtain ⟨row, hrow, ytd, _⟩ := h.warehouse hw
    refine ⟨row, hrow, ?_⟩
    rw [ytd]
    norm_num [Amount.ofInt, Amount.quotient]
  · intro w d hd
    obtain ⟨row, hrow, ytd, _⟩ := h.district hd
    refine ⟨row, hrow, ?_⟩
    rw [ytd]
    norm_num [Amount.ofInt, Amount.quotient]

/-- A payment at a warehouse is made at one of its districts. -/
theorem sum_paid {res : PaymentResult ℚ} (hd : 1 ≤ res.districtId ∧ res.districtId ≤ 10) (w : Int) :
    ∑ d ∈ idsTo 10, (Outcome.payment res).paid w d =
      if res.warehouseId = w then res.hAmount else 0 := by
  simp only [Outcome.paid, PaymentResult.At]
  by_cases here : res.warehouseId = w
  · simp only [here, true_and, if_true]
    rw [Finset.sum_ite_eq, if_pos (mem_idsTo.mpr hd)]
  · simp [here]

/-- A step that pays nothing, and keeps the totals. -/
theorem YearToDate.keep {outcome : Outcome ℚ} (h : YearToDate W run s)
    (unpaid : ∀ w d, outcome.paid w d = 0) (warehouse : SameOn .warehouse s s')
    (district : ∀ w d, IsDistrict W w d → ∀ row : DistrictVal ℚ,
      s (districtKey w d) = some (districtVal.encode row) → ∃ row' : DistrictVal ℚ,
        s' (districtKey w d) = some (districtVal.encode row') ∧ row'.dYtd = row.dYtd) :
    YearToDate W (outcome :: run) s' := by
  constructor
  · exact h.small
  · intro w hw
    obtain ⟨row, hrow, ytd⟩ := h.warehouse w hw
    rw [← warehouse _ (table_warehouseKey ..)] at hrow
    exact ⟨row, hrow, by simpa [unpaid] using ytd⟩
  · intro w d hd
    obtain ⟨row, hrow, ytd⟩ := h.district w d hd
    obtain ⟨row', hrow', same⟩ := district w d hd row hrow
    exact ⟨row', hrow', by rw [same, ytd, totalPaid_cons, unpaid, zero_add]⟩

theorem YearToDate.payment_step {res : PaymentResult ℚ} (h : YearToDate W run s)
    (effect : res.Effect id W s s') : YearToDate W (.payment res :: run) s' := by
  constructor
  · exact h.small
  · intro w hw
    obtain ⟨row, hrow, ytd⟩ := h.warehouse w hw
    simp only [totalPaid_cons, Finset.sum_add_distrib, sum_paid effect.district]
    rcases effect.warehouse_after h.small hw hrow with ⟨here, after⟩ | ⟨other, after⟩
    · refine ⟨_, after, ?_⟩
      rw [if_pos here, ytd]
      ring
    · refine ⟨row, after, ?_⟩
      rw [if_neg other, zero_add, ytd]
  · intro w d hd
    obtain ⟨row, hrow, ytd⟩ := h.district w d hd
    simp only [totalPaid_cons, Outcome.paid]
    rcases effect.district_after h.small hd hrow with ⟨here, after⟩ | ⟨other, after⟩
    · refine ⟨_, after, ?_⟩
      rw [if_pos here, ytd]
      ring
    · refine ⟨row, after, ?_⟩
      rw [if_neg other, zero_add, ytd]

theorem YearToDate.step {outcome : Outcome ℚ} (h : YearToDate W run s)
    (step : Step id W s outcome s') : YearToDate W (outcome :: run) s' := by
  cases outcome with
  | newOrder res =>
    refine h.keep (fun _ _ => rfl) (step.sameOn (by simp [Outcome.tables])) ?_
    intro w d hd row hrow
    rcases step.newOrder.district_after h.small hd hrow with ⟨_, _, next, _, after⟩ | ⟨_, after⟩
    · exact ⟨_, after, rfl⟩
    · exact ⟨row, after, rfl⟩
  | payment res => exact h.payment_step step.payment
  | _ =>
    have district : SameOn .district s s' := step.sameOn (by simp [Outcome.tables])
    exact h.keep (fun _ _ => rfl) (step.sameOn (by simp [Outcome.tables]))
      fun w d hd row hrow => ⟨row, (district _ (by simp)).trans hrow, rfl⟩

theorem Run.yearToDate (reached : Reached id W run s) : YearToDate W run s :=
  Run.invariant (fun _ loaded => loaded.tables.yearToDate) (fun _ _ _ _ h step => h.step step)
    reached

/-- The total of a warehouse is the sum of those of its districts. -/
theorem wYtd_eq_sum_dYtd (reached : Reached id W run s) (hw : 1 ≤ w ∧ w ≤ W) :
    ∃ (ware : WarehouseVal ℚ) (dist : Int → DistrictVal ℚ),
      s (warehouseKey w) = some (warehouseVal.encode ware) ∧
      (∀ d, 1 ≤ d ∧ d ≤ 10 → s (districtKey w d) = some (districtVal.encode (dist d))) ∧
      ware.wYtd = ∑ d ∈ idsTo 10, (dist d).dYtd := by
  have totals := Run.yearToDate reached
  obtain ⟨ware, hware, ytd⟩ := totals.warehouse w hw
  let dist (d : Int) : DistrictVal ℚ := districtVal.decode ((s (districtKey w d)).getD [])
  have rows (d : Int) (hd : 1 ≤ d ∧ d ≤ 10) :
      s (districtKey w d) = some (districtVal.encode (dist d)) ∧
        (dist d).dYtd = 3000000 + totalPaid w d run := by
    obtain ⟨row, hrow, total⟩ := totals.district w d ⟨hw, hd⟩
    have same : dist d = row := by simp [dist, hrow]
    rw [same]
    exact ⟨hrow, total⟩
  refine ⟨ware, dist, hware, fun d hd => (rows d hd).1, ?_⟩
  calc ware.wYtd = ∑ d ∈ idsTo 10, (3000000 + totalPaid w d run) := by
        rw [ytd, Finset.sum_add_distrib, Finset.sum_const, card_idsTo]
        norm_num
    _ = ∑ d ∈ idsTo 10, (dist d).dYtd :=
        Finset.sum_congr rfl fun d hd => (rows d (mem_idsTo.mp hd)).2.symm

theorem wYtd_eq_sum_dYtd_payment : ∃ (s : Store Key (Value ℚ)) (ware : WarehouseVal ℚ)
    (dist : Int → DistrictVal ℚ), Reached id 2 [.payment samplePayment] s ∧
      s (warehouseKey 1) = some (warehouseVal.encode ware) ∧
      ware.wYtd = ∑ d ∈ idsTo 10, (dist d).dYtd := by
  obtain ⟨s, reached⟩ := exists_payment
  obtain ⟨ware, dist, hware, _, ytd⟩ := wYtd_eq_sum_dYtd (w := 1) reached (by decide)
  exact ⟨s, ware, dist, reached, hware, ytd⟩

end Tpcc
