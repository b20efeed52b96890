import Mathlib.Data.Set.Card
import Tpcc.CustomerData
import Tpcc.LoadedTables

/-! The rows of the history.  The key of a history row has the district of the payment and the
customer, and no more: a second payment of a customer at a district writes over the row of the
first, and the loader has already entered a payment of each customer at the district of theirs. -/

namespace Tpcc

open KvProgram Layout

variable {F : Type} [FloatRep F] [DecidableEq F] [Amount F] {W : Nat}
  {first s s' : Store Key (Value F)} {res : PaymentResult F}

/-- A payment, with the store in which it begins. -/
structure HistoryEntry (F : Type) where
  before : Store Key (Value F)
  payment : PaymentResult F

def HistoryEntry.Step (W : Nat) (s : Store Key (Value F)) (x : HistoryEntry F)
    (s' : Store Key (Value F)) : Prop :=
  x.before = s ∧ Paid W s x.payment s'

variable {payments : List (HistoryEntry F)}

namespace PaymentResult

/-- The key at which a payment writes its history row. -/
def hKey (res : PaymentResult F) : Key :=
  historyKey res.warehouseId res.districtId res.cWId res.cDId res.customerId

/-- The district of a payment, and its customer. -/
def parties (res : PaymentResult F) : (Int × Int) × Int × Int × Int :=
  ((res.warehouseId, res.districtId), res.cWId, res.cDId, res.customerId)

/-- The payment is made at the district of the customer. -/
def AtHome (res : PaymentResult F) : Prop :=
  res.cWId = res.warehouseId ∧ res.cDId = res.districtId

/-- The ranges that a payment draws from. -/
structure Drawn (res : PaymentResult F) (W : Nat) : Prop where
  district : IsDistrict W res.warehouseId res.districtId
  cDistrict : IsDistrict W res.cWId res.cDId
  customer : 1 ≤ res.customerId ∧ res.customerId ≤ 3000

theorem Effect.drawn (h : res.Effect id W s s') : res.Drawn W :=
  ⟨h.isDistrict, ⟨h.cWarehouse, h.cDistrict⟩, h.customer⟩

omit [FloatRep F] [DecidableEq F] [Amount F] in
theorem Drawn.hKey_iff {other : PaymentResult F} (small : W ≤ 21474) (h : res.Drawn W)
    (h' : other.Drawn W) : res.hKey = other.hKey ↔ res.parties = other.parties := by
  obtain ⟨⟨hw, hd⟩, ⟨hcw, hcd⟩, hc⟩ := h
  obtain ⟨⟨hw', hd'⟩, ⟨hcw', hcd'⟩, hc'⟩ := h'
  constructor
  · intro same
    obtain ⟨warehouse, district, cWarehouse, cDistrict, customer⟩ := historyKey_inj (by omega) hd
      (by omega) hcd hc (by omega) hd' (by omega) hcd' hc' same
    simp [parties, warehouse, district, cWarehouse, cDistrict, customer]
  · intro same
    simp only [parties, Prod.mk.injEq] at same
    simp [hKey, same]

end PaymentResult

theorem Paid.drawn (paid : Paid W s res s') : res.Drawn W := by
  obtain ⟨ρ, env, t, t', returns⟩ := paid
  exact (payment_effect returns).drawn

/-- After the load the history has the payments that were made at home. -/
theorem TablesLoaded.history_iff (h : TablesLoaded W first) (drawn : res.Drawn W) :
    first res.hKey ≠ none ↔ res.AtHome := by
  have small := h.small
  obtain ⟨⟨hw, hd⟩, ⟨hcw, hcd⟩, hc⟩ := drawn
  constructor
  · intro row
    obtain ⟨v, hv, typed⟩ := h.typed_of_ne_none row
    obtain ⟨w, d, c, _, ⟨hw', hd'⟩, hc', same, _⟩ := typed.history_row rfl
    obtain ⟨rfl, rfl, own, district, _⟩ := historyKey_inj (by omega) hd (by omega) hcd hc
      (by omega) hd' (by omega) hd' hc' same
    exact ⟨own, district⟩
  · rintro ⟨own, district⟩
    have row := (h.rows.customer res.cWId.toNat res.cDId.toNat res.customerId.toNat (by omega)
      (by omega) (by omega) (by omega) (by omega) (by omega)).2
    rw [Int.toNat_of_nonneg (by omega), Int.toNat_of_nonneg (by omega),
      Int.toNat_of_nonneg (by omega)] at row
    rw [PaymentResult.hKey, ← own, ← district]
    exact row

/-! ### The rows after payments -/

/-- The keys of the history rows. -/
def historyRows (s : Store Key (Value F)) : Set Key := {k | k.table = .history ∧ s k ≠ none}

/-- A payment writes one history row. -/
theorem Paid.historyRow (paid : Paid W s res s') :
    historyRows s' = insert res.hKey (historyRows s) ∧
    ∀ k, k.table = .history → k ≠ res.hKey → s' k = s k := by
  obtain ⟨ρ, env, t, t', returns⟩ := paid
  obtain ⟨hist, _, same⟩ := (payment_effect returns).historyRow
  refine ⟨?_, fun k table ne => same.row_of_ne table ne⟩
  ext k
  rw [Set.mem_insert_iff]
  constructor
  · rintro ⟨table, row⟩
    exact ((same.ne_none_iff table).mp row).symm.imp_right fun old => ⟨table, old⟩
  · rintro (rfl | ⟨table, old⟩)
    · exact ⟨rfl, (same.ne_none_iff rfl).mpr (.inr rfl)⟩
    · exact ⟨table, (same.ne_none_iff table).mpr (.inl old)⟩

/-- The history has only been appended to: it has the rows of before, unchanged, one more row for
each payment, and no payment has found a row at its key. -/
structure HistoryAppended (first : Store Key (Value F)) (payments : List (HistoryEntry F))
    (s : Store Key (Value F)) : Prop where
  kept : ∀ k ∈ historyRows first, s k = first k
  added : (historyRows s).encard = (historyRows first).encard + payments.length
  fresh : ∀ x ∈ payments, x.before x.payment.hKey = none

/-- The payments of a run, and the rows that they leave. -/
structure HistoryRun (W : Nat) (first : Store Key (Value F)) (payments : List (HistoryEntry F))
    (s : Store Key (Value F)) : Prop where
  drawn : ∀ x ∈ payments, x.payment.Drawn W
  rows : ∀ k, k ∈ historyRows s ↔
    k ∈ historyRows first ∨ ∃ x ∈ payments, k = x.payment.hKey

theorem historyRun (run : Run (· = first) (HistoryEntry.Step W) payments s) :
    HistoryRun W first payments s := by
  induction run with
  | start same => exact ⟨by simp, fun k => by simp [same]⟩
  | @next payments s s' x _ step ih =>
    obtain ⟨-, paid⟩ := step
    constructor
    · exact List.forall_mem_cons.mpr ⟨paid.drawn, ih.drawn⟩
    · intro k
      rw [paid.historyRow.1, Set.mem_insert_iff, ih.rows, List.exists_mem_cons_iff]
      exact or_left_comm

/-- When no payment finds a row at its key, the history is appended to. -/
theorem historyAppended_of_fresh (run : Run (· = first) (HistoryEntry.Step W) payments s)
    (fresh : ∀ x ∈ payments, x.before x.payment.hKey = none) :
    HistoryAppended first payments s := by
  induction run with
  | start same => exact ⟨fun k _ => by rw [same], by simp [same], by simp⟩
  | @next payments s s' x run step ih =>
    obtain ⟨rfl, paid⟩ := step
    obtain ⟨rows, same⟩ := paid.historyRow
    obtain ⟨new, earlier⟩ := List.forall_mem_cons.mp fresh
    have appended := ih earlier
    refine ⟨fun k old => ?_, ?_, fresh⟩
    · have ne : k ≠ x.payment.hKey := by
        rintro rfl
        exact old.2 ((appended.kept _ old).symm.trans new)
      rw [same k old.1 ne, appended.kept k old]
    · rw [rows, Set.encard_insert_of_notMem fun old => old.2 new, appended.added, List.length_cons,
        Nat.cast_add, Nat.cast_one, add_assoc]

/-- No payment finds a row at its key exactly when none is made at home, and no two are of one
customer at one district. -/
theorem fresh_iff (loaded : TablesLoaded W first)
    (run : Run (· = first) (HistoryEntry.Step W) payments s) :
    (∀ x ∈ payments, x.before x.payment.hKey = none) ↔
      (∀ x ∈ payments, ¬x.payment.AtHome) ∧ (payments.map (·.payment.parties)).Nodup := by
  induction run with
  | start => simp
  | @next payments s s' x run step ih =>
    have all := historyRun (.next run step)
    obtain ⟨drawn, earlier⟩ := List.forall_mem_cons.mp all.drawn
    obtain ⟨rfl, _⟩ := step
    have free : x.before x.payment.hKey = none ↔
        ¬x.payment.AtHome ∧ x.payment.parties ∉ payments.map (·.payment.parties) := by
      have row : x.payment.hKey ∈ historyRows x.before ↔
          x.before x.payment.hKey ≠ none := ⟨And.right, fun row => ⟨rfl, row⟩⟩
      have home : x.payment.hKey ∈ historyRows first ↔ x.payment.AtHome := by
        rw [← loaded.history_iff drawn]
        exact ⟨And.right, fun row => ⟨rfl, row⟩⟩
      rw [← not_iff_not, ← ne_eq, ← row, (historyRun run).rows, home, not_and_or, not_not, not_not,
        List.mem_map]
      refine or_congr_right (exists_congr fun y => and_congr_right fun hy => ?_)
      rw [drawn.hKey_iff loaded.small (earlier y hy), eq_comm]
    rw [List.forall_mem_cons, List.forall_mem_cons, List.map_cons, List.nodup_cons, ih, free]
    exact and_and_and_comm

/-- After any payments from the loaded tables the history has only been appended to exactly when
none of them is made at the district of the customer, and no two are made by one customer at one
district. -/
theorem historyAppended_iff (loaded : Loaded id W first)
    (run : Run (· = first) (HistoryEntry.Step W) payments s) : HistoryAppended first payments s ↔
      (∀ x ∈ payments, ¬x.payment.AtHome) ∧ (payments.map (·.payment.parties)).Nodup := by
  rw [← fresh_iff loaded.tables run]
  exact ⟨HistoryAppended.fresh, historyAppended_of_fresh run⟩

/-! ### A payment at home -/

/-- From the tables that `Env.counting` has loaded, it draws a payment at home. -/
theorem exists_home_payment : ∃ (first s : Store Key (Value ℚ)) (x : HistoryEntry ℚ),
    Loaded id 2 first ∧ Run (· = first) (HistoryEntry.Step 2) [x] s ∧ x.payment.AtHome := by
  obtain ⟨first, s, loaded, paid⟩ := exists_loaded_paid
  exact ⟨first, s, ⟨first, samplePayment⟩, loaded, .next (.start rfl) ⟨rfl, paid⟩, rfl, rfl⟩

theorem historyAppended_iff_home : ∃ (first s : Store Key (Value ℚ)) (x : HistoryEntry ℚ),
    ¬HistoryAppended first [x] s := by
  obtain ⟨first, s, x, loaded, run, home⟩ := exists_home_payment
  refine ⟨first, s, x, fun appended => ?_⟩
  exact ((historyAppended_iff loaded run).mp appended).1 x List.mem_cons_self home

/-- A payment at home finds the row of the loader at its key. -/
theorem home_payment_overwrites :
    ¬∀ (W : Nat) (first s : Store Key (Value ℚ)) (payments : List (HistoryEntry ℚ)),
      Loaded id W first → Run (· = first) (HistoryEntry.Step W) payments s →
        HistoryAppended first payments s := by
  intro append
  obtain ⟨first, s, x, loaded, run, home⟩ := exists_home_payment
  have fresh := (append 2 first s [x] loaded run).fresh
  exact ((fresh_iff loaded.tables run).mp fresh).1 x List.mem_cons_self home

end Tpcc
