import Tpcc.Consistency.OrderIds

/-! The keys of the order lines.  `MakeOrderLineKey` is built for order numbers up to 10000000,
which nothing checks: the lines of a run have different keys as long as no district has placed more
than 9997000 orders, and the order after those has a number out of range. -/

namespace Tpcc

open KvProgram Layout

variable {F : Type} [FloatRep F] [DecidableEq F] [Amount F] {W : Nat}
  {s s' : Store Key (Value F)} {run : List (Outcome F)} {w d o l : Int}

/-! ### The lines of a run -/

/-- The lines of a run: up to 15 of each order that the loader inserts, and those of the orders
placed. -/
inductive IsLineOf (W : Nat) (run : List (Outcome F)) : Int → Int → Int → Int → Prop
  | loaded {w d o l : Int} :
      IsDistrict W w d → 1 ≤ o ∧ o ≤ 3000 → 1 ≤ l ∧ l ≤ 15 → IsLineOf W run w d o l
  | placed {res : NewOrderResult} {l : Int} :
      .newOrder res ∈ run → 1 ≤ l ∧ l ≤ (res.lines.length : Int) →
      IsLineOf W run res.warehouseId res.districtId res.myNextOId.toInt l

omit [FloatRep F] [DecidableEq F] [Amount F] in
theorem IsLineOf.cons {outcome : Outcome F} (h : IsLineOf W run w d o l) :
    IsLineOf W (outcome :: run) w d o l := by
  cases h with
  | loaded hd ho hl => exact .loaded hd ho hl
  | placed mem hl => exact .placed (List.mem_cons_of_mem _ mem) hl

/-- Every row of the order-line table is that of a line. -/
def LinesKnown (W : Nat) (run : List (Outcome F)) (s : Store Key (Value F)) : Prop :=
  ∀ k, k.table = .orderLine → s k ≠ none →
    ∃ w d o l, IsLineOf W run w d o l ∧ k = orderLineKey w d o l

theorem TablesLoaded.linesKnown (h : TablesLoaded W s) : LinesKnown W [] s := by
  intro k table row
  obtain ⟨v, _, typed⟩ := h.typed_of_ne_none row
  obtain ⟨w, d, o, l, _, hd, ho, hl, rfl, _⟩ := typed.orderLine_row table
  exact ⟨w, d, o, l, .loaded hd ho hl, rfl⟩

omit [FloatRep F] [DecidableEq F] [Amount F] in
theorem LinesKnown.mono {outcome : Outcome F} (h : LinesKnown W run s)
    (rows : ∀ k, k.table = .orderLine → s' k ≠ none → s k ≠ none) :
    LinesKnown W (outcome :: run) s' := by
  intro k table row
  obtain ⟨w, d, o, l, line, same⟩ := h k table (rows k table row)
  exact ⟨w, d, o, l, line.cons, same⟩

omit [Amount F] in
/-- The lines that an order inserts are its own. -/
theorem NewOrderResult.Effect.line_row {res : NewOrderResult} (h : res.Effect id W s s') {k : Key}
    (table : k.table = .orderLine) (row : s' k ≠ none) :
    s k ≠ none ∨ ∃ i < res.lines.length,
      k = orderLineKey res.warehouseId res.districtId res.myNextOId.toInt (i + 1 : Nat) := by
  obtain ⟨_, _, dist, next, norder, order, writes, _, _, _, _, lines, rfl⟩ := h.writes
  apply (Store.puts_origin row).imp_right
  rintro ⟨w, hw, same⟩
  have same : w.1 = k := same
  rcases List.mem_append.mp hw with fixed | line
  · simp only [rowWrites, List.mem_cons, List.not_mem_nil, or_false] at fixed
    rcases fixed with rfl | rfl | rfl | rfl <;> exact absurd (same ▸ table) (by simp)
  · rcases lines.tables w line with stock | ⟨i, hi, key⟩
    · rw [same, table] at stock
      exact absurd stock (by decide)
    · rw [same] at key
      unfold lineKey at key
      split at key
      · exact absurd (key ▸ table) (by simp)
      · exact ⟨i, hi, key⟩

omit [Amount F] in
theorem DatedLines.row {κ : Type} [DecidableEq κ] {addr : Key → κ} {key : Nat → Key}
    {currentTs : UInt32} {s s' : Store κ (Value F)} {lines : List (OrderLineVal F)}
    (h : DatedLines addr key currentTs s lines s') {a : κ} (row : s' a ≠ none) :
    s a ≠ none ∨ ∃ i < lines.length, a = addr (key i) := by
  induction h with
  | nil => exact .inl row
  | @snoc lines s' old status line _ _ ih =>
    rw [List.length_append, List.length_singleton]
    by_cases own : a = addr (key lines.length)
    · exact .inr ⟨lines.length, by omega, own⟩
    · rw [Store.put_of_ne own] at row
      rcases ih row with before | ⟨i, hi, same⟩
      · exact .inl before
      · exact .inr ⟨i, by omega, same⟩

/-- A delivery dates lines of orders that the loader has inserted. -/
theorem DeliveryResult.Effect.line_row {res : DeliveryResult F} (h : res.Effect id W s s') {k : Key}
    (table : k.table = .orderLine) (row : s' k ≠ none) : s k ≠ none ∨ ∃ w d o l : Int,
      IsDistrict W w d ∧ (1 ≤ o ∧ o ≤ 3000) ∧ (1 ≤ l ∧ l ≤ 15) ∧ k = orderLineKey w d o l := by
  obtain ⟨currentTs, deliveries⟩ := h.deliveries
  have districts := h.districts
  have warehouse := h.warehouse
  refine deliveries.keeps (R := fun s1 => s1 k ≠ none → s k ≠ none ∨ ∃ w d o l : Int,
    IsDistrict W w d ∧ (1 ≤ o ∧ o ≤ 3000) ∧ (1 ≤ l ∧ l ≤ 15) ∧ k = orderLineKey w d o l) ?_ .inl row
  intro x s1 s2 low high effect before row
  have drawn := effect.order
  obtain ⟨_, _, order, lines, s3, _, _, cust, _, _, _, dated, length, _, _, _, rfl⟩ := effect.writes
  rw [Store.put_of_ne (Key.ne_of_table (by simp [table]))] at row
  rcases dated.row row with old | ⟨i, hi, same⟩
  · rw [Store.put_of_ne (Key.ne_of_table (by simp [table]))] at old
    exact before old
  · exact .inr ⟨res.warehouseId, x.districtId, x.oId, (i + 1 : Nat), ⟨by omega, by omega⟩,
      by omega, by omega, same⟩

theorem LinesKnown.step {outcome : Outcome F} (h : LinesKnown W run s)
    (step : Step id W s outcome s') : LinesKnown W (outcome :: run) s' := by
  cases outcome with
  | newOrder res =>
    intro k table row
    rcases step.newOrder.line_row table row with old | ⟨i, hi, rfl⟩
    · obtain ⟨w, d, o, l, line, same⟩ := h k table old
      exact ⟨w, d, o, l, line.cons, same⟩
    · exact ⟨_, _, _, _, .placed List.mem_cons_self (by omega), rfl⟩
  | delivery res =>
    intro k table row
    rcases step.delivery.line_row table row with old | ⟨w, d, o, l, hd, ho, hl, same⟩
    · obtain ⟨w, d, o, l, line, same⟩ := h k table old
      exact ⟨w, d, o, l, line.cons, same⟩
    · exact ⟨w, d, o, l, .loaded hd ho hl, same⟩
  | _ =>
    have lines : SameOn .orderLine s s' := step.sameOn (by simp [Outcome.tables])
    exact h.mono fun k table row => by rwa [lines k table] at row

/-- Every row of the order-line table that a run leaves is that of one of its lines. -/
theorem Run.linesKnown (reached : Reached id W run s) : LinesKnown W run s :=
  Run.invariant (fun _ loaded => loaded.tables.linesKnown) (fun _ _ _ _ h step => h.step step)
    reached

/-! ### The numbers of the orders -/

omit [FloatRep F] [DecidableEq F] [Amount F] in
theorem numOrders_le_cons (w d : Int) (run : List (Outcome F)) (outcome : Outcome F) :
    numOrders w d run ≤ numOrders w d (outcome :: run) :=
  (List.sublist_cons_self outcome run).countP_le

/-- The orders of a district have taken the numbers from 3001 on, one after another. -/
structure Numbered (W : Nat) (run : List (Outcome F)) : Prop where
  orders : ∀ res : NewOrderResult, .newOrder res ∈ run →
    IsDistrict W res.warehouseId res.districtId ∧
    res.lines.length ≤ 15 ∧ 3001 ≤ res.myNextOId.toInt ∧
    res.myNextOId.toInt ≤ 3000 + numOrders res.warehouseId res.districtId run
  last : ∀ w d, 0 < numOrders w d run → ∃ res : NewOrderResult, .newOrder res ∈ run ∧ res.At w d ∧
    res.myNextOId.toInt = 3000 + numOrders w d run

omit [FloatRep F] [DecidableEq F] [Amount F] in
theorem Numbered.keep {outcome : Outcome F} (h : Numbered W run)
    (other : ∀ w d, outcome.isOrderAt w d = false) : Numbered W (outcome :: run) := by
  constructor
  · intro res mem
    rcases List.mem_cons.mp mem with rfl | mem
    · exact absurd (other res.warehouseId res.districtId)
        (by simp [Outcome.isOrderAt, NewOrderResult.At])
    · rw [numOrders_cons (other _ _)]
      exact h.orders res mem
  · intro w d some
    rw [numOrders_cons (other w d)] at some ⊢
    obtain ⟨res, mem, here, number⟩ := h.last w d some
    exact ⟨res, List.mem_cons_of_mem _ mem, here, number⟩

omit [Amount F] in
theorem Numbered.newOrder {res : NewOrderResult} (h : Numbered W run) (ids : OrderIds W run s)
    (effect : res.Effect id W s s') : Numbered W (.newOrder res :: run) := by
  have number := ids.number effect
  constructor
  · intro res' mem
    rcases List.mem_cons.mp mem with same | mem
    · obtain rfl : res' = res := by simpa using same
      have length := effect.lines_le.1
      have items := effect.numItems
      rw [numOrders_newOrder, if_pos ⟨rfl, rfl⟩]
      exact ⟨effect.isDistrict, by omega, by omega, by omega⟩
    · obtain ⟨district, length, low, high⟩ := h.orders res' mem
      have := numOrders_le_cons res'.warehouseId res'.districtId run (.newOrder res)
      exact ⟨district, length, low, by omega⟩
  · intro w d some
    rw [numOrders_newOrder] at some ⊢
    by_cases here : res.At w d
    · obtain ⟨rfl, rfl⟩ := here
      rw [if_pos ⟨rfl, rfl⟩]
      exact ⟨res, List.mem_cons_self, ⟨rfl, rfl⟩, by omega⟩
    · rw [if_neg here] at some ⊢
      obtain ⟨res', mem, here, number⟩ := h.last w d some
      exact ⟨res', List.mem_cons_of_mem _ mem, here, number⟩

theorem Run.numbered (reached : Reached id W run s) : Numbered W run := by
  have both : OrderIds W run s ∧ Numbered W run := Run.invariant
    (I := fun run s => OrderIds W run s ∧ Numbered W run)
    (fun s loaded => ⟨loaded.tables.orderIds, ⟨by simp, by simp⟩⟩) ?_ reached
  · exact both.2
  rintro run s outcome s' ⟨ids, numbered⟩ step
  refine ⟨ids.step step, ?_⟩
  cases outcome with
  | newOrder res => exact numbered.newOrder ids step.newOrder
  | _ => exact numbered.keep fun _ _ => rfl

/-- The orders of a run have numbers that the key of a line is built for, which the counter of the
district passes without an overflow, and different lines have different keys. -/
structure LineKeysKept (W : Nat) (run : List (Outcome F)) : Prop where
  numbers : ∀ res : NewOrderResult, .newOrder res ∈ run →
    1 ≤ res.myNextOId.toInt ∧ res.myNextOId.toInt ≤ 10000000
  counter : ∀ res : NewOrderResult, .newOrder res ∈ run →
    ∃ next, addInt32 res.myNextOId 1 = some next
  apart : ∀ w d o l w' d' o' l', IsLineOf W run w d o l → IsLineOf W run w' d' o' l' →
    orderLineKey w d o l = orderLineKey w' d' o' l' → w = w' ∧ d = d' ∧ o = o' ∧ l = l'

omit [FloatRep F] [DecidableEq F] [Amount F] in
/-- A line of a run in which no district has placed more than 9997000 orders. -/
theorem IsLineOf.bounds (h : IsLineOf W run w d o l) (numbered : Numbered W run)
    (few : ∀ w d, numOrders w d run ≤ 9997000) :
    IsDistrict W w d ∧ (1 ≤ o ∧ o ≤ 10000000) ∧ 1 ≤ l ∧ l ≤ 15 := by
  cases h with
  | loaded hd ho hl => exact ⟨hd, by omega, hl⟩
  | @placed res l mem hl =>
    obtain ⟨district, length, low, high⟩ := numbered.orders res mem
    have := few res.warehouseId res.districtId
    exact ⟨district, by omega, by omega⟩

/-- The keys of the lines are kept apart exactly when no district has placed more than 9997000
orders. -/
theorem lineKeys_iff (reached : Reached id W run s) :
    LineKeysKept W run ↔ ∀ w d, numOrders w d run ≤ 9997000 := by
  have small := (Run.orderIds reached).small
  have numbered := Run.numbered reached
  constructor
  · intro kept w d
    by_contra many
    obtain ⟨res, mem, _, number⟩ := numbered.last w d (by omega)
    have := (kept.numbers res mem).2
    omega
  · intro few
    have bound (res : NewOrderResult) (mem : .newOrder res ∈ run) :
        3001 ≤ res.myNextOId.toInt ∧ res.myNextOId.toInt ≤ 10000000 := by
      obtain ⟨_, _, low, high⟩ := numbered.orders res mem
      have := few res.warehouseId res.districtId
      omega
    constructor
    · intro res mem
      have := bound res mem
      omega
    · intro res mem
      have := bound res mem
      exact addInt32_isSome.mpr (by omega)
    · intro w d o l w' d' o' l' line line' same
      obtain ⟨⟨hw, hd⟩, ho, hl⟩ := line.bounds numbered few
      obtain ⟨⟨hw', hd'⟩, ho', hl'⟩ := line'.bounds numbered few
      exact orderLineKey_inj (by omega) hd ho hl (by omega) hd' ho' hl' same

theorem lineKeys_iff_orders : ∃ (run : List (Outcome ℚ)) (s : Store Key (Value ℚ)),
    Reached id 2 run s ∧ numOrders 1 8 run = 5 ∧ LineKeysKept 2 run := by
  obtain ⟨run, s, reached, length, count⟩ := exists_orders 5 (by norm_num)
  have few (w d : Int) : numOrders w d run ≤ 5 := List.countP_le_length.trans length.le
  exact ⟨run, s, reached, count,
    (lineKeys_iff reached).mpr fun w d => (few w d).trans (by norm_num)⟩

/-- The order after the 9997000th of a district has the number 10000001. -/
theorem many_orders_leave_keys : ¬∀ (W : Nat) (run : List (Outcome ℚ)) (s : Store Key (Value ℚ)),
    2 ≤ W → Reached id W run s → LineKeysKept W run := by
  intro claim
  obtain ⟨run, s, reached, _, count⟩ := exists_orders 9997001 (by norm_num)
  have kept := claim 2 run s le_rfl reached
  obtain ⟨res, mem, _, number⟩ := (Run.numbered reached).last 1 8 (by omega)
  have := (kept.numbers res mem).2
  omega

end Tpcc
