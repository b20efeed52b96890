import Tpcc.Consistency.OrderIds

/-! The orders that `OrderStatus` may draw, with the lines that they count: every row that it reads
is there. -/

namespace Tpcc

open KvProgram Layout

variable {F : Type} [FloatRep F] [DecidableEq F] [Amount F] {W : Nat}
  {s s' : Store Key (Value F)} {run : List (Outcome F)} {w d o : Int}

/-- An order that has a row, and the lines that the row counts. -/
def HasLines (w d o : Int) (s : Store Key (Value F)) : Prop :=
  ∃ row : OrderVal, s (orderKey w d o) = some (orderVal.encode row) ∧
    (5 ≤ row.oOlCnt.toInt ∧ row.oOlCnt.toInt ≤ 15) ∧
    ∀ l : Int, 1 ≤ l → l ≤ row.oOlCnt.toInt → s (orderLineKey w d o l) ≠ none

/-- The customers and the orders that `OrderStatus` may draw are there. -/
structure OrderLines (W : Nat) (s : Store Key (Value F)) : Prop where
  customer : ∀ w d c, IsDistrict W w d → 1 ≤ c ∧ c ≤ 3000 → s (customerKey w d c) ≠ none
  order : ∀ w d o, IsDistrict W w d → 1 ≤ o ∧ o ≤ 3000 → HasLines w d o s

theorem TablesLoaded.orderLines (h : TablesLoaded W s) : OrderLines W s := by
  constructor
  · intro w d c hd hc
    obtain ⟨row, hrow, _⟩ := h.customer hd hc
    simp [hrow]
  · intro w d o hd ho
    obtain ⟨row, hrow, _, count, _, lines⟩ := h.order hd ho
    exact ⟨row, hrow, count, lines⟩

/-- An order keeps its lines when its row keeps their number. -/
theorem HasLines.step {outcome : Outcome F} (h : HasLines w d o s)
    (step : Step id W s outcome s')
    (kept : ∀ row : OrderVal, s (orderKey w d o) = some (orderVal.encode row) →
      ∃ carrier, s' (orderKey w d o) = some (orderVal.encode { row with oCarrierId := carrier })) :
    HasLines w d o s' := by
  obtain ⟨row, hrow, count, lines⟩ := h
  obtain ⟨carrier, hrow'⟩ := kept row hrow
  exact ⟨_, hrow', count, fun l low high => step.grows (lines l low high)⟩

theorem OrderLines.step {outcome : Outcome F} (h : OrderLines W s) (ids : OrderIds W run s)
    (step : Step id W s outcome s') : OrderLines W s' := by
  constructor
  · exact fun w d c hd hc => step.grows (h.customer w d c hd hc)
  intro w d o hd ho
  apply (h.order w d o hd ho).step step
  intro row hrow
  cases outcome with
  | newOrder res =>
    -- The order that is placed has a number above 3000.
    have effect := step.newOrder
    have number := ids.number effect
    have ne : orderKey w d o ≠ orderKey res.warehouseId res.districtId res.myNextOId.toInt :=
      effect.orderKey_ne ids.small hd ⟨by omega, by omega⟩ (by omega) (by omega)
    exact ⟨row.oCarrierId, (effect.order_of_ne (by simp) ne).trans hrow⟩
  | delivery res => exact step.delivery.order_after (by simp) hrow
  | _ =>
    have order : SameOn .order s s' := step.sameOn (by simp [Outcome.tables])
    exact ⟨row.oCarrierId, (order _ (by simp)).trans hrow⟩

theorem Run.orderLines (reached : Reached id W run s) : OrderLines W s := by
  have both : OrderIds W run s ∧ OrderLines W s := Run.invariant
    (I := fun run s => OrderIds W run s ∧ OrderLines W s)
    (fun s loaded => ⟨loaded.tables.orderIds, loaded.tables.orderLines⟩)
    (fun run s outcome s' h step => ⟨h.1.step step, h.2.step h.1 step⟩) reached
  exact both.2

/-- What a program that only reads, and finds every row that it reads, is asked. -/
def findsAll (F : Type) : Contract Key (Value F) Key where
  addr := id
  mayGet _ _ v := v ≠ none
  mayPut _ _ := False
  mayStick := False

/-- What `OrderStatus` has found. -/
structure OrderStatusResult.Found (res : OrderStatusResult F) (W : Nat)
    (s : Store Key (Value F)) : Prop where
  district : IsDistrict W res.warehouseId res.districtId
  customer : 1 ≤ res.customerId ∧ res.customerId ≤ 3000 ∧
    s (customerKey res.warehouseId res.districtId res.customerId) ≠ none
  order : 1 ≤ res.orderId ∧ res.orderId ≤ 3000 ∧
    s (orderKey res.warehouseId res.districtId res.orderId) = some (orderVal.encode res.order)
  count : 5 ≤ res.order.oOlCnt.toInt ∧ res.order.oOlCnt.toInt ≤ 15
  lines : ∀ l : Int, 1 ≤ l → l ≤ res.order.oOlCnt.toInt →
    s (orderLineKey res.warehouseId res.districtId res.orderId l) ≠ none
  iterations : (res.lines.length : Int) = res.order.oOlCnt.toInt

omit [Amount F] in
theorem wp_orderStatus {ρ : Type} {env : Env ρ} {t : Thread ρ} (h : OrderLines W s)
    (two : 2 ≤ W) : Act.wp (findsAll F).logic (orderStatus env W)
      (fun res _ s' => res.Found W s ∧ s' = s) t s := by
  simp only [orderStatus, Act.wp_bind, Act.wp_pure]
  refine wp_randomNumber (.inr (by decide)) fun y t _ _ => ?_
  refine wp_pickWarehouseId (.inr two) fun w t hw hw' => ?_
  refine wp_randomNumber (.inr (by decide)) fun d t hd hd' => wp_statusCustomer fun c t hc hc' => ?_
  have district : IsDistrict W w d := ⟨⟨hw, hw'.le⟩, hd, hd'⟩
  have customer := h.customer w d c district ⟨hc, hc'⟩
  refine wp_uninit fun cust t => wp_getRecord ⟨customer, fun _ cust t _ => ?_⟩
  refine wp_randomNumber (.inr (by decide)) fun o t ho ho' => wp_uninit fun order t => ?_
  obtain ⟨row, hrow, count, lines⟩ := h.order w d o district ⟨ho, ho'⟩
  apply wp_getRecord_row hrow (Option.some_ne_none _)
  intro t
  dsimp only
  refine Act.wp_mono (Act.wp_forRange (fun l lines _ s' => lines.length + 1 = l ∧ s' = s) ?_
    ⟨rfl, rfl⟩) ?_
  · rintro l read t _ low high ⟨length, rfl⟩
    simp only [statusLine, Act.wp_bind, Act.wp_pure]
    have line := lines l (by omega) (by omega)
    refine wp_uninit fun val t => wp_getRecord ⟨line, fun _ val t _ => ⟨?_, rfl⟩⟩
    simp only [List.length_append, List.length_singleton]
    omega
  · rintro read t _ ⟨length, rfl⟩
    exact ⟨⟨district, ⟨hc, hc', customer⟩, ⟨ho, ho', hrow⟩, count,
      lines, by dsimp only; omega⟩, rfl⟩

/-- In every state that a client reaches, `OrderStatus` finds every row that it reads, and returns
after at most 15 lines. -/
theorem orderStatus_finds_all {ρ : Type} (env : Env ρ) (t : Thread ρ) (two : 2 ≤ W)
    (reached : Reached id W run s) :
    (∀ k n v, Event.get k n v ∈ Act.accesses id (orderStatus env W) t s → v ≠ none) ∧
      ∃ res t', Act.Returns id (orderStatus env W) t s res t' s ∧ res.Found W s ∧
        res.lines.length ≤ 15 := by
  have wp : Act.wp (findsAll F).logic (orderStatus env W) (fun res _ s' => res.Found W s ∧ s' = s)
      t s := wp_orderStatus (Run.orderLines reached) two
  obtain ⟨res, t', s', returns, found, rfl⟩ := Act.returns_of_wp wp id
  have iterations := found.iterations
  have count := found.count
  exact ⟨fun k n v access => Act.wp_accesses wp _ access, res, t', returns, found, by omega⟩

theorem orderStatus_finds_all_orders : ∃ (run : List (Outcome ℚ)) (s : Store Key (Value ℚ)),
    Reached id 2 run s ∧ run.length = 2 ∧
      (∀ k n v, Event.get k n v ∈ Act.accesses id (orderStatus sampleEnv 2) sampleThread s →
        v ≠ none) ∧
      ∃ res t', Act.Returns id (orderStatus sampleEnv 2) sampleThread s res t' s := by
  obtain ⟨run, s, reached, length, _⟩ := exists_orders 2 (by norm_num)
  obtain ⟨found, res, t', returns, _⟩ :=
    orderStatus_finds_all sampleEnv sampleThread le_rfl reached
  exact ⟨run, s, reached, length, found, res, t', returns⟩

end Tpcc
