import Tpcc.Consistency.OrderIds
import Tpcc.CustomerData
import Tpcc.DeliveryRows

/-! The orders that wait for their delivery.  An order without a carrier should have a new-order
row, and an order with one should have none.  A delivery enters the carrier and leaves the new-order
row where it is, and the line of a local stock is put over the row of the order; an order that
either has befallen never becomes right again. -/

namespace Tpcc

open KvProgram Layout

variable {F : Type} [FloatRep F] [DecidableEq F] [Amount F] {W : Nat}
  {s s' : Store Key (Value F)} {run : List (Outcome F)} {w d o : Int}

/-- An order row has the carrier 0 exactly when there is a new-order row. -/
def OpenOrders (W : Nat) (s : Store Key (Value F)) : Prop :=
  ∀ w d o, IsDistrict W w d → IsInt32 o → ∀ v, s (orderKey w d o) = some v →
    ((orderVal.decode v).oCarrierId = 0 ↔ s (newOrderKey w d o) ≠ none)

/-- The orders that a transaction has delivered: warehouse, district and number. -/
def Outcome.delivered : Outcome F → List (Int × Nat × Int)
  | .delivery res => res.orders.map fun x => (res.warehouseId, x.districtId, x.oId)
  | _ => []

/-- No order has been delivered twice. -/
def DeliveredOnce (run : List (Outcome F)) : Prop := (run.flatMap Outcome.delivered).Nodup

/-- A transaction that delivers no order, and places no order with a local line. -/
def Outcome.KeepsOpen : Outcome F → Prop
  | .newOrder res => res.selection.locals = []
  | .delivery _ => False
  | _ => True

/-- An order with a carrier, and a new-order row. -/
def HasClash (W : Nat) (s : Store Key (Value F)) : Prop :=
  ∃ w d o v, IsDistrict W w d ∧ IsInt32 o ∧ s (orderKey w d o) = some v ∧
    (orderVal.decode v).oCarrierId ≠ 0 ∧ s (newOrderKey w d o) ≠ none

omit [DecidableEq F] [Amount F] in
theorem HasClash.not_openOrders (h : HasClash W s) : ¬OpenOrders W s := by
  obtain ⟨w, d, o, v, hd, ho, hv, carrier, new⟩ := h
  exact fun all => carrier ((all w d o hd ho v hv).mpr new)

theorem TablesLoaded.openOrders (h : TablesLoaded W s) : OpenOrders W s := by
  intro w d o hd ho v hv
  have present : s (orderKey w d o) ≠ none := by simp [hv]
  have range := h.order_range hd ho present
  obtain ⟨row, hrow, carrier, _⟩ := h.order hd range
  obtain rfl := Option.some.inj (hv.symm.trans hrow)
  rw [Codec.decode_encode_self, carrier, h.newOrder_iff hd ho]
  omega

/-! ### Steps that keep the orders right -/

omit [Amount F] in
/-- A new order without a local line. -/
theorem OpenOrders.newOrder_step {res : NewOrderResult} (h : OpenOrders W s)
    (ids : OrderIds W run s) (effect : res.Effect id W s s')
    (remote : res.selection.locals = []) : OpenOrders W s' := by
  intro w d o hd ho v hv
  have number := ids.number effect
  have positive : 0 ≤ res.myNextOId.toInt := by omega
  rw [effect.newOrder_iff ids.small hd ho positive]
  by_cases own : res.At w d ∧ o = res.myNextOId.toInt
  · obtain ⟨⟨rfl, rfl⟩, rfl⟩ := own
    obtain ⟨order, isOrder, same⟩ := effect.orderRow remote
    obtain rfl := Option.some.inj (hv.symm.trans (same.row rfl))
    rw [Codec.decode_encode_self]
    exact iff_of_true isOrder.carrier (.inr ⟨⟨rfl, rfl⟩, rfl⟩)
  · have kept := effect.order_of_ne (by simp) (effect.orderKey_ne ids.small hd ho positive own)
    rw [kept] at hv
    rw [h w d o hd ho v hv]
    exact ⟨.inl, fun row => row.resolve_right own⟩

omit [DecidableEq F] [Amount F] in
theorem OpenOrders.keep (h : OpenOrders W s) (order : SameOn .order s s')
    (newOrder : SameOn .newOrder s s') : OpenOrders W s' := by
  intro w d o hd ho v hv
  rw [order _ (by simp)] at hv
  rw [newOrder _ (by simp)]
  exact h w d o hd ho v hv

theorem OpenOrders.step {outcome : Outcome F} (h : OpenOrders W s) (ids : OrderIds W run s)
    (step : Step id W s outcome s') (keeps : outcome.KeepsOpen) : OpenOrders W s' := by
  cases outcome with
  | newOrder res => exact h.newOrder_step ids step.newOrder keeps
  | delivery res => exact keeps.elim
  | _ =>
    exact h.keep (step.sameOn (by simp [Outcome.tables])) (step.sameOn (by simp [Outcome.tables]))

/-! ### Steps that break them -/

omit [Amount F] in
/-- Where a layout of orders has the carrier, the row of a line has the supplying warehouse. -/
theorem carrier_of_line (line : OrderLineVal F) :
    (orderVal.decode (orderLineVal.encode line)).oCarrierId = line.olSupplyWId := by
  simp [orderVal, orderLineVal, Codec.seq, Codec.iso]

omit [Amount F] in
/-- After an order with a local line, a line is where the row of the order should be. -/
theorem NewOrderResult.Effect.orderRow_local {res : NewOrderResult} (h : res.Effect id W s s')
    (isLocal : res.selection.locals ≠ []) : ∃ line : OrderLineVal F,
      s' (orderKey res.warehouseId res.districtId res.myNextOId.toInt) =
        some (orderLineVal.encode line) ∧ line.olSupplyWId = Int32.ofInt res.warehouseId := by
  obtain ⟨_, _, dist, next, norder, order, writes, _, _, _, _, lines, rfl⟩ := h.writes
  have more : 0 < res.selection.locals.length := List.length_pos_iff.mpr isLocal
  have chosen := congrArg List.length h.lines
  rw [List.length_map, List.length_append] at chosen
  have at_0 : res.lines[0]? = some res.lines[0] := List.getElem?_eq_getElem (by omega)
  obtain ⟨before, first, rest, _, split, _⟩ := lines.split at_0
  have hit : ∃ x ∈ writes,
      id x.1 = orderKey res.warehouseId res.districtId res.myNextOId.toInt := by
    refine ⟨(res.lineKey 0, orderLineVal.encode first), by simp [split], ?_⟩
    rw [NewOrderResult.lineKey, if_pos more, id]
  obtain ⟨w, hw, same, value⟩ := Store.puts_hit (s := s.puts id
    (res.rowWrites { dist with dNextOId := next } norder order)) hit
  rw [Store.puts_append, value]
  obtain ⟨i, stock, quantity, at_i, write⟩ := lines.mem hw
  rcases write with ⟨row, rfl⟩ | ⟨line, isLine, rfl⟩
  · exact absurd (congrArg Key.table same) (by simp [ChosenStock.key])
  · refine ⟨line, rfl, ?_⟩
    rcases lineKey_eq res i with ⟨_, hi⟩ | table
    · have chosen : (res.selection.locals ++ res.selection.remotes)[i]? = some stock := by
        rw [← h.lines, List.getElem?_map, at_i]
        rfl
      rw [List.getElem?_append_left hi] at chosen
      rw [isLine.supply, h.selection.supplies stock (List.mem_of_getElem? chosen)]
    · rw [show res.lineKey i = _ from same] at table
      exact absurd table (by simp)

theorem ofInt_ne_zero {n : Int} (positive : 0 < n) (small : n < 2 ^ 31) : Int32.ofInt n ≠ 0 := by
  intro zero
  have same := congrArg Int32.toInt zero
  rw [Int32.toInt_ofInt_of_le (by omega) small] at same
  have : (0 : Int32).toInt = 0 := rfl
  omega

omit [Amount F] in
theorem NewOrderResult.Effect.hasClash {res : NewOrderResult} (h : res.Effect id W s s')
    (ids : OrderIds W run s) (isLocal : res.selection.locals ≠ []) : HasClash W s' := by
  obtain ⟨line, hline, supply⟩ := h.orderRow_local isLocal
  have number := ids.number h
  have small := ids.small
  have int32 := isInt32_toInt res.myNextOId
  obtain ⟨hw, hd⟩ := h.isDistrict
  refine ⟨_, _, _, _, h.isDistrict, int32, hline, ?_, ?_⟩
  · rw [carrier_of_line, supply]
    exact ofInt_ne_zero (by omega) (by omega)
  · exact (h.newOrder_iff small h.isDistrict int32 (by omega)).mpr (.inr ⟨⟨rfl, rfl⟩, rfl⟩)

/-- The last district of a delivery has an order with a carrier and a new-order row. -/
theorem DeliveryResult.Effect.hasClash {res : DeliveryResult F} (h : res.Effect id W s s')
    (ids : OrderIds W (.delivery res :: run) s') : HasClash W s' := by
  obtain ⟨currentTs, deliveries⟩ := h.deliveries
  have districts := h.districts
  have warehouse := h.warehouse
  have carrier := h.carrier
  generalize res.orders = orders at deliveries districts
  cases deliveries with
  | nil => simp at districts
  | @snoc orders x s1 s2 _ district effect =>
    rw [List.length_append, List.length_singleton] at districts
    obtain ⟨old, status, row, _, same⟩ := effect.orderRow
    have drawn := effect.order
    have hd : IsDistrict W res.warehouseId x.districtId := ⟨by omega, by omega⟩
    have int32 : IsInt32 x.oId := ⟨by omega, by omega⟩
    refine ⟨_, _, _, _, hd, int32, same.row rfl, ?_, ?_⟩
    · rw [Codec.decode_encode_self]
      exact ofInt_ne_zero (by omega) (by omega)
    · rw [ids.newOrder _ _ _ hd int32]
      omega

theorem Outcome.hasClash {outcome : Outcome F} (ids : OrderIds W run s)
    (step : Step id W s outcome s') (breaks : ¬outcome.KeepsOpen) : HasClash W s' := by
  cases outcome with
  | newOrder res => exact step.newOrder.hasClash ids breaks
  | delivery res => exact step.delivery.hasClash (ids.step step)
  | _ => exact absurd trivial breaks

/-- An order with a carrier keeps one in a delivery. -/
theorem DeliveryResult.Effect.carrier_after {res : DeliveryResult F} (h : res.Effect id W s s')
    {k : Key} (table : k.table = .order) {v : Value F} (hv : s k = some v)
    (carrier : (orderVal.decode v).oCarrierId ≠ 0) :
    ∃ v, s' k = some v ∧ (orderVal.decode v).oCarrierId ≠ 0 := by
  obtain ⟨currentTs, deliveries⟩ := h.deliveries
  have range := h.carrier
  refine deliveries.keeps
    (R := fun s => ∃ v, s k = some v ∧ (orderVal.decode v).oCarrierId ≠ 0) ?_ ⟨v, hv, carrier⟩
  intro x s1 s2 _ _ delivered before
  obtain ⟨old, status, row, _, same⟩ := delivered.orderRow
  by_cases own : k = orderKey res.warehouseId x.districtId x.oId
  · subst own
    refine ⟨_, same.row rfl, ?_⟩
    rw [Codec.decode_encode_self]
    exact ofInt_ne_zero (by omega) (by omega)
  · rw [same.row_of_ne table own]
    exact before

/-- An order that is wrong stays so: only deliveries write its row, and they enter a carrier. -/
theorem HasClash.step {outcome : Outcome F} (h : HasClash W s) (ids : OrderIds W run s)
    (step : Step id W s outcome s') : HasClash W s' := by
  obtain ⟨w, d, o, v, hd, ho, hv, carrier, new⟩ := h
  have new' := step.grows new
  have present : s (orderKey w d o) ≠ none := by simp [hv]
  cases outcome with
  | newOrder res =>
    have effect := step.newOrder
    have number := ids.number effect
    have range := (ids.order w d o hd ho).mp present
    have other : ¬(res.At w d ∧ o = res.myNextOId.toInt) := by
      rintro ⟨⟨rfl, rfl⟩, same⟩
      omega
    have kept := effect.order_of_ne (by simp)
      (effect.orderKey_ne ids.small hd ho (by omega) other)
    exact ⟨w, d, o, v, hd, ho, kept.trans hv, carrier, new'⟩
  | delivery res =>
    obtain ⟨v', hv', carrier'⟩ := step.delivery.carrier_after (by simp) hv carrier
    exact ⟨w, d, o, v', hd, ho, hv', carrier', new'⟩
  | _ =>
    have order : SameOn .order s s' := step.sameOn (by simp [Outcome.tables])
    exact ⟨w, d, o, v, hd, ho, (order _ (by simp)).trans hv, carrier, new'⟩

/-! ### Runs -/

/-- The orders after a run: right as long as every transaction has kept them so. -/
structure RunOrders (W : Nat) (run : List (Outcome F)) (s : Store Key (Value F)) : Prop where
  ids : OrderIds W run s
  kept : (∀ outcome ∈ run, outcome.KeepsOpen) → OpenOrders W s
  broken : (∃ outcome ∈ run, ¬outcome.KeepsOpen) → HasClash W s

theorem RunOrders.step {outcome : Outcome F} (h : RunOrders W run s)
    (step : Step id W s outcome s') : RunOrders W (outcome :: run) s' := by
  constructor
  · exact h.ids.step step
  · intro all
    rw [List.forall_mem_cons] at all
    exact (h.kept all.2).step h.ids step all.1
  · rintro ⟨x, hx, breaks⟩
    rcases List.mem_cons.mp hx with rfl | before
    · exact Outcome.hasClash h.ids step breaks
    · exact (h.broken ⟨x, before, breaks⟩).step h.ids step

theorem Run.orders (reached : Reached id W run s) : RunOrders W run s := by
  refine Run.invariant (fun s loaded => ?_) (fun _ _ _ _ h step => h.step step) reached
  have tables := loaded.tables
  exact ⟨tables.orderIds, fun _ => tables.openOrders, by simp⟩

/-- The orders are right, and none has been delivered twice, exactly when the run has had no
delivery and no order with a local line. -/
theorem openOrders_iff (reached : Reached id W run s) :
    OpenOrders W s ∧ DeliveredOnce run ↔ ∀ outcome ∈ run, outcome.KeepsOpen := by
  have orders := Run.orders reached
  constructor
  · rintro ⟨all, _⟩ outcome hmem
    by_contra breaks
    exact (orders.broken ⟨outcome, hmem, breaks⟩).not_openOrders all
  · intro keeps
    refine ⟨orders.kept keeps, ?_⟩
    have empty : run.flatMap Outcome.delivered = [] := by
      rw [List.flatMap_eq_nil_iff]
      intro outcome hmem
      cases outcome with
      | delivery res => exact (keeps _ hmem).elim
      | _ => rfl
    rw [DeliveredOnce, empty]
    exact List.nodup_nil

/-! ### A delivery from the loaded tables -/

theorem TablesLoaded.deliverable (h : TablesLoaded W s) (hw : 1 ≤ w ∧ w ≤ W) : Deliverable w s := by
  intro d o hd ho
  obtain ⟨row, hrow, _, _, payer, _⟩ := h.order (o := o) ⟨hw, hd⟩ (by omega)
  obtain ⟨cust, hcust, delivered, _⟩ := h.customer ⟨hw, hd⟩ payer
  exact ⟨row, cust, hrow, ⟨by omega, by omega⟩, hcust, by rw [delivered]; exact ⟨1, by decide⟩⟩

theorem openOrders_iff_payment : ∃ s : Store Key (Value ℚ),
    Reached id 2 [.payment samplePayment] s ∧ OpenOrders 2 s := by
  obtain ⟨s, reached⟩ := exists_payment
  exact ⟨s, reached, ((openOrders_iff reached).mpr (by simp [Outcome.KeepsOpen])).1⟩

/-- The first delivery leaves an order with a carrier and a new-order row. -/
theorem delivery_breaks_openOrders :
    ¬∀ (W : Nat) (run : List (Outcome ℚ)) (s : Store Key (Value ℚ)), 2 ≤ W → Reached id W run s →
      OpenOrders W s ∧ DeliveredOnce run := by
  intro claim
  obtain ⟨s, loaded⟩ := exists_loaded id (W := 2) (by norm_num)
  obtain ⟨res, t', s', returns⟩ : ∃ res t' s',
      Act.Returns id (delivery Env.counting 2) ⟨0, 0⟩ s res t' s' :=
    delivery_returns (fun w hw => loaded.tables.deliverable ⟨hw.1, hw.2.le⟩) le_rfl
  have step : Step id 2 s (.delivery res) s' :=
    ⟨Nat, Env.counting, .delivery, ⟨0, 0⟩, t', Act.returns_bind.mpr
      ⟨res, t', s', returns, Act.returns_pure.mpr ⟨rfl, rfl, rfl⟩⟩⟩
  have reached : Reached id 2 [.delivery res] s' := .next (.start loaded) step
  have keeps := Outcome.hasClash loaded.tables.orderIds step id
  exact keeps.not_openOrders (claim 2 _ s' le_rfl reached).1

end Tpcc
