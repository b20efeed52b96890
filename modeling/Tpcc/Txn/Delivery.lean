import Tpcc.Txn.NewOrder

/-! `TPCCTxn::Delivery`. -/

namespace Tpcc

open KvProgram Layout

/-- An order that `Delivery` has processed: its customer, and the amount added to the customer's
balance. -/
structure DeliveredOrder (F : Type) where
  districtId : Nat
  oId : Int
  customerId : Int32
  sumOlAmount : F

structure DeliveryResult (F : Type) where
  warehouseId : Int
  oCarrierId : Int
  orders : List (DeliveredOrder F)

section

variable {ρ F : Type} [FloatRep F] [DecidableEq F] [Amount F] (env : Env ρ)

/-- The carrier is entered in the order, whose customer is returned. -/
def deliverOrder (warehouseId : Int) (dId : Nat) (oId oCarrierId : Int) :
    Act (Thread ρ) Key (Value F) Int32 := do
  let norder ← uninit env newOrderVal
  let _ ← getRecord env newOrderVal (newOrderKey warehouseId dId oId) norder
  let order ← uninit env orderVal
  let (_, order) ← getRecord env orderVal (orderKey warehouseId dId oId) order
  let _ ← putRecord orderVal (orderKey warehouseId dId oId)
    { order with oCarrierId := Int32.ofInt oCarrierId }
  return order.oCId

/-- All 15 lines that an order can have are dated, those that it does not have too. -/
def deliverLine (warehouseId : Int) (dId : Nat) (oId : Int) (currentTs : UInt32) (lineNumber : Nat)
    (sumOlAmount : F) : Act (Thread ρ) Key (Value F) F := do
  let line ← uninit env orderLineVal
  let (_, line) ← getRecord env orderLineVal (orderLineKey warehouseId dId oId lineNumber) line
  let _ ← putRecord orderLineVal (orderLineKey warehouseId dId oId lineNumber)
    { line with olDeliveryD := currentTs }
  return sumOlAmount + line.olAmount

def deliverCustomer (warehouseId : Int) (dId : Nat) (customerId : Int32) (sumOlAmount : F) :
    Act (Thread ρ) Key (Value F) Unit := do
  let cust ← uninit env customerVal
  let (_, cust) ← getRecord env customerVal (customerKey warehouseId dId customerId.toInt) cust
  let cDeliveryCnt ← .ofOption (addInt32 cust.cDeliveryCnt 1)
  let _ ← putRecord customerVal (customerKey warehouseId dId customerId.toInt)
    { cust with cBalance := cust.cBalance + sumOlAmount, cDeliveryCnt }

/-- The delivery of one order of a district, drawn among those that the loader does not deliver. -/
def deliverDistrict (warehouseId oCarrierId : Int) (currentTs : UInt32) (dId : Nat)
    (orders : List (DeliveredOrder F)) :
    Act (Thread ρ) Key (Value F) (List (DeliveredOrder F)) := do
  let oId ← randomNumber env (numDelivered + 1 : Nat) numCustomerPerDistrict
  let customerId ← deliverOrder env warehouseId dId oId oCarrierId
  let sumOlAmount ← .forRange (deliverLine env warehouseId dId oId currentTs) 1 15 (Amount.ofInt 0)
  deliverCustomer env warehouseId dId customerId sumOlAmount
  return orders ++ [{ districtId := dId, oId, customerId, sumOlAmount }]

def delivery (W : Nat) : Act (Thread ρ) Key (Value F) (DeliveryResult F) := do
  let warehouseId ← pickWarehouseId env 1 W
  let oCarrierId ← randomNumber env 1 10
  let currentTs ← getCurrentTimeMillis
  let orders ← .forRange (deliverDistrict env warehouseId oCarrierId currentTs) 1
    numDistrictPerWarehouse []
  return { warehouseId, oCarrierId, orders }

end

/-! ### What a delivery writes -/

section Effect

variable {ρ F κ : Type} [FloatRep F] [DecidableEq F] [Amount F] [DecidableEq κ]

/-- The lines of an order that are read and dated one after another, line `i`, from 0, at
`key i`. -/
inductive DatedLines (addr : Key → κ) (key : Nat → Key) (currentTs : UInt32)
    (s : Store κ (Value F)) : List (OrderLineVal F) → Store κ (Value F) → Prop
  | nil : DatedLines addr key currentTs s [] s
  | snoc {lines s' old status line} : DatedLines addr key currentTs s lines s' →
      Reads orderLineVal (s' (addr (key lines.length))) old status line →
      DatedLines addr key currentTs s (lines ++ [line]) (s'.put (addr (key lines.length))
        (orderLineVal.encode { line with olDeliveryD := currentTs }))

def sumAmounts (lines : List (OrderLineVal F)) : F :=
  lines.foldl (fun sum line => sum + line.olAmount) (Amount.ofInt 0)

/-- What the delivery of one order reads and writes. -/
structure DeliveredOrder.Effect (x : DeliveredOrder F) (addr : Key → κ) (w carrier : Int)
    (currentTs : UInt32) (s s' : Store κ (Value F)) : Prop where
  order : 2101 ≤ x.oId ∧ x.oId ≤ 3000
  writes : ∃ old status row lines s1 old' status' cust count,
    Reads orderVal (s (addr (orderKey w x.districtId x.oId))) old status row ∧
    x.customerId = row.oCId ∧
    DatedLines addr (fun i => orderLineKey w x.districtId x.oId (i + 1 : Nat)) currentTs
      (s.put (addr (orderKey w x.districtId x.oId))
        (orderVal.encode { row with oCarrierId := Int32.ofInt carrier })) lines s1 ∧
    lines.length = 15 ∧ x.sumOlAmount = sumAmounts lines ∧
    Reads customerVal (s1 (addr (customerKey w x.districtId x.customerId.toInt))) old' status'
      cust ∧
    addInt32 cust.cDeliveryCnt 1 = some count ∧
    s' = s1.put (addr (customerKey w x.districtId x.customerId.toInt)) (customerVal.encode
      { cust with cBalance := cust.cBalance + x.sumOlAmount, cDeliveryCnt := count })

/-- The deliveries of the districts, one after another. -/
inductive Deliveries (addr : Key → κ) (w carrier : Int) (currentTs : UInt32)
    (s : Store κ (Value F)) : List (DeliveredOrder F) → Store κ (Value F) → Prop
  | nil : Deliveries addr w carrier currentTs s [] s
  | snoc {orders x s1 s2} : Deliveries addr w carrier currentTs s orders s1 →
      x.districtId = orders.length + 1 → x.Effect addr w carrier currentTs s1 s2 →
      Deliveries addr w carrier currentTs s (orders ++ [x]) s2

/-- The deliveries keep what the delivery of each order keeps. -/
theorem Deliveries.keeps {addr : Key → κ} {w carrier : Int} {currentTs : UInt32}
    {s s' : Store κ (Value F)} {orders : List (DeliveredOrder F)} {R : Store κ (Value F) → Prop}
    (h : Deliveries addr w carrier currentTs s orders s')
    (step : ∀ (x : DeliveredOrder F) s s', 1 ≤ x.districtId → x.districtId ≤ orders.length →
      x.Effect addr w carrier currentTs s s' → R s → R s') (init : R s) : R s' := by
  induction h with
  | nil => exact init
  | @snoc orders x s1 s2 _ district effect ih =>
    rw [List.length_append, List.length_singleton] at step
    exact step x s1 s2 (by omega) (by omega) effect
      (ih fun y s s' low high => step y s s' low (by omega))

/-- What a `Delivery` that returns has drawn, read and written. -/
structure DeliveryResult.Effect (res : DeliveryResult F) (addr : Key → κ) (W : Nat)
    (s s' : Store κ (Value F)) : Prop where
  warehouse : 1 ≤ res.warehouseId ∧ res.warehouseId < W
  carrier : 1 ≤ res.oCarrierId ∧ res.oCarrierId ≤ 10
  districts : res.orders.length = 10
  deliveries : ∃ currentTs, Deliveries addr res.warehouseId res.oCarrierId currentTs s res.orders s'

variable {env : Env ρ} {addr : Key → κ} {W : Nat} {t : Thread ρ} {s : Store κ (Value F)}

theorem wp_deliverLines {w : Int} {d : Nat} {o : Int} {currentTs : UInt32}
    {Q : F → Thread ρ → Store κ (Value F) → Prop}
    (h : ∀ lines t s', DatedLines addr (fun i => orderLineKey w d o (i + 1 : Nat)) currentTs s lines
      s' → lines.length = 15 → Q (sumAmounts lines) t s') :
    Act.wp (Contract.partly (Value F) addr).logic
      (.forRange (deliverLine env w d o currentTs) 1 15 (Amount.ofInt 0)) Q t s := by
  refine Act.wp_mono (Act.wp_forRange (fun l sum _ s' => ∃ lines,
    DatedLines addr (fun i => orderLineKey w d o (i + 1 : Nat)) currentTs s lines s' ∧
      l = lines.length + 1 ∧ sum = sumAmounts lines) ?_ ⟨[], .nil, rfl, rfl⟩) ?_
  · rintro _ _ t s' - - ⟨lines, dated, rfl, rfl⟩
    simp only [deliverLine, Act.wp_bind, Act.wp_pure, wp_putRecord]
    refine wp_uninit fun old t => wp_getRecord ⟨trivial, fun status line t reads =>
      ⟨trivial, ?_⟩⟩
    exact ⟨lines ++ [line], dated.snoc reads, by simp, by simp [sumAmounts]⟩
  · rintro _ t s' ⟨lines, dated, count, rfl⟩
    exact h lines t s' dated (by omega)

theorem wp_deliverDistrict {w carrier : Int} {currentTs : UInt32} {d : Nat}
    {orders : List (DeliveredOrder F)}
    {Q : List (DeliveredOrder F) → Thread ρ → Store κ (Value F) → Prop}
    (h : ∀ (x : DeliveredOrder F) t s', x.districtId = d → x.Effect addr w carrier currentTs s s' →
      Q (orders ++ [x]) t s') :
    Act.wp (Contract.partly (Value F) addr).logic
      (deliverDistrict env w carrier currentTs d orders) Q t s := by
  simp only [deliverDistrict, deliverOrder, deliverCustomer, Act.wp_bind, Act.wp_pure,
    wp_putRecord]
  refine wp_randomNumber (.inl trivial) fun o t ho ho' => ?_
  refine wp_uninit fun norder t => wp_getRecord ⟨trivial, fun _ norder t _ => ?_⟩
  refine wp_uninit fun old t => wp_getRecord ⟨trivial, fun status row t reads =>
    ⟨trivial, ?_⟩⟩
  refine wp_deliverLines fun lines t s1 dated count => ?_
  refine wp_uninit fun old' t => wp_getRecord ⟨trivial, fun status' cust t readsC => ?_⟩
  refine Act.wp_ofOption (fun delivered hdelivered => ⟨trivial, ?_⟩) (.inl trivial)
  exact h ⟨d, o, row.oCId, sumAmounts lines⟩ t _ rfl ⟨⟨by exact_mod_cast ho, by exact_mod_cast ho'⟩,
    old, status, row, lines, s1, old', status', cust, delivered, reads, rfl, dated, count, rfl,
    readsC, hdelivered, rfl⟩

theorem delivery_effect {s' : Store κ (Value F)} {t' : Thread ρ} {res : DeliveryResult F}
    (returns : Act.Returns addr (delivery env W) t s res t' s') : res.Effect addr W s s' := by
  refine Act.wp_returns (C := Contract.partly (Value F) addr)
    (Q := fun res _ s' => res.Effect addr W s s') ?_ returns
  simp only [delivery, Act.wp_bind, Act.wp_pure]
  refine wp_pickWarehouseId (.inl trivial) fun w t hw hw' => ?_
  refine wp_randomNumber (.inl trivial) fun carrier t hc hc' => ?_
  refine wp_getCurrentTimeMillis fun currentTs t => ?_
  refine Act.wp_mono (Act.wp_forRange (fun d orders _ s' => d = orders.length + 1 ∧
    Deliveries addr w carrier currentTs s orders s') ?_ ⟨rfl, .nil⟩) ?_
  · rintro _ orders t s' - - ⟨rfl, deliveries⟩
    refine wp_deliverDistrict fun x t s'' district effect => ?_
    exact ⟨by simp, deliveries.snoc district effect⟩
  · rintro orders t s' ⟨count, deliveries⟩
    have districts : 1 + 10 = orders.length + 1 := count
    exact ⟨⟨hw, hw'⟩, ⟨hc, hc'⟩, by show orders.length = 10; omega, currentTs, deliveries⟩

end Effect

end Tpcc
