import Tpcc.Txn.NewOrder

/-! `TPCCTxn::OrderStatus`. -/

namespace Tpcc

open KvProgram Layout

/-- The local variables of `OrderStatus`: the order that it has drawn and read, with the lines read
after it. -/
structure OrderStatusResult (F : Type) where
  warehouseId : Int
  districtId : Int
  customerId : Int
  orderId : Int
  order : OrderVal
  lines : List (OrderLineVal F)

section

variable {ρ F : Type} [FloatRep F] [DecidableEq F] [Amount F] (env : Env ρ)

def statusLine (warehouseId districtId orderId : Int) (i : Nat) (lines : List (OrderLineVal F)) :
    Act (Thread ρ) Key (Value F) (List (OrderLineVal F)) := do
  let line ← uninit env orderLineVal
  let (_, line) ← getRecord env orderLineVal (orderLineKey warehouseId districtId orderId i) line
  return lines ++ [line]

/-- The customer, drawn the same way for a request by last name and for one by identifier. -/
def statusCustomer {K V : Type} (y : Int) : Act (Thread ρ) K V Int :=
  if y ≤ 60 then getCustomerId env numCustomerPerDistrict
  else getCustomerId env numCustomerPerDistrict

def orderStatus (W : Nat) : Act (Thread ρ) Key (Value F) (OrderStatusResult F) := do
  let y ← randomNumber env 1 100
  let warehouseId ← pickWarehouseId env 1 W
  let districtId ← randomNumber env 1 numDistrictPerWarehouse
  let customerId ← statusCustomer env y
  let cust ← uninit env customerVal
  let _ ← getRecord env customerVal (customerKey warehouseId districtId customerId) cust
  let orderId ← randomNumber env 1 numCustomerPerDistrict
  let order ← uninit env orderVal
  let (_, order) ← getRecord env orderVal (orderKey warehouseId districtId orderId) order
  let lines ← .forRange (statusLine env warehouseId districtId orderId) 1
    order.oOlCnt.toInt.toNat []
  return { warehouseId, districtId, customerId, orderId, order, lines }

end

section Effect

variable {ρ F κ : Type} [FloatRep F] [DecidableEq F] [DecidableEq κ] {env : Env ρ}
  {addr : Key → κ} {W : Nat} {t t' : Thread ρ} {s s' : Store κ (Value F)}

theorem wp_statusCustomer {K V S : Type} {L : Logic K V S} {y : Int} {s : S}
    {Q : Int → Thread ρ → S → Prop} (h : ∀ (c : Int) t, 1 ≤ c → c ≤ 3000 → Q c t s) :
    Act.wp L (statusCustomer env y) Q t s := by
  rw [statusCustomer, ite_self]
  exact wp_getCustomerId (.inr (by decide)) h

/-- `OrderStatus` only reads. -/
theorem orderStatus_effect {res : OrderStatusResult F}
    (returns : Act.Returns addr (orderStatus env W) t s res t' s') : s' = s := by
  refine Act.wp_returns (C := Contract.partly (Value F) addr) (Q := fun _ _ s' => s' = s) ?_ returns
  simp only [orderStatus, Act.wp_bind, Act.wp_pure]
  refine wp_randomNumber (.inl trivial) fun y t _ _ => ?_
  refine wp_pickWarehouseId (.inl trivial) fun w t _ _ => ?_
  refine wp_randomNumber (.inl trivial) fun d t _ _ => wp_statusCustomer fun c t _ _ => ?_
  refine wp_uninit fun cust t => wp_getRecord ⟨trivial, fun _ cust t _ => ?_⟩
  refine wp_randomNumber (.inl trivial) fun o t _ _ => ?_
  refine wp_uninit fun order t => wp_getRecord ⟨trivial, fun _ order t _ => ?_⟩
  refine Act.wp_forRange (fun _ _ _ s' => s' = s) ?_ rfl
  rintro i lines t _ - - rfl
  simp only [statusLine, Act.wp_bind, Act.wp_pure]
  exact wp_uninit fun line t => wp_getRecord ⟨trivial, fun _ line t _ => rfl⟩

end Effect

end Tpcc
