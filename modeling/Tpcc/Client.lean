import Tpcc.Loaded
import Tpcc.Txn.Delivery
import Tpcc.Txn.OrderStatus
import Tpcc.Txn.Payment
import Tpcc.Txn.StockLevel

/-! A client: the five transactions that `RunTPCC` chooses from, and its runs from the tables that
`LoadTables` has filled.  A step is a transaction of any type that returns, with any draws; a run
is addressed by `Key.itemKey` when all tables share one store, as in the source, and by `id` when
each table is taken as its own map. -/

namespace Tpcc

open KvProgram Layout

/-- `TPCCTxType`. -/
inductive TxType where
  | newOrder | payment | delivery | orderStatus | stockLevel
  deriving DecidableEq

/-- A transaction that has returned. -/
inductive Outcome (F : Type) where
  | newOrder (res : NewOrderResult)
  | payment (res : PaymentResult F)
  | delivery (res : DeliveryResult F)
  | orderStatus (res : OrderStatusResult F)
  | stockLevel (res : StockLevelResult)

section

variable {F κ : Type} [FloatRep F] [DecidableEq F] [Amount F] [DecidableEq κ]

def transaction {ρ : Type} (env : Env ρ) (W : Nat) :
    TxType → Act (Thread ρ) Key (Value F) (Outcome F)
  | .newOrder => do return .newOrder (← newOrder env W)
  | .payment => do return .payment (← payment env W)
  | .delivery => do return .delivery (← delivery env W)
  | .orderStatus => do return .orderStatus (← orderStatus env W)
  | .stockLevel => do return .stockLevel (← stockLevel env W)

/-- A transaction that runs alone, with any draws. -/
def Step (addr : Key → κ) (W : Nat) (s : Store κ (Value F)) (outcome : Outcome F)
    (s' : Store κ (Value F)) : Prop :=
  ∃ (ρ : Type) (env : Env ρ) (type : TxType) (t t' : Thread ρ),
    Act.Returns addr (transaction env W type) t s outcome t' s'

/-- The store after `LoadTables`, with any draws. -/
def Loaded (addr : Key → κ) (W : Nat) (s : Store κ (Value F)) : Prop :=
  ∃ (ρ : Type) (env : Env ρ) (t t' : Thread ρ),
    Act.Returns addr (loadTables env W) t (fun _ => none) () t' s

/-- The runs of a client from the loaded tables. -/
abbrev Reached (addr : Key → κ) (W : Nat) : List (Outcome F) → Store κ (Value F) → Prop :=
  Run (Loaded addr W) (Step addr W)

/-- What a transaction has drawn, read and written. -/
def Outcome.Effect (addr : Key → κ) (W : Nat) (s s' : Store κ (Value F)) : Outcome F → Prop
  | .newOrder res => res.Effect addr W s s'
  | .payment res => res.Effect addr W s s'
  | .delivery res => res.Effect addr W s s'
  | .orderStatus _ => s' = s
  | .stockLevel _ => s' = s

theorem step_effect {addr : Key → κ} {W : Nat} {s s' : Store κ (Value F)} {outcome : Outcome F}
    (step : Step addr W s outcome s') : outcome.Effect addr W s s' := by
  obtain ⟨ρ, env, type, t, t', returns⟩ := step
  cases type <;> obtain ⟨res, t1, s1, first, rest⟩ := Act.returns_bind.mp returns <;>
    obtain ⟨rfl, rfl, rfl⟩ := Act.returns_pure.mp rest
  case newOrder => exact newOrder_effect first
  case payment => exact payment_effect first
  case delivery => exact delivery_effect first
  case orderStatus => exact orderStatus_effect first
  case stockLevel => exact stockLevel_effect first

section Step

variable {addr : Key → κ} {W : Nat} {s s' : Store κ (Value F)}

/-- An order that has been placed is that of a `NewOrder` that has returned. -/
theorem Step.newOrder_returns {res : NewOrderResult} (step : Step addr W s (.newOrder res) s') :
    ∃ (ρ : Type) (env : Env ρ) (t t' : Thread ρ),
      Act.Returns addr (Tpcc.newOrder env W) t s res t' s' := by
  obtain ⟨ρ, env, type, t, t', returns⟩ := step
  cases type <;> obtain ⟨res, t1, s1, first, rest⟩ := Act.returns_bind.mp returns <;>
    obtain ⟨same, rfl, rfl⟩ := Act.returns_pure.mp rest <;> cases same
  exact ⟨ρ, env, t, t1, first⟩

theorem Step.newOrder {res : NewOrderResult} (step : Step addr W s (.newOrder res) s') :
    res.Effect addr W s s' := step_effect step

theorem Step.payment {res : PaymentResult F} (step : Step addr W s (.payment res) s') :
    res.Effect addr W s s' := step_effect step

theorem Step.delivery {res : DeliveryResult F} (step : Step addr W s (.delivery res) s') :
    res.Effect addr W s s' := step_effect step

end Step

/-- No address loses its value in a step. -/
theorem Step.grows {addr : Key → κ} {W : Nat} {s s' : Store κ (Value F)} {outcome : Outcome F}
    {x : κ} (step : Step addr W s outcome s') (h : s x ≠ none) : s' x ≠ none := by
  obtain ⟨ρ, env, type, t, t', returns⟩ := step
  exact returns.grows h

end

end Tpcc
