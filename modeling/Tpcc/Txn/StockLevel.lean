import Tpcc.Txn.NewOrder

/-! `TPCCTxn::StockLevel`. -/

namespace Tpcc

open KvProgram Layout

structure StockLevelResult where
  threshold : Int
  warehouseId : Int
  districtId : Int
  sIIds : List Int32
  numDistinct : Nat

/-- The count of the loop over the sorted items, after an item `last`. -/
def countDistinct : Int32 → List Int32 → Nat
  | _, [] => 0
  | last, i :: is => if i ≠ last then countDistinct i is + 1 else countDistinct last is

/-- `num_distinct`: the items are sorted, and those that differ from the one before are counted. -/
def numDistinct (sIIds : List Int32) : Nat :=
  countDistinct (-1) (sIIds.mergeSort fun i j => decide (i ≤ j))

section

variable {ρ F : Type} [FloatRep F] [DecidableEq F] [Amount F] (env : Env ρ)

/-- One line of an order: `inr` when the order has no such line, or no line may follow. -/
def levelLine (threshold warehouseId districtId orderId : Int) (x : Nat × List Int32) :
    Act (Thread ρ) Key (Value F) ((Nat × List Int32) ⊕ List Int32) := do
  if x.1 ≤ 15 then
    let line ← uninit env orderLineVal
    let (status, line) ← getRecord env orderLineVal
      (orderLineKey warehouseId districtId orderId x.1) line
    if status = -1 then
      return .inr x.2
    else
      let stock ← uninit env stockVal
      let (_, stock) ← getRecord env stockVal (stockKey warehouseId line.olIId.toInt) stock
      if stock.sQuantity.toInt < threshold then
        return .inl (x.1 + 1, x.2 ++ [line.olIId])
      else
        return .inl (x.1 + 1, x.2)
  else
    return .inr x.2

/-- The lines of an order, up to the first one that it does not have. -/
def levelOrder (threshold warehouseId districtId orderId : Int) (sIIds : List Int32) :
    Act (Thread ρ) Key (Value F) (List Int32) :=
  .loop (levelLine env threshold warehouseId districtId orderId) 16 (1, sIIds)

/-- `StockLevel` of a district, after its draws. -/
def stockLevelOf (threshold warehouseId districtId : Int) :
    Act (Thread ρ) Key (Value F) StockLevelResult := do
  let dist ← uninit env districtVal
  let (_, dist) ← getRecord env districtVal (districtKey warehouseId districtId) dist
  let first ← .ofOption (addInt32 dist.dNextOId (-20))
  let sIIds ← .forRange
    (fun i => levelOrder env threshold warehouseId districtId (first.toInt + i)) 0 20 []
  return { threshold, warehouseId, districtId, sIIds, numDistinct := numDistinct sIIds }

def stockLevel (W : Nat) : Act (Thread ρ) Key (Value F) StockLevelResult := do
  let threshold ← randomNumber env 10 20
  let warehouseId ← pickWarehouseId env 1 W
  let districtId ← randomNumber env 1 numDistrictPerWarehouse
  stockLevelOf env threshold warehouseId districtId

end

section Effect

variable {ρ F κ : Type} [FloatRep F] [DecidableEq F] [DecidableEq κ] {env : Env ρ}
  {addr : Key → κ} {W : Nat} {t t' : Thread ρ} {s s' : Store κ (Value F)}

/-- `StockLevel` only reads. -/
theorem stockLevel_effect {res : StockLevelResult}
    (returns : Act.Returns addr (stockLevel env W) t s res t' s') : s' = s := by
  refine Act.wp_returns (C := Contract.partly (Value F) addr) (Q := fun _ _ s' => s' = s) ?_ returns
  simp only [stockLevel, stockLevelOf, Act.wp_bind, Act.wp_pure]
  refine wp_randomNumber (.inl trivial) fun threshold t _ _ => ?_
  refine wp_pickWarehouseId (.inl trivial) fun w t _ _ => ?_
  refine wp_randomNumber (.inl trivial) fun d t _ _ => ?_
  refine wp_uninit fun dist t => wp_getRecord ⟨trivial, fun _ dist t _ => ?_⟩
  refine Act.wp_ofOption (fun first _ => ?_) (.inl trivial)
  refine Act.wp_forRange (fun _ _ _ s' => s' = s) ?_ rfl
  rintro i ids t s - - rfl
  refine Act.wp_loop (fun _ _ _ s' => s' = s) (.inl trivial) ?_ rfl
  rintro _ x t _ rfl
  unfold levelLine
  split
  · simp only [Act.wp_bind]
    refine wp_uninit fun line t => wp_getRecord ⟨trivial, fun status line t _ => ?_⟩
    split
    · exact rfl
    · simp only [Act.wp_bind]
      refine wp_uninit fun stock t => wp_getRecord ⟨trivial, fun _ stock t _ => ?_⟩
      split <;> exact rfl
  · exact rfl

end Effect

end Tpcc
