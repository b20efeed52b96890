import Tpcc.Txn.NewOrder

/-! The quantity of a stock under the updates of order lines.  The test whether a stock must be
filled up compares unsigned numbers, which is right only as long as the quantity is not below that
of the line: the quantities from 10 to 100 that the loader enters are kept by both branches. -/

namespace Tpcc

open KvProgram Layout

/-! ### Words -/

theorem toNat_toUInt32 {x : Int32} (h : 0 ≤ x.toInt) : (x.toUInt32.toNat : Int) = x.toInt := by
  have small := x.toBitVec.isLt
  rw [← Int32.toNat_toBitVec, ← Int32.toInt_toBitVec, BitVec.toInt_eq_toNat_cond] at *
  split at h <;> split <;> omega

theorem toInt_toInt32 {x : UInt32} (h : x.toNat < 2 ^ 31) : x.toInt32.toInt = x.toNat := by
  rw [← Int32.toInt_toBitVec, UInt32.toBitVec_toInt32, BitVec.toInt_eq_toNat_cond,
    UInt32.toNat_toBitVec, if_pos (by omega)]

theorem addInt32_isSome {x : Int32} {n : Int} :
    (∃ y, addInt32 x n = some y) ↔ -2 ^ 31 ≤ x.toInt + n ∧ x.toInt + n < 2 ^ 31 := by
  unfold addInt32
  split
  · rename_i bounds
    exact iff_of_true ⟨_, rfl⟩ bounds
  · rename_i bounds
    exact iff_of_false (by simp) bounds

/-! ### One update -/

section Update

variable {stock row : StockVal} {quantity : UInt32} {remote : Bool}

/-- The quantity that an order line leaves in a stock. -/
def restock (stock : StockVal) (quantity : UInt32) : Option Int32 :=
  if stock.sQuantity.toUInt32 - quantity ≥ 10 then
    some (stock.sQuantity.toUInt32 - quantity).toInt32
  else
    addInt32 stock.sQuantity (-quantity.toInt32.toInt + 91)

theorem updateStock_iff : updateStock stock quantity remote = some row ↔
    ∃ sQuantity sRemoteCnt, restock stock quantity = some sQuantity ∧
      addInt32 stock.sRemoteCnt (if remote then 1 else 0) = some sRemoteCnt ∧
      row = { stock with
        sQuantity, sYtd := (stock.sYtd.toUInt32 + quantity).toInt32, sRemoteCnt } := by
  have binds : updateStock stock quantity remote = (restock stock quantity).bind fun sQuantity =>
      (addInt32 stock.sRemoteCnt (if remote then 1 else 0)).bind fun sRemoteCnt =>
        some { stock with
          sQuantity, sYtd := (stock.sYtd.toUInt32 + quantity).toInt32, sRemoteCnt } := by
    by_cases enough : stock.sQuantity.toUInt32 - quantity ≥ 10
    · simp only [updateStock, restock, if_pos enough]
      rfl
    · simp only [updateStock, restock, if_neg enough]
      rfl
  rw [binds, Option.bind_eq_some_iff]
  simp only [Option.bind_eq_some_iff, Option.some.injEq, exists_and_left, eq_comm (b := row)]

/-- The quantity does not overflow, whatever it was: the sum is taken only where it is small. -/
theorem restock_isSome (stock : StockVal) (low : 1 ≤ quantity.toNat) (high : quantity.toNat ≤ 10) :
    ∃ sQuantity, restock stock quantity = some sQuantity := by
  unfold restock
  split
  · exact ⟨_, rfl⟩
  · rename_i few
    have word : stock.sQuantity.toUInt32.toNat < 20 := by
      have small := stock.sQuantity.toUInt32.toNat_lt
      rw [ge_iff_le, UInt32.le_iff_toNat_le, UInt32.toNat_sub] at few
      simp only [UInt32.reduceToNat] at few
      omega
    have value : stock.sQuantity.toInt = stock.sQuantity.toUInt32.toNat :=
      toInt_toInt32 (x := stock.sQuantity.toUInt32) (by omega)
    rw [addInt32_isSome, toInt_toInt32 (by omega)]
    omega

/-- An update fails only where the counter of the remote lines overflows. -/
theorem updateStock_isSome (low : 1 ≤ quantity.toNat) (high : quantity.toNat ≤ 10) :
    (∃ row, updateStock stock quantity remote = some row) ↔
      (remote → stock.sRemoteCnt.toInt + 1 < 2 ^ 31) := by
  have counter : (∃ n, addInt32 stock.sRemoteCnt (if remote then 1 else 0) = some n) ↔
      (remote → stock.sRemoteCnt.toInt + 1 < 2 ^ 31) := by
    obtain ⟨low, high⟩ := isInt32_toInt stock.sRemoteCnt
    rw [addInt32_isSome]
    cases remote with
    | false => simp; omega
    | true => simp; omega
  rw [← counter]
  constructor
  · rintro ⟨row, h⟩
    obtain ⟨_, n, _, hn, _⟩ := updateStock_iff.mp h
    exact ⟨n, hn⟩
  · rintro ⟨n, hn⟩
    obtain ⟨sQuantity, hquantity⟩ := restock_isSome stock low high
    exact ⟨_, updateStock_iff.mpr ⟨sQuantity, n, hquantity, hn, rfl⟩⟩

/-- The quantities of the stocks that the loader enters. -/
def StockVal.InStock (stock : StockVal) : Prop :=
  10 ≤ stock.sQuantity.toInt ∧ stock.sQuantity.toInt ≤ 100

/-- The unsigned subtraction does not wrap. -/
theorem StockVal.InStock.toNat_sub (h : stock.InStock) (high : quantity.toNat ≤ 10) :
    quantity.toNat ≤ stock.sQuantity.toUInt32.toNat ∧
      ((stock.sQuantity.toUInt32 - quantity).toNat : Int) =
        stock.sQuantity.toInt - quantity.toNat := by
  obtain ⟨lower, upper⟩ := h
  have word := toNat_toUInt32 (x := stock.sQuantity) (by omega)
  have le : quantity ≤ stock.sQuantity.toUInt32 := UInt32.le_iff_toNat_le.mpr (by omega)
  rw [UInt32.toNat_sub_of_le _ _ le]
  omega

/-- A quantity that is kept in its range: 91 more where fewer than the line's and 10 are left. -/
theorem StockVal.InStock.update (h : stock.InStock) (low : 1 ≤ quantity.toNat)
    (high : quantity.toNat ≤ 10) (updated : updateStock stock quantity remote = some row) :
    row.sQuantity.toInt = (if stock.sQuantity.toInt < quantity.toNat + 10
      then stock.sQuantity.toInt - quantity.toNat + 91
      else stock.sQuantity.toInt - quantity.toNat) ∧ row.InStock := by
  have difference := (h.toNat_sub high).2
  obtain ⟨lower, upper⟩ := h
  have test : 10 ≤ stock.sQuantity.toUInt32 - quantity ↔
      ¬stock.sQuantity.toInt < quantity.toNat + 10 := by
    rw [UInt32.le_iff_toNat_le]
    simp only [UInt32.reduceToNat]
    omega
  obtain ⟨sQuantity, _, filled, _, rfl⟩ := updateStock_iff.mp updated
  unfold restock at filled
  unfold InStock
  split at filled
  · rename_i enough
    have enough := test.mp enough
    rw [if_neg enough, ← Option.some.inj filled, toInt_toInt32 (by omega)]
    omega
  · rename_i few
    have less := not_not.mp (mt test.mpr few)
    rw [if_pos less, addInt32_toInt filled, toInt_toInt32 (by omega)]
    omega

end Update

/-! ### Any number of updates -/

/-- The update of a stock row by an order line: the quantity of the line, and whether it is
remote. -/
def StockStep (stock : StockVal) (line : UInt32 × Bool) (row : StockVal) : Prop :=
  (1 ≤ line.1.toNat ∧ line.1.toNat ≤ 10) ∧ updateStock stock line.1 line.2 = some row

variable {first stock : StockVal} {lines : List (UInt32 × Bool)}

theorem Run.inStock (loaded : first.InStock) (run : Run (· = first) StockStep lines stock) :
    stock.InStock :=
  Run.invariant (I := fun _ stock => stock.InStock) (fun _ same => same ▸ loaded)
    (fun _ _ _ _ h step => (h.update step.1.1 step.1.2 step.2).2) run

/-- After any updates of a stock that has been loaded, the quantity is from 10 to 100, the unsigned
subtraction of a line's quantity does not wrap, the update by a line fails only where the counter of
the remote lines overflows, and it subtracts the quantity, or adds 91 to that when fewer than the
quantity and 10 are left. -/
theorem stock_quantity (loaded : first.InStock) (run : Run (· = first) StockStep lines stock)
    {quantity : UInt32} (low : 1 ≤ quantity.toNat) (high : quantity.toNat ≤ 10) (remote : Bool) :
    (10 ≤ stock.sQuantity.toInt ∧ stock.sQuantity.toInt ≤ 100) ∧
    (quantity.toNat ≤ stock.sQuantity.toUInt32.toNat ∧
      ((stock.sQuantity.toUInt32 - quantity).toNat : Int) =
        stock.sQuantity.toInt - quantity.toNat) ∧
    ((∃ row, updateStock stock quantity remote = some row) ↔
      (remote → stock.sRemoteCnt.toInt + 1 < 2 ^ 31)) ∧
    ∀ row, updateStock stock quantity remote = some row →
      (10 ≤ row.sQuantity.toInt ∧ row.sQuantity.toInt ≤ 100) ∧
      row.sQuantity.toInt = if stock.sQuantity.toInt < quantity.toNat + 10
        then stock.sQuantity.toInt - quantity.toNat + 91
        else stock.sQuantity.toInt - quantity.toNat := by
  have inStock := Run.inStock loaded run
  refine ⟨inStock, inStock.toNat_sub high, updateStock_isSome low high, fun row updated => ?_⟩
  obtain ⟨quantity, kept⟩ := inStock.update low high updated
  exact ⟨kept, quantity⟩

/-- A stock of 19. -/
def fewStock : StockVal where
  sQuantity := 19
  sYtd := 0
  sOrderCnt := 0
  sRemoteCnt := 0
  sDist := .ofBytes 250 []
  sData := .ofBytes 51 []
  padding := .ofBytes 3 []
  debugMagic := tpccAddMagic

/-- Three lines take 10 each: the first leaves 100, the last 80. -/
theorem stock_quantity_thrice : ∃ stock row,
    Run (· = fewStock) StockStep [(10, false), (10, true)] stock ∧
      updateStock stock 10 true = some row ∧ row.sQuantity.toInt = 80 := by
  let restocked : StockVal := { fewStock with sQuantity := 100, sYtd := 10, sRemoteCnt := 1 }
  let taken : StockVal := { restocked with sQuantity := 90, sYtd := 20 }
  have loaded : fewStock.InStock := ⟨by decide, by decide⟩
  have first : updateStock fewStock 10 true = some restocked := rfl
  have second : updateStock restocked 10 false = some taken := by
    unfold updateStock restocked taken fewStock
    rfl
  have run : Run (· = fewStock) StockStep [(10, false), (10, true)] taken :=
    .next (.next (.start rfl) ⟨by decide, first⟩) ⟨by decide, second⟩
  have ten : 1 ≤ (10 : UInt32).toNat ∧ (10 : UInt32).toNat ≤ 10 := by decide
  obtain ⟨_, _, returns, step⟩ := stock_quantity loaded run ten.1 ten.2 true
  obtain ⟨row, updated⟩ := returns.mpr fun _ => by decide
  exact ⟨taken, row, run, updated, (step row updated).2⟩

end Tpcc
