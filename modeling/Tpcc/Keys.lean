import Mathlib.Data.UInt

/-! The tables, the keys of their rows, and how the key functions pack the identifiers of a row into
64 bits.  A key has the table of the union that the source builds it in and its `item_key`, the
only part that a store sees.  Identifiers are integers here; each key function converts its
arguments to `int32_t` and computes modulo `2^32` and `2^64` as the source does. -/

namespace Tpcc

/-- `TPCCTableType`. -/
inductive Table where
  | warehouse | district | customer | history | newOrder | order | orderLine | item | stock
  | customerIndex | orderIndex
  deriving DecidableEq

/-- A key union: the table that it is a key of, and its `item_key`. -/
structure Key where
  table : Table
  itemKey : UInt64
  deriving DecidableEq

abbrev numDistrictPerWarehouse : Nat := 10
abbrev numCustomerPerDistrict : Nat := 3000
abbrev numItem : Nat := 100000
abbrev numStockPerWarehouse : Nat := 100000

/-- The identifiers of a district of `W` warehouses. -/
def IsDistrict (W : Nat) (w d : Int) : Prop := (1 ≤ w ∧ w ≤ W) ∧ 1 ≤ d ∧ d ≤ 10

/-- The identifiers that an `int32_t` holds. -/
def IsInt32 (n : Int) : Prop := -2 ^ 31 ≤ n ∧ n < 2 ^ 31

theorem isInt32_toInt (x : Int32) : IsInt32 x.toInt := ⟨x.le_toInt, x.toInt_lt⟩

/-! ### Key functions -/

def makeDistrictKey (wId dId : Int) : Int64 :=
  let did := Int32.ofInt (dId + wId * numDistrictPerWarehouse)
  did.toInt64

def makeCustomerKey (wId dId cId : Int) : Int64 :=
  let upperId := Int32.ofInt (wId * numDistrictPerWarehouse + dId)
  upperId.toInt64 <<< 32 ||| (Int32.ofInt cId).toInt64

def makeHistoryKey (hWId hDId hCWId hCDId hCId : Int) : Int64 :=
  let cid := Int32.ofInt ((hCWId * numDistrictPerWarehouse + hCDId) * numCustomerPerDistrict + hCId)
  let did := Int32.ofInt (hDId + hWId * numDistrictPerWarehouse)
  cid.toInt64 <<< 20 ||| did.toInt64

def makeNewOrderKey (wId dId oId : Int) : Int64 :=
  let upperId := Int32.ofInt (wId * numDistrictPerWarehouse + dId)
  upperId.toInt64 <<< 32 ||| (Int32.ofInt oId).toInt64

def makeOrderKey (wId dId oId : Int) : Int64 :=
  let upperId := Int32.ofInt (wId * numDistrictPerWarehouse + dId)
  upperId.toInt64 <<< 32 ||| (Int32.ofInt oId).toInt64

def makeOrderIndexKey (wId dId cId oId : Int) : Int64 :=
  let upperId := Int32.ofInt ((wId * numDistrictPerWarehouse + dId) * numCustomerPerDistrict + cId)
  upperId.toInt64 <<< 32 ||| (Int32.ofInt oId).toInt64

def makeOrderLineKey (wId dId oId number : Int) : Int64 :=
  let upperId := Int32.ofInt (wId * numDistrictPerWarehouse + dId)
  let oid := upperId.toInt64 * 10000000 + (Int32.ofInt oId).toInt64
  let olid := oid * 15 + (Int32.ofInt number).toInt64
  olid

def makeStockKey (wId iId : Int) : Int64 :=
  let itemId := Int32.ofInt (iId + wId * numStockPerWarehouse)
  itemId.toInt64

/-! ### Key unions -/

/-- `tpcc_warehouse_key_t`: the `int32_t` identifier, with zeros in the four unused bytes. -/
def warehouseKey (wId : Int) : Key := ⟨.warehouse, (Int32.ofInt wId).toUInt32.toUInt64⟩

def districtKey (wId dId : Int) : Key := ⟨.district, (makeDistrictKey wId dId).toUInt64⟩

def customerKey (wId dId cId : Int) : Key := ⟨.customer, (makeCustomerKey wId dId cId).toUInt64⟩

def historyKey (hWId hDId hCWId hCDId hCId : Int) : Key :=
  ⟨.history, (makeHistoryKey hWId hDId hCWId hCDId hCId).toUInt64⟩

def newOrderKey (wId dId oId : Int) : Key := ⟨.newOrder, (makeNewOrderKey wId dId oId).toUInt64⟩

def orderKey (wId dId oId : Int) : Key := ⟨.order, (makeOrderKey wId dId oId).toUInt64⟩

def orderIndexKey (wId dId cId oId : Int) : Key :=
  ⟨.orderIndex, (makeOrderIndexKey wId dId cId oId).toUInt64⟩

def orderLineKey (wId dId oId number : Int) : Key :=
  ⟨.orderLine, (makeOrderLineKey wId dId oId number).toUInt64⟩

/-- `tpcc_item_key_t`, whose identifier is an `int64_t`. -/
def itemKey (iId : Int) : Key := ⟨.item, (Int64.ofInt iId).toUInt64⟩

def stockKey (wId iId : Int) : Key := ⟨.stock, (makeStockKey wId iId).toUInt64⟩

/-- `tpcc_customer_index_key_t`, which holds the address that `MakeCustomerIndexKey` returns. -/
def customerIndexKey (address : UInt64) : Key := ⟨.customerIndex, address⟩

section Tables

variable {w d c o l i cw cd : Int} {address : UInt64}

@[simp] theorem table_warehouseKey : (warehouseKey w).table = .warehouse := rfl
@[simp] theorem table_districtKey : (districtKey w d).table = .district := rfl
@[simp] theorem table_customerKey : (customerKey w d c).table = .customer := rfl
@[simp] theorem table_historyKey : (historyKey w d cw cd c).table = .history := rfl
@[simp] theorem table_newOrderKey : (newOrderKey w d o).table = .newOrder := rfl
@[simp] theorem table_orderKey : (orderKey w d o).table = .order := rfl
@[simp] theorem table_orderIndexKey : (orderIndexKey w d c o).table = .orderIndex := rfl
@[simp] theorem table_orderLineKey : (orderLineKey w d o l).table = .orderLine := rfl
@[simp] theorem table_itemKey : (itemKey i).table = .item := rfl
@[simp] theorem table_stockKey : (stockKey w i).table = .stock := rfl
@[simp] theorem table_customerIndexKey : (customerIndexKey address).table = .customerIndex := rfl

end Tables

/-! ### The packed numbers

Each key as the number that it spells, for identifiers whose packed parts do not wrap. -/

theorem toNat_toUInt64 (x : Int64) : (x.toUInt64.toNat : Int) = x.toInt % 2 ^ 64 := by
  rw [← Int64.toNat_toBitVec, ← Int64.toInt_toBitVec, BitVec.toInt_eq_toNat_cond]
  have := x.toBitVec.isLt
  split <;> omega

theorem toInt_toInt64_ofInt {x : Int} (h : -2 ^ 31 ≤ x) (h' : x < 2 ^ 31) :
    (Int32.ofInt x).toInt64.toInt = x := by
  rw [Int32.toInt_toInt64, Int32.toInt_ofInt_of_le (by omega) (by omega)]

theorem toNat_toUInt64_ofInt {x : Int} (h : 0 ≤ x) (h' : x < 2 ^ 31) :
    ((Int32.ofInt x).toInt64.toUInt64.toNat : Int) = x := by
  rw [toNat_toUInt64, toInt_toInt64_ofInt (by omega) h']
  omega

/-- A number shifted left by `n`, with a number below `2^n` in the low bits. -/
theorem toNat_shiftLeft_or {a b k : Int64} {n x y : Nat} (hk : (k.toBitVec.smod 64).toNat = n)
    (ha : a.toUInt64.toNat = x) (hb : b.toUInt64.toNat = y) (hx : x * 2 ^ n < 2 ^ 64)
    (hy : y < 2 ^ n) : (a <<< k ||| b).toUInt64.toNat = x * 2 ^ n + y := by
  rw [Int64.toUInt64_or, UInt64.toNat_or, ← Int64.toNat_toBitVec, Int64.toBitVec_shiftLeft,
    BitVec.shiftLeft_eq', hk, BitVec.toNat_shiftLeft, Int64.toNat_toBitVec, ha, hb,
    Nat.shiftLeft_eq, Nat.mod_eq_of_lt hx, ← Nat.shiftLeft_eq, Nat.shiftLeft_add_eq_or_of_lt hy]

/-- An `int32_t` in the high half of a key and one in the low half. -/
theorem toNat_pack32 {x y : Int} (hx : 0 ≤ x) (hx' : x < 2 ^ 31) (hy : 0 ≤ y) (hy' : y < 2 ^ 31) :
    (((Int32.ofInt x).toInt64 <<< 32 ||| (Int32.ofInt y).toInt64).toUInt64.toNat : Int) =
      x * 2 ^ 32 + y := by
  have high := toNat_toUInt64_ofInt hx hx'
  have low := toNat_toUInt64_ofInt hy hy'
  rw [toNat_shiftLeft_or (n := 32) (by decide) rfl rfl (by omega) (by omega)]
  omega

variable {w d c o l i cw cd : Int}

theorem warehouseKey_toNat (h : 0 ≤ w) (h' : w < 2 ^ 31) :
    ((warehouseKey w).itemKey.toNat : Int) = w := by
  have toInt : (Int32.ofInt w).toInt = w := Int32.toInt_ofInt_of_le (by omega) (by omega)
  have small := (Int32.ofInt w).toBitVec.isLt
  rw [← Int32.toInt_toBitVec, BitVec.toInt_eq_toNat_cond] at toInt
  rw [warehouseKey, UInt32.toNat_toUInt64, ← Int32.toNat_toBitVec]
  split at toInt <;> omega

theorem districtKey_toNat (h : 0 ≤ 10 * w + d) (h' : 10 * w + d < 2 ^ 31) :
    ((districtKey w d).itemKey.toNat : Int) = 10 * w + d := by
  simp only [districtKey, makeDistrictKey, numDistrictPerWarehouse, Nat.cast_ofNat]
  rw [toNat_toUInt64_ofInt (by omega) (by omega)]
  omega

theorem customerKey_toNat (h : 0 ≤ 10 * w + d) (h' : 10 * w + d < 2 ^ 31) (hc : 0 ≤ c)
    (hc' : c < 2 ^ 31) :
    ((customerKey w d c).itemKey.toNat : Int) = (10 * w + d) * 2 ^ 32 + c := by
  simp only [customerKey, makeCustomerKey, numDistrictPerWarehouse, Nat.cast_ofNat]
  rw [toNat_pack32 (by omega) (by omega) hc hc']
  omega

theorem newOrderKey_toNat (h : 0 ≤ 10 * w + d) (h' : 10 * w + d < 2 ^ 31) (ho : 0 ≤ o)
    (ho' : o < 2 ^ 31) :
    ((newOrderKey w d o).itemKey.toNat : Int) = (10 * w + d) * 2 ^ 32 + o := by
  simp only [newOrderKey, makeNewOrderKey, numDistrictPerWarehouse, Nat.cast_ofNat]
  rw [toNat_pack32 (by omega) (by omega) ho ho']
  omega

theorem orderKey_toNat (h : 0 ≤ 10 * w + d) (h' : 10 * w + d < 2 ^ 31) (ho : 0 ≤ o)
    (ho' : o < 2 ^ 31) :
    ((orderKey w d o).itemKey.toNat : Int) = (10 * w + d) * 2 ^ 32 + o := by
  simp only [orderKey, makeOrderKey, numDistrictPerWarehouse, Nat.cast_ofNat]
  rw [toNat_pack32 (by omega) (by omega) ho ho']
  omega

theorem orderIndexKey_toNat (h : 0 ≤ (10 * w + d) * 3000 + c)
    (h' : (10 * w + d) * 3000 + c < 2 ^ 31) (ho : 0 ≤ o) (ho' : o < 2 ^ 31) :
    ((orderIndexKey w d c o).itemKey.toNat : Int) = ((10 * w + d) * 3000 + c) * 2 ^ 32 + o := by
  simp only [orderIndexKey, makeOrderIndexKey, numDistrictPerWarehouse, numCustomerPerDistrict,
    Nat.cast_ofNat]
  rw [toNat_pack32 (by omega) (by omega) ho ho']
  omega

theorem historyKey_toNat (hc : 0 ≤ (10 * cw + cd) * 3000 + c)
    (hc' : (10 * cw + cd) * 3000 + c < 2 ^ 31) (h : 0 ≤ 10 * w + d) (h' : 10 * w + d < 2 ^ 20) :
    ((historyKey w d cw cd c).itemKey.toNat : Int) =
      ((10 * cw + cd) * 3000 + c) * 2 ^ 20 + (10 * w + d) := by
  have high := toNat_toUInt64_ofInt (x := (cw * 10 + cd) * 3000 + c) (by omega) (by omega)
  have low := toNat_toUInt64_ofInt (x := d + w * 10) (by omega) (by omega)
  simp only [historyKey, makeHistoryKey, numDistrictPerWarehouse, numCustomerPerDistrict,
    Nat.cast_ofNat]
  rw [toNat_shiftLeft_or (n := 20) (by decide) rfl rfl (by omega) (by omega)]
  omega

theorem orderLineKey_toNat (h : 0 ≤ 10 * w + d) (h' : 10 * w + d < 2 ^ 31) (ho : 0 ≤ o)
    (ho' : o < 2 ^ 31) (hl : 0 ≤ l) (hl' : l < 2 ^ 31) :
    ((orderLineKey w d o l).itemKey.toNat : Int) = ((10 * w + d) * 10000000 + o) * 15 + l := by
  have upper := toNat_toUInt64_ofInt (x := w * 10 + d) (by omega) (by omega)
  have order := toNat_toUInt64_ofInt ho ho'
  have number := toNat_toUInt64_ofInt hl hl'
  have orders : (10000000 : Int64).toUInt64.toNat = 10000000 := by decide
  have lines : (15 : Int64).toUInt64.toNat = 15 := by decide
  simp only [orderLineKey, makeOrderLineKey, Int64.toUInt64_add, Int64.toUInt64_mul,
    UInt64.toNat_add, UInt64.toNat_mul, orders, lines, numDistrictPerWarehouse, Nat.cast_ofNat]
  omega

theorem itemKey_toNat (h : 0 ≤ i) (h' : i < 2 ^ 63) : ((itemKey i).itemKey.toNat : Int) = i := by
  rw [itemKey, toNat_toUInt64, Int64.toInt_ofInt_of_le (by omega) (by omega)]
  omega

theorem stockKey_toNat (h : 0 ≤ 100000 * w + i) (h' : 100000 * w + i < 2 ^ 31) :
    ((stockKey w i).itemKey.toNat : Int) = 100000 * w + i := by
  simp only [stockKey, makeStockKey, numStockPerWarehouse, Nat.cast_ofNat]
  rw [toNat_toUInt64_ofInt (by omega) (by omega)]
  omega

/-! ### Keys of one table

Two keys of a table are those of the same row, for warehouses up to 21474. -/

theorem Key.ne_of_table {k k' : Key} (h : k.table ≠ k'.table) : k ≠ k' := fun same => h (same ▸ rfl)

/-- An identifier in the low half of a key that is negative sets the top bit. -/
theorem le_toNat_pack32 {x y : Int} (hy : -2 ^ 31 ≤ y) (hy' : y < 0) :
    2 ^ 63 ≤ ((Int32.ofInt x).toInt64 <<< 32 ||| (Int32.ofInt y).toInt64).toUInt64.toNat := by
  have low : ((Int32.ofInt y).toInt64.toUInt64.toNat : Int) = y + 2 ^ 64 := by
    rw [toNat_toUInt64, toInt_toInt64_ofInt hy (by omega)]
    omega
  rw [Int64.toUInt64_or, UInt64.toNat_or]
  refine le_trans ?_ Nat.right_le_or
  omega

/-- The halves of a key, where that of one key may be negative. -/
theorem pack32_inj {x y x' y' : Int} (hx : 0 ≤ x ∧ x < 2 ^ 31) (hx' : 0 ≤ x' ∧ x' < 2 ^ 31)
    (hy : -2 ^ 31 ≤ y ∧ y < 2 ^ 31) (hy' : 0 ≤ y' ∧ y' < 2 ^ 31)
    (same : ((Int32.ofInt x).toInt64 <<< 32 ||| (Int32.ofInt y).toInt64).toUInt64 =
      ((Int32.ofInt x').toInt64 <<< 32 ||| (Int32.ofInt y').toInt64).toUInt64) :
    x = x' ∧ y = y' := by
  have right := toNat_pack32 hx'.1 hx'.2 hy'.1 hy'.2
  rw [← same] at right
  by_cases negative : y < 0
  · have := le_toNat_pack32 (x := x) hy.1 negative
    omega
  · rw [toNat_pack32 hx.1 hx.2 (by omega) hy.2] at right
    omega

variable {w' d' c' o' l' i' cw' cd' : Int}

theorem warehouseKey_inj (hw : 0 ≤ w ∧ w ≤ 21474) (hw' : 0 ≤ w' ∧ w' ≤ 21474)
    (same : warehouseKey w = warehouseKey w') : w = w' := by
  have left := warehouseKey_toNat hw.1 (by omega)
  have right := warehouseKey_toNat hw'.1 (by omega)
  rw [same] at left
  omega

theorem districtKey_inj (hw : 0 ≤ w ∧ w ≤ 21474) (hd : 1 ≤ d ∧ d ≤ 10)
    (hw' : 0 ≤ w' ∧ w' ≤ 21474) (hd' : 1 ≤ d' ∧ d' ≤ 10)
    (same : districtKey w d = districtKey w' d') : w = w' ∧ d = d' := by
  have left := districtKey_toNat (w := w) (d := d) (by omega) (by omega)
  have right := districtKey_toNat (w := w') (d := d') (by omega) (by omega)
  rw [same] at left
  omega

theorem customerKey_inj (hw : 0 ≤ w ∧ w ≤ 21474) (hd : 1 ≤ d ∧ d ≤ 10)
    (hc : -2 ^ 31 ≤ c ∧ c < 2 ^ 31)
    (hw' : 0 ≤ w' ∧ w' ≤ 21474) (hd' : 1 ≤ d' ∧ d' ≤ 10) (hc' : 0 ≤ c' ∧ c' < 2 ^ 31)
    (same : customerKey w d c = customerKey w' d' c') : w = w' ∧ d = d' ∧ c = c' := by
  have halves : w * 10 + d = w' * 10 + d' ∧ c = c' := pack32_inj (by omega) (by omega) hc hc'
    (congrArg Key.itemKey same)
  omega

theorem orderKey_inj (hw : 0 ≤ w ∧ w ≤ 21474) (hd : 1 ≤ d ∧ d ≤ 10) (ho : -2 ^ 31 ≤ o ∧ o < 2 ^ 31)
    (hw' : 0 ≤ w' ∧ w' ≤ 21474) (hd' : 1 ≤ d' ∧ d' ≤ 10) (ho' : 0 ≤ o' ∧ o' < 2 ^ 31)
    (same : orderKey w d o = orderKey w' d' o') : w = w' ∧ d = d' ∧ o = o' := by
  have halves : w * 10 + d = w' * 10 + d' ∧ o = o' := pack32_inj (by omega) (by omega) ho ho'
    (congrArg Key.itemKey same)
  omega

theorem newOrderKey_inj (hw : 0 ≤ w ∧ w ≤ 21474) (hd : 1 ≤ d ∧ d ≤ 10)
    (ho : -2 ^ 31 ≤ o ∧ o < 2 ^ 31) (hw' : 0 ≤ w' ∧ w' ≤ 21474) (hd' : 1 ≤ d' ∧ d' ≤ 10)
    (ho' : 0 ≤ o' ∧ o' < 2 ^ 31) (same : newOrderKey w d o = newOrderKey w' d' o') :
    w = w' ∧ d = d' ∧ o = o' := by
  have halves : w * 10 + d = w' * 10 + d' ∧ o = o' := pack32_inj (by omega) (by omega) ho ho'
    (congrArg Key.itemKey same)
  omega

theorem orderLineKey_inj (hw : 0 ≤ w ∧ w ≤ 21474) (hd : 1 ≤ d ∧ d ≤ 10)
    (ho : 1 ≤ o ∧ o ≤ 10000000) (hl : 1 ≤ l ∧ l ≤ 15) (hw' : 0 ≤ w' ∧ w' ≤ 21474)
    (hd' : 1 ≤ d' ∧ d' ≤ 10) (ho' : 1 ≤ o' ∧ o' ≤ 10000000) (hl' : 1 ≤ l' ∧ l' ≤ 15)
    (same : orderLineKey w d o l = orderLineKey w' d' o' l') :
    w = w' ∧ d = d' ∧ o = o' ∧ l = l' := by
  have left : ((orderLineKey w d o l).itemKey.toNat : Int) =
      ((10 * w + d) * 10000000 + o) * 15 + l :=
    orderLineKey_toNat (by omega) (by omega) (by omega) (by omega) (by omega) (by omega)
  have right : ((orderLineKey w' d' o' l').itemKey.toNat : Int) =
      ((10 * w' + d') * 10000000 + o') * 15 + l' :=
    orderLineKey_toNat (by omega) (by omega) (by omega) (by omega) (by omega) (by omega)
  rw [same] at left
  have district : 10 * w + d = 10 * w' + d' := by omega
  omega

/-- The lines of an order have different keys, whatever the key of the order wraps to. -/
theorem orderLineKey_number (hl : 0 ≤ l ∧ l < 2 ^ 31) (hl' : 0 ≤ l' ∧ l' < 2 ^ 31)
    (same : (orderLineKey w d o l).itemKey = (orderLineKey w d o l').itemKey) : l = l' := by
  have number := toNat_toUInt64_ofInt hl.1 hl.2
  have number' := toNat_toUInt64_ofInt hl'.1 hl'.2
  have small := (Int32.ofInt l).toInt64.toUInt64.toNat_lt
  have small' := (Int32.ofInt l').toInt64.toUInt64.toNat_lt
  have numbers := congrArg UInt64.toNat same
  simp only [orderLineKey, makeOrderLineKey, Int64.toUInt64_add, UInt64.toNat_add] at numbers
  omega

theorem historyKey_inj (hw : 0 ≤ w ∧ w ≤ 21474) (hd : 1 ≤ d ∧ d ≤ 10) (hcw : 0 ≤ cw ∧ cw ≤ 21474)
    (hcd : 1 ≤ cd ∧ cd ≤ 10) (hc : 1 ≤ c ∧ c ≤ 3000) (hw' : 0 ≤ w' ∧ w' ≤ 21474)
    (hd' : 1 ≤ d' ∧ d' ≤ 10) (hcw' : 0 ≤ cw' ∧ cw' ≤ 21474) (hcd' : 1 ≤ cd' ∧ cd' ≤ 10)
    (hc' : 1 ≤ c' ∧ c' ≤ 3000) (same : historyKey w d cw cd c = historyKey w' d' cw' cd' c') :
    w = w' ∧ d = d' ∧ cw = cw' ∧ cd = cd' ∧ c = c' := by
  have left : ((historyKey w d cw cd c).itemKey.toNat : Int) =
      ((10 * cw + cd) * 3000 + c) * 2 ^ 20 + (10 * w + d) :=
    historyKey_toNat (by omega) (by omega) (by omega) (by omega)
  have right : ((historyKey w' d' cw' cd' c').itemKey.toNat : Int) =
      ((10 * cw' + cd') * 3000 + c') * 2 ^ 20 + (10 * w' + d') :=
    historyKey_toNat (by omega) (by omega) (by omega) (by omega)
  rw [same] at left
  have customer : (10 * cw + cd) * 3000 + c = (10 * cw' + cd') * 3000 + c' := by omega
  have cDistrict : 10 * cw + cd = 10 * cw' + cd' := by omega
  have district : 10 * w + d = 10 * w' + d' := by omega
  omega

/-! ### Keys of one warehouse

The keys of different districts of a warehouse, whatever their packed parts wrap to. -/

theorem toInt_ofInt_emod (x : Int) : (Int32.ofInt x).toInt % 2 ^ 32 = x % 2 ^ 32 := by
  rw [Int32.toInt_ofInt]
  exact Int.bmod_emod

/-- The halves of a key, where the high one may wrap. -/
theorem toNat_pack32_emod {x y : Int} (hy : 0 ≤ y ∧ y < 2 ^ 31) :
    (((Int32.ofInt x).toInt64 <<< 32 ||| (Int32.ofInt y).toInt64).toUInt64.toNat : Int) =
      x % 2 ^ 32 * 2 ^ 32 + y := by
  have wraps := toInt_ofInt_emod x
  have high := toNat_toUInt64 (Int32.ofInt x).toInt64
  rw [Int32.toInt_toInt64] at high
  have low := toNat_toUInt64_ofInt hy.1 hy.2
  have shift : ((32 : Int64).toBitVec.smod 64).toNat = 32 := by decide
  rw [Int64.toUInt64_or, UInt64.toNat_or, ← Int64.toNat_toBitVec, Int64.toBitVec_shiftLeft,
    BitVec.shiftLeft_eq', shift, BitVec.toNat_shiftLeft, Int64.toNat_toBitVec, Nat.shiftLeft_eq]
  generalize (Int32.ofInt x).toInt64.toUInt64.toNat = a at high ⊢
  generalize (Int32.ofInt y).toInt64.toUInt64.toNat = b at low ⊢
  rw [show a * 2 ^ 32 % 2 ^ 64 = a % 2 ^ 32 * 2 ^ 32 by omega, ← Nat.shiftLeft_eq,
    ← Nat.shiftLeft_add_eq_or_of_lt (show b < 2 ^ 32 by omega), Nat.shiftLeft_eq]
  omega

theorem pack32_emod_inj {x y x' y' : Int} (hy : 0 ≤ y ∧ y < 2 ^ 31) (hy' : 0 ≤ y' ∧ y' < 2 ^ 31)
    (same : ((Int32.ofInt x).toInt64 <<< 32 ||| (Int32.ofInt y).toInt64).toUInt64 =
      ((Int32.ofInt x').toInt64 <<< 32 ||| (Int32.ofInt y').toInt64).toUInt64) :
    x % 2 ^ 32 = x' % 2 ^ 32 ∧ y = y' := by
  have left := toNat_pack32_emod (x := x) hy
  have right := toNat_pack32_emod (x := x') hy'
  rw [same] at left
  omega

theorem orderKey_district (hd : 1 ≤ d ∧ d ≤ 10) (hd' : 1 ≤ d' ∧ d' ≤ 10) (ho : 0 ≤ o ∧ o < 2 ^ 31)
    (ho' : 0 ≤ o' ∧ o' < 2 ^ 31) (same : orderKey w d o = orderKey w d' o') : d = d' := by
  have halves : (w * 10 + d) % 2 ^ 32 = (w * 10 + d') % 2 ^ 32 ∧ o = o' :=
    pack32_emod_inj ho ho' (congrArg Key.itemKey same)
  omega

theorem customerKey_district (hd : 1 ≤ d ∧ d ≤ 10) (hd' : 1 ≤ d' ∧ d' ≤ 10)
    (hc : 0 ≤ c ∧ c < 2 ^ 31) (hc' : 0 ≤ c' ∧ c' < 2 ^ 31)
    (same : customerKey w d c = customerKey w d' c') : d = d' := by
  have halves : (w * 10 + d) % 2 ^ 32 = (w * 10 + d') % 2 ^ 32 ∧ c = c' :=
    pack32_emod_inj hc hc' (congrArg Key.itemKey same)
  omega

/-- The key of a line, of an order whose district may wrap. -/
theorem orderLineKey_toNat_emod (ho : 0 ≤ o ∧ o < 2 ^ 31) (hl : 0 ≤ l ∧ l < 2 ^ 31) :
    ((orderLineKey w d o l).itemKey.toNat : Int) =
      (((Int32.ofInt (w * 10 + d)).toInt * 10000000 + o) * 15 + l) % 2 ^ 64 := by
  have upper := toNat_toUInt64 (Int32.ofInt (w * 10 + d)).toInt64
  rw [Int32.toInt_toInt64] at upper
  have order := toNat_toUInt64_ofInt ho.1 ho.2
  have number := toNat_toUInt64_ofInt hl.1 hl.2
  have orders : (10000000 : Int64).toUInt64.toNat = 10000000 := by decide
  have lines : (15 : Int64).toUInt64.toNat = 15 := by decide
  simp only [orderLineKey, makeOrderLineKey, Int64.toUInt64_add, Int64.toUInt64_mul,
    UInt64.toNat_add, UInt64.toNat_mul, orders, lines, numDistrictPerWarehouse, Nat.cast_ofNat]
  omega

theorem orderLineKey_district (hd : 1 ≤ d ∧ d ≤ 10) (hd' : 1 ≤ d' ∧ d' ≤ 10)
    (ho : 1 ≤ o ∧ o ≤ 10000000) (hl : 1 ≤ l ∧ l ≤ 15) (ho' : 1 ≤ o' ∧ o' ≤ 10000000)
    (hl' : 1 ≤ l' ∧ l' ≤ 15) (same : orderLineKey w d o l = orderLineKey w d' o' l') : d = d' := by
  have left := orderLineKey_toNat_emod (w := w) (d := d) (o := o) (l := l) (by omega) (by omega)
  have right := orderLineKey_toNat_emod (w := w) (d := d') (o := o') (l := l') (by omega) (by omega)
  have wraps := toInt_ofInt_emod (w * 10 + d)
  have wraps' := toInt_ofInt_emod (w * 10 + d')
  obtain ⟨low, high⟩ := isInt32_toInt (Int32.ofInt (w * 10 + d))
  obtain ⟨low', high'⟩ := isInt32_toInt (Int32.ofInt (w * 10 + d'))
  rw [same] at left
  generalize (Int32.ofInt (w * 10 + d)).toInt = upper at *
  generalize (Int32.ofInt (w * 10 + d')).toInt = upper' at *
  have value : (upper * 10000000 + o) * 15 + l = (upper' * 10000000 + o') * 15 + l' := by omega
  have district : upper = upper' := by omega
  omega

/-! ### Keys of stocks

The packed part of a stock key may pass `2^31` for the last warehouse, but not `2^32`. -/

theorem makeStockKey_inj {w i w' i' : Int} (hw : 0 ≤ w ∧ w ≤ 21474) (hi : 1 ≤ i ∧ i ≤ 100000)
    (hw' : 0 ≤ w' ∧ w' ≤ 21474) (hi' : 1 ≤ i' ∧ i' ≤ 100000)
    (same : makeStockKey w i = makeStockKey w' i') : w = w' ∧ i = i' := by
  have left := toInt_ofInt_emod (i + w * 100000)
  have right := toInt_ofInt_emod (i' + w' * 100000)
  have word : (Int32.ofInt (i + w * 100000)).toInt = (Int32.ofInt (i' + w' * 100000)).toInt := by
    have := congrArg Int64.toInt same
    rwa [makeStockKey, makeStockKey, Int32.toInt_toInt64, Int32.toInt_toInt64] at this
  rw [word, right, Int.emod_eq_of_lt (by omega) (by omega), Int.emod_eq_of_lt (by omega) (by omega)]
    at left
  omega

theorem stockKey_inj {w i w' i' : Int} (hw : 0 ≤ w ∧ w ≤ 21474) (hi : 1 ≤ i ∧ i ≤ 100000)
    (hw' : 0 ≤ w' ∧ w' ≤ 21474) (hi' : 1 ≤ i' ∧ i' ≤ 100000)
    (same : stockKey w i = stockKey w' i') : w = w' ∧ i = i' := by
  have word : (makeStockKey w i).toUInt64 = (makeStockKey w' i').toUInt64 :=
    congrArg Key.itemKey same
  exact makeStockKey_inj hw hi hw' hi' (congrArg UInt64.toInt64 word)

end Tpcc
