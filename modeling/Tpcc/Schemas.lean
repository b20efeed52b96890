import Tpcc.Lib.Layout

/-! The records of the tables and their memory images.  A record has its fields in the order of the
structure in `schemas.h`, and the padding that the compiler puts between and after them, since
records are copied whole.  The size of each image is the one that the source asserts. -/

namespace Tpcc

open Layout

/-! ### Sizes of fields -/

namespace Address

def minStreet : Nat := 10
def maxStreet : Nat := 20
def minCity : Nat := 10
def maxCity : Nat := 20
def state : Nat := 2
def zip : Nat := 9

end Address

/-- The value of `debug_magic` in every record that is written. -/
def tpccAddMagic : Int64 := 818

def goodCredit : List UInt8 := "GC".toUTF8.data.toList
def badCredit : List UInt8 := "BC".toUTF8.data.toList

structure WarehouseVal (F : Type) where
  wTax : F
  wYtd : F
  wName : CharArray 11
  wStreet1 : CharArray 21
  wStreet2 : CharArray 21
  wCity : CharArray 21
  wState : CharArray 3
  wZip : CharArray 10
  padding : CharArray 1

structure DistrictVal (F : Type) where
  dTax : F
  dYtd : F
  dNextOId : Int32
  dName : CharArray 11
  dStreet1 : CharArray 21
  dStreet2 : CharArray 21
  dCity : CharArray 21
  dState : CharArray 3
  dZip : CharArray 10
  padding : CharArray 1

structure CustomerVal (F : Type) where
  cCreditLim : F
  cDiscount : F
  cBalance : F
  cYtdPayment : F
  cPaymentCnt : Int32
  cDeliveryCnt : Int32
  cFirst : CharArray 17
  cMiddle : CharArray 3
  cLast : CharArray 17
  cStreet1 : CharArray 21
  cStreet2 : CharArray 21
  cCity : CharArray 21
  cState : CharArray 3
  cZip : CharArray 10
  cPhone : CharArray 17
  padding : CharArray 2
  cSince : UInt32
  cCredit : CharArray 3
  cData : CharArray 501

structure CustomerIndexVal where
  cId : Int64
  debugMagic : Int64

structure HistoryVal (F : Type) where
  hAmount : F
  hDate : UInt32
  hData : CharArray 25
  padding : CharArray 3

structure NewOrderVal where
  noDummy : CharArray 13
  padding : CharArray 3
  debugMagic : Int64

structure OrderVal where
  oCId : Int32
  oCarrierId : Int32
  oOlCnt : Int32
  oAllLocal : Int32
  oEntryD : UInt32
  deriving DecidableEq

structure OrderIndexVal where
  oId : UInt64
  debugMagic : Int64

structure OrderLineVal (F : Type) where
  olIId : Int32
  olSupplyWId : Int32
  olQuantity : Int32
  olAmount : F
  olDeliveryD : UInt32
  olDistInfo : CharArray 25
  padding : CharArray 3
  debugMagic : Int64

structure ItemVal (F : Type) where
  iImId : Int32
  iPrice : F
  iName : CharArray 25
  iData : CharArray 51
  padding : CharArray 4
  debugMagic : Int64

structure StockVal where
  sQuantity : Int32
  sYtd : Int32
  sOrderCnt : Int32
  sRemoteCnt : Int32
  sDist : CharArray 250
  sData : CharArray 51
  padding : CharArray 3
  debugMagic : Int64

/-! ### Memory images -/

section Images

variable {F : Type} [FloatRep F] [DecidableEq F]

def warehouseVal : Codec (Cell F) (WarehouseVal F) :=
  (float.seq <| float.seq <| (chars 11).seq <| (chars 21).seq <| (chars 21).seq <|
    (chars 21).seq <| (chars 3).seq <| (chars 10).seq (chars 1)).iso
    (fun (tax, ytd, name, street1, street2, city, state, zip, padding) =>
      ⟨tax, ytd, name, street1, street2, city, state, zip, padding⟩)
    (fun v => (v.wTax, v.wYtd, v.wName, v.wStreet1, v.wStreet2, v.wCity, v.wState, v.wZip,
      v.padding))
    fun _ => rfl

def districtVal : Codec (Cell F) (DistrictVal F) :=
  (float.seq <| float.seq <| int32.seq <| (chars 11).seq <| (chars 21).seq <| (chars 21).seq <|
    (chars 21).seq <| (chars 3).seq <| (chars 10).seq (chars 1)).iso
    (fun (tax, ytd, next, name, street1, street2, city, state, zip, padding) =>
      ⟨tax, ytd, next, name, street1, street2, city, state, zip, padding⟩)
    (fun v => (v.dTax, v.dYtd, v.dNextOId, v.dName, v.dStreet1, v.dStreet2, v.dCity, v.dState,
      v.dZip, v.padding))
    fun _ => rfl

def customerVal : Codec (Cell F) (CustomerVal F) :=
  (float.seq <| float.seq <| float.seq <| float.seq <| int32.seq <| int32.seq <|
    (chars 17).seq <| (chars 3).seq <| (chars 17).seq <| (chars 21).seq <| (chars 21).seq <|
    (chars 21).seq <| (chars 3).seq <| (chars 10).seq <| (chars 17).seq <| (chars 2).seq <|
    uint32.seq <| (chars 3).seq (chars 501)).iso
    (fun (creditLim, discount, balance, ytdPayment, paymentCnt, deliveryCnt, first, middle, last,
        street1, street2, city, state, zip, phone, padding, since, credit, data) =>
      ⟨creditLim, discount, balance, ytdPayment, paymentCnt, deliveryCnt, first, middle, last,
        street1, street2, city, state, zip, phone, padding, since, credit, data⟩)
    (fun v => (v.cCreditLim, v.cDiscount, v.cBalance, v.cYtdPayment, v.cPaymentCnt,
      v.cDeliveryCnt, v.cFirst, v.cMiddle, v.cLast, v.cStreet1, v.cStreet2, v.cCity, v.cState,
      v.cZip, v.cPhone, v.padding, v.cSince, v.cCredit, v.cData))
    fun _ => rfl

def customerIndexVal : Codec (Cell F) CustomerIndexVal :=
  (int64.seq int64).iso (fun (id, magic) => ⟨id, magic⟩) (fun v => (v.cId, v.debugMagic))
    fun _ => rfl

def historyVal : Codec (Cell F) (HistoryVal F) :=
  (float.seq <| uint32.seq <| (chars 25).seq (chars 3)).iso
    (fun (amount, date, data, padding) => ⟨amount, date, data, padding⟩)
    (fun v => (v.hAmount, v.hDate, v.hData, v.padding))
    fun _ => rfl

def newOrderVal : Codec (Cell F) NewOrderVal :=
  ((chars 13).seq <| (chars 3).seq int64).iso
    (fun (dummy, padding, magic) => ⟨dummy, padding, magic⟩)
    (fun v => (v.noDummy, v.padding, v.debugMagic))
    fun _ => rfl

def orderVal : Codec (Cell F) OrderVal :=
  (int32.seq <| int32.seq <| int32.seq <| int32.seq uint32).iso
    (fun (cId, carrierId, olCnt, allLocal, entryD) => ⟨cId, carrierId, olCnt, allLocal, entryD⟩)
    (fun v => (v.oCId, v.oCarrierId, v.oOlCnt, v.oAllLocal, v.oEntryD))
    fun _ => rfl

def orderIndexVal : Codec (Cell F) OrderIndexVal :=
  (uint64.seq int64).iso (fun (id, magic) => ⟨id, magic⟩) (fun v => (v.oId, v.debugMagic))
    fun _ => rfl

def orderLineVal : Codec (Cell F) (OrderLineVal F) :=
  (int32.seq <| int32.seq <| int32.seq <| float.seq <| uint32.seq <| (chars 25).seq <|
    (chars 3).seq int64).iso
    (fun (iId, supplyWId, quantity, amount, deliveryD, distInfo, padding, magic) =>
      ⟨iId, supplyWId, quantity, amount, deliveryD, distInfo, padding, magic⟩)
    (fun v => (v.olIId, v.olSupplyWId, v.olQuantity, v.olAmount, v.olDeliveryD, v.olDistInfo,
      v.padding, v.debugMagic))
    fun _ => rfl

def itemVal : Codec (Cell F) (ItemVal F) :=
  (int32.seq <| float.seq <| (chars 25).seq <| (chars 51).seq <| (chars 4).seq int64).iso
    (fun (imId, price, name, data, padding, magic) => ⟨imId, price, name, data, padding, magic⟩)
    (fun v => (v.iImId, v.iPrice, v.iName, v.iData, v.padding, v.debugMagic))
    fun _ => rfl

def stockVal : Codec (Cell F) StockVal :=
  (int32.seq <| int32.seq <| int32.seq <| int32.seq <| (chars 250).seq <| (chars 51).seq <|
    (chars 3).seq int64).iso
    (fun (quantity, ytd, orderCnt, remoteCnt, dist, data, padding, magic) =>
      ⟨quantity, ytd, orderCnt, remoteCnt, dist, data, padding, magic⟩)
    (fun v => (v.sQuantity, v.sYtd, v.sOrderCnt, v.sRemoteCnt, v.sDist, v.sData, v.padding,
      v.debugMagic))
    fun _ => rfl

@[simp] theorem size_warehouseVal : (warehouseVal (F := F)).size = 96 := by simp [warehouseVal]
@[simp] theorem size_districtVal : (districtVal (F := F)).size = 100 := by simp [districtVal]
@[simp] theorem size_customerVal : (customerVal (F := F)).size = 664 := by simp [customerVal]
omit [DecidableEq F] in
@[simp] theorem size_customerIndexVal :
    (customerIndexVal (F := F)).size = 16 := by simp [customerIndexVal]
@[simp] theorem size_historyVal : (historyVal (F := F)).size = 36 := by simp [historyVal]
omit [DecidableEq F] in
@[simp] theorem size_newOrderVal : (newOrderVal (F := F)).size = 24 := by simp [newOrderVal]
omit [DecidableEq F] in
@[simp] theorem size_orderVal : (orderVal (F := F)).size = 20 := by simp [orderVal]
omit [DecidableEq F] in
@[simp] theorem size_orderIndexVal : (orderIndexVal (F := F)).size = 16 := by simp [orderIndexVal]
@[simp] theorem size_orderLineVal : (orderLineVal (F := F)).size = 56 := by simp [orderLineVal]
@[simp] theorem size_itemVal : (itemVal (F := F)).size = 96 := by simp [itemVal]
omit [DecidableEq F] in
@[simp] theorem size_stockVal : (stockVal (F := F)).size = 328 := by simp [stockVal]

end Images

end Tpcc
