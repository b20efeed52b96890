import Tpcc.Table

/-! `LoadTables`: the functions that fill the tables, for `W` warehouses.  The totals of records are
`int` counters, whose overflow is undefined; those of the order tables are 64 bits wide and only
logged. -/

namespace Tpcc

open KvProgram Layout

/-- The counters of the records inserted in and examined for a table. -/
structure Totals where
  inserted : Int
  examined : Int

def Totals.zero : Totals := ⟨0, 0⟩

/-- One record more, with the status that `PutRecord` returned. -/
def Totals.count {ρ K V : Type} (totals : Totals) (status : Int) : Act ρ K V Totals := do
  .assert (totals.inserted + status < 2 ^ 31)
  .assert (totals.examined + 1 < 2 ^ 31)
  return ⟨totals.inserted + status, totals.examined + 1⟩

/-- `num_customer_per_district_ * 0.7`, the last order that the loader delivers. -/
abbrev numDelivered : Nat := numCustomerPerDistrict * 7 / 10

section Populate

variable {ρ F : Type} [FloatRep F] [DecidableEq F] [Amount F] (env : Env ρ)

def randomStreet {K V : Type} : Act (Thread ρ) K V (List UInt8) := do
  let len ← randomNumber env Address.minStreet Address.maxStreet
  randomStr env len.toNat

def randomCity {K V : Type} : Act (Thread ρ) K V (List UInt8) := do
  let len ← randomNumber env Address.minCity Address.maxCity
  randomStr env len.toNat

def zipDigits : List UInt8 := "123456789".toUTF8.data.toList

def warehouseRow : Act (Thread ρ) Key (Value F) (WarehouseVal F) := do
  let val ← uninit env warehouseVal
  let tax ← randomNumber env 0 2000
  let wName ← strcpy val.wName (← randomStr env (← randomNumber env 6 10).toNat)
  let wStreet1 ← strcpy val.wStreet1 (← randomStreet env)
  let wStreet2 ← strcpy val.wStreet2 (← randomStreet env)
  let wCity ← strcpy val.wCity (← randomCity env)
  let wState ← strcpy val.wState (← randomStr env Address.state)
  let wZip ← strcpy val.wZip zipDigits
  .assert (wState.bytes.getD 2 1 = 0 ∧ CharArray.cStr wZip.bytes = zipDigits)
  return { val with
    wYtd := Amount.ofInt (300000 * 100), wTax := Amount.quotient tax 10000
    wName, wStreet1, wStreet2, wCity, wState, wZip }

def populateWarehouseTable (W seed : Nat) : Act (Thread ρ) Key (Value F) Unit := do
  seeded env seed
  let _ ← .forRange (fun wId totals => do
    let val ← warehouseRow env
    let status ← putRecord warehouseVal (warehouseKey wId) val
    totals.count status) 1 W Totals.zero

def districtRow : Act (Thread ρ) Key (Value F) (DistrictVal F) := do
  let val ← uninit env districtVal
  let tax ← randomNumber env 0 2000
  let dName ← strcpy val.dName (← randomStr env (← randomNumber env 6 10).toNat)
  let dStreet1 ← strcpy val.dStreet1 (← randomStreet env)
  let dStreet2 ← strcpy val.dStreet2 (← randomStreet env)
  let dCity ← strcpy val.dCity (← randomCity env)
  let dState ← strcpy val.dState (← randomStr env Address.state)
  let dZip ← strcpy val.dZip zipDigits
  return { val with
    dYtd := Amount.ofInt (30000 * 100), dTax := Amount.quotient tax 10000
    dNextOId := Int32.ofNat (numCustomerPerDistrict + 1)
    dName, dStreet1, dStreet2, dCity, dState, dZip }

def populateDistrictTable (W seed : Nat) : Act (Thread ρ) Key (Value F) Unit := do
  seeded env seed
  let _ ← .forRange (fun wId => .forRange (fun dId totals => do
    let val ← districtRow env
    let status ← putRecord districtVal (districtKey wId dId) val
    totals.count status) 1 numDistrictPerWarehouse) 1 W Totals.zero

def randomZip {K V : Type} : Act (Thread ρ) K V (List UInt8) := do
  let digits ← randomNStr env 4
  return digits ++ "11111".toUTF8.data.toList

/-- The last names of the first thousand customers of a district are all different. -/
def customerLast {K V : Type} (cId : Nat) : Act (Thread ρ) K V (List UInt8) :=
  if cId ≤ numCustomerPerDistrict / 3 then pure (getCustomerLastName (cId - 1))
  else getNonUniformCustomerLastNameLoad env

/-- A customer row, with the last and first names that the customer index uses. -/
def customerRow (cId : Nat) :
    Act (Thread ρ) Key (Value F) (CustomerVal F × List UInt8 × List UInt8) := do
  let val ← uninit env customerVal
  let discount ← randomNumber env 1 5000
  let bad ← randomNumber env 1 100
  let cCredit ← strcpy val.cCredit (if bad ≤ 10 then badCredit else goodCredit)
  let last ← customerLast env cId
  let cLast ← strcpy val.cLast last
  let first ← randomStr env (← randomNumber env 8 16).toNat
  let cFirst ← strcpy val.cFirst first
  let cStreet1 ← strcpy val.cStreet1 (← randomStreet env)
  let cStreet2 ← strcpy val.cStreet2 (← randomStreet env)
  let cCity ← strcpy val.cCity (← randomCity env)
  let cState ← strcpy val.cState (← randomStr env Address.state)
  let cZip ← strcpy val.cZip (← randomZip env)
  let cPhone ← strcpy val.cPhone (← randomNStr env 16)
  let cSince ← getCurrentTimeMillis
  let cMiddle ← strcpy val.cMiddle "OE".toUTF8.data.toList
  let cData ← strcpy val.cData (← randomStr env (← randomNumber env 300 500).toNat)
  return ({ val with
    cCreditLim := Amount.ofInt 50000, cDiscount := Amount.quotient discount 10000
    cBalance := Amount.ofInt (-10), cYtdPayment := Amount.ofInt 10
    cPaymentCnt := 1, cDeliveryCnt := 0, cFirst, cMiddle, cLast, cStreet1, cStreet2, cCity, cState,
    cZip, cPhone, cSince, cCredit, cData }, last, first)

/-- `ConvertString`: each half of a string of 16 bytes, backwards. -/
def convertString (old : List UInt8) : List UInt8 :=
  (List.range 16).map fun j => old.getD (if j < 8 then 7 - j else 23 - j) 0

/-- The two words of a name in a customer index key. -/
def indexWords (name : List UInt8) : UInt64 × UInt64 :=
  (UInt64.ofNat (ofLeBytes ((convertString name).take 8)),
    UInt64.ofNat (ofLeBytes ((convertString name).drop 8)))

/-- `MakeCustomerIndexKey` returns the address of the buffer in which it builds the key. -/
def makeCustomerIndexKey {K V : Type} (wId dId : Int) (last first : List UInt8) :
    Act (Thread ρ) K V UInt64 :=
  let did := Int32.ofInt (dId + wId * numDistrictPerWarehouse)
  let seckey := [did.toInt64.toUInt64, (indexWords last).1, (indexWords last).2,
    (indexWords first).1, (indexWords first).2]
  .own fun t =>
    let allocated := env.allocate seckey t.rng
    (allocated.1, { t with rng := allocated.2 })

def historyRow : Act (Thread ρ) Key (Value F) (HistoryVal F) := do
  let val ← uninit env historyVal
  let hDate ← getCurrentTimeMillis
  let hData ← strcpy val.hData (← randomStr env (← randomNumber env 12 24).toNat)
  return { val with hDate, hAmount := Amount.ofInt 10, hData }

/-- The counters of `PopulateCustomerAndHistoryTable`. -/
structure CustomerTotals where
  customer : Totals
  customerIndex : Totals
  history : Totals

/-- The entry of the customer index is written where the index has none. -/
def populateCustomerIndex (address : UInt64) (cId : Int64) (totals : Totals) :
    Act (Thread ρ) Key (Value F) Totals := do
  let val ← uninit env customerIndexVal
  let found ← getRecord env customerIndexVal (customerIndexKey address)
    { val with debugMagic := tpccAddMagic }
  if found.1 = -1 then
    let status ← putRecord customerIndexVal (customerIndexKey address) { found.2 with cId }
    totals.count status
  else
    return totals

def populateCustomer (wId dId cId : Nat) (totals : CustomerTotals) :
    Act (Thread ρ) Key (Value F) CustomerTotals := do
  let (val, last, first) ← customerRow env cId
  let status ← putRecord customerVal (customerKey wId dId cId) val
  let customer ← totals.customer.count status
  let address ← makeCustomerIndexKey env wId dId last first
  let customerIndex ← populateCustomerIndex env address (makeCustomerKey wId dId cId)
    totals.customerIndex
  let val ← historyRow env
  let status ← putRecord historyVal (historyKey wId dId wId dId cId) val
  let history ← totals.history.count status
  return ⟨customer, customerIndex, history⟩

def populateCustomerAndHistoryTable (W seed : Nat) : Act (Thread ρ) Key (Value F) Unit := do
  seeded env seed
  let _ ← .forRange (fun wId => .forRange (fun dId =>
    .forRange (populateCustomer env wId dId) 1 numCustomerPerDistrict)
    1 numDistrictPerWarehouse) 1 W ⟨Totals.zero, Totals.zero, Totals.zero⟩

/-- The customers of a district in the order in which they get its orders.  The vector `c_ids` and
the set `c_ids_s` have the same elements. -/
def shuffleCustomers {K V : Type} : Act (Thread ρ) K V (List Nat) :=
  .loop (fun cIds => do
    if cIds.length ≠ numCustomerPerDistrict then
      let x ← nextLong env
      if x % numCustomerPerDistrict + 1 ∈ cIds then
        return .inl cIds
      else
        return .inl (cIds ++ [x % numCustomerPerDistrict + 1])
    else
      return .inr cIds) env.attempts []

def orderCarrier {K V : Type} (c : Nat) : Act (Thread ρ) K V Int :=
  if c ≤ numDelivered then randomNumber env 1 10 else pure 0

def orderRow (c cId : Nat) : Act (Thread ρ) Key (Value F) OrderVal := do
  let carrier ← orderCarrier env c
  let olCnt ← randomNumber env 5 15
  let oEntryD ← getCurrentTimeMillis
  return {
    oCId := Int32.ofNat cId, oCarrierId := Int32.ofInt carrier, oOlCnt := Int32.ofInt olCnt
    oAllLocal := 1, oEntryD }

/-- The entry of the order index is written where its key has no value. -/
def populateOrderIndex (wId dId c : Nat) (cId : Int) : Act (Thread ρ) Key (Value F) Unit := do
  let oId := (makeOrderKey wId dId c).toUInt64
  let val ← uninit env orderIndexVal
  let found ← getRecord env orderIndexVal (orderIndexKey wId dId cId c) { val with oId }
  if found.1 = -1 then
    let _ ← putRecord orderIndexVal (orderIndexKey wId dId cId c)
      { found.2 with oId, debugMagic := tpccAddMagic }

def populateNewOrder (wId dId c : Nat) : Act (Thread ρ) Key (Value F) Unit := do
  if numDelivered < c then
    let val ← uninit env newOrderVal
    let _ ← putRecord newOrderVal (newOrderKey wId dId c) { val with debugMagic := tpccAddMagic }

/-- The delivery date and the amount of a line: an order that has been delivered has none to pay. -/
def lineAmount {K V : Type} (c : Nat) (oEntryD : UInt32) : Act (Thread ρ) K V (UInt32 × F) :=
  if c ≤ numDelivered then pure (oEntryD, Amount.ofInt 0)
  else do
    let amount ← randomNumber env 1 999999
    return (0, Amount.quotient amount 100)

def orderLineRow (wId c : Nat) (oEntryD : UInt32) :
    Act (Thread ρ) Key (Value F) (OrderLineVal F) := do
  let val ← uninit env orderLineVal
  let iId ← randomNumber env 1 numItem
  let (olDeliveryD, olAmount) ← lineAmount env c oEntryD
  .assert (1 ≤ iId ∧ iId ≤ numItem)
  return { val with
    olIId := Int32.ofInt iId, olDeliveryD, olAmount, olSupplyWId := Int32.ofNat wId
    olQuantity := 5, debugMagic := tpccAddMagic }

def populateOrder (wId dId : Nat) (cIds : List Nat) (c : Nat) :
    Act (Thread ρ) Key (Value F) Unit := do
  let val ← orderRow env c (cIds.getD (c - 1) 0)
  let _ ← putRecord orderVal (orderKey wId dId c) val
  populateOrderIndex env wId dId c val.oCId.toInt
  populateNewOrder env wId dId c
  .forRange (fun l _ => do
    let line ← orderLineRow env wId c val.oEntryD
    let _ ← putRecord orderLineVal (orderLineKey wId dId c l) line) 1 val.oOlCnt.toInt.toNat ()

def populateOrderNewOrderAndOrderLineTable (W seed : Nat) :
    Act (Thread ρ) Key (Value F) Unit := do
  seeded env seed
  .forRange (fun wId => .forRange (fun dId _ => do
    let cIds ← shuffleCustomers env
    .forRange (fun c _ => populateOrder env wId dId cIds c) 1 numCustomerPerDistrict ())
    1 numDistrictPerWarehouse) 1 W ()

/-- The data of an item or a stock: one in ten has the word ORIGINAL in it. -/
def randomData {K V : Type} (len : Int) : Act (Thread ρ) K V (List UInt8) := do
  let original ← randomNumber env 1 100
  if original > 10 then
    randomStr env len.toNat
  else
    let startOriginal ← randomNumber env 2 (len - 8)
    let before ← randomStr env startOriginal.toNat
    let after ← randomStr env (len - startOriginal - 8).toNat
    return before ++ "ORIGINAL".toUTF8.data.toList ++ after

def itemRow : Act (Thread ρ) Key (Value F) (ItemVal F) := do
  let val ← uninit env itemVal
  let iName ← strcpy val.iName (← randomStr env (← randomNumber env 14 24).toNat)
  let price ← randomNumber env 100 10000
  let len ← randomNumber env 26 50
  let iData ← strcpy val.iData (← randomData env len)
  let imId ← randomNumber env 1 10000
  let iPrice : F := Amount.quotient price 100
  .assert (Amount.le (Amount.ofInt 1) iPrice ∧ Amount.le iPrice (Amount.ofInt 100))
  return { val with iName, iPrice, iData, iImId := Int32.ofInt imId, debugMagic := tpccAddMagic }

def populateItemTable (seed : Nat) : Act (Thread ρ) Key (Value F) Unit := do
  seeded env seed
  let _ ← .forRange (fun iId totals => do
    let val ← itemRow env
    let status ← putRecord itemVal (itemKey iId) val
    totals.count status) 1 numItem Totals.zero

def stockRow (seed : Nat) : Act (Thread ρ) Key (Value F) StockVal := do
  let val ← uninit env stockVal
  seeded env seed
  let quantity ← randomNumber env 10 100
  let len ← randomNumber env 26 50
  let sData ← strcpy val.sData (← randomData env len)
  return { val with
    sQuantity := Int32.ofInt quantity, sYtd := 0, sOrderCnt := 0, sRemoteCnt := 0, sData
    debugMagic := tpccAddMagic }

def populateStockTable (W seed : Nat) : Act (Thread ρ) Key (Value F) Unit := do
  let _ ← .forRange (fun wId => .forRange (fun iId totals => do
    let val ← stockRow env seed
    let status ← putRecord stockVal (stockKey wId iId) val
    totals.count status) 1 numItem) 1 W Totals.zero

def loadTables (W : Nat) : Act (Thread ρ) Key (Value F) Unit := do
  populateWarehouseTable env W 9324
  populateDistrictTable env W 129856349
  populateCustomerAndHistoryTable env W 923587856425
  populateOrderNewOrderAndOrderLineTable env W 2343352
  populateStockTable env W 89785943
  populateItemTable env 235443
  populateStockTable env W 89785943

end Populate

end Tpcc
