import Tpcc.Txn.NewOrder

/-! `TPCCTxn::Payment`. -/

namespace Tpcc

open KvProgram Layout

/-- The local variables of `Payment` that describe the payment it has made. -/
structure PaymentResult (F : Type) where
  warehouseId : Int
  districtId : Int
  cWId : Int
  cDId : Int
  customerId : Int
  hAmount : F

/-- The bytes of a row from its name on: a string that has no NUL there runs on through them. -/
def WarehouseVal.fromName {F : Type} (v : WarehouseVal F) : List UInt8 :=
  v.wName.bytes ++ v.wStreet1.bytes ++ v.wStreet2.bytes ++ v.wCity.bytes ++ v.wState.bytes ++
    v.wZip.bytes ++ v.padding.bytes

def DistrictVal.fromName {F : Type} (v : DistrictVal F) : List UInt8 :=
  v.dName.bytes ++ v.dStreet1.bytes ++ v.dStreet2.bytes ++ v.dCity.bytes ++ v.dState.bytes ++
    v.dZip.bytes ++ v.padding.bytes

/-- What `snprintf` writes about a payment of a customer with bad credit. -/
def paymentHistory {F : Type} [Amount F] (warehouseId districtId cWId cDId customerId : Int)
    (hAmount : F) : List UInt8 :=
  let comma := ", ".toUTF8.data.toList
  "(".toUTF8.data.toList ++ decimal customerId ++ comma ++ decimal cDId ++ comma ++ decimal cWId ++
    comma ++ decimal districtId ++ comma ++ decimal warehouseId ++ comma ++
    Amount.fixed2 hAmount ++ ")\n".toUTF8.data.toList

/-- The history is inserted before the data of a customer, whose end is cut off where the row has
no room for it. -/
def insertData {ρ K V : Type} (cData : CharArray 501) (history : List UInt8) :
    Act ρ K V (CharArray 501) := do
  let characters := history.length
  .assert (characters < 501)
  let data ← cString cData.bytes
  let currentKeep := if data.length + characters > 500 then 500 - characters else data.length
  .assert (currentKeep + characters ≤ 500)
  let moved ← .ofOption (cData.blit characters (cData.bytes.take currentKeep))
  let copied ← .ofOption (moved.blit 0 history)
  let ended ← .ofOption (copied.blit (characters + currentKeep) [0])
  .assert ((CharArray.cStr ended.bytes).length = characters + currentKeep)
  return ended

/-- The data of a customer after a payment: only a customer with bad credit has the payment
entered there. -/
def paymentData {ρ K V F : Type} (cust : CustomerVal F) (history : List UInt8) :
    Act ρ K V (CharArray 501) :=
  if CharArray.cStr cust.cCredit.bytes = badCredit then insertData cust.cData history
  else pure cust.cData

section

variable {ρ F : Type} [FloatRep F] [DecidableEq F] [Amount F] (env : Env ρ)

/-- The warehouse and the district of the customer, who may belong to another warehouse. -/
def payingCustomer {K V : Type} (W : Nat) (x warehouseId districtId : Int) :
    Act (Thread ρ) K V (Int × Int) := do
  if W = 1 ∨ x ≤ 85 then
    return (warehouseId, districtId)
  else
    let cWId ← otherWarehouse env W warehouseId
    let cDId ← randomNumber env 1 numDistrictPerWarehouse
    return (cWId, cDId)

/-- The customer.  A payment by last name draws the name, but not the customer by it. -/
def payingId (y : Int) : Act (Thread ρ) Key (Value F) Int := do
  if y ≤ 60 then
    let _size ← getNonUniformCustomerLastNameLoad env
    let lastName ← uninit env (chars 17)
    let name ← getNonUniformCustomerLastNameLoad env
    let _lastName ← strcpy lastName name
    getCustomerId env numCustomerPerDistrict
  else
    getCustomerId env numCustomerPerDistrict

def payWarehouse (warehouseId : Int) (hAmount : F) :
    Act (Thread ρ) Key (Value F) (WarehouseVal F) := do
  let ware ← uninit env warehouseVal
  let (_, ware) ← getRecord env warehouseVal (warehouseKey warehouseId) ware
  let ware := { ware with wYtd := ware.wYtd + hAmount }
  let _ ← putRecord warehouseVal (warehouseKey warehouseId) ware
  return ware

def payDistrict (warehouseId districtId : Int) (hAmount : F) :
    Act (Thread ρ) Key (Value F) (DistrictVal F) := do
  let dist ← uninit env districtVal
  let (_, dist) ← getRecord env districtVal (districtKey warehouseId districtId) dist
  let dist := { dist with dYtd := dist.dYtd + hAmount }
  let _ ← putRecord districtVal (districtKey warehouseId districtId) dist
  return dist

def payCustomer (warehouseId districtId cWId cDId customerId : Int) (hAmount : F) :
    Act (Thread ρ) Key (Value F) Unit := do
  let cust ← uninit env customerVal
  let (_, cust) ← getRecord env customerVal (customerKey cWId cDId customerId) cust
  let cPaymentCnt ← .ofOption (addInt32 cust.cPaymentCnt 1)
  let cData ← paymentData cust (paymentHistory warehouseId districtId cWId cDId customerId hAmount)
  let _ ← putRecord customerVal (customerKey cWId cDId customerId) { cust with
    cBalance := cust.cBalance - hAmount, cYtdPayment := cust.cYtdPayment + hAmount
    cPaymentCnt, cData }

def payHistory (warehouseId districtId cWId cDId customerId : Int) (hAmount : F)
    (ware : WarehouseVal F) (dist : DistrictVal F) : Act (Thread ρ) Key (Value F) Unit := do
  let hist ← uninit env historyVal
  let hDate ← getCurrentTimeMillis
  let hData ← strcpy hist.hData (← cString ware.fromName)
  let hData ← strcat hData "  ".toUTF8.data.toList
  let hData ← strcat hData (← cString dist.fromName)
  let _ ← putRecord historyVal (historyKey warehouseId districtId cWId cDId customerId)
    { hist with hDate, hAmount, hData }

def payment (W : Nat) : Act (Thread ρ) Key (Value F) (PaymentResult F) := do
  let x ← randomNumber env 1 100
  let y ← randomNumber env 1 100
  let warehouseId ← pickWarehouseId env 1 W
  let districtId ← randomNumber env 1 numDistrictPerWarehouse
  let (cWId, cDId) ← payingCustomer env W x warehouseId districtId
  let hAmount : F := Amount.quotient (← randomNumber env 100 500000) 100
  let customerId ← payingId env y
  let ware ← payWarehouse env warehouseId hAmount
  let dist ← payDistrict env warehouseId districtId hAmount
  payCustomer env warehouseId districtId cWId cDId customerId hAmount
  payHistory env warehouseId districtId cWId cDId customerId hAmount ware dist
  return { warehouseId, districtId, cWId, cDId, customerId, hAmount }

end

/-! ### What a payment writes -/

section Effect

variable {ρ F κ : Type} [FloatRep F] [DecidableEq F] [Amount F] [DecidableEq κ]

/-- What a `Payment` that returns has drawn, read and written. -/
structure PaymentResult.Effect (res : PaymentResult F) (addr : Key → κ) (W : Nat)
    (s s' : Store κ (Value F)) : Prop where
  warehouse : 1 ≤ res.warehouseId ∧ res.warehouseId < W
  district : 1 ≤ res.districtId ∧ res.districtId ≤ 10
  cWarehouse : 1 ≤ res.cWId ∧ res.cWId ≤ W
  cDistrict : 1 ≤ res.cDId ∧ res.cDId ≤ 10
  customer : 1 ≤ res.customerId ∧ res.customerId ≤ 3000
  amount : ∃ n, 100 ≤ n ∧ n ≤ 500000 ∧ res.hAmount = Amount.quotient n 100
  writes : ∃ old status ware old' status' dist old'' status'' cust count data hist s1 s2,
    Reads warehouseVal (s (addr (warehouseKey res.warehouseId))) old status ware ∧
    s1 = s.put (addr (warehouseKey res.warehouseId))
      (warehouseVal.encode { ware with wYtd := ware.wYtd + res.hAmount }) ∧
    Reads districtVal (s1 (addr (districtKey res.warehouseId res.districtId))) old' status' dist ∧
    s2 = s1.put (addr (districtKey res.warehouseId res.districtId))
      (districtVal.encode { dist with dYtd := dist.dYtd + res.hAmount }) ∧
    Reads customerVal (s2 (addr (customerKey res.cWId res.cDId res.customerId))) old'' status''
      cust ∧
    addInt32 cust.cPaymentCnt 1 = some count ∧ hist.hAmount = res.hAmount ∧
    s' = (s2.put (addr (customerKey res.cWId res.cDId res.customerId)) (customerVal.encode
      { cust with
        cBalance := cust.cBalance - res.hAmount, cYtdPayment := cust.cYtdPayment + res.hAmount
        cPaymentCnt := count, cData := data })).put
      (addr (historyKey res.warehouseId res.districtId res.cWId res.cDId res.customerId))
      (historyVal.encode hist)

variable {env : Env ρ} {addr : Key → κ} {W : Nat} {t : Thread ρ} {s : Store κ (Value F)}

omit [FloatRep F] [DecidableEq F] [Amount F] [DecidableEq κ] in
theorem wp_insertData {r : ρ} {S K V : Type} {L : Logic K V S} {s : S} {cData : CharArray 501}
    {history : List UInt8} {Q : CharArray 501 → ρ → S → Prop} (stick : L.mayStick)
    (h : ∀ data, Q data r s) : Act.wp L (insertData cData history) Q r s := by
  simp only [insertData, cString, Act.wp_bind, Act.wp_pure]
  refine Act.wp_assert (fun _ => ?_) (.inl stick)
  refine Act.wp_assert (fun _ => ?_) (.inl stick)
  refine Act.wp_assert (fun _ => ?_) (.inl stick)
  refine Act.wp_ofOption (fun moved _ => ?_) (.inl stick)
  refine Act.wp_ofOption (fun copied _ => ?_) (.inl stick)
  refine Act.wp_ofOption (fun ended _ => ?_) (.inl stick)
  exact Act.wp_assert (fun _ => h ended) (.inl stick)

omit [FloatRep F] [DecidableEq F] [Amount F] [DecidableEq κ] in
theorem wp_paymentData {r : ρ} {S K V : Type} {L : Logic K V S} {s : S} {cust : CustomerVal F}
    {history : List UInt8} {Q : CharArray 501 → ρ → S → Prop} (stick : L.mayStick)
    (h : ∀ data, Q data r s) : Act.wp L (paymentData cust history) Q r s := by
  unfold paymentData
  split
  · exact wp_insertData stick h
  · exact h cust.cData

theorem wp_payingCustomer {S K V : Type} {L : Logic K V S} {s : S} {x w d : Int}
    {Q : Int × Int → Thread ρ → S → Prop} (stick : L.mayStick) (hw : 1 ≤ w ∧ w ≤ W)
    (hd : 1 ≤ d ∧ d ≤ 10)
    (h : ∀ cw cd t, 1 ≤ cw ∧ cw ≤ (W : Int) → 1 ≤ cd ∧ cd ≤ 10 → Q (cw, cd) t s) :
    Act.wp L (payingCustomer env W x w d) Q t s := by
  unfold payingCustomer
  split
  · exact h w d t hw hd
  · simp only [Act.wp_bind, Act.wp_pure]
    refine wp_otherWarehouse stick fun cw t lower upper _ => ?_
    exact wp_randomNumber (.inl stick) fun cd t low high => h cw cd t ⟨lower, upper⟩ ⟨low, high⟩

omit [DecidableEq F] [Amount F] in
theorem wp_payingId {S : Type} {L : Logic Key (Value F) S} {s : S} {y : Int}
    {Q : Int → Thread ρ → S → Prop} (stick : L.mayStick)
    (h : ∀ (c : Int) t, 1 ≤ c ∧ c ≤ 3000 → Q c t s) : Act.wp L (payingId env y) Q t s := by
  unfold payingId
  split
  · simp only [strcpy, Act.wp_bind]
    refine wp_getNonUniformCustomerLastNameLoad fun _ t _ => wp_uninit fun _ t => ?_
    refine wp_getNonUniformCustomerLastNameLoad fun _ t _ => ?_
    refine Act.wp_ofOption (fun _ _ => ?_) (.inl stick)
    exact wp_getCustomerId (.inl stick) fun c t lower upper => h c t ⟨lower, upper⟩
  · exact wp_getCustomerId (.inl stick) fun c t lower upper => h c t ⟨lower, upper⟩

theorem wp_payCustomer {w d cw cd c : Int} {amount : F}
    {Q : Unit → Thread ρ → Store κ (Value F) → Prop}
    (h : ∀ old status cust count data t,
      Reads customerVal (s (addr (customerKey cw cd c))) old status cust →
      addInt32 cust.cPaymentCnt 1 = some count →
      Q () t (s.put (addr (customerKey cw cd c)) (customerVal.encode { cust with
        cBalance := cust.cBalance - amount, cYtdPayment := cust.cYtdPayment + amount
        cPaymentCnt := count, cData := data }))) :
    Act.wp (Contract.partly (Value F) addr).logic (payCustomer env w d cw cd c amount) Q t s := by
  simp only [payCustomer, Act.wp_bind, Act.wp_pure, wp_putRecord]
  refine wp_uninit fun old t => wp_getRecord ⟨trivial, fun status cust t reads => ?_⟩
  refine Act.wp_ofOption (fun count hcount => ?_) (.inl trivial)
  exact wp_paymentData trivial fun data =>
    ⟨trivial, h old status cust count data t reads hcount⟩

omit [Amount F] in
theorem wp_payHistory {w d cw cd c : Int} {amount : F} {ware : WarehouseVal F}
    {dist : DistrictVal F} {Q : Unit → Thread ρ → Store κ (Value F) → Prop}
    (h : ∀ hist t, hist.hAmount = amount →
      Q () t (s.put (addr (historyKey w d cw cd c)) (historyVal.encode hist))) :
    Act.wp (Contract.partly (Value F) addr).logic
      (payHistory env w d cw cd c amount ware dist) Q t s := by
  simp only [payHistory, strcpy, strcat, cString, Act.wp_bind, Act.wp_pure, wp_putRecord]
  refine wp_uninit fun hist t => wp_getCurrentTimeMillis fun hDate t => ?_
  refine Act.wp_assert (fun _ => Act.wp_ofOption (fun _ _ => ?_) (.inl trivial)) (.inl trivial)
  refine Act.wp_ofOption (fun _ _ => Act.wp_assert (fun _ => ?_) (.inl trivial)) (.inl trivial)
  exact Act.wp_ofOption (fun _ _ => ⟨trivial, h _ t rfl⟩) (.inl trivial)

/-- What a payment draws, before it reads and writes. -/
theorem wp_payment_draws {S : Type} {L : Logic Key (Value F) S} {s : S}
    {Q : PaymentResult F → Thread ρ → S → Prop} (stick : L.mayStick)
    (h : ∀ (w d cw cd n c : Int) t, 1 ≤ w ∧ w < W → 1 ≤ d ∧ d ≤ 10 → 1 ≤ cw ∧ cw ≤ W →
      1 ≤ cd ∧ cd ≤ 10 → 1 ≤ c ∧ c ≤ 3000 → 100 ≤ n ∧ n ≤ 500000 →
      let amount : F := Amount.quotient n 100
      Act.wp L (payWarehouse env w amount) (fun ware => Act.wp L (payDistrict env w d amount)
        fun dist => Act.wp L (payCustomer env w d cw cd c amount) fun _ =>
          Act.wp L (payHistory env w d cw cd c amount ware dist) fun _ =>
            Q ⟨w, d, cw, cd, c, amount⟩) t s) :
    Act.wp L (payment env W) Q t s := by
  simp only [payment, Act.wp_bind, Act.wp_pure]
  refine wp_randomNumber (.inl stick) fun x t _ _ => ?_
  refine wp_randomNumber (.inl stick) fun y t _ _ => ?_
  refine wp_pickWarehouseId (.inl stick) fun w t hw hw' => ?_
  refine wp_randomNumber (.inl stick) fun d t hd hd' => ?_
  refine wp_payingCustomer stick ⟨hw, hw'.le⟩ ⟨hd, hd'⟩ fun cw cd t hcw hcd => ?_
  refine wp_randomNumber (.inl stick) fun n t hn hn' => wp_payingId stick fun c t hc => ?_
  exact h w d cw cd n c t ⟨hw, hw'⟩ ⟨hd, hd'⟩ hcw hcd hc ⟨hn, hn'⟩

theorem payment_effect {s' : Store κ (Value F)} {t' : Thread ρ} {res : PaymentResult F}
    (returns : Act.Returns addr (payment env W) t s res t' s') : res.Effect addr W s s' := by
  refine Act.wp_returns (C := Contract.partly (Value F) addr)
    (Q := fun res _ s' => res.Effect addr W s s') ?_ returns
  refine wp_payment_draws trivial fun w d cw cd n c t hw hd hcw hcd hc hn => ?_
  simp only [payWarehouse, payDistrict, Act.wp_bind, Act.wp_pure, wp_putRecord]
  refine wp_uninit fun old t => wp_getRecord ⟨trivial, fun status ware t readsW => ⟨trivial, ?_⟩⟩
  refine wp_uninit fun old' t => wp_getRecord ⟨trivial, fun status' dist t readsD =>
    ⟨trivial, ?_⟩⟩
  refine wp_payCustomer fun old'' status'' cust count data t readsC hcount => ?_
  refine wp_payHistory fun hist t amount => ?_
  exact ⟨hw, hd, hcw, hcd, hc, ⟨n, hn.1, hn.2, rfl⟩, old, status, ware, old', status',
    dist, old'', status'', cust, count, data, hist, _, _, readsW, rfl, readsD, rfl, readsC, hcount,
    amount, rfl⟩

end Effect

end Tpcc
