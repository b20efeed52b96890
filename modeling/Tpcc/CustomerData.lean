import Tpcc.LoadedTables

/-! The data of a customer with bad credit.  Each payment puts a text before the data and cuts off
what then goes beyond 500 characters, by moving the data within its array.  After any number of
payments the data are the first 500 characters of all the texts, the latest first, and of the data
that there were. -/

namespace Tpcc

open KvProgram Layout

theorem take_append_take {α : Type} (n : Nat) (a b : List α) :
    (a ++ b.take n).take n = (a ++ b).take n := by
  rw [List.take_append, List.take_append, List.take_take, Nat.min_eq_left (Nat.sub_le ..)]

section

variable {ρ K V F : Type}

/-- A text that `snprintf` leaves in a buffer of 501 bytes. -/
def IsText (text : List UInt8) : Prop := 0 ∉ text ∧ text.length ≤ 500

/-- The three copies of an insertion leave the text, what is kept of the data, and a NUL. -/
theorem blits_bytes (cData : CharArray 501) {text : List UInt8} {keep : Nat}
    (room : text.length + keep ≤ 500) :
    ∃ moved copied ended, cData.blit text.length (cData.bytes.take keep) = some moved ∧
      moved.blit 0 text = some copied ∧ copied.blit (text.length + keep) [0] = some ended ∧
      ended.bytes = text ++ cData.bytes.take keep ++
        0 :: copied.bytes.drop (text.length + keep + 1) := by
  have length := cData.length_eq
  have kept : (cData.bytes.take keep).length = keep := List.length_take_of_le (by omega)
  have before : (cData.bytes.take text.length).length = text.length :=
    List.length_take_of_le (by omega)
  obtain ⟨moved, hmoved, movedBytes⟩ :=
    cData.blit_of_le text.length (cData.bytes.take keep) (by omega)
  obtain ⟨copied, hcopied, copiedBytes⟩ := moved.blit_of_le 0 text (by omega)
  obtain ⟨ended, hended, endedBytes⟩ := copied.blit_of_le (text.length + keep) [0] (by simp; omega)
  refine ⟨moved, copied, ended, hmoved, hcopied, hended, ?_⟩
  have after : moved.bytes.drop text.length =
      cData.bytes.take keep ++ cData.bytes.drop (text.length + keep) := by
    rw [movedBytes, List.append_assoc, List.drop_left' before, kept]
  have copies : copied.bytes =
      text ++ cData.bytes.take keep ++ cData.bytes.drop (text.length + keep) := by
    rw [copiedBytes, List.take_zero, Nat.zero_add, List.nil_append, after, List.append_assoc]
  have start : copied.bytes.take (text.length + keep) = text ++ cData.bytes.take keep := by
    rw [copies, List.take_left' (by rw [List.length_append, kept])]
  rw [endedBytes, start, List.append_assoc, List.singleton_append]
  rfl

/-- What is kept of the data are their first characters. -/
theorem take_cStr {bytes : List UInt8} {keep : Nat} (le : keep ≤ (CharArray.cStr bytes).length) :
    bytes.take keep = (CharArray.cStr bytes).take keep := by
  obtain ⟨rest, split⟩ := CharArray.cStr_isPrefixOf bytes
  conv_lhs => rw [← split]
  exact List.take_append_of_le_length le

/-- An insertion stays in the array and passes its assertions; the data are then the text and what
fits of the old data. -/
theorem insertData_eq {cData : CharArray 501} {text : List UInt8} (ended : 0 ∈ cData.bytes)
    (isText : IsText text) : ∃ data : CharArray 501, 0 ∈ data.bytes ∧
      CharArray.cStr data.bytes = (text ++ CharArray.cStr cData.bytes).take 500 ∧
      (insertData cData text : Act ρ K V (CharArray 501)) = pure data := by
  obtain ⟨noNul, short⟩ := isText
  have size := CharArray.cStr_length_lt ended
  rw [cData.length_eq] at size
  let keep := if (CharArray.cStr cData.bytes).length + text.length > 500 then 500 - text.length
    else (CharArray.cStr cData.bytes).length
  have room : text.length + keep ≤ 500 := by
    simp only [keep]
    split <;> omega
  have le : keep ≤ (CharArray.cStr cData.bytes).length := by
    simp only [keep]
    split <;> omega
  obtain ⟨moved, copied, data, hmoved, hcopied, hdata, bytes⟩ := blits_bytes cData room
  rw [take_cStr le] at bytes
  have characters : CharArray.cStr data.bytes = text ++ (CharArray.cStr cData.bytes).take keep := by
    rw [bytes, CharArray.cStr_append_zero]
    intro zero
    rcases List.mem_append.mp zero with zero | zero
    · exact noNul zero
    · exact CharArray.zero_notMem_cStr _ (List.mem_of_mem_take zero)
  have length : (CharArray.cStr data.bytes).length = text.length + keep := by
    rw [characters, List.length_append, List.length_take_of_le le]
  refine ⟨data, by simp [bytes], ?_, ?_⟩
  · rw [characters, List.take_append, List.take_of_length_le short]
    congr 1
    simp only [keep]
    split
    · rfl
    · rw [List.take_of_length_le le_rfl, List.take_of_length_le (by omega)]
  · have read :
        (cString cData.bytes : Act ρ K V (List UInt8)) = pure (CharArray.cStr cData.bytes) := by
      rw [cString, Act.assert_pos ended, Act.pure_bind]
    have fits : keep + text.length ≤ 500 := by omega
    rw [insertData, Act.assert_pos (show text.length < 501 by omega), Act.pure_bind, read,
      Act.pure_bind]
    show (Act.assert (keep + text.length ≤ 500) >>= _) = _
    rw [Act.assert_pos fits, Act.pure_bind, Act.ofOption_some hmoved, Act.pure_bind,
      Act.ofOption_some hcopied, Act.pure_bind, Act.ofOption_some hdata, Act.pure_bind,
      Act.assert_pos length, Act.pure_bind]

end

/-! ### Payments -/

section Payments

variable {F : Type} [FloatRep F] [DecidableEq F] [Amount F]

/-- The text that a payment enters in the data of a customer with bad credit. -/
def PaymentResult.text (res : PaymentResult F) : List UInt8 :=
  paymentHistory res.warehouseId res.districtId res.cWId res.cDId res.customerId res.hAmount

/-- The customer who pays. -/
def PaymentResult.payer (res : PaymentResult F) : Key :=
  customerKey res.cWId res.cDId res.customerId

omit [FloatRep F] [DecidableEq F] [Amount F] in
@[simp] theorem PaymentResult.table_payer {res : PaymentResult F} : res.payer.table = .customer :=
  rfl

/-- A payment that runs alone, with any draws. -/
def Paid (W : Nat) (s : Store Key (Value F)) (res : PaymentResult F) (s' : Store Key (Value F)) :
    Prop :=
  ∃ (ρ : Type) (env : Env ρ) (t t' : Thread ρ), Act.Returns id (payment env W) t s res t' s'

variable {W : Nat} {cust : CustomerVal F} {history characters : List UInt8} {k : Key}
  {s s' : Store Key (Value F)} {res : PaymentResult F}

omit [FloatRep F] [DecidableEq F] [Amount F] in
/-- The data after a payment of a customer with bad credit. -/
theorem paymentData_bad {ρ K V : Type} (bad : CharArray.cStr cust.cCredit.bytes = badCredit)
    (ended : 0 ∈ cust.cData.bytes) (isText : IsText history) : ∃ data : CharArray 501,
      0 ∈ data.bytes ∧
      CharArray.cStr data.bytes = (history ++ CharArray.cStr cust.cData.bytes).take 500 ∧
      (paymentData cust history : Act ρ K V (CharArray 501)) = pure data := by
  rw [paymentData, if_pos bad]
  exact insertData_eq ended isText

theorem wp_payCustomer_row {ρ κ : Type} [DecidableEq κ] {C : Contract Key (Value F) κ} {env : Env ρ}
    {t : Thread ρ} {s : Store κ (Value F)} {w d cw cd c : Int} {amount : F} {data : CharArray 501}
    {Q : Unit → Thread ρ → Store κ (Value F) → Prop}
    (mayGet : ∀ k n v, C.mayGet k n v) (mayPut : ∀ k v, C.mayPut k v)
    (row : s (C.addr (customerKey cw cd c)) = some (customerVal.encode cust))
    (room : C.mayStick ∨ ∃ count, addInt32 cust.cPaymentCnt 1 = some count)
    (entered : (paymentData cust (paymentHistory w d cw cd c amount) :
      Act (Thread ρ) Key (Value F) (CharArray 501)) = pure data)
    (h : ∀ count t, Q () t (s.put (C.addr (customerKey cw cd c)) (customerVal.encode { cust with
      cBalance := cust.cBalance - amount, cYtdPayment := cust.cYtdPayment + amount
      cPaymentCnt := count, cData := data }))) :
    Act.wp C.logic (payCustomer env w d cw cd c amount) Q t s := by
  simp only [payCustomer, Act.wp_bind, Act.wp_pure, wp_putRecord]
  refine wp_uninit fun old t => wp_getRecord_row row (mayGet _ _ _) fun t => ?_
  refine Act.wp_ofOption (fun count _ => ?_) (room.imp_right Option.isSome_iff_exists.mpr)
  rw [entered, Act.wp_pure]
  exact ⟨mayPut _ _, h count t⟩

omit [FloatRep F] [DecidableEq F] [Amount F] in
/-- The totals of a warehouse and a district are not in the rows of the customers. -/
theorem customer_after_totals {w d : Int} {v v' : Value F} (table : k.table = .customer) :
    (s.put (warehouseKey w) v).put (districtKey w d) v' k = s k :=
  (sameOn_put (by simp)).put_other (by simp) k table

/-- The row of a customer with bad credit after a payment of theirs. -/
theorem Paid.enters (paid : Paid W s res s') (row : s res.payer = some (customerVal.encode cust))
    (bad : CharArray.cStr cust.cCredit.bytes = badCredit) (ended : 0 ∈ cust.cData.bytes)
    (isText : IsText res.text) : ∃ cust' : CustomerVal F,
      s' res.payer = some (customerVal.encode cust') ∧
      CharArray.cStr cust'.cCredit.bytes = badCredit ∧ 0 ∈ cust'.cData.bytes ∧
      CharArray.cStr cust'.cData.bytes =
        (res.text ++ CharArray.cStr cust.cData.bytes).take 500 := by
  obtain ⟨ρ, env, t, t', returns⟩ := paid
  refine Act.wp_returns (C := Contract.partly (Value F) id) (Q := fun res _ s' =>
    ∀ cust : CustomerVal F, s res.payer = some (customerVal.encode cust) →
      CharArray.cStr cust.cCredit.bytes = badCredit → 0 ∈ cust.cData.bytes → IsText res.text →
      ∃ cust' : CustomerVal F, s' res.payer = some (customerVal.encode cust') ∧
        CharArray.cStr cust'.cCredit.bytes = badCredit ∧ 0 ∈ cust'.cData.bytes ∧
        CharArray.cStr cust'.cData.bytes = (res.text ++ CharArray.cStr cust.cData.bytes).take 500)
    ?_ returns cust row bad ended isText
  refine wp_payment_draws trivial fun w d cw cd n c t _ _ _ _ _ _ => ?_
  simp only [payWarehouse, payDistrict, Act.wp_bind, Act.wp_pure, wp_putRecord]
  refine wp_uninit fun old t => wp_getRecord ⟨trivial, fun _ ware t _ => ⟨trivial, ?_⟩⟩
  refine wp_uninit fun old' t => wp_getRecord ⟨trivial, fun _ dist t _ => ⟨trivial, ?_⟩⟩
  let text := paymentHistory w d cw cd c (Amount.quotient n 100 : F)
  by_cases good : ∃ cust : CustomerVal F, s (customerKey cw cd c) = some (customerVal.encode cust) ∧
    CharArray.cStr cust.cCredit.bytes = badCredit ∧ 0 ∈ cust.cData.bytes ∧ IsText text
  · obtain ⟨cust, row, bad, ended, isText⟩ := good
    obtain ⟨data, dataEnded, value, entered⟩ :=
      paymentData_bad (ρ := Thread ρ) (K := Key) bad ended isText
    refine wp_payCustomer_row (fun _ _ _ => trivial) (fun _ _ => trivial)
      ((customer_after_totals rfl).trans row) (.inl trivial) entered fun count t =>
        wp_payHistory fun hist t _ => ?_
    intro cust' row' _ _ _
    obtain rfl : cust' = cust := by
      have same : customerVal.encode cust' = customerVal.encode cust :=
        Option.some.inj (row'.symm.trans row)
      exact customerVal.encode_injective same
    exact ⟨_, (Store.put_of_ne (Key.ne_of_table (by simp))).trans Store.put_self, bad, dataEnded,
      value⟩
  · refine wp_payCustomer fun _ _ _ _ _ t _ _ => wp_payHistory fun hist t _ => ?_
    exact fun cust row bad ended isText => absurd ⟨cust, row, bad, ended, isText⟩ good

theorem PaymentResult.Effect.customer_of_ne {k : Key} (h : res.Effect id W s s')
    (table : k.table = .customer) (ne : k ≠ res.payer) : s' k = s k := by
  obtain ⟨_, _, ware, _, _, dist, _, _, cust, _, _, hist, _, _, _, rfl, _, rfl, _, _, _, rfl⟩ :=
    h.writes
  exact ((sameOn_put (by simp) k table).trans (Store.put_of_ne ne)).trans
    (customer_after_totals table)

/-- A customer with bad credit, whose data are the first 500 characters of a string. -/
structure HasData (k : Key) (characters : List UInt8) (s : Store Key (Value F))
    (cust : CustomerVal F) : Prop where
  row : s k = some (customerVal.encode cust)
  bad : CharArray.cStr cust.cCredit.bytes = badCredit
  ended : 0 ∈ cust.cData.bytes
  data : CharArray.cStr cust.cData.bytes = characters.take 500

/-- The texts of the payments of a customer, the latest first. -/
def textsOf (k : Key) (payments : List (PaymentResult F)) : List UInt8 :=
  (payments.filter (·.payer = k)).flatMap (·.text)

omit [FloatRep F] [DecidableEq F] in
theorem textsOf_cons {payments : List (PaymentResult F)} : textsOf k (res :: payments) =
    (if res.payer = k then res.text else []) ++ textsOf k payments := by
  by_cases own : res.payer = k <;> simp [textsOf, own]

theorem HasData.step {payments : List (PaymentResult F)} (table : k.table = .customer)
    (h : HasData k (textsOf k payments ++ characters) s cust) (paid : Paid W s res s')
    (isText : IsText res.text) :
    ∃ cust', HasData k (textsOf k (res :: payments) ++ characters) s' cust' := by
  by_cases own : res.payer = k
  · subst own
    obtain ⟨cust', row, bad, ended, data⟩ := paid.enters h.row h.bad h.ended isText
    refine ⟨cust', row, bad, ended, ?_⟩
    rw [data, h.data, take_append_take, textsOf_cons, if_pos rfl, List.append_assoc]
  · obtain ⟨ρ, env, t, t', returns⟩ := paid
    have same := (payment_effect returns).customer_of_ne table (Ne.symm own)
    refine ⟨cust, same.trans h.row, h.bad, h.ended, ?_⟩
    rw [h.data, textsOf_cons, if_neg own, List.nil_append]

/-- The data of a customer with bad credit after any payments, of this customer and of others: the
first 500 characters of the texts of this customer, the latest first, and of the data of before.
The next payment enters its text within the array and passes its assertions. -/
theorem customer_data {cw cd c : Int} {first : CustomerVal F} {payments : List (PaymentResult F)}
    (row : s (customerKey cw cd c) = some (customerVal.encode first))
    (bad : CharArray.cStr first.cCredit.bytes = badCredit) (data : first.cData.IsStr 500)
    (run : Run (· = s) (fun s res s' => IsText res.text ∧ Paid W s res s') payments s') :
    ∃ cust : CustomerVal F, s' (customerKey cw cd c) = some (customerVal.encode cust) ∧
      CharArray.cStr cust.cData.bytes =
        (textsOf (customerKey cw cd c) payments ++ CharArray.cStr first.cData.bytes).take 500 ∧
      ∀ (ρ : Type) (text : List UInt8), IsText text → ∃ data : CharArray 501, 0 ∈ data.bytes ∧
        CharArray.cStr data.bytes = (text ++ CharArray.cStr cust.cData.bytes).take 500 ∧
        (paymentData cust text : Act (Thread ρ) Key (Value F) (CharArray 501)) = pure data := by
  obtain ⟨ended, length⟩ := data
  obtain ⟨cust, h⟩ := Run.invariant (I := fun payments s => ∃ cust, HasData (customerKey cw cd c)
    (textsOf (customerKey cw cd c) payments ++ CharArray.cStr first.cData.bytes) s cust)
    (fun _ same => ⟨first, same ▸ row, bad, ended, (List.take_of_length_le length).symm⟩)
    (fun payments s res s' ⟨cust, h⟩ ⟨isText, paid⟩ => h.step rfl paid isText) run
  exact ⟨cust, h.row, h.data, fun ρ text isText => paymentData_bad h.bad h.ended isText⟩

end Payments

/-! ### A payment that returns -/

section Counting

variable {F S : Type} [FloatRep F] [DecidableEq F] [Amount F] {L : Logic Key (Value ℚ) S}
  {t : Thread Nat} {s : S}

theorem wp_counting_getCustomerId {Q : Int → Thread Nat → S → Prop} (h : Q 261 t s) :
    Act.wp L (getCustomerId Env.counting numCustomerPerDistrict) Q t s := by
  simp only [getCustomerId, nonUniformRandom, Act.wp_bind, Act.wp_pure]
  refine wp_counting_randomNumber (by decide) (wp_counting_randomNumber (by decide) ?_)
  exact wp_checkBetweenInclusive (.inr (by decide)) fun _ _ => h

theorem wp_counting_payingId {y : Int} {Q : Int → Thread Nat → S → Prop} (h : ∀ t, Q 261 t s) :
    Act.wp L (payingId Env.counting y) Q t s := by
  unfold payingId
  split
  · simp only [strcpy, Act.wp_bind]
    refine wp_getNonUniformCustomerLastNameLoad fun _ t _ => wp_uninit fun _ t => ?_
    refine wp_getNonUniformCustomerLastNameLoad fun num t _ => ?_
    have short := length_getCustomerLastName num
    refine Act.wp_ofOption (fun _ _ => ?_) (.inr (CharArray.strcpy_isSome (by omega)))
    exact wp_counting_getCustomerId (h _)
  · exact wp_counting_getCustomerId (h t)

omit [FloatRep F] [DecidableEq F] [Amount F] in
theorem WarehouseVal.isStr_fromName {v : WarehouseVal F} (h : v.wName.IsStr 10) :
    0 ∈ v.fromName ∧ (CharArray.cStr v.fromName).length ≤ 10 := by
  simp only [fromName, List.append_assoc]
  exact h.append _

omit [FloatRep F] [DecidableEq F] [Amount F] in
theorem DistrictVal.isStr_fromName {v : DistrictVal F} (h : v.dName.IsStr 10) :
    0 ∈ v.fromName ∧ (CharArray.cStr v.fromName).length ≤ 10 := by
  simp only [fromName, List.append_assoc]
  exact h.append _

omit [Amount F] in
/-- The data of a history row have room for two names of at most ten characters, and the two
spaces between them. -/
theorem wp_payHistory_put {ρ S : Type} {L : Logic Key (Value F) S} {env : Env ρ}
    {t : Thread ρ} {s : S}
    {w d cw cd c : Int} {amount : F} {ware : WarehouseVal F} {dist : DistrictVal F}
    {Q : Unit → Thread ρ → S → Prop} (wName : ware.wName.IsStr 10) (dName : dist.dName.IsStr 10)
    (h : ∀ hist t, L.onPut (historyKey w d cw cd c) (historyVal.encode hist) (Q () t) s) :
    Act.wp L (payHistory env w d cw cd c amount ware dist) Q t s := by
  obtain ⟨wEnded, wLength⟩ := WarehouseVal.isStr_fromName wName
  obtain ⟨dEnded, dLength⟩ := DistrictVal.isStr_fromName dName
  have spaces : "  ".toUTF8.data.toList.length = 2 := by decide
  simp only [payHistory, strcat, cString, Act.wp_bind, Act.wp_pure, wp_putRecord]
  refine wp_uninit fun hist t => wp_getCurrentTimeMillis fun hDate t => ?_
  refine Act.wp_assert (fun _ => wp_strcpy (.inr (by omega)) fun first copied => ?_) (.inr wEnded)
  have firstLength : (CharArray.cStr first.bytes).length ≤ 10 := by
    rw [CharArray.cStr_strcpy copied]
    exact (CharArray.cStr_length_le _).trans wLength
  refine wp_strcpy (.inr ?_) fun second copied => ?_
  · rw [List.length_append]
    omega
  have secondLength : (CharArray.cStr second.bytes).length ≤ 12 := by
    rw [CharArray.cStr_strcpy copied]
    apply (CharArray.cStr_length_le _).trans
    rw [List.length_append]
    omega
  refine Act.wp_assert (fun _ => wp_strcpy (.inr ?_) fun third _ => ?_) (.inr dEnded)
  · rw [List.length_append]
    omega
  · exact h _ t

omit [Amount F] in
theorem wp_payHistory_named {ρ κ : Type} [DecidableEq κ] {C : Contract Key (Value F) κ}
    {env : Env ρ}
    {t : Thread ρ} {s : Store κ (Value F)} {w d cw cd c : Int} {amount : F} {ware : WarehouseVal F}
    {dist : DistrictVal F} {Q : Unit → Thread ρ → Store κ (Value F) → Prop}
    (mayPut : ∀ k v, C.mayPut k v) (wName : ware.wName.IsStr 10) (dName : dist.dName.IsStr 10)
    (h : ∀ hist t, Q () t (s.put (C.addr (historyKey w d cw cd c)) (historyVal.encode hist))) :
    Act.wp C.logic (payHistory env w d cw cd c amount ware dist) Q t s :=
  wp_payHistory_put wName dName fun hist t => ⟨mayPut _ _, h hist t⟩

omit [FloatRep F] [DecidableEq F] [Amount F] in
theorem wp_counting_payingCustomer {K V S : Type} {L : Logic K V S} {s : S}
    {t : Thread Nat} {W : Nat}
    {w d : Int} {Q : Int × Int → Thread Nat → S → Prop} (h : Q (w, d) t s) :
    Act.wp L (payingCustomer Env.counting W 1 w d) Q t s := by
  rw [payingCustomer, if_pos (.inr (by decide))]
  exact h

omit [FloatRep F] [DecidableEq F] [Amount F] in
theorem paymentData_total {ρ K V : Type} {cust : CustomerVal F} {history : List UInt8}
    (data : cust.cData.IsStr 500) (isText : IsText history) : ∃ data : CharArray 501,
      (paymentData cust history : Act ρ K V (CharArray 501)) = pure data := by
  unfold paymentData
  split
  · obtain ⟨data, _, _, entered⟩ := insertData_eq (ρ := ρ) (K := K) (V := V) data.1 isText
    exact ⟨data, entered⟩
  · exact ⟨cust.cData, rfl⟩

/-- The payment that `Env.counting` draws: a customer pays one. -/
def samplePayment : PaymentResult ℚ := ⟨1, 1, 1, 1, 261, Amount.quotient 100 100⟩

theorem samplePayment_isText : IsText samplePayment.text := by
  unfold IsText
  decide +kernel

/-- The payment that `Env.counting` draws returns, where its rows are as the loader leaves them. -/
theorem exists_paid {s : Store Key (Value ℚ)} {ware : WarehouseVal ℚ} {dist : DistrictVal ℚ}
    {cust : CustomerVal ℚ} (hware : s (warehouseKey 1) = some (warehouseVal.encode ware))
    (wName : ware.wName.IsStr 10) (hdist : s (districtKey 1 1) = some (districtVal.encode dist))
    (dName : dist.dName.IsStr 10)
    (hcust : s (customerKey 1 1 261) = some (customerVal.encode cust)) (paid : cust.cPaymentCnt = 1)
    (data : cust.cData.IsStr 500) :
    ∃ s', Paid 2 s samplePayment s' := by
  obtain ⟨_, entered⟩ :=
    paymentData_total (ρ := Thread Nat) (K := Key) (V := Value ℚ) data samplePayment_isText
  have run : Act.wp (Contract.totally (Value ℚ) id).logic (payment Env.counting 2)
      (fun res _ _ => res = samplePayment) ⟨0, 0⟩ s := by
    simp only [payment, payWarehouse, payDistrict, Act.wp_bind, Act.wp_pure, wp_putRecord]
    refine wp_counting_randomNumber (by decide) (wp_counting_randomNumber (by decide) ?_)
    refine wp_pickWarehouseId (.inr (by decide)) fun w t hw hw' => ?_
    obtain rfl : w = 1 := by omega
    refine wp_counting_randomNumber (by decide) (wp_counting_payingCustomer ?_)
    refine wp_counting_randomNumber (by decide) (wp_counting_payingId fun t => ?_)
    refine wp_uninit fun _ t => wp_getRecord_row hware trivial fun t => ⟨trivial, ?_⟩
    have apart (v : Value ℚ) : (s.put (warehouseKey 1) v) (districtKey 1 1) = _ :=
      (Store.put_of_ne (Key.ne_of_table (by simp))).trans hdist
    refine wp_uninit fun _ t => wp_getRecord_row (apart _) trivial fun t => ⟨trivial, ?_⟩
    refine wp_payCustomer_row (fun _ _ _ => trivial) (fun _ _ => trivial)
      ((customer_after_totals rfl).trans hcust) (.inr ⟨2, by rw [paid]; decide⟩) entered
      fun count t => ?_
    exact wp_payHistory_named (fun _ _ => trivial) wName dName fun hist t => rfl
  obtain ⟨res, t', s', returns, rfl⟩ := Act.returns_of_wp run id
  exact ⟨s', Nat, Env.counting, ⟨0, 0⟩, t', returns⟩

/-- From the loaded tables, that payment returns. -/
theorem exists_loaded_paid : ∃ first s : Store Key (Value ℚ),
    Loaded id 2 first ∧ Paid 2 first samplePayment s := by
  obtain ⟨first, loaded⟩ := exists_loaded id (W := 2) (by norm_num)
  have hd : IsDistrict 2 1 1 := ⟨by decide, by decide⟩
  obtain ⟨ware, hware, _, wName⟩ := loaded.tables.warehouse hd.1
  obtain ⟨dist, hdist, _, _, dName⟩ := loaded.tables.district hd
  obtain ⟨cust, hcust, _, once, data⟩ := loaded.tables.customer hd (c := 261) (by decide)
  obtain ⟨s, paid⟩ := exists_paid hware wName hdist dName hcust once data
  exact ⟨first, s, loaded, paid⟩

theorem exists_payment : ∃ s : Store Key (Value ℚ), Reached id 2 [.payment samplePayment] s := by
  obtain ⟨first, s, loaded, ρ, env, t, t', returns⟩ := exists_loaded_paid
  have step : Step id 2 first (.payment samplePayment) s := ⟨ρ, env, .payment, t, t',
    Act.returns_bind.mpr ⟨samplePayment, t', s, returns, Act.returns_pure.mpr ⟨rfl, rfl, rfl⟩⟩⟩
  exact ⟨s, .next (.start loaded) step⟩

end Counting

/-! ### A customer with bad credit -/

/-- A customer whose data leave room for ten characters: the last of them are cut off. -/
def badCustomer : CustomerVal ℚ :=
  { zeroRow customerVal with
    cPaymentCnt := 1
    cCredit := CharArray.ofBytes 3 badCredit
    cData := CharArray.ofBytes 501 (List.replicate 490 120) }

/-- A store whose customers have bad credit. -/
def badCreditStore : Store Key (Value ℚ) := fun k =>
  match k.table with
  | .warehouse => some (warehouseVal.encode (zeroRow warehouseVal))
  | .district => some (districtVal.encode (zeroRow districtVal))
  | .customer => some (customerVal.encode badCustomer)
  | _ => none

theorem badCreditStore_paid : ∃ s', Paid 2 badCreditStore samplePayment s' := by
  have wName : (zeroRow warehouseVal : WarehouseVal ℚ).wName.IsStr 10 := ⟨by decide, by decide⟩
  have dName : (zeroRow districtVal : DistrictVal ℚ).dName.IsStr 10 := ⟨by decide, by decide⟩
  have data : badCustomer.cData.IsStr 500 := ⟨by decide +kernel, by decide +kernel⟩
  exact exists_paid rfl wName rfl dName rfl rfl data

theorem customer_data_once : ∃ (s' : Store Key (Value ℚ)) (cust : CustomerVal ℚ),
    s' (customerKey 1 1 261) = some (customerVal.encode cust) ∧
    CharArray.cStr cust.cData.bytes =
      "(261, 1, 1, 1, 1, 1.00)\n".toUTF8.data.toList ++ List.replicate 476 120 := by
  obtain ⟨s', paid⟩ := badCreditStore_paid
  have run : Run (· = badCreditStore) (fun s res s' => IsText res.text ∧ Paid 2 s res s')
      [samplePayment] s' := .next (.start rfl) ⟨samplePayment_isText, paid⟩
  have row : badCreditStore (customerKey 1 1 261) = some (customerVal.encode badCustomer) := rfl
  have bad : CharArray.cStr badCustomer.cCredit.bytes = badCredit := by decide
  have data : badCustomer.cData.IsStr 500 := ⟨by decide +kernel, by decide +kernel⟩
  have texts : (textsOf (customerKey 1 1 261) [samplePayment] ++
      CharArray.cStr badCustomer.cData.bytes).take 500 =
      "(261, 1, 1, 1, 1, 1.00)\n".toUTF8.data.toList ++ List.replicate 476 120 := by decide +kernel
  obtain ⟨cust, row, value, _⟩ := customer_data row bad data run
  exact ⟨s', cust, row, value.trans texts⟩

end Tpcc
