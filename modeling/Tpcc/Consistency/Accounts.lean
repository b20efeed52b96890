import Tpcc.Consistency.History
import Tpcc.Consistency.OrderIds
import Tpcc.CustomerData
import Tpcc.Lib.Ledger
import Tpcc.RunTpcc

/-! The accounts of the customers.  The customer table is a ledger: a payment and each order of a
delivery are one entry each in the account of a customer, and no other transaction touches an
account.  So the totals over all customers are those of the payments and the deliveries of the
run. -/

namespace Tpcc

open KvProgram Layout Ledger

/-! ### The ledger -/

/-- What the row of a customer says of its account. -/
structure Account where
  balance : ℚ
  ytdPayment : ℚ
  paymentCnt : Int
  deliveryCnt : Int

/-- The account of a customer that has been loaded. -/
def Account.opening : Account := ⟨-10, 10, 1, 0⟩

/-- An entry in the account of a customer, whose warehouse, district and number are given. -/
inductive Posting
  | payment (customer : Int × Int × Int) (amount : ℚ)
  | delivery (customer : Int × Int × Int) (amount : ℚ)

def Posting.customer : Posting → Int × Int × Int
  | .payment customer _ | .delivery customer _ => customer

def Account.enter (a : Account) : Posting → Account
  | .payment _ amount => { a with
      balance := a.balance - amount, ytdPayment := a.ytdPayment + amount
      paymentCnt := a.paymentCnt + 1 }
  | .delivery _ amount => { a with
      balance := a.balance + amount, deliveryCnt := a.deliveryCnt + 1 }

def customerBooks : Books (Int × Int × Int) Account Posting := ⟨Posting.customer, Account.enter⟩

/-- The entry that the delivery of an order makes. -/
def DeliveredOrder.posting (w : Int) (x : DeliveredOrder ℚ) : Posting :=
  .delivery (w, x.districtId, x.customerId.toInt) x.sumOlAmount

/-- The entries that a transaction makes. -/
def Outcome.postings : Outcome ℚ → List Posting
  | .payment res => [.payment (res.cWId, res.cDId, res.customerId) res.hAmount]
  | .delivery res => res.orders.map (·.posting res.warehouseId)
  | _ => []

/-- The accounts after a run, whose last transaction is the first one of the list. -/
def ledger (run : List (Outcome ℚ)) : Int × Int × Int → Account :=
  run.foldr (fun outcome accounts => customerBooks.posts accounts outcome.postings)
    fun _ => Account.opening

def CustomerVal.account (row : CustomerVal ℚ) : Account :=
  ⟨row.cBalance, row.cYtdPayment, row.cPaymentCnt.toInt, row.cDeliveryCnt.toInt⟩

/-! ### The loaded accounts -/

section Load

variable {ρ F : Type} [FloatRep F] [DecidableEq F] [Amount F] {env : Env ρ} {W : Nat}

/-- A row of a customer is put with the account that a customer has at first. -/
def PutsOpening (k : Key) (v : Value F) : Prop :=
  k.table = .customer → ∃ row : CustomerVal F, v = customerVal.encode row ∧
    row.cBalance = Amount.ofInt (-10) ∧ row.cYtdPayment = Amount.ofInt 10

def openingContract (F : Type) [FloatRep F] [DecidableEq F] [Amount F] :
    Contract Key (Value F) Key where
  addr := id
  mayGet _ _ _ := True
  mayPut := PutsOpening
  mayStick := True

theorem permits_opening {own : Key → Prop} (other : ∀ k, own k → k.table ≠ .customer) :
    Permits (openingContract F) W own where
  mayGet _ _ _ _ := trivial
  mayPut k _ mine _ customer := absurd customer (other k mine)

theorem wp_count_any {K V S : Type} {L : Logic K V S} {r : ρ} {s : S} {totals : Totals}
    {status : Int} {Q : Totals → ρ → S → Prop} (stick : L.mayStick) (h : ∀ totals, Q totals r s) :
    Act.wp L (totals.count status) Q r s := by
  simp only [Totals.count, Act.wp_bind, Act.wp_pure]
  exact Act.wp_assert (fun _ => Act.wp_assert (fun _ => h _) (.inl stick)) (.inl stick)

theorem putsOpening_of_ne {k : Key} {v : Value F} (other : k.table ≠ .customer) : PutsOpening k v :=
  fun customer => absurd customer other

theorem wp_populateCustomerIndex_opening {address : UInt64} {c : Int64} {totals : Totals}
    {t : Thread ρ} {s : Store Key (Value F)} {Q : Totals → Thread ρ → Store Key (Value F) → Prop}
    (h : ∀ totals t s, Q totals t s) :
    Act.wp (openingContract F).logic (populateCustomerIndex env address c totals) Q t s := by
  simp only [populateCustomerIndex, Act.wp_bind]
  refine wp_uninit fun val t => wp_getRecord ⟨trivial, fun status found t _ => ?_⟩
  split
  · simp only [Act.wp_bind, wp_putRecord]
    exact ⟨putsOpening_of_ne (by simp [customerIndexKey]), wp_count_any trivial fun _ => h _ _ _⟩
  · exact h _ _ _

theorem wp_populateCustomer_opening {w d c : Nat} {totals : CustomerTotals} {t : Thread ρ}
    {s : Store Key (Value F)} : Act.wp (openingContract F).logic (populateCustomer env w d c totals)
      (fun _ _ _ => True) t s := by
  simp only [populateCustomer, makeCustomerIndexKey, Act.wp_bind, Act.wp_pure, Act.wp_own,
    wp_putRecord]
  apply wp_customerRow_opening (.inl trivial)
  intro row last first t _ _ _ balance paid
  refine ⟨fun _ => ⟨row, rfl, balance, paid⟩, wp_count_any trivial fun customer => ?_⟩
  apply wp_populateCustomerIndex_opening
  intro index t s
  apply wp_historyRow (.inl trivial)
  intro history t _
  exact ⟨putsOpening_of_ne (by simp), wp_count_any trivial fun _ => trivial⟩

theorem wp_loadTables_opening {t : Thread ρ} {s : Store Key (Value F)} :
    Act.wp (openingContract F).logic (loadTables env W) (fun _ _ _ => True) t s := by
  have table {own : Table} (other : own ≠ .customer) :
      Permits (openingContract F) W (·.table = own) :=
    permits_opening fun k mine => by rwa [mine]
  simp only [loadTables, Act.wp_bind]
  apply Act.wp_mono (wp_populateWarehouseTable (.inl trivial) (table (by decide)))
  intro _ t s _
  apply Act.wp_mono (wp_populateDistrictTable (.inl trivial) (table (by decide)))
  intro _ t s _
  simp only [populateCustomerAndHistoryTable, Act.wp_bind]
  refine wp_seeded fun t => Act.wp_mono (Act.wp_forRange (fun _ _ _ _ => True) ?_ trivial) ?_
  · intro w _ t s _ _ _
    apply Act.wp_forRange (fun _ _ _ _ => True) _ trivial
    intro d _ t s _ _ _
    apply Act.wp_forRange (fun _ _ _ _ => True) _ trivial
    intro c _ t s _ _ _
    exact wp_populateCustomer_opening
  intro totals t s _
  rw [Act.wp_pure]
  have orders : Permits (openingContract F) W OrderTables :=
    permits_opening fun k mine => by rintro customer; simp [OrderTables, customer] at mine
  apply Act.wp_mono (wp_populateOrders 2343352 (.inl trivial) orders (fun _ _ _ _ => True)
    (fun _ _ _ _ _ _ _ => trivial) fun _ _ _ _ _ _ _ _ _ _ _ _ _ _ _ => trivial)
  intro _ t s _
  apply Act.wp_mono (wp_populateStockTable (.inl trivial) (table (by decide)))
  intro _ t s _
  apply Act.wp_mono (wp_populateItemTable (.inl trivial) (table (by decide)))
  intro _ t s _
  exact Act.wp_mono (wp_populateStockTable (.inl trivial) (table (by decide)))
    fun _ _ _ _ => trivial

/-- The rows of the customers after the load. -/
theorem Loaded.opening {s : Store Key (Value F)} (h : Loaded id W s) {k : Key} {v : Value F}
    (row : s k = some v) : PutsOpening k v := by
  obtain ⟨ρ, env, t, t', returns⟩ := h
  have load : Act.wp (openingContract F).logic (loadTables env W) (fun _ _ _ => True) t
      (fun _ => none) := wp_loadTables_opening
  have kept := Act.wp_keeps (C := openingContract F)
    (R := fun s => ∀ k v, s k = some v → PutsOpening k v) (fun s k v rows may k' v' row => ?_) load
    (by simp)
  · exact (Act.wp_returns kept returns).2 k v row
  · rw [Store.put_apply] at row
    split at row
    · rename_i same
      rw [show k' = k from same, ← Option.some.inj row]
      exact may
    · exact rows k' v' row

end Load

/-! ### The accounts of a run -/

section Run

variable {W : Nat} {s s' : Store Key (Value ℚ)} {run : List (Outcome ℚ)}
  {accounts : Int × Int × Int → Account} {w d c o : Int}

@[simp] theorem ledger_nil : ledger [] = fun _ => Account.opening := rfl

@[simp] theorem ledger_cons {outcome : Outcome ℚ} :
    ledger (outcome :: run) = customerBooks.posts (ledger run) outcome.postings := rfl

/-- The customer table is a ledger, and each order that is there to be delivered has a customer. -/
structure Booked (W : Nat) (accounts : Int × Int × Int → Account) (s : Store Key (Value ℚ)) :
    Prop where
  order : ∀ w d o, IsDistrict W w d → 1 ≤ o ∧ o ≤ 3000 → ∃ row : OrderVal,
    s (orderKey w d o) = some (orderVal.encode row) ∧ 1 ≤ row.oCId.toInt ∧ row.oCId.toInt ≤ 3000
  customer : ∀ w d c, IsDistrict W w d → 1 ≤ c ∧ c ≤ 3000 → ∃ row : CustomerVal ℚ,
    s (customerKey w d c) = some (customerVal.encode row) ∧ row.account = accounts (w, d, c)

theorem Loaded.booked (loaded : Loaded id W s) : Booked W (ledger []) s := by
  constructor
  · intro w d o hd ho
    obtain ⟨row, hrow, _, _, customer, _⟩ := loaded.tables.order hd ho
    exact ⟨row, hrow, customer⟩
  · intro w d c hd hc
    obtain ⟨row, hrow, delivered, paid, _⟩ := loaded.tables.customer hd hc
    obtain ⟨row', same, balance, ytd⟩ := loaded.opening hrow (table_customerKey ..)
    obtain rfl := customerVal.encode_injective same
    refine ⟨row, hrow, ?_⟩
    rw [CustomerVal.account, delivered, paid, balance, ytd]
    norm_num [Account.opening, Amount.ofInt, Amount.quotient]
    exact ⟨rfl, rfl⟩

/-- An entry, made in the row of its customer. -/
theorem Booked.post {x : Posting} {row : CustomerVal ℚ} (h : Booked W accounts s)
    (small : W ≤ 21474) (home : IsDistrict W w d) (range : 1 ≤ c ∧ c ≤ 3000)
    (own : customerBooks.account x = (w, d, c))
    (order : ∀ w d o, IsDistrict W w d → 1 ≤ o ∧ o ≤ 3000 → ∃ row : OrderVal,
      s' (orderKey w d o) = some (orderVal.encode row) ∧ 1 ≤ row.oCId.toInt ∧ row.oCId.toInt ≤ 3000)
    (same : SameOn .customer (s.put (customerKey w d c) (customerVal.encode row)) s')
    (entered : row.account = (accounts (w, d, c)).enter x) :
    Booked W (customerBooks.post accounts x) s' := by
  refine ⟨order, fun w' d' c' hd' hc' => ?_⟩
  by_cases here : (w', d', c') = (w, d, c)
  · obtain ⟨rfl, rfl, rfl⟩ := here
    refine ⟨row, same.row rfl, ?_⟩
    rw [entered, ← own]
    exact (Books.post_own (B := customerBooks)).symm
  · obtain ⟨old, stored, account⟩ := h.customer w' d' c' hd' hc'
    refine ⟨old, ?_, ?_⟩
    · rw [same.row_of_ne (by simp), stored]
      intro eq
      obtain ⟨hw, hd⟩ := home
      obtain ⟨hw', hd'⟩ := hd'
      obtain ⟨rfl, rfl, rfl⟩ :=
        customerKey_inj (by omega) hd' (by omega) (by omega) hd (by omega) eq
      exact here rfl
    · rw [account]
      rw [← own] at here
      exact (Books.post_other here).symm

theorem PaymentResult.Effect.customerRow {res : PaymentResult ℚ} (h : res.Effect id W s s') :
    ∃ (old : CustomerVal ℚ) (status : Int) (cust : CustomerVal ℚ) (count : Int32)
      (data : CharArray 501),
      Reads customerVal (s (customerKey res.cWId res.cDId res.customerId)) old status cust ∧
      addInt32 cust.cPaymentCnt 1 = some count ∧
      SameOn .customer (s.put (customerKey res.cWId res.cDId res.customerId) (customerVal.encode
        { cust with
          cBalance := cust.cBalance - res.hAmount, cYtdPayment := cust.cYtdPayment + res.hAmount
          cPaymentCnt := count, cData := data })) s' := by
  obtain ⟨_, _, ware, _, _, dist, old, status, cust, count, data, hist, s1, s2, _, first, _, second,
    reads, more, _, rfl⟩ := h.writes
  have before : SameOn .customer s s2 := by
    rw [second, first]
    apply SameOn.put_other _ (by simp)
    exact sameOn_put (by simp)
  refine ⟨old, status, cust, count, data, ?_, more, ?_⟩
  · rw [← before _ (table_customerKey ..)]
    exact reads
  · exact before.put.put_other (by simp)

theorem DeliveredOrder.Effect.customerRow {x : DeliveredOrder ℚ} {carrier : Int}
    {currentTs : UInt32} (h : x.Effect id w carrier currentTs s s') :
    ∃ (old : OrderVal) (status : Int) (row : OrderVal) (old' : CustomerVal ℚ) (status' : Int)
      (cust : CustomerVal ℚ) (count : Int32),
      Reads orderVal (s (orderKey w x.districtId x.oId)) old status row ∧ x.customerId = row.oCId ∧
      Reads customerVal (s (customerKey w x.districtId x.customerId.toInt)) old' status' cust ∧
      addInt32 cust.cDeliveryCnt 1 = some count ∧
      SameOn .customer (s.put (customerKey w x.districtId x.customerId.toInt) (customerVal.encode
        { cust with cBalance := cust.cBalance + x.sumOlAmount, cDeliveryCnt := count })) s' := by
  obtain ⟨old, status, row, lines, s1, old', status', cust, count, order, payer, dated, _, _, reads,
    more, rfl⟩ := h.writes
  have lines : SameOn .customer _ s1 := dated.sameOn fun i => by simp
  have before : SameOn .customer s s1 := (sameOn_put (by simp)).trans lines
  refine ⟨old, status, row, old', status', cust, count, order, payer, ?_, more, before.put⟩
  rw [← before _ (table_customerKey ..)]
  exact reads

/-- A payment is one entry in the account of its customer. -/
theorem Booked.payment_step {res : PaymentResult ℚ} (h : Booked W accounts s) (small : W ≤ 21474)
    (effect : res.Effect id W s s') :
    Booked W (customerBooks.posts accounts (Outcome.payment res).postings) s' := by
  have home : IsDistrict W res.cWId res.cDId := ⟨effect.cWarehouse, effect.cDistrict⟩
  obtain ⟨row, stored, account⟩ := h.customer _ _ _ home effect.customer
  obtain ⟨old, status, cust, count, data, reads, more, same⟩ := effect.customerRow
  rw [stored, reads_encode] at reads
  obtain ⟨_, rfl⟩ := reads
  apply h.post (x := .payment _ res.hAmount) small home effect.customer rfl _ same
  · rw [← account, CustomerVal.account, addInt32_toInt more]
    rfl
  · intro w d o hd ho
    obtain ⟨row, hrow, customer⟩ := h.order w d o hd ho
    exact ⟨row, (effect.sameOn (by simp) _ (table_orderKey ..)).trans hrow, customer⟩

/-- An order that is delivered has a customer. -/
theorem Booked.payer {x : DeliveredOrder ℚ} {carrier : Int} {currentTs : UInt32}
    (h : Booked W accounts s) (hd : IsDistrict W w x.districtId)
    (effect : x.Effect id w carrier currentTs s s') :
    1 ≤ x.customerId.toInt ∧ x.customerId.toInt ≤ 3000 := by
  have range := effect.order
  obtain ⟨old, status, row, _, _, _, _, order, payer, _⟩ := effect.customerRow
  obtain ⟨first, placed, customer⟩ := h.order w x.districtId x.oId hd (by omega)
  rw [placed, reads_encode] at order
  obtain ⟨_, rfl⟩ := order
  rwa [payer]

/-- The delivery of an order is one entry in the account of its customer. -/
theorem Booked.deliver {x : DeliveredOrder ℚ} {carrier : Int} {currentTs : UInt32}
    (h : Booked W accounts s) (small : W ≤ 21474) (hd : IsDistrict W w x.districtId)
    (effect : x.Effect id w carrier currentTs s s') :
    Booked W (customerBooks.post accounts (x.posting w)) s' := by
  have customer := h.payer hd effect
  obtain ⟨_, _, _, _, _, cust, count, _, _, reads, more, same⟩ := effect.customerRow
  obtain ⟨owner, stored, account⟩ := h.customer _ _ _ hd customer
  rw [stored, reads_encode] at reads
  obtain ⟨_, rfl⟩ := reads
  apply h.post (x := x.posting w) small hd customer rfl _ same
  · rw [← account, CustomerVal.account, addInt32_toInt more]
    rfl
  · intro w' d' o' hd' ho'
    obtain ⟨row, hrow, payer⟩ := h.order w' d' o' hd' ho'
    obtain ⟨old, status, read, reads, orders⟩ := effect.orderRow
    by_cases own : orderKey w' d' o' = orderKey w x.districtId x.oId
    · rw [← own, hrow, reads_encode] at reads
      obtain ⟨_, rfl⟩ := reads
      have written := orders.row (table_orderKey ..)
      rw [← own] at written
      exact ⟨_, written, payer⟩
    · exact ⟨row, (orders.row_of_ne (by simp) own).trans hrow, payer⟩

/-- The orders of a delivery are delivered one after another. -/
theorem Deliveries.booked {orders : List (DeliveredOrder ℚ)} {carrier : Int} {currentTs : UInt32}
    (h : Deliveries id w carrier currentTs s orders s') (small : W ≤ 21474) (hw : 1 ≤ w ∧ w ≤ W)
    (ten : orders.length ≤ 10) (before : Booked W accounts s) :
    Booked W (customerBooks.posts accounts (orders.map (·.posting w))) s' ∧
      ∀ x ∈ orders, (x.posting w).customer ∈ payers W := by
  induction h with
  | nil => exact ⟨before, by simp⟩
  | @snoc orders x s1 s2 _ district effect ih =>
    rw [List.length_append, List.length_singleton] at ten
    have hd : IsDistrict W w x.districtId := ⟨hw, by omega, by omega⟩
    obtain ⟨booked, own⟩ := ih (by omega)
    constructor
    · rw [List.map_append, Books.posts_append]
      exact booked.deliver small hd effect
    · intro y mem
      rcases List.mem_append.mp mem with earlier | last
      · exact own y earlier
      · rw [List.mem_singleton.mp last]
        exact mem_payers.mpr ⟨hd, booked.payer hd effect⟩

theorem Booked.step {outcome : Outcome ℚ} (h : Booked W (ledger run) s) (ids : OrderIds W run s)
    (step : Step id W s outcome s') : Booked W (ledger (outcome :: run)) s' ∧
      ∀ x ∈ outcome.postings, x.customer ∈ payers W := by
  cases outcome with
  | newOrder res =>
    have customer : SameOn .customer s s' := step.sameOn (by simp [Outcome.tables])
    refine ⟨⟨fun w d o hd ho => ?_, fun w d c hd hc => ?_⟩, by simp [Outcome.postings]⟩
    · obtain ⟨row, hrow, payer⟩ := h.order w d o hd ho
      -- The order that is placed has a number above 3000.
      have effect := step.newOrder
      have number := ids.number effect
      have ne : orderKey w d o ≠ orderKey res.warehouseId res.districtId res.myNextOId.toInt :=
        effect.orderKey_ne ids.small hd ⟨by omega, by omega⟩ (by omega) (by omega)
      exact ⟨row, (effect.order_of_ne (by simp) ne).trans hrow, payer⟩
    · obtain ⟨row, hrow, account⟩ := h.customer w d c hd hc
      exact ⟨row, (customer _ (by simp)).trans hrow, account⟩
  | payment res =>
    have effect := step.payment
    refine ⟨h.payment_step ids.small effect, fun x mem => ?_⟩
    rw [List.mem_singleton.mp mem]
    exact mem_payers.mpr ⟨⟨effect.cWarehouse, effect.cDistrict⟩, effect.customer⟩
  | delivery res =>
    have effect := step.delivery
    have warehouse := effect.warehouse
    obtain ⟨currentTs, deliveries⟩ := effect.deliveries
    obtain ⟨booked, own⟩ :=
      deliveries.booked ids.small ⟨by omega, by omega⟩ effect.districts.le h
    refine ⟨booked, fun x mem => ?_⟩
    obtain ⟨order, delivered, rfl⟩ := List.mem_map.mp mem
    exact own order delivered
  | _ =>
    obtain rfl : s' = s := step_effect step
    exact ⟨h, by simp [Outcome.postings]⟩

/-- The entries of a run. -/
def postings (run : List (Outcome ℚ)) : List Posting := run.flatMap Outcome.postings

/-- What is booked after a run, and that the entries of the run are of customers. -/
structure RunBooked (W : Nat) (run : List (Outcome ℚ)) (s : Store Key (Value ℚ)) : Prop where
  ids : OrderIds W run s
  booked : Booked W (ledger run) s
  own : ∀ x ∈ postings run, x.customer ∈ payers W

theorem Run.booked (reached : Reached id W run s) : RunBooked W run s := by
  apply Run.invariant (I := RunBooked W) _ _ reached
  · exact fun s loaded => ⟨loaded.tables.orderIds, loaded.booked, by simp [postings]⟩
  · intro run s outcome s' h step
    obtain ⟨booked, own⟩ := h.booked.step h.ids step
    refine ⟨h.ids.step step, booked, fun x mem => ?_⟩
    rcases List.mem_append.mp mem with last | earlier
    · exact own x last
    · exact h.own x earlier

def Posting.paid : Posting → ℚ
  | .payment _ amount => amount
  | .delivery _ _ => 0

def Posting.delivered : Posting → ℚ
  | .payment _ _ => 0
  | .delivery _ amount => amount

def Posting.isPayment : Posting → Bool
  | .payment _ _ => true
  | .delivery _ _ => false

@[simp] theorem DeliveredOrder.paid_posting {x : DeliveredOrder ℚ} : (x.posting w).paid = 0 := rfl

@[simp] theorem DeliveredOrder.isPayment_posting {x : DeliveredOrder ℚ} :
    (x.posting w).isPayment = false := rfl

/-- A total over all customers is what it was when they were loaded, and what the entries of the run
have added. -/
theorem sum_ledger {M : Type} [AddCommMonoid M] {measure : Account → M} {amount : Posting → M}
    (adds : customerBooks.Adds measure amount) (own : ∀ x ∈ postings run, x.customer ∈ payers W) :
    ∑ p ∈ payers W, measure (ledger run p) =
      ∑ _p ∈ payers W, measure .opening + ((postings run).map amount).sum := by
  induction run with
  | nil => simp [postings]
  | cons outcome run ih =>
    have own' : ∀ x ∈ outcome.postings ++ postings run, x.customer ∈ payers W := own
    rw [ledger_cons, Books.sum_posts adds fun x mem => own' x (List.mem_append_left _ mem),
      ih fun x mem => own' x (List.mem_append_right _ mem), add_assoc]
    congr 1
    show _ = ((outcome.postings ++ postings run).map amount).sum
    rw [List.map_append, List.sum_append, add_comm]

theorem sum_ones {l : List Posting} {test : Posting → Bool} :
    (l.map fun x => if test x then (1 : Int) else 0).sum = l.countP test := by
  induction l with
  | nil => rfl
  | cons x l ih =>
    rw [List.map_cons, List.sum_cons, ih, List.countP_cons]
    split <;> push_cast <;> ring

/-- What the entries of a run amount to. -/
structure PostingTotals (run : List (Outcome ℚ)) (W : Nat) : Prop where
  paid : ((postings run).map Posting.paid).sum = ∑ w ∈ idsTo W, ∑ d ∈ idsTo 10, totalPaid w d run
  payments : (postings run).countP (·.isPayment) = run.countP (·.txType = .payment)
  deliveries : (postings run).countP (!·.isPayment) = 10 * run.countP (·.txType = .delivery)

theorem PostingTotals.step {outcome : Outcome ℚ} (h : PostingTotals run W)
    (step : Step id W s outcome s') : PostingTotals (outcome :: run) W := by
  have cons : postings (outcome :: run) = outcome.postings ++ postings run := rfl
  obtain ⟨paid, payments, deliveries⟩ := h
  cases outcome with
  | payment res =>
    have effect := step.payment
    constructor
    · have here : res.warehouseId ∈ idsTo W := mem_idsTo.mpr effect.isDistrict.1
      simp only [cons, totalPaid_cons, Finset.sum_add_distrib, sum_paid effect.district,
        Finset.sum_ite_eq, if_pos here, ← paid]
      rfl
    · rw [cons, List.countP_append, payments]
      simp [Outcome.postings, Posting.isPayment, Outcome.txType, Nat.add_comm]
    · rw [cons, List.countP_append, deliveries]
      simp [Outcome.postings, Posting.isPayment, Outcome.txType]
  | delivery res =>
    have ten := step.delivery.districts
    have entries :
        (Outcome.delivery res).postings = res.orders.map (·.posting res.warehouseId) := rfl
    have type : (Outcome.delivery res).txType = .delivery := rfl
    constructor
    · simp [cons, entries, paid, Outcome.paid, Function.comp_def]
    · simp [cons, entries, type, payments, Function.comp_def]
    · have all : (Outcome.delivery res).postings.countP (!·.isPayment) = 10 := by
        simp [entries, Function.comp_def, ten]
      rw [cons, List.countP_append, all, deliveries, List.countP_cons_of_pos (by simp [type])]
      omega
  | _ =>
    constructor
    · simpa [cons, Outcome.postings, Outcome.paid] using paid
    · simpa [cons, Outcome.postings, Outcome.txType] using payments
    · simpa [cons, Outcome.postings, Outcome.txType] using deliveries

theorem Run.postingTotals (reached : Reached id W run s) : PostingTotals run W := by
  apply Run.invariant (I := fun run _ => PostingTotals run W) _ _ reached
  · intro s _
    exact ⟨by simp [postings], rfl, rfl⟩
  · exact fun _ _ _ _ h step => h.step step

/-- The rows of all customers, with their accounts. -/
theorem Booked.rows (h : Booked W accounts s) : ∃ cust : Int × Int × Int → CustomerVal ℚ,
    ∀ p ∈ payers W, s (customerKey p.1 p.2.1 p.2.2) = some (customerVal.encode (cust p)) ∧
      (cust p).account = accounts p := by
  have row (p : Int × Int × Int) : ∃ row : CustomerVal ℚ, p ∈ payers W →
      s (customerKey p.1 p.2.1 p.2.2) = some (customerVal.encode row) ∧
        row.account = accounts p := by
    by_cases mem : p ∈ payers W
    · obtain ⟨hd, hc⟩ := mem_payers.mp mem
      obtain ⟨row, stored, account⟩ := h.customer p.1 p.2.1 p.2.2 hd hc
      exact ⟨row, fun _ => ⟨stored, account⟩⟩
    · exact ⟨zeroRow customerVal, fun here => absurd here mem⟩
  exact ⟨fun p => (row p).choose, fun p => (row p).choose_spec⟩

theorem card_payers : (payers W).card = 30000 * W := by
  rw [payers, Finset.card_product, Finset.card_product, card_idsTo, card_idsTo, card_idsTo]
  omega

/-- What the warehouses have received this year, the customers have paid: each payment is in one
total of each. -/
theorem payments_conserved (reached : Reached id W run s) :
    ∃ (ware : Int → WarehouseVal ℚ) (cust : Int × Int × Int → CustomerVal ℚ),
      (∀ w : Int, 1 ≤ w ∧ w ≤ W → s (warehouseKey w) = some (warehouseVal.encode (ware w))) ∧
      (∀ p ∈ payers W, s (customerKey p.1 p.2.1 p.2.2) = some (customerVal.encode (cust p))) ∧
      ∑ w ∈ idsTo W, ((ware w).wYtd - 30000000) = ∑ p ∈ payers W, ((cust p).cYtdPayment - 10) := by
  have totals := Run.yearToDate reached
  obtain ⟨_, booked, own⟩ := Run.booked reached
  obtain ⟨cust, customers⟩ := booked.rows
  have adds : customerBooks.Adds Account.ytdPayment Posting.paid := by
    rintro a (_ | _)
    · rfl
    · exact (add_zero _).symm
  let ware (w : Int) : WarehouseVal ℚ := warehouseVal.decode ((s (warehouseKey w)).getD [])
  have warehouses (w : Int) (hw : 1 ≤ w ∧ w ≤ W) :
      s (warehouseKey w) = some (warehouseVal.encode (ware w)) ∧
        (ware w).wYtd = 30000000 + ∑ d ∈ idsTo 10, totalPaid w d run := by
    obtain ⟨row, hrow, ytd⟩ := totals.warehouse w hw
    have same : ware w = row := by simp [ware, hrow]
    rw [same]
    exact ⟨hrow, ytd⟩
  refine ⟨ware, cust, fun w hw => (warehouses w hw).1, fun p mem => (customers p mem).1, ?_⟩
  calc ∑ w ∈ idsTo W, ((ware w).wYtd - 30000000)
      = ∑ w ∈ idsTo W, ∑ d ∈ idsTo 10, totalPaid w d run :=
        Finset.sum_congr rfl fun w mem => by rw [(warehouses w (mem_idsTo.mp mem)).2]; ring
    _ = ((postings run).map Posting.paid).sum := (Run.postingTotals reached).paid.symm
    _ = ∑ p ∈ payers W, (ledger run p).ytdPayment -
        ∑ _p ∈ payers W, Account.opening.ytdPayment := by
        rw [sum_ledger adds own, add_sub_cancel_left]
    _ = ∑ p ∈ payers W, ((cust p).cYtdPayment - 10) := by
        rw [← Finset.sum_sub_distrib]
        exact Finset.sum_congr rfl fun p mem => by rw [← (customers p mem).2]; rfl

/-- The counters and balances of all customers together: each `Payment` is counted once, and each
`Delivery` ten times; what customers have paid and what they owe differ by what has been
delivered. -/
theorem customers_total (reached : Reached id W run s) :
    ∃ cust : Int × Int × Int → CustomerVal ℚ,
      (∀ p ∈ payers W, s (customerKey p.1 p.2.1 p.2.2) = some (customerVal.encode (cust p))) ∧
      ∑ p ∈ payers W, (cust p).cPaymentCnt.toInt = 30000 * W + run.countP (·.txType = .payment) ∧
      ∑ p ∈ payers W, (cust p).cDeliveryCnt.toInt = 10 * run.countP (·.txType = .delivery) ∧
      ∑ p ∈ payers W, ((cust p).cBalance + (cust p).cYtdPayment) =
        ((postings run).map Posting.delivered).sum := by
  obtain ⟨_, booked, own⟩ := Run.booked reached
  obtain ⟨cust, customers⟩ := booked.rows
  have totals := Run.postingTotals reached
  have total {M : Type} [AddCommMonoid M] {measure : Account → M} {amount : Posting → M}
      (adds : customerBooks.Adds measure amount) : ∑ p ∈ payers W, measure (cust p).account =
        ∑ _p ∈ payers W, measure .opening + ((postings run).map amount).sum := by
    rw [← sum_ledger adds own]
    exact Finset.sum_congr rfl fun p mem => by rw [(customers p mem).2]
  have payments : customerBooks.Adds Account.paymentCnt fun x => if x.isPayment then 1 else 0 := by
    rintro a (_ | _)
    · rfl
    · exact (add_zero _).symm
  have deliveries :
      customerBooks.Adds Account.deliveryCnt fun x => if !x.isPayment then 1 else 0 := by
    rintro a (_ | _)
    · exact (add_zero _).symm
    · rfl
  have balances : customerBooks.Adds (fun a => a.balance + a.ytdPayment) Posting.delivered := by
    rintro a (_ | _) <;> simp only [customerBooks, Account.enter, Posting.delivered] <;> ring
  refine ⟨cust, fun p mem => (customers p mem).1, ?_, ?_, ?_⟩
  · calc ∑ p ∈ payers W, (cust p).cPaymentCnt.toInt
        = ∑ _p ∈ payers W, 1 + (run.countP (·.txType = .payment) : Int) := by
          rw [← totals.payments, ← sum_ones]
          exact total payments
      _ = 30000 * W + run.countP (·.txType = .payment) := by
          rw [Finset.sum_const, card_payers, nsmul_one]
          push_cast
          rfl
  · calc ∑ p ∈ payers W, (cust p).cDeliveryCnt.toInt
        = ∑ _p ∈ payers W, 0 + ((10 * run.countP (·.txType = .delivery) : Nat) : Int) := by
          rw [← totals.deliveries, ← sum_ones]
          exact total deliveries
      _ = 10 * run.countP (·.txType = .delivery) := by
          rw [Finset.sum_const_zero, zero_add]
          push_cast
          rfl
  · calc ∑ p ∈ payers W, ((cust p).cBalance + (cust p).cYtdPayment)
        = ∑ _p ∈ payers W, (-10 + 10) + ((postings run).map Posting.delivered).sum := total balances
      _ = ((postings run).map Posting.delivered).sum := by simp

end Run

/-! ### A payment from the loaded tables -/

theorem payments_conserved_payment : ∃ (s : Store Key (Value ℚ)) (ware : Int → WarehouseVal ℚ)
    (cust : Int × Int × Int → CustomerVal ℚ), Reached id 2 [.payment samplePayment] s ∧
      ∑ w ∈ idsTo 2, ((ware w).wYtd - 30000000) = ∑ p ∈ payers 2, ((cust p).cYtdPayment - 10) := by
  obtain ⟨s, reached⟩ := exists_payment
  obtain ⟨ware, cust, _, _, same⟩ := payments_conserved reached
  exact ⟨s, ware, cust, reached, same⟩

theorem customers_total_payment :
    ∃ (s : Store Key (Value ℚ)) (cust : Int × Int × Int → CustomerVal ℚ),
    Reached id 2 [.payment samplePayment] s ∧
      ∑ p ∈ payers 2, (cust p).cPaymentCnt.toInt = 60001 := by
  obtain ⟨s, reached⟩ := exists_payment
  obtain ⟨cust, _, payments, _⟩ := customers_total reached
  exact ⟨s, cust, reached, payments⟩

end Tpcc
