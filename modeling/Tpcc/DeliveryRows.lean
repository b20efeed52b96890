import Tpcc.Tables

/-! The rows that `Delivery` writes.  It dates 15 lines of every order that it delivers, whatever
the number of lines that the order has: a line that is not there is inserted with what the local
variable happens to hold, and its amount is added too. -/

namespace Tpcc

open KvProgram Layout

variable {F : Type} [FloatRep F] [DecidableEq F] [Amount F] {W : Nat} {s s' : Store Key (Value F)}
  {w d o : Int}

/-! ### Deliveries that return -/

/-- Every order of a warehouse that a delivery may draw has a row, and a customer who can be
delivered to. -/
def Deliverable (w : Int) (s : Store Key (Value F)) : Prop :=
  ∀ d o : Int, 1 ≤ d ∧ d ≤ 10 → 2101 ≤ o ∧ o ≤ 3000 → ∃ (row : OrderVal) (cust : CustomerVal F),
    s (orderKey w d o) = some (orderVal.encode row) ∧
      (0 ≤ row.oCId.toInt ∧ row.oCId.toInt < 2 ^ 31) ∧
    s (customerKey w d row.oCId.toInt) = some (customerVal.encode cust) ∧
    ∃ count, addInt32 cust.cDeliveryCnt 1 = some count

/-- The rows that a delivery still has to read when it comes to the district `(w, d)`. -/
inductive Ahead (w : Int) (d : Nat) : Key → Prop
  | order {d' o : Int} : d ≤ d' → d' ≤ 10 → 2101 ≤ o ∧ o ≤ 3000 → Ahead w d (orderKey w d' o)
  | customer {d' c : Int} : d ≤ d' → d' ≤ 10 → 0 ≤ c ∧ c < 2 ^ 31 → Ahead w d (customerKey w d' c)

theorem Ahead.ne_orderKey {d : Nat} {k : Key} (h : Ahead w (d + 1) k) (hd : 1 ≤ d ∧ d ≤ 10)
    (ho : 0 ≤ o ∧ o < 2 ^ 31) : k ≠ orderKey w d o := by
  cases h with
  | order low high ho' =>
    intro same
    have := orderKey_district (by omega) (by omega) (by omega) ho same
    omega
  | customer => exact Key.ne_of_table (by simp)

theorem Ahead.ne_customerKey {d : Nat} {k : Key} {c : Int} (h : Ahead w (d + 1) k)
    (hd : 1 ≤ d ∧ d ≤ 10) (hc : 0 ≤ c ∧ c < 2 ^ 31) : k ≠ customerKey w d c := by
  cases h with
  | order => exact Key.ne_of_table (by simp)
  | customer low high hc' =>
    intro same
    have := customerKey_district (by omega) (by omega) hc' hc same
    omega

theorem Ahead.ne_orderLine {d : Nat} {k k' : Key} (h : Ahead w d k) (line : k'.table = .orderLine) :
    k ≠ k' := by
  cases h <;> exact Key.ne_of_table (by simp [line])

theorem Ahead.earlier {d : Nat} {k : Key} (h : Ahead w (d + 1) k) : Ahead w d k := by
  cases h with
  | order low high ho => exact .order (by omega) high ho
  | customer low high hc => exact .customer (by omega) high hc

section Total

variable {ρ : Type} {env : Env ρ} {t : Thread ρ} {carrier : Int} {currentTs : UInt32} {n : Nat}
  {orders : List (DeliveredOrder F)} {s0 : Store Key (Value F)}

/-- The delivery of one order returns, when the rows that it reads are those of before. -/
theorem wp_deliverDistrict_total (h : Deliverable w s0) (hn : 1 ≤ n ∧ n ≤ 10)
    (same : ∀ k, Ahead w n k → s k = s0 k) :
    Act.wp (Contract.totally (Value F) id).logic (deliverDistrict env w carrier currentTs n orders)
      (fun orders' _ s' => orders'.length = orders.length + 1 ∧
        ∀ k, Ahead w (n + 1) k → s' k = s0 k) t s := by
  simp only [deliverDistrict, deliverOrder, deliverCustomer, Act.wp_bind, Act.wp_pure,
    wp_putRecord]
  refine wp_randomNumber (.inr (by decide)) fun o t ho ho' => ?_
  have drawn : 2101 ≤ o ∧ o ≤ 3000 := ⟨ho, ho'⟩
  obtain ⟨row, cust, hrow, payer, hcust, count, hcount⟩ := h n o (by omega) drawn
  refine wp_uninit fun norder t => wp_getRecord ⟨trivial, fun _ norder t _ => wp_uninit ?_⟩
  intro old t
  have read : s (orderKey w n o) = some (orderVal.encode row) := by
    rw [same _ (.order le_rfl (by omega) drawn), hrow]
  apply wp_getRecord_row read trivial
  refine fun t => ⟨trivial, ?_⟩
  -- Until the customer is read, its row is that of before.
  let Kept (k : Key) : Prop := Ahead w (n + 1) k ∨ k = customerKey w n row.oCId.toInt
  refine Act.wp_mono (Act.wp_forRange (fun _ _ _ s' => ∀ k, Kept k → s' k = s0 k) ?_ ?_) ?_
  · intro l sum t s' _ _ kept
    simp only [deliverLine, Act.wp_bind, Act.wp_pure, wp_putRecord]
    refine wp_uninit fun val t => wp_getRecord ⟨trivial, fun _ line t _ => ⟨trivial, ?_⟩⟩
    intro k hk
    rw [Store.put_of_ne]
    · exact kept k hk
    · rcases hk with ahead | rfl
      · exact ahead.ne_orderLine rfl
      · exact Key.ne_of_table (by simp [Contract.totally])
  · rintro k (ahead | rfl)
    · rw [Store.put_of_ne]
      · exact same k ahead.earlier
      · exact ahead.ne_orderKey hn (by omega)
    · rw [Store.put_of_ne]
      · exact same _ (.customer le_rfl (by omega) payer)
      · exact Key.ne_of_table (by simp [Contract.totally])
  · intro sum t s' kept
    have read : s' (customerKey w n row.oCId.toInt) = some (customerVal.encode cust) := by
      rw [kept _ (.inr rfl), hcust]
    refine wp_uninit fun old t => wp_getRecord_row read trivial fun t => ?_
    refine Act.wp_ofOption (fun count _ => ⟨trivial, by simp, ?_⟩) (.inr ?_)
    · intro k ahead
      rw [Store.put_of_ne]
      · exact kept k (.inl ahead)
      · exact ahead.ne_customerKey hn payer
    · rw [hcount]
      rfl

theorem delivery_returns (h : ∀ w : Int, 1 ≤ w ∧ w < W → Deliverable w s) (two : 2 ≤ W) :
    ∃ res t' s', Act.Returns id (delivery env W) t s res t' s' := by
  have wp : Act.wp (Contract.totally (Value F) id).logic (delivery env W)
      (fun _ _ _ => True) t s := by
    simp only [delivery, Act.wp_bind, Act.wp_pure]
    refine wp_pickWarehouseId (.inr two) fun w t hw hw' => ?_
    refine wp_randomNumber (.inr (by decide)) fun carrier t _ _ => ?_
    refine wp_getCurrentTimeMillis fun currentTs t => ?_
    refine Act.wp_mono (Act.wp_forRange
      (fun d _ _ s' => ∀ k, Ahead w d k → s' k = s k) ?_ fun _ _ => rfl) fun _ _ _ _ => trivial
    intro d orders t s' low (high : d < 1 + 10) same
    exact Act.wp_mono (wp_deliverDistrict_total (h w ⟨hw, hw'⟩) (by omega) same)
      fun _ _ _ next => next.2
  obtain ⟨res, t', s', returns, _⟩ := Act.returns_of_wp wp id
  exact ⟨res, t', s', returns⟩

end Total

/-! ### What the delivery of an order leaves alone -/

section Frame

variable {carrier : Int} {currentTs : UInt32} {x : DeliveredOrder F}
  {orders : List (DeliveredOrder F)}
  {key : Nat → Key} {lines : List (OrderLineVal F)} {k : Key}

omit [Amount F] in
theorem DatedLines.frame (h : DatedLines id key currentTs s lines s')
    (other : ∀ i < lines.length, k ≠ key i) : s' k = s k := by
  induction h with
  | nil => rfl
  | @snoc lines s' old status line _ _ ih =>
    rw [List.length_append, List.length_singleton] at other
    exact (Store.put_of_ne (other lines.length (by omega))).trans
      (ih fun i hi => other i (by omega))

omit [Amount F] in
/-- Lines with different keys are each read as they were and dated. -/
theorem DatedLines.line (h : DatedLines id key currentTs s lines s')
    (apart : ∀ i j, i < j → j < lines.length → key i ≠ key j) {i : Nat} (hi : i < lines.length) :
    (∃ old status, Reads orderLineVal (s (key i)) old status lines[i]) ∧
      s' (key i) = some (orderLineVal.encode { lines[i] with olDeliveryD := currentTs }) := by
  induction h with
  | nil => contradiction
  | @snoc lines s' old status line dated reads ih =>
    rw [List.length_append, List.length_singleton] at apart
    by_cases last : i = lines.length
    · subst last
      have before : s' (key lines.length) = s (key lines.length) :=
        dated.frame fun j hj => (apart j lines.length hj (by omega)).symm
      have reads : Reads orderLineVal (s' (key lines.length)) old status line := reads
      rw [before] at reads
      rw [List.getElem_concat_length rfl]
      exact ⟨⟨old, status, reads⟩, Store.put_self⟩
    · have hi : i < lines.length := by
        rw [List.length_append, List.length_singleton] at hi
        omega
      have ne : key i ≠ id (key lines.length) := apart i lines.length hi (by omega)
      rw [List.getElem_append_left hi, Store.put_of_ne ne]
      exact ih (fun i j hij hj => apart i j hij (by omega)) hi

theorem DeliveredOrder.Effect.frame (h : x.Effect id w carrier currentTs s s')
    (order : k ≠ orderKey w x.districtId x.oId)
    (customer : k ≠ customerKey w x.districtId x.customerId.toInt)
    (line : ∀ i < 15, k ≠ orderLineKey w x.districtId x.oId (i + 1 : Nat)) : s' k = s k := by
  obtain ⟨_, _, row, lines, s1, _, _, cust, _, _, _, dated, length, _, _, _, rfl⟩ := h.writes
  have ne : k ≠ id (customerKey w x.districtId x.customerId.toInt) := customer
  rw [Store.put_of_ne ne, dated.frame (length ▸ line)]
  exact Store.put_of_ne order

theorem Deliveries.range (h : Deliveries id w carrier currentTs s orders s') (hx : x ∈ orders) :
    (1 ≤ x.districtId ∧ x.districtId ≤ orders.length) ∧ 2101 ≤ x.oId ∧ x.oId ≤ 3000 := by
  induction h with
  | nil => contradiction
  | @snoc orders y s1 s2 _ district effect ih =>
    rw [List.length_append, List.length_singleton]
    rcases List.mem_append.mp hx with earlier | last
    · have := ih earlier
      omega
    · rw [List.mem_singleton.mp last]
      exact ⟨by omega, effect.order⟩

/-- A key that no delivery of an order touches. -/
theorem Deliveries.frame (h : Deliveries id w carrier currentTs s orders s')
    (keeps : ∀ x ∈ orders, ∀ s s', x.Effect id w carrier currentTs s s' → s' k = s k) :
    s' k = s k := by
  induction h with
  | nil => rfl
  | @snoc orders y s1 s2 _ _ effect ih =>
    rw [keeps y (by simp) s1 s2 effect]
    exact ih fun x hx => keeps x (by simp [hx])

/-- The delivery of one order, among keys that the deliveries of the other districts leave alone. -/
theorem Deliveries.split {own : Key → Prop} (h : Deliveries id w carrier currentTs s orders s')
    (hx : x ∈ orders) (keeps : ∀ y ∈ orders, y.districtId ≠ x.districtId → ∀ k, own k →
      ∀ s s', y.Effect id w carrier currentTs s s' → s' k = s k) :
    ∃ s1 s2, x.Effect id w carrier currentTs s1 s2 ∧ (∀ k, own k → s1 k = s k) ∧
      ∀ k, own k → s' k = s2 k := by
  induction h with
  | nil => contradiction
  | @snoc orders y s1 s2 before district effect ih =>
    rcases List.mem_append.mp hx with earlier | last
    · obtain ⟨sa, sb, own', first, rest⟩ := ih earlier fun z hz => keeps z (by simp [hz])
      have other : y.districtId ≠ x.districtId := by
        have := before.range earlier
        omega
      exact ⟨sa, sb, own', first, fun k hk =>
        (keeps y (by simp) other k hk s1 s2 effect).trans (rest k hk)⟩
    · obtain rfl := List.mem_singleton.mp last
      refine ⟨s1, s2, effect, fun k hk => before.frame fun z hz => ?_, fun _ _ => rfl⟩
      have other : z.districtId ≠ x.districtId := by
        have := before.range hz
        omega
      exact keeps z (by simp [hz]) other k hk

end Frame

/-! ### The rows of the orders -/

/-- The rows of order `o` of a district: the order row, its lines, numbered from 1 on, and its
customer. -/
structure OrderRows (w d o : Int) (order : OrderVal) (lines : List (OrderLineVal F))
    (cust : CustomerVal F) (s : Store Key (Value F)) : Prop where
  orderRow : s (orderKey w d o) = some (orderVal.encode order)
  count : order.oOlCnt.toInt = lines.length
  few : 5 ≤ lines.length ∧ lines.length ≤ 15
  line : ∀ (i : Nat) (hi : i < lines.length),
    s (orderLineKey w d o (i + 1 : Nat)) = some (orderLineVal.encode lines[i])
  noMore : ∀ l : Int, lines.length < l → l ≤ 15 → s (orderLineKey w d o l) = none
  payer : 0 ≤ order.oCId.toInt
  customerRow : s (customerKey w d order.oCId.toInt) = some (customerVal.encode cust)

/-- A delivery adds no row, changes only the delivery dates of the lines of its orders, and adds the
sum of their amounts to the balance of the customer of each order. -/
structure DeliveryResult.Exact (res : DeliveryResult ℚ) (s s' : Store Key (Value ℚ)) : Prop where
  noRow : ∀ k, s k = none → s' k = none
  lines : ∀ k, k.table = .orderLine → s' k = s k ∨ ∃ x ∈ res.orders, ∃ order lines cust,
    OrderRows res.warehouseId x.districtId x.oId order lines cust s ∧
    ∃ (i : Nat) (hi : i < lines.length),
      k = orderLineKey res.warehouseId x.districtId x.oId (i + 1 : Nat) ∧
      ∃ date, s' k = some (orderLineVal.encode { lines[i] with olDeliveryD := date })
  balance : ∀ x ∈ res.orders, ∀ order lines cust,
    OrderRows res.warehouseId x.districtId x.oId order lines cust s → ∃ cust' : CustomerVal ℚ,
      s' (customerKey res.warehouseId x.districtId order.oCId.toInt) =
        some (customerVal.encode cust') ∧
      cust'.cBalance = cust.cBalance + (lines.map OrderLineVal.olAmount).sum

section Orders

variable {carrier : Int} {currentTs : UInt32} {x y : DeliveredOrder F}
  {orders : List (DeliveredOrder F)} {order : OrderVal} {lines : List (OrderLineVal F)}
  {cust : CustomerVal F}

/-- The delivery of an order finds its customer. -/
theorem Deliveries.customerId (h : Deliveries id w carrier currentTs s orders s')
    (ten : orders.length = 10) (hx : x ∈ orders)
    (rows : OrderRows w x.districtId x.oId order lines cust s) : x.customerId = order.oCId := by
  have keeps : ∀ y ∈ orders, y.districtId ≠ x.districtId →
      ∀ k, k = orderKey w x.districtId x.oId →
      ∀ s s', y.Effect id w carrier currentTs s s' → s' k = s k := by
    rintro y hy other k rfl s s' effect
    have rangeX := h.range hx
    have rangeY := h.range hy
    refine effect.frame (fun same => other ?_) (Key.ne_of_table (by simp))
      fun _ _ => Key.ne_of_table (by simp)
    have := orderKey_district (by omega) (by omega) (by omega) (by omega) same
    omega
  obtain ⟨s1, s2, effect, first, _⟩ := h.split hx keeps
  obtain ⟨old, status, row, _, _, _, _, _, _, reads, same, _⟩ := effect.writes
  have reads : Reads orderVal (s1 (orderKey w x.districtId x.oId)) old status row := reads
  rw [first _ rfl, rows.orderRow, reads_encode] at reads
  rw [same, reads.2]

/-- The keys that the delivery of an order touches. -/
def DeliveredOrder.Touches (w : Int) (x : DeliveredOrder F) (k : Key) : Prop :=
  k = orderKey w x.districtId x.oId ∨ k = customerKey w x.districtId x.customerId.toInt ∨
    ∃ i < 15, k = orderLineKey w x.districtId x.oId (i + 1 : Nat)

omit [FloatRep F] [DecidableEq F] [Amount F] in
/-- The deliveries of different districts touch different keys. -/
theorem DeliveredOrder.Touches.district {k : Key} (hx : x.Touches w k) (hy : y.Touches w k)
    (rangeX : (1 ≤ x.districtId ∧ x.districtId ≤ 10) ∧ 2101 ≤ x.oId ∧ x.oId ≤ 3000)
    (rangeY : (1 ≤ y.districtId ∧ y.districtId ≤ 10) ∧ 2101 ≤ y.oId ∧ y.oId ≤ 3000)
    (payerX : 0 ≤ x.customerId.toInt) (payerY : 0 ≤ y.customerId.toInt) :
    x.districtId = y.districtId := by
  have smallX := x.customerId.toInt_lt
  have smallY := y.customerId.toInt_lt
  have same : (x.districtId : Int) = y.districtId := by
    rcases hx with rfl | rfl | ⟨i, hi, rfl⟩
    · rcases hy with same | same | ⟨j, hj, same⟩
      · exact orderKey_district (by omega) (by omega) (by omega) (by omega) same
      · exact absurd same (Key.ne_of_table (by simp))
      · exact absurd same (Key.ne_of_table (by simp))
    · rcases hy with same | same | ⟨j, hj, same⟩
      · exact absurd same (Key.ne_of_table (by simp))
      · exact customerKey_district (by omega) (by omega) (by omega) (by omega) same
      · exact absurd same (Key.ne_of_table (by simp))
    · rcases hy with same | same | ⟨j, hj, same⟩
      · exact absurd same (Key.ne_of_table (by simp))
      · exact absurd same (Key.ne_of_table (by simp))
      · exact orderLineKey_district (by omega) (by omega) (by omega) (by omega) (by omega)
          (by omega) same
  omega

theorem DeliveredOrder.Effect.untouched {k : Key} {s s' : Store Key (Value F)}
    (h : x.Effect id w carrier currentTs s s') (other : ¬x.Touches w k) : s' k = s k :=
  h.frame (fun same => other (.inl same)) (fun same => other (.inr (.inl same)))
    fun i hi same => other (.inr (.inr ⟨i, hi, same⟩))

/-- What the deliveries leave of an order: its 15 lines, each as it was read, dated, and the balance
of its customer. -/
theorem Deliveries.order_after (h : Deliveries id w carrier currentTs s orders s')
    (ten : orders.length = 10)
    (all : ∀ y ∈ orders, ∃ order lines cust, OrderRows w y.districtId y.oId order lines cust s)
    (hx : x ∈ orders) (rows : OrderRows w x.districtId x.oId order lines cust s) :
    ∃ dated : List (OrderLineVal F), dated.length = 15 ∧
      (∀ (i : Nat) (hi : i < dated.length),
        (∃ old status, Reads orderLineVal (s (orderLineKey w x.districtId x.oId (i + 1 : Nat))) old
          status dated[i]) ∧
        s' (orderLineKey w x.districtId x.oId (i + 1 : Nat)) =
          some (orderLineVal.encode { dated[i] with olDeliveryD := currentTs })) ∧
      ∃ count, s' (customerKey w x.districtId order.oCId.toInt) = some (customerVal.encode
        { cust with cBalance := cust.cBalance + sumAmounts dated, cDeliveryCnt := count }) := by
  have payer (y : DeliveredOrder F) (hy : y ∈ orders) : 0 ≤ y.customerId.toInt := by
    obtain ⟨order, lines, cust, rows⟩ := all y hy
    rw [h.customerId ten hy rows]
    exact rows.payer
  have range (y : DeliveredOrder F) (hy : y ∈ orders) := ten ▸ h.range hy
  have untouched (y : DeliveredOrder F) (hy : y ∈ orders) (other : y.districtId ≠ x.districtId)
      (k : Key) (hk : x.Touches w k) (s s' : Store Key (Value F))
      (effect : y.Effect id w carrier currentTs s s') : s' k = s k :=
    effect.untouched fun own =>
      other (own.district hk (range y hy) (range x hx) (payer y hy) (payer x hx))
  obtain ⟨s1, s2, effect, before, after⟩ := h.split hx untouched
  have found := h.customerId ten hx rows
  obtain ⟨_, _, row, dated, s3, old, status, cust', count, _, _, lines15, length, sum, reads,
      _, rfl⟩ :=
    effect.writes
  have lineKey (i : Nat) (hi : i < dated.length) :
      x.Touches w (orderLineKey w x.districtId x.oId (i + 1 : Nat)) :=
    .inr (.inr ⟨i, length ▸ hi, rfl⟩)
  have apart : ∀ i j, i < j → j < dated.length → orderLineKey w x.districtId x.oId (i + 1 : Nat) ≠
      orderLineKey w x.districtId x.oId (j + 1 : Nat) := by
    intro i j hij hj same
    have := orderLineKey_number (by omega) (by omega) (congrArg Key.itemKey same)
    omega
  refine ⟨dated, length, fun i hi => ?_, count, ?_⟩
  · obtain ⟨⟨old, status, read⟩, written⟩ := lines15.line apart hi
    have order : orderLineKey w x.districtId x.oId (i + 1 : Nat) ≠
        id (orderKey w x.districtId x.oId) := Key.ne_of_table (by simp)
    have customer : orderLineKey w x.districtId x.oId (i + 1 : Nat) ≠
        id (customerKey w x.districtId x.customerId.toInt) := Key.ne_of_table (by simp)
    rw [Store.put_of_ne order, before _ (lineKey i hi)] at read
    rw [after _ (lineKey i hi), Store.put_of_ne customer]
    exact ⟨⟨old, status, read⟩, written⟩
  · have kept : s3 (customerKey w x.districtId x.customerId.toInt) =
        some (customerVal.encode cust) := by
      rw [lines15.frame fun i _ => Key.ne_of_table (by simp)]
      apply (Store.put_of_ne (Key.ne_of_table (by simp))).trans
      rw [before _ (.inr (.inl rfl)), found]
      exact rows.customerRow
    have reads : Reads customerVal (s3 (customerKey w x.districtId x.customerId.toInt)) old status
        cust' := reads
    rw [kept, reads_encode] at reads
    rw [← found, after _ (.inr (.inl rfl)), ← reads.2, ← sum]
    exact Store.put_self

/-- The rows that the deliveries do not touch. -/
theorem Deliveries.untouched {k : Key} (h : Deliveries id w carrier currentTs s orders s')
    (other : ∀ x ∈ orders, ¬x.Touches w k) : s' k = s k :=
  h.frame fun x hx _ _ effect => effect.untouched (other x hx)

end Orders

/-! ### Orders of 15 lines -/

omit [DecidableEq F] in
theorem sumAmounts_eq (lines : List (OrderLineVal ℚ)) :
    sumAmounts lines = (lines.map OrderLineVal.olAmount).sum := by
  have zero : (Amount.ofInt 0 : ℚ) = 0 := by norm_num [Amount.ofInt, Amount.quotient]
  rw [sumAmounts, zero, List.sum_eq_foldl, List.foldl_map]

section Exact

variable {ρ : Type} {env : Env ρ} {t t' : Thread ρ} {s s' : Store Key (Value ℚ)}
  {res : DeliveryResult ℚ}

/-- An order of 15 lines after the deliveries. -/
theorem Deliveries.full_order {currentTs : UInt32} {carrier : Int} {x : DeliveredOrder ℚ}
    {orders : List (DeliveredOrder ℚ)} {order : OrderVal} {lines : List (OrderLineVal ℚ)}
    {cust : CustomerVal ℚ} (h : Deliveries id w carrier currentTs s orders s')
    (ten : orders.length = 10)
    (all : ∀ y ∈ orders, ∃ order lines cust, OrderRows w y.districtId y.oId order lines cust s)
    (hx : x ∈ orders) (rows : OrderRows w x.districtId x.oId order lines cust s)
    (full : lines.length = 15) :
    (∀ (i : Nat) (hi : i < lines.length), s' (orderLineKey w x.districtId x.oId (i + 1 : Nat)) =
      some (orderLineVal.encode { lines[i] with olDeliveryD := currentTs })) ∧
    ∃ count, s' (customerKey w x.districtId order.oCId.toInt) = some (customerVal.encode
      { cust with cBalance := cust.cBalance + sumAmounts lines, cDeliveryCnt := count }) := by
  obtain ⟨dated, length, written, balance⟩ := h.order_after ten all hx rows
  have same : dated = lines := by
    refine List.ext_getElem (by omega) fun i hi hi' => ?_
    obtain ⟨⟨old, status, read⟩, _⟩ := written i hi
    rw [rows.line i hi', reads_encode] at read
    exact read.2
  subst same
  exact ⟨fun i hi => (written i hi).2, balance⟩

/-- A delivery does what it should exactly when each of its orders has 15 lines. -/
theorem delivery_exact_iff (returns : Act.Returns id (delivery env W) t s res t' s')
    (all : ∀ x ∈ res.orders, ∃ order lines cust,
      OrderRows res.warehouseId x.districtId x.oId order lines cust s) :
    res.Exact s s' ↔ ∀ x ∈ res.orders, ∀ order,
      s (orderKey res.warehouseId x.districtId x.oId) = some (orderVal.encode order) →
        order.oOlCnt.toInt = 15 := by
  have effect := delivery_effect returns
  obtain ⟨currentTs, deliveries⟩ := effect.deliveries
  constructor
  · intro exact x hx order hrow
    obtain ⟨order', lines, cust, rows⟩ := all x hx
    obtain rfl : order = order' :=
      orderVal.encode_injective (Option.some.inj (hrow.symm.trans rows.orderRow))
    obtain ⟨dated, length, written, _⟩ := deliveries.order_after effect.districts all hx rows
    have few := rows.few
    have count := rows.count
    by_contra short
    have added := exact.noRow _ (rows.noMore (lines.length + 1 : Nat) (by omega) (by omega))
    rw [(written lines.length (by omega)).2] at added
    exact Option.some_ne_none _ added
  · intro fifteen
    have full {x : DeliveredOrder ℚ} (hx : x ∈ res.orders) {order lines cust}
        (rows : OrderRows res.warehouseId x.districtId x.oId order lines cust s) :
        lines.length = 15 := by
      have := fifteen x hx order rows.orderRow
      have := rows.count
      omega
    have after {x : DeliveredOrder ℚ} (hx : x ∈ res.orders) {order lines cust}
        (rows : OrderRows res.warehouseId x.districtId x.oId order lines cust s) :=
      deliveries.full_order effect.districts all hx rows (full hx rows)
    refine ⟨fun k none => ?_, fun k table => ?_, fun x hx order lines cust rows => ?_⟩
    · rw [deliveries.untouched, none]
      intro x hx own
      obtain ⟨order, lines, cust, rows⟩ := all x hx
      have found := deliveries.customerId effect.districts hx rows
      have length := full hx rows
      rcases own with rfl | rfl | ⟨i, hi, rfl⟩
      · rw [rows.orderRow] at none
        exact Option.some_ne_none _ none
      · rw [found, rows.customerRow] at none
        exact Option.some_ne_none _ none
      · rw [rows.line i (by omega)] at none
        exact Option.some_ne_none _ none
    · by_cases own : ∃ x ∈ res.orders, x.Touches res.warehouseId k
      · obtain ⟨x, hx, own⟩ := own
        obtain ⟨order, lines, cust, rows⟩ := all x hx
        have length := full hx rows
        rcases own with rfl | rfl | ⟨i, hi, rfl⟩
        · simp at table
        · simp at table
        · exact .inr ⟨x, hx, order, lines, cust, rows, i, by omega, rfl, currentTs,
            (after hx rows).1 i (by omega)⟩
      · exact .inl (deliveries.untouched fun x hx touched => own ⟨x, hx, touched⟩)
    · obtain ⟨count, row⟩ := (after hx rows).2
      refine ⟨_, row, ?_⟩
      rw [← sumAmounts_eq]

end Exact

/-- An order of `m` lines, of customer 1. -/
def openOrder (m : Nat) : OrderVal where
  oCId := 1
  oCarrierId := 0
  oOlCnt := Int32.ofNat m
  oAllLocal := 1
  oEntryD := 1

/-- The orders of the first warehouse, with `m` lines each, and their customers. -/
def openStore (m : Nat) : Store Key (Value ℚ) := fun k =>
  match k.table with
  | .order => some (orderVal.encode (openOrder m))
  | .customer => some (customerVal.encode (zeroRow customerVal))
  | .orderLine =>
    if (k.itemKey.toNat - 1) % 15 < m then some (orderLineVal.encode (zeroRow orderLineVal))
      else none
  | _ => none

theorem openStore_rows {m : Nat} (few : 5 ≤ m ∧ m ≤ 15) (hd : 1 ≤ d ∧ d ≤ 10)
    (ho : 2101 ≤ o ∧ o ≤ 3000) : OrderRows 1 d o (openOrder m)
      (List.replicate m (zeroRow orderLineVal)) (zeroRow customerVal) (openStore m) where
  orderRow := rfl
  count := by
    rw [List.length_replicate, openOrder, Int32.toInt_ofNat_of_lt (by omega)]
  few := by rwa [List.length_replicate]
  line i hi := by
    rw [List.length_replicate] at hi
    have number := orderLineKey_toNat (w := 1) (d := d) (o := o) (l := (i + 1 : Nat)) (by omega)
      (by omega) (by omega) (by omega) (by omega) (by omega)
    simp only [openStore, table_orderLineKey, List.getElem_replicate]
    exact if_pos (by omega)
  noMore l low high := by
    rw [List.length_replicate] at low
    have number := orderLineKey_toNat (w := 1) (d := d) (o := o) (l := l) (by omega) (by omega)
      (by omega) (by omega) (by omega) (by omega)
    simp only [openStore, table_orderLineKey]
    exact if_neg (by omega)
  payer := show 0 ≤ (1 : Int32).toInt by decide
  customerRow := rfl

theorem openStore_returns {m : Nat} (few : 5 ≤ m ∧ m ≤ 15) : ∃ res t' s',
    Act.Returns id (delivery Env.counting 2) ⟨0, 0⟩ (openStore m) res t' s' ∧
      res.orders.length = 10 ∧ ∀ x ∈ res.orders, OrderRows res.warehouseId x.districtId x.oId
        (openOrder m) (List.replicate m (zeroRow orderLineVal)) (zeroRow customerVal)
          (openStore m) := by
  have deliverable (w : Int) (hw : 1 ≤ w ∧ w < (2 : Nat)) : Deliverable w (openStore m) := by
    obtain rfl : w = 1 := by omega
    intro d o hd ho
    have rows := openStore_rows few hd ho
    have payer : (openOrder m).oCId.toInt < 2 ^ 31 := (openOrder m).oCId.toInt_lt
    exact ⟨_, _, rows.orderRow, ⟨rows.payer, payer⟩, rows.customerRow, 1, by decide⟩
  obtain ⟨res, t', s', returns⟩ : ∃ res t' s',
      Act.Returns id (delivery Env.counting 2) ⟨0, 0⟩ (openStore m) res t' s' :=
    delivery_returns deliverable le_rfl
  have effect := delivery_effect returns
  obtain ⟨currentTs, deliveries⟩ := effect.deliveries
  have warehouse := effect.warehouse
  refine ⟨res, t', s', returns, effect.districts, fun x hx => ?_⟩
  have range := effect.districts ▸ deliveries.range hx
  rw [show res.warehouseId = 1 by omega]
  exact openStore_rows few (by omega) (by omega)

theorem delivery_exact_iff_fifteen : ∃ res t' s',
    Act.Returns id (delivery Env.counting 2) ⟨0, 0⟩ (openStore 15) res t' s' ∧
      res.Exact (openStore 15) s' := by
  obtain ⟨res, t', s', returns, _, rows⟩ := openStore_returns (m := 15) (by decide)
  refine ⟨res, t', s', returns, (delivery_exact_iff returns fun x hx =>
    ⟨_, _, _, rows x hx⟩).mpr ?_⟩
  intro x hx order hrow
  obtain rfl : openOrder 15 = order :=
    orderVal.encode_injective (Option.some.inj ((rows x hx).orderRow.symm.trans hrow))
  decide

/-- A delivery of orders of five lines inserts ten more lines for each. -/
theorem short_orders_get_lines : ¬∀ (ρ : Type) (env : Env ρ) (W : Nat) (t t' : Thread ρ)
    (s s' : Store Key (Value ℚ)) (res : DeliveryResult ℚ),
    Act.Returns id (delivery env W) t s res t' s' →
      (∀ x ∈ res.orders, ∃ order lines cust,
        OrderRows res.warehouseId x.districtId x.oId order lines cust s) → res.Exact s s' := by
  intro claim
  obtain ⟨res, t', s', returns, ten, rows⟩ := openStore_returns (m := 5) (by decide)
  have exact := claim _ _ _ _ _ _ _ _ returns fun x hx => ⟨_, _, _, rows x hx⟩
  obtain ⟨currentTs, deliveries⟩ := (delivery_effect returns).deliveries
  have first : res.orders[0] ∈ res.orders := List.getElem_mem (by omega)
  have some := rows _ first
  obtain ⟨dated, length, written, _⟩ := deliveries.order_after ten
    (fun x hx => ⟨_, _, _, rows x hx⟩) first some
  have added := exact.noRow _ (some.noMore (5 + 1 : Nat) (by simp) (by decide))
  rw [(written 5 (by omega)).2] at added
  exact Option.some_ne_none _ added

end Tpcc
