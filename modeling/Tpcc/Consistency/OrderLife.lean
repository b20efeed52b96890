import Tpcc.Consistency.LineKeys
import Tpcc.Consistency.NewOrders
import Tpcc.OrderCustomers

/-! What becomes of an order.  An order that the loader inserts has the lines that its row counts,
dated as its carrier says, until a delivery draws it, and from then on 15 lines with the carrier and
the date of the last delivery.  An order that `NewOrder` places is never delivered, and its only
lines are those of the remote stocks. -/

namespace Tpcc

open KvProgram Layout

/-! ### The loaded lines -/

section Load

variable {ρ F : Type} [FloatRep F] [DecidableEq F] [Amount F] {env : Env ρ} {W : Nat} {t : Thread ρ}
  {s : Store Key (Value F)} {w d c : Nat} {orders orders' : Nat → Nat → Nat → Prop}

/-- The row of a line that its order counts, with the date of the order if the loader delivers
it. -/
def LoadedLine (w d o : Nat) (s : Store Key (Value F)) (k : Key) (v : Value F) : Prop :=
  ∃ (l : Nat) (order : OrderVal) (line : OrderLineVal F), k = orderLineKey w d o l ∧
    (1 ≤ l ∧ l ≤ order.oOlCnt.toInt) ∧ s (orderKey w d o) = some (orderVal.encode order) ∧
    v = orderLineVal.encode line ∧ line.olDeliveryD = if o ≤ 2100 then order.oEntryD else 0

/-- The lines are those of some orders. -/
def LinesOf (orders : Nat → Nat → Nat → Prop) (s : Store Key (Value F)) : Prop :=
  ∀ k v, k.table = .orderLine → s k = some v → ∃ w d o, orders w d o ∧ LoadedLine w d o s k v

omit [Amount F] in
theorem LinesOf.mono (h : LinesOf orders s) (more : ∀ w d o, orders w d o → orders' w d o) :
    LinesOf orders' s := by
  intro k v table row
  obtain ⟨w, d, o, own, line⟩ := h k v table row
  exact ⟨w, d, o, more w d o own, line⟩

omit [Amount F] in
/-- A write that is no line, and not to the row of one of the orders. -/
theorem LinesOf.put {k : Key} {v : Value F} (h : LinesOf orders s) (notLine : k.table ≠ .orderLine)
    (fresh : ∀ w d o : Nat, orders w d o → k ≠ orderKey w d o) : LinesOf orders (s.put k v) := by
  intro k' v' table row
  have other : k' ≠ k := by
    rintro rfl
    exact notLine table
  rw [Store.put_of_ne other] at row
  obtain ⟨w, d, o, own, l, order, line, same, count, hrow, rest⟩ := h k' v' table row
  refine ⟨w, d, o, own, l, order, line, same, count, ?_, rest⟩
  rw [Store.put_of_ne (fresh w d o own).symm, hrow]

omit [Amount F] in
theorem LinesOf.put_line {l : Nat} {order : OrderVal} {line : OrderLineVal F} (h : LinesOf orders s)
    (own : orders w d c) (count : 1 ≤ l ∧ l ≤ order.oOlCnt.toInt)
    (row : s (orderKey w d c) = some (orderVal.encode order))
    (date : line.olDeliveryD = if c ≤ 2100 then order.oEntryD else 0) :
    LinesOf orders (s.put (orderLineKey w d c l) (orderLineVal.encode line)) := by
  have kept (w' d' o' : Nat) : s.put (orderLineKey w d c l) (orderLineVal.encode line)
      (orderKey w' d' o') = s (orderKey w' d' o') := Store.put_of_ne (Key.ne_of_table (by simp))
  intro k v table stored
  by_cases same : k = orderLineKey w d c l
  · subst same
    rw [Store.put_self] at stored
    exact ⟨w, d, c, own, l, order, line, rfl, count, (kept w d c).trans row,
      (Option.some.inj stored).symm, date⟩
  · rw [Store.put_of_ne same] at stored
    obtain ⟨w', d', o', own', l', order', line', same', count', row', rest⟩ := h k v table stored
    exact ⟨w', d', o', own', l', order', line', same', count', (kept w' d' o').trans row', rest⟩

omit [DecidableEq F] [Amount F] in
theorem wp_populateOrderIndex_lines {cId : Int} {R : Store Key (Value F) → Prop} (h : R s)
    (keeps : ∀ k v, k.table = .orderIndex → R (s.put k v)) :
    Act.wp (Contract.partly (Value F) id).logic (populateOrderIndex env w d c cId)
      (fun _ _ s' => R s') t s := by
  simp only [populateOrderIndex, Act.wp_bind]
  refine wp_uninit fun val t => wp_getRecord ⟨trivial, fun status found t _ => ?_⟩
  split
  · simp only [Act.wp_bind, wp_putRecord]
    exact ⟨trivial, keeps _ _ rfl⟩
  · exact h

omit [DecidableEq F] [Amount F] in
theorem wp_populateNewOrder_lines {R : Store Key (Value F) → Prop} (h : R s)
    (keeps : ∀ k v, k.table = .newOrder → R (s.put k v)) :
    Act.wp (Contract.partly (Value F) id).logic (populateNewOrder env w d c)
      (fun _ _ s' => R s') t s := by
  unfold populateNewOrder
  split
  · simp only [Act.wp_bind, wp_putRecord]
    exact wp_uninit fun val t => ⟨trivial, keeps _ _ rfl⟩
  · exact h

/-- The load of an order adds its lines. -/
theorem wp_populateOrder_lines {cIds : List Nat} (h : LinesOf orders s)
    (fresh : ∀ w' d' o' : Nat, orders w' d' o' → orderKey w d c ≠ orderKey w' d' o')
    (more : ∀ w d o, orders w d o → orders' w d o) (own : orders' w d c) :
    Act.wp (Contract.partly (Value F) id).logic (populateOrder env w d cIds c)
      (fun _ _ s' => LinesOf orders' s') t s := by
  simp only [populateOrder, Act.wp_bind, wp_putRecord]
  refine wp_orderRow_customer fun order t _ => ⟨trivial, ?_⟩
  let R (s : Store Key (Value F)) : Prop :=
    LinesOf orders' s ∧ s (orderKey w d c) = some (orderVal.encode order)
  have keeps {s : Store Key (Value F)} {k : Key} (v : Value F) (h : R s)
      (other : k.table ≠ .orderLine ∧ k.table ≠ .order) : R (s.put k v) :=
    ⟨h.1.put other.1 fun _ _ _ _ => Key.ne_of_table (by simpa using other.2),
      (Store.put_of_ne (Key.ne_of_table (by simpa using other.2.symm))).trans h.2⟩
  have placed : R (s.put (orderKey w d c) (orderVal.encode order)) :=
    ⟨(h.put (by simp) fresh).mono more, Store.put_self⟩
  apply Act.wp_mono (wp_populateOrderIndex_lines placed fun k v table =>
    keeps v placed (by simp [table]))
  intro _ t s1 indexed
  apply Act.wp_mono (wp_populateNewOrder_lines indexed fun k v table =>
    keeps v indexed (by simp [table]))
  intro _ t s2 entered
  apply Act.wp_mono (Act.wp_forRange (fun _ _ _ => R) _ entered) fun _ _ _ h => h.1
  intro l _ t s low high h
  simp only [Act.wp_bind, wp_putRecord]
  refine wp_orderLineRow_dated fun line t date => ⟨trivial, ?_, ?_⟩
  · exact h.1.put_line own ⟨low, by omega⟩ h.2 date
  · have ne : orderKey w d c ≠ orderLineKey w d c l := Key.ne_of_table (by simp)
    exact (Store.put_of_ne ne).trans h.2

/-- The orders that the loader inserts before order `c` of the district `(w, d)`. -/
def EarlierOrder (w d c w' d' o' : Nat) : Prop :=
  (1 ≤ w' ∧ (1 ≤ d' ∧ d' ≤ 10) ∧ 1 ≤ o' ∧ o' ≤ 3000) ∧
    (w' < w ∨ w' = w ∧ (d' < d ∨ d' = d ∧ o' < c))

/-- The load of the order tables inserts the lines of the orders that it inserts. -/
theorem wp_populateOrders_lines {seed : Nat} (small : W ≤ 21474)
    (h : ∀ k : Key, k.table = .orderLine → s k = none) :
    Act.wp (Contract.partly (Value F) id).logic (populateOrderNewOrderAndOrderLineTable env W seed)
      (fun _ _ s' => LinesOf (EarlierOrder (1 + W) 1 1) s') t s := by
  simp only [populateOrderNewOrderAndOrderLineTable, Act.wp_bind]
  refine wp_seeded fun t => Act.wp_forRange (fun w _ _ s => LinesOf (EarlierOrder w 1 1) s) ?_ ?_
  · intro w _ t s low high h
    refine Act.wp_mono (Act.wp_forRange (fun d _ _ s => LinesOf (EarlierOrder w d 1) s) ?_ h) ?_
    · intro d _ t s dLow (dHigh : d < 1 + 10) h
      rw [Act.wp_bind]
      refine wp_shuffleCustomers (.inl trivial) fun cIds t _ _ _ => ?_
      refine Act.wp_mono (Act.wp_forRange (fun c _ _ s => LinesOf (EarlierOrder w d c) s) ?_ h) ?_
      · intro c _ t s cLow (cHigh : c < 1 + 3000) h
        refine wp_populateOrder_lines h ?_ ?_ ?_
        · rintro w' d' o' ⟨range, before⟩ same
          have ids :=
            orderKey_inj (by omega) (by omega) (by omega) (by omega) (by omega) (by omega) same
          omega
        · rintro w' d' o' ⟨range, before⟩
          exact ⟨range, by omega⟩
        · exact ⟨⟨low, ⟨dLow, by omega⟩, cLow, by omega⟩, by omega⟩
      · intro _ t s h
        apply h.mono
        rintro w' d' o' ⟨range, before⟩
        exact ⟨range, by omega⟩
    · intro _ t s h
      apply h.mono
      rintro w' d' o' ⟨range, before⟩
      exact ⟨range, by omega⟩
  · intro k v table row
    rw [h k table] at row
    contradiction

/-- The contract of the load of the other tables. -/
def besideOrders (F : Type) [FloatRep F] : Contract Key (Value F) Key :=
  (Contract.partly (Value F) id).demand fun k _ => k.table ≠ .order ∧ k.table ≠ .orderLine

omit [DecidableEq F] [Amount F] in
theorem wp_besideOrders {α : Type} {m : Act (Thread ρ) Key (Value F) α}
    {Q : α → Thread ρ → Store Key (Value F) → Prop} {R : Store Key (Value F) → Prop}
    (wp : Act.wp (besideOrders F).logic m Q t s) (h : R s)
    (keeps : ∀ s k v, R s → k.table ≠ .order → k.table ≠ .orderLine → R (s.put k v)) :
    Act.wp (Contract.partly (Value F) id).logic m (fun _ _ s' => R s') t s := by
  have kept := Act.wp_keeps (C := besideOrders F) (R := R)
    (fun s k v h may => keeps s k v h may.2.1 may.2.2) wp h
  exact Act.wp_mono (Act.wp_of_demand kept) fun _ _ _ h => h.2

theorem permits_besideOrders {own : Key → Prop}
    (other : ∀ k, own k → k.table ≠ .order ∧ k.table ≠ .orderLine) :
    Permits (besideOrders F) W own where
  mayGet _ _ _ _ := trivial
  mayPut k _ mine _ := ⟨trivial, other k mine⟩

theorem wp_loadTables_lines (small : W ≤ 21474) (empty : ∀ k, s k = none) :
    Act.wp (Contract.partly (Value F) id).logic (loadTables env W)
      (fun _ _ s' => LinesOf (EarlierOrder (1 + W) 1 1) s') t s := by
  have permits {own : Table} (other : own ≠ .order ∧ own ≠ .orderLine) :
      Permits (besideOrders F) W (·.table = own) := permits_besideOrders fun k mine => by rwa [mine]
  let NoLine (s : Store Key (Value F)) : Prop := ∀ k : Key, k.table = .orderLine → s k = none
  have before {s : Store Key (Value F)} {k : Key} {v : Value F} (h : NoLine s)
      (_ : k.table ≠ .order) (other : k.table ≠ .orderLine) : NoLine (s.put k v) := by
    intro k' table
    have ne : k' ≠ k := by
      rintro rfl
      exact other table
    rw [Store.put_of_ne ne, h k' table]
  have after {s : Store Key (Value F)} {k : Key} {v : Value F}
      (h : LinesOf (EarlierOrder (1 + W) 1 1) s) (notOrder : k.table ≠ .order)
      (notLine : k.table ≠ .orderLine) : LinesOf (EarlierOrder (1 + W) 1 1) (s.put k v) :=
    h.put notLine fun _ _ _ _ => Key.ne_of_table (by simpa using notOrder)
  simp only [loadTables, Act.wp_bind]
  apply Act.wp_mono (wp_besideOrders (R := NoLine) (wp_populateWarehouseTable (.inl trivial)
    (permits (by decide))) (fun k _ => empty k) fun _ _ _ => before)
  intro _ t s h
  apply Act.wp_mono (wp_besideOrders
    (wp_populateDistrictTable (.inl trivial) (permits (by decide))) h
    fun _ _ _ => before)
  intro _ t s h
  apply Act.wp_mono (wp_besideOrders (wp_populateCustomerAndHistoryTable (.inl trivial)
    (permits_besideOrders fun k own => ?_)) h fun _ _ _ => before)
  · intro _ t s h
    apply Act.wp_mono (wp_populateOrders_lines small h)
    intro _ t s h
    apply Act.wp_mono (wp_besideOrders
      (wp_populateStockTable (.inl trivial) (permits (by decide))) h
      fun _ _ _ => after)
    intro _ t s h
    apply Act.wp_mono (wp_besideOrders (wp_populateItemTable (.inl trivial) (permits (by decide))) h
      fun _ _ _ => after)
    intro _ t s h
    exact wp_besideOrders (wp_populateStockTable (.inl trivial) (permits (by decide))) h
      fun _ _ _ => after
  · rcases own with history | ⟨t, words, rfl⟩
    · rcases List.mem_pair.mp history with table | table <;> simp [table]
    · simp

/-- The lines after the load. -/
theorem Loaded.lines (loaded : Loaded id W s) : LinesOf (EarlierOrder (1 + W) 1 1) s := by
  have small := loaded.tables.small
  obtain ⟨ρ, env, t, t', returns⟩ := loaded
  have load : Act.wp (Contract.partly (Value F) id).logic (loadTables env W)
      (fun _ _ s => LinesOf (EarlierOrder (1 + W) 1 1) s) t (fun _ => none) :=
    wp_loadTables_lines small fun _ => rfl
  have lines := Act.wp_returns load returns
  exact lines

end Load

/-! ### Orders and their deliveries -/

variable {F : Type} [FloatRep F] [DecidableEq F] [Amount F] {W : Nat} {s s' : Store Key (Value F)}
  {run : List (Outcome F)} {w d o : Int} {last : Option Int}

/-- The carrier to which a transaction gives an order. -/
def Outcome.carrier (w d o : Int) : Outcome F → Option Int
  | .delivery res =>
    if res.warehouseId = w ∧ res.orders.any fun x => x.districtId = d ∧ x.oId = o then
      some res.oCarrierId
    else none
  | _ => none

/-- The carrier of the last delivery of an order. -/
def lastCarrier (w d o : Int) (run : List (Outcome F)) : Option Int :=
  run.findSome? (·.carrier w d o)

/-- An order that no delivery has drawn: its lines are those that it counts, and dated when the
loader has delivered it. -/
structure OrderVal.AsLoaded (row : OrderVal) (w d o : Int) (s : Store Key (Value F)) : Prop where
  carrier : row.oCarrierId = 0 ↔ 2100 < o
  lines : ∀ l : Int, 1 ≤ l ∧ l ≤ 15 → (s (orderLineKey w d o l) ≠ none ↔ l ≤ row.oOlCnt.toInt)
  dates : ∀ (l : Int) (line : OrderLineVal F), 1 ≤ l ∧ l ≤ 15 →
    s (orderLineKey w d o l) = some (orderLineVal.encode line) →
      line.olDeliveryD = if o ≤ 2100 then row.oEntryD else 0

/-- An order that a delivery has given to a carrier: it has 15 lines, all with the same date. -/
structure OrderVal.DeliveredBy (row : OrderVal) (carrier w d o : Int) (s : Store Key (Value F)) :
    Prop where
  carrier : row.oCarrierId = Int32.ofInt carrier
  lines : ∃ date : UInt32, ∀ l : Int, 1 ≤ l ∧ l ≤ 15 → ∃ line : OrderLineVal F,
    s (orderLineKey w d o l) = some (orderLineVal.encode line) ∧ line.olDeliveryD = date

/-- The rows of an order that the loader has inserted, which was given last to the carrier
`last`. -/
def OrderAt (w d o : Int) (last : Option Int) (s : Store Key (Value F)) : Prop :=
  ∃ row : OrderVal, s (orderKey w d o) = some (orderVal.encode row) ∧
    (5 ≤ row.oOlCnt.toInt ∧ row.oOlCnt.toInt ≤ 15) ∧ (last = none → row.AsLoaded w d o s) ∧
    ∀ carrier, last = some carrier → row.DeliveredBy carrier w d o s

omit [Amount F] in
/-- Steps that leave the rows of an order alone. -/
theorem OrderAt.same (h : OrderAt w d o last s) (order : s' (orderKey w d o) = s (orderKey w d o))
    (lines : ∀ l : Int, 1 ≤ l ∧ l ≤ 15 → s' (orderLineKey w d o l) = s (orderLineKey w d o l)) :
    OrderAt w d o last s' := by
  obtain ⟨row, hrow, count, loaded, delivered⟩ := h
  refine ⟨row, order.trans hrow, count, fun none => ?_, fun carrier some => ?_⟩
  · have loaded := loaded none
    refine ⟨loaded.carrier, fun l hl => ?_, fun l line hl => ?_⟩
    · rw [lines l hl]
      exact loaded.lines l hl
    · rw [lines l hl]
      exact loaded.dates l line hl
  · have delivered := delivered carrier some
    obtain ⟨date, dated⟩ := delivered.lines
    refine ⟨delivered.carrier, date, fun l hl => ?_⟩
    rw [lines l hl]
    exact dated l hl

theorem Loaded.orderAt (loaded : Loaded id W s) (hd : IsDistrict W w d) (ho : 1 ≤ o ∧ o ≤ 3000) :
    OrderAt w d o none s := by
  have small := loaded.tables.small
  obtain ⟨row, hrow, carrier, count, _, lines⟩ := loaded.tables.order hd ho
  have own (l : Int) (hl : 1 ≤ l ∧ l ≤ 15) (v : Value F)
      (stored : s (orderLineKey w d o l) = some v) : l ≤ row.oOlCnt.toInt ∧
        ∃ line : OrderLineVal F, v = orderLineVal.encode line ∧
          line.olDeliveryD = if o ≤ 2100 then row.oEntryD else 0 := by
    obtain ⟨hw, hd⟩ := hd
    obtain ⟨w', d', o', ⟨range, before⟩, l', order, line, same, hl', horder, value, date⟩ :=
      loaded.lines _ v rfl stored
    obtain ⟨row', hrow', _, few, _⟩ := loaded.tables.order (w := w') (d := d') (o := o')
      ⟨by omega, by omega⟩ (by omega)
    have counted := orderVal.encode_injective (Option.some.inj (horder.symm.trans hrow'))
    subst counted
    obtain ⟨rfl, rfl, rfl, rfl⟩ :=
      orderLineKey_inj (by omega) hd (by omega) hl (by omega) (by omega) (by omega) (by omega) same
    have here := orderVal.encode_injective (Option.some.inj (horder.symm.trans hrow))
    subst here
    refine ⟨hl'.2, line, value, ?_⟩
    rw [date]
    norm_cast
  refine ⟨row, hrow, count, fun _ =>
    ⟨carrier, fun l hl => ⟨fun present => ?_, lines l hl.1⟩, ?_⟩, by simp⟩
  · obtain ⟨v, stored⟩ := Option.ne_none_iff_exists'.mp present
    exact (own l hl v stored).1
  · intro l line hl stored
    obtain ⟨_, line', same, date⟩ := own l hl _ stored
    rwa [orderLineVal.encode_injective same]

/-! ### Deliveries -/

/-- The lines of the orders whose numbers are in the range of the line keys. -/
theorem orderLineKey_ne {l w' d' o' l' : Int} (small : W ≤ 21474) (hd : IsDistrict W w d)
    (ho : 1 ≤ o ∧ o ≤ 10000000) (hl : 1 ≤ l ∧ l ≤ 15) (hd' : IsDistrict W w' d')
    (ho' : 1 ≤ o' ∧ o' ≤ 10000000) (hl' : 1 ≤ l' ∧ l' ≤ 15) (ne : ¬(w = w' ∧ d = d' ∧ o = o')) :
    orderLineKey w d o l ≠ orderLineKey w' d' o' l' := by
  obtain ⟨hw, hd⟩ := hd
  obtain ⟨hw', hd'⟩ := hd'
  intro same
  have ids := orderLineKey_inj (by omega) hd ho hl (by omega) hd' ho' hl' same
  exact ne ⟨ids.1, ids.2.1, ids.2.2.1⟩

section Delivery

variable {carrier w' : Int} {currentTs : UInt32} {x : DeliveredOrder F}
  {orders : List (DeliveredOrder F)} {res : DeliveryResult F}

/-- The rows of an order. -/
def RowsOf (w d o : Int) (k : Key) : Prop :=
  k = orderKey w d o ∨ ∃ l : Int, (1 ≤ l ∧ l ≤ 15) ∧ k = orderLineKey w d o l

/-- The delivery of another order leaves the rows of an order alone. -/
theorem DeliveredOrder.Effect.rowsOf {k : Key} (h : x.Effect id w' carrier currentTs s s')
    (own : RowsOf w d o k) (order : orderKey w d o ≠ orderKey w' x.districtId x.oId)
    (line : ∀ l l' : Int, 1 ≤ l ∧ l ≤ 15 → 1 ≤ l' ∧ l' ≤ 15 →
      orderLineKey w d o l ≠ orderLineKey w' x.districtId x.oId l') : s' k = s k := by
  rcases own with rfl | ⟨l, hl, rfl⟩
  · exact h.frame order (Key.ne_of_table (by simp)) fun i _ => Key.ne_of_table (by simp)
  · exact h.frame (Key.ne_of_table (by simp)) (Key.ne_of_table (by simp)) fun i hi =>
      line l (i + 1 : Nat) hl (by omega)

/-- The rows of an order after its delivery. -/
theorem DeliveredOrder.Effect.orderAt {row : OrderVal} (h : x.Effect id w carrier currentTs s s')
    (hrow : s (orderKey w x.districtId x.oId) = some (orderVal.encode row)) :
    s' (orderKey w x.districtId x.oId) =
        some (orderVal.encode { row with oCarrierId := Int32.ofInt carrier }) ∧
      ∀ l : Int, 1 ≤ l ∧ l ≤ 15 → ∃ line : OrderLineVal F,
        s' (orderLineKey w x.districtId x.oId l) = some (orderLineVal.encode line) ∧
          line.olDeliveryD = currentTs := by
  constructor
  · obtain ⟨old, status, read, reads, same⟩ := h.orderRow
    rw [hrow, reads_encode] at reads
    obtain ⟨_, rfl⟩ := reads
    exact same.row rfl
  · intro l hl
    obtain ⟨_, _, read, lines, s1, _, _, cust, _, _, _, dated, length, _, _, _, rfl⟩ := h.writes
    have apart : ∀ i j, i < j → j < lines.length → orderLineKey w x.districtId x.oId (i + 1 : Nat) ≠
        orderLineKey w x.districtId x.oId (j + 1 : Nat) := by
      intro i j hij hj same
      have := orderLineKey_number (by omega) (by omega) (congrArg Key.itemKey same)
      omega
    have index : l.toNat - 1 < lines.length := by omega
    obtain ⟨_, stored⟩ := dated.line apart index
    have number : ((l.toNat - 1 + 1 : Nat) : Int) = l := by omega
    rw [number] at stored
    refine ⟨{ lines[l.toNat - 1] with olDeliveryD := currentTs }, ?_, rfl⟩
    exact (Store.put_of_ne (Key.ne_of_table (by simp))).trans stored

/-- The rows of an order after the deliveries of all districts. -/
theorem Deliveries.orderAt {row : OrderVal} (h : Deliveries id w carrier currentTs s orders s')
    (ten : orders.length = 10) (hx : x ∈ orders)
    (hrow : s (orderKey w x.districtId x.oId) = some (orderVal.encode row)) :
    s' (orderKey w x.districtId x.oId) =
        some (orderVal.encode { row with oCarrierId := Int32.ofInt carrier }) ∧
      ∀ l : Int, 1 ≤ l ∧ l ≤ 15 → ∃ line : OrderLineVal F,
        s' (orderLineKey w x.districtId x.oId l) = some (orderLineVal.encode line) ∧
          line.olDeliveryD = currentTs := by
  have range (y : DeliveredOrder F) (hy : y ∈ orders) := ten ▸ h.range hy
  have others : ∀ y ∈ orders, y.districtId ≠ x.districtId → ∀ k, RowsOf w x.districtId x.oId k →
      ∀ s s', y.Effect id w carrier currentTs s s' → s' k = s k := by
    intro y hy other k own s s' effect
    have rangeX := range x hx
    have rangeY := range y hy
    refine effect.rowsOf own (fun same => ?_) fun l l' hl hl' same => ?_
    · have := orderKey_district (by omega) (by omega) (by omega) (by omega) same
      omega
    · have := orderLineKey_district (by omega) (by omega) (by omega) hl (by omega) hl' same
      omega
  obtain ⟨s1, s2, effect, before, after⟩ := h.split hx others
  obtain ⟨order, lines⟩ := effect.orderAt ((before _ (.inl rfl)).trans hrow)
  refine ⟨(after _ (.inl rfl)).trans order, fun l hl => ?_⟩
  obtain ⟨line, stored, date⟩ := lines l hl
  exact ⟨line, (after _ (.inr ⟨l, hl, rfl⟩)).trans stored, date⟩

omit [FloatRep F] [DecidableEq F] [Amount F] in
/-- An order that a transaction gives to a carrier. -/
theorem Outcome.carrier_delivery :
    (Outcome.delivery res).carrier w d o = some carrier ↔ carrier = res.oCarrierId ∧
      res.warehouseId = w ∧ ∃ x ∈ res.orders, x.districtId = d ∧ x.oId = o := by
  simp only [Outcome.carrier, List.any_eq_true, decide_eq_true_eq, Option.ite_none_right_eq_some,
    Option.some.injEq]
  constructor
  · rintro ⟨⟨warehouse, drawn⟩, rfl⟩
    exact ⟨rfl, warehouse, drawn⟩
  · rintro ⟨rfl, warehouse, drawn⟩
    exact ⟨⟨warehouse, drawn⟩, rfl⟩

/-- A delivery draws orders that the loader has not delivered, and gives them to a carrier. -/
theorem DeliveryResult.Effect.carrier_range (h : res.Effect id W s s')
    (given : (Outcome.delivery res).carrier w d o = some carrier) :
    (2101 ≤ o ∧ o ≤ 3000) ∧ 1 ≤ carrier ∧ carrier ≤ 10 := by
  obtain ⟨rfl, _, x, hx, _, rfl⟩ := Outcome.carrier_delivery.mp given
  obtain ⟨currentTs, deliveries⟩ := h.deliveries
  exact ⟨(deliveries.range hx).2, h.carrier⟩

/-- The orders that are placed have numbers past those that a delivery draws. -/
theorem DeliveryResult.Effect.carrier_placed (h : res.Effect id W s s') (placed : 3000 < o) :
    (Outcome.delivery res).carrier w d o = none := by
  cases given : (Outcome.delivery res).carrier w d o with
  | none => rfl
  | some carrier =>
    have range := h.carrier_range given
    omega

/-- A delivery leaves the rows of an order alone that it does not draw. -/
theorem DeliveryResult.Effect.rowsOf {k : Key} (h : res.Effect id W s s') (small : W ≤ 21474)
    (hd : IsDistrict W w d) (ho : 1 ≤ o ∧ o ≤ 10000000) (own : RowsOf w d o k)
    (other : (Outcome.delivery res).carrier w d o = none) : s' k = s k := by
  obtain ⟨currentTs, deliveries⟩ := h.deliveries
  have ten := h.districts
  have warehouse := h.warehouse
  refine deliveries.frame fun x hx s s' effect => ?_
  have range := ten ▸ deliveries.range hx
  have apart : ¬(w = res.warehouseId ∧ d = x.districtId ∧ o = x.oId) := by
    rintro ⟨rfl, rfl, rfl⟩
    have drawn := Outcome.carrier_delivery.mpr ⟨rfl, rfl, x, hx, rfl, rfl⟩
    rw [other] at drawn
    contradiction
  refine effect.rowsOf own (fun same => apart ?_) fun l l' hl hl' => ?_
  · obtain ⟨hw, hd⟩ := hd
    exact orderKey_inj (by omega) hd (by omega) (by omega) (by omega) (by omega) same
  · exact orderLineKey_ne small hd ho hl ⟨by omega, by omega⟩ (by omega) hl' apart

/-- A delivery gives the orders that it draws to its carrier, and leaves the others alone. -/
theorem OrderAt.delivery (h : OrderAt w d o last s) (small : W ≤ 21474)
    (hd : IsDistrict W w d) (ho : 1 ≤ o ∧ o ≤ 3000) (effect : res.Effect id W s s') :
    OrderAt w d o (((Outcome.delivery res).carrier w d o).or last) s' := by
  cases given : (Outcome.delivery res).carrier w d o with
  | none =>
    have rows (k : Key) (own : RowsOf w d o k) : s' k = s k :=
      effect.rowsOf small hd ⟨ho.1, by omega⟩ own given
    exact h.same (rows _ (.inl rfl)) fun l hl => rows _ (.inr ⟨l, hl, rfl⟩)
  | some carrier =>
    obtain ⟨rfl, rfl, x, hx, rfl, rfl⟩ := Outcome.carrier_delivery.mp given
    obtain ⟨currentTs, deliveries⟩ := effect.deliveries
    obtain ⟨row, hrow, count, _⟩ := h
    obtain ⟨order, lines⟩ := deliveries.orderAt effect.districts hx hrow
    refine ⟨_, order, count, by simp, fun carrier same => ?_⟩
    obtain rfl : res.oCarrierId = carrier := by simpa using same
    exact ⟨rfl, currentTs, lines⟩

end Delivery

/-! ### Orders placed -/

section Placed

variable {res placed : NewOrderResult} {l : Int}

/-- The lines of an order that has been placed: those of its remote stocks, not delivered. -/
structure NewOrderResult.LinesPlaced (res : NewOrderResult) (s : Store Key (Value F)) : Prop where
  lines : ∀ l : Int, 1 ≤ l ∧ l ≤ 15 →
    (s (orderLineKey res.warehouseId res.districtId res.myNextOId.toInt l) ≠ none ↔
      res.selection.locals.length < l ∧ l ≤ res.lines.length)
  dates : ∀ (l : Int) (line : OrderLineVal F), 1 ≤ l ∧ l ≤ 15 →
    s (orderLineKey res.warehouseId res.districtId res.myNextOId.toInt l) =
      some (orderLineVal.encode line) → line.olDeliveryD = 0

omit [Amount F] in
/-- The writes of an order to the order-line table are those of its lines after the local ones. -/
theorem NewOrderResult.Effect.lineWrites (h : res.Effect id W s s') :
    ∃ writes : List (Key × Value F), s' = s.puts id writes ∧
      (∀ x ∈ writes, x.1.table = .orderLine → ∃ i : Nat,
        (res.selection.locals.length ≤ i ∧ i < res.lines.length) ∧
        x.1 = orderLineKey res.warehouseId res.districtId res.myNextOId.toInt (i + 1 : Nat) ∧
        ∃ line : OrderLineVal F, x.2 = orderLineVal.encode line ∧ line.olDeliveryD = 0) ∧
      ∀ i : Nat, res.selection.locals.length ≤ i ∧ i < res.lines.length →
        ∃ x ∈ writes, x.1 =
          orderLineKey res.warehouseId res.districtId res.myNextOId.toInt (i + 1 : Nat) := by
  obtain ⟨_, _, dist, next, norder, order, writes, _, _, _, _, lines, rfl⟩ := h.writes
  refine ⟨_, rfl, fun x hx table => ?_, fun i hi => ?_⟩
  · rcases List.mem_append.mp hx with fixed | write
    · simp only [rowWrites, List.mem_cons, List.not_mem_nil, or_false] at fixed
      rcases fixed with rfl | rfl | rfl | rfl <;> exact absurd table (by simp)
    · obtain ⟨i, stock, quantity, at_i, write⟩ := lines.mem write
      rcases write with ⟨row, rfl⟩ | ⟨line, isLine, rfl⟩
      · exact absurd table (by simp [ChosenStock.key])
      · have hi := (List.getElem?_eq_some_iff.mp at_i).1
        have remote : res.selection.locals.length ≤ i := by
          by_contra isLocal
          have key : res.lineKey i = _ := if_pos (not_le.mp isLocal)
          exact absurd table (by simp [key])
        exact ⟨i, ⟨remote, hi⟩, if_neg (by omega), line, rfl, isLine.delivery⟩
  · have at_i : res.lines[i]? = some res.lines[i] := List.getElem?_eq_getElem hi.2
    obtain ⟨before, line, rest, _, split, _⟩ := lines.split at_i
    refine ⟨(res.lineKey i, orderLineVal.encode line), by simp [split], if_neg (by omega)⟩

omit [Amount F] in
/-- An order leaves alone the lines that are not its own. -/
theorem NewOrderResult.Effect.line_of_ne (h : res.Effect id W s s') {k : Key}
    (table : k.table = .orderLine)
    (ne : ∀ i : Nat, res.selection.locals.length ≤ i → i < res.lines.length →
      k ≠ orderLineKey res.warehouseId res.districtId res.myNextOId.toInt (i + 1 : Nat)) :
    s' k = s k := by
  obtain ⟨writes, rfl, lines, _⟩ := h.lineWrites
  apply Store.puts_of_ne
  rintro x hx (rfl : x.1 = k)
  obtain ⟨i, hi, same, _⟩ := lines x hx table
  exact ne i hi.1 hi.2 same

omit [Amount F] in
/-- The lines of an order that is placed, when the order-line table has none of that number. -/
theorem NewOrderResult.Effect.linesPlaced (h : res.Effect id W s s')
    (free : ∀ l : Int, 1 ≤ l ∧ l ≤ 15 →
      s (orderLineKey res.warehouseId res.districtId res.myNextOId.toInt l) = none) :
    res.LinesPlaced s' := by
  have count := h.lines_le
  obtain ⟨writes, rfl, lines, all⟩ := h.lineWrites
  have written (l : Int) (hl : 1 ≤ l ∧ l ≤ 15)
      (present : s.puts id writes
        (orderLineKey res.warehouseId res.districtId res.myNextOId.toInt l) ≠ none) :
      ∃ x ∈ writes, x.1 = orderLineKey res.warehouseId res.districtId res.myNextOId.toInt l :=
    (Store.puts_origin present).resolve_left (not_not_intro (free l hl))
  constructor
  · intro l hl
    constructor
    · intro present
      obtain ⟨x, hx, key⟩ := written l hl present
      obtain ⟨i, hi, same, _⟩ := lines x hx (by rw [key]; rfl)
      have number := orderLineKey_number (by omega) (by omega)
        (congrArg Key.itemKey (key.symm.trans same))
      omega
    · intro range
      obtain ⟨x, hx, key⟩ := all (l.toNat - 1) (by omega)
      have number : ((l.toNat - 1 + 1 : Nat) : Int) = l := by omega
      rw [number] at key
      rw [← key]
      exact Store.puts_mem_ne_none id (List.mem_map.mpr ⟨x, hx, rfl⟩)
  · intro l line hl stored
    have hit : ∃ x ∈ writes, id x.1 =
        orderLineKey res.warehouseId res.districtId res.myNextOId.toInt l :=
      written l hl (by simp [stored])
    obtain ⟨x, hx, same, value⟩ := Store.puts_hit (s := s) hit
    obtain ⟨i, _, _, line', image, date⟩ := lines x hx (by rw [show x.1 = _ from same]; rfl)
    rw [stored, image] at value
    rwa [orderLineVal.encode_injective (Option.some.inj value)]

omit [Amount F] in
/-- The lines of an order that is left alone. -/
theorem NewOrderResult.LinesPlaced.same (h : res.LinesPlaced s) (lines : ∀ l : Int, 1 ≤ l ∧ l ≤ 15 →
      s' (orderLineKey res.warehouseId res.districtId res.myNextOId.toInt l) =
        s (orderLineKey res.warehouseId res.districtId res.myNextOId.toInt l)) :
    res.LinesPlaced s' := by
  constructor
  · intro l hl
    rw [lines l hl]
    exact h.lines l hl
  · intro l line hl
    rw [lines l hl]
    exact h.dates l line hl

end Placed

/-! ### Runs -/

/-- What has become of the orders after a run. -/
structure OrdersFollowed (W : Nat) (run : List (Outcome F)) (s : Store Key (Value F)) : Prop where
  loaded : ∀ w d o, IsDistrict W w d → 1 ≤ o ∧ o ≤ 3000 → OrderAt w d o (lastCarrier w d o run) s
  placed : ∀ res : NewOrderResult, .newOrder res ∈ run → res.LinesPlaced s

omit [FloatRep F] [DecidableEq F] [Amount F] in
theorem lastCarrier_cons {outcome : Outcome F} :
    lastCarrier w d o (outcome :: run) = (outcome.carrier w d o).or (lastCarrier w d o run) := by
  rw [lastCarrier, List.findSome?_cons]
  cases outcome.carrier w d o <;> rfl

theorem OrdersFollowed.newOrder {res : NewOrderResult} (h : OrdersFollowed W run s)
    (reached : Reached id W run s) (effect : res.Effect id W s s')
    (few : ∀ w d, numOrders w d (.newOrder res :: run) ≤ 9997000) :
    OrdersFollowed W (.newOrder res :: run) s' := by
  have ids := Run.orderIds reached
  have numbered := Run.numbered reached
  have small := ids.small
  have number := ids.number effect
  have count := effect.lines_le
  have bound := few res.warehouseId res.districtId
  rw [numOrders_newOrder, if_pos ⟨rfl, rfl⟩] at bound
  have earlier (w d : Int) : numOrders w d run ≤ 9997000 :=
    (numOrders_le_cons w d run (.newOrder res)).trans (few w d)
  constructor
  · intro w d o hd ho
    refine (h.loaded w d o hd ho).same ?_ fun l hl => ?_
    · apply effect.order_of_ne rfl
      exact effect.orderKey_ne small hd ⟨by omega, by omega⟩ (by omega) (by omega)
    · apply effect.line_of_ne rfl
      intro i low high
      exact orderLineKey_ne small hd (by omega) hl effect.isDistrict (by omega) (by omega)
        (by omega)
  · intro other mem
    rcases List.mem_cons.mp mem with same | mem
    · obtain rfl : other = res := by simpa using same
      apply effect.linesPlaced
      intro l hl
      by_contra present
      obtain ⟨w, d, o, l', line, same⟩ := Run.linesKnown reached _ rfl present
      obtain ⟨hd, ho, hl'⟩ := line.bounds numbered earlier
      refine orderLineKey_ne small effect.isDistrict (by omega) hl hd ho hl' ?_ same
      rintro ⟨sameW, sameD, sameO⟩
      cases line with
      | loaded hd low _ => omega
      | @placed earlier _ mem _ =>
        obtain ⟨_, _, _, high⟩ := numbered.orders earlier mem
        rw [← sameW, ← sameD] at high
        omega
    · obtain ⟨hd, length, low, high⟩ := numbered.orders other mem
      have := earlier other.warehouseId other.districtId
      refine (h.placed other mem).same fun l hl => effect.line_of_ne rfl fun i iLow iHigh => ?_
      apply orderLineKey_ne small hd (by omega) hl effect.isDistrict (by omega) (by omega)
      rintro ⟨sameW, sameD, sameO⟩
      rw [sameW, sameD] at high
      omega

theorem OrdersFollowed.delivery {res : DeliveryResult F} (h : OrdersFollowed W run s)
    (reached : Reached id W run s) (effect : res.Effect id W s s')
    (few : ∀ w d, numOrders w d run ≤ 9997000) : OrdersFollowed W (.delivery res :: run) s' := by
  have small := (Run.orderIds reached).small
  have numbered := Run.numbered reached
  constructor
  · intro w d o hd ho
    rw [lastCarrier_cons]
    exact (h.loaded w d o hd ho).delivery small hd ho effect
  · intro other mem
    have mem : .newOrder other ∈ run := by simpa using mem
    obtain ⟨hd, _, low, high⟩ := numbered.orders other mem
    have := few other.warehouseId other.districtId
    refine (h.placed other mem).same fun l hl => ?_
    exact effect.rowsOf small hd ⟨by omega, by omega⟩ (.inr ⟨l, hl, rfl⟩)
      (effect.carrier_placed (by omega))

theorem OrdersFollowed.step {outcome : Outcome F} (h : OrdersFollowed W run s)
    (reached : Reached id W run s) (step : Step id W s outcome s')
    (few : ∀ w d, numOrders w d (outcome :: run) ≤ 9997000) :
    OrdersFollowed W (outcome :: run) s' := by
  cases outcome with
  | newOrder res => exact h.newOrder reached step.newOrder few
  | delivery res =>
    exact h.delivery reached step.delivery fun w d => (numOrders_le_cons w d run _).trans (few w d)
  | _ =>
    have order : SameOn .order s s' := step.sameOn (by simp [Outcome.tables])
    have lines : SameOn .orderLine s s' := step.sameOn (by simp [Outcome.tables])
    constructor
    · intro w d o hd ho
      exact (h.loaded w d o hd ho).same (order _ rfl) fun l _ => lines _ rfl
    · intro res mem
      have mem : .newOrder res ∈ run := by simpa using mem
      exact (h.placed res mem).same fun l _ => lines _ rfl

theorem Run.ordersFollowed (reached : Reached id W run s)
    (few : ∀ w d, numOrders w d run ≤ 9997000) : OrdersFollowed W run s := by
  induction reached with
  | start loaded => exact ⟨fun w d o hd ho => loaded.orderAt hd ho, by simp⟩
  | @next run s s' outcome reached step ih =>
    have earlier := ih fun w d => (numOrders_le_cons w d run outcome).trans (few w d)
    exact earlier.step reached step few

theorem Outcome.carrier_range {outcome : Outcome F} {carrier : Int} (step : Step id W s outcome s')
    (given : outcome.carrier w d o = some carrier) :
    (2101 ≤ o ∧ o ≤ 3000) ∧ 1 ≤ carrier ∧ carrier ≤ 10 := by
  cases outcome with
  | delivery res => exact step.delivery.carrier_range given
  | _ => simp [Outcome.carrier] at given

theorem Run.carrier_range {carrier : Int} (reached : Reached id W run s)
    (given : lastCarrier w d o run = some carrier) :
    (2101 ≤ o ∧ o ≤ 3000) ∧ 1 ≤ carrier ∧ carrier ≤ 10 := by
  induction reached with
  | start _ => simp [lastCarrier] at given
  | next _ step ih =>
    rw [lastCarrier_cons, Option.or_eq_some_iff] at given
    rcases given with last | ⟨_, earlier⟩
    · exact Outcome.carrier_range step last
    · exact ih earlier

theorem exists_delivery : ∃ (res : DeliveryResult ℚ) (s : Store Key (Value ℚ)),
    Reached id 2 [.delivery res] s ∧ ∃ x ∈ res.orders,
      IsDistrict 2 res.warehouseId x.districtId ∧ 2101 ≤ x.oId ∧ x.oId ≤ 3000 := by
  obtain ⟨s, loaded⟩ := exists_loaded id (W := 2) (by norm_num)
  obtain ⟨res, t', s', returns⟩ : ∃ res t' s',
      Act.Returns id (delivery Env.counting 2) ⟨0, 0⟩ s res t' s' :=
    delivery_returns (fun w hw => loaded.tables.deliverable ⟨hw.1, hw.2.le⟩) le_rfl
  have step : Step id 2 s (.delivery res) s' :=
    ⟨Nat, Env.counting, .delivery, ⟨0, 0⟩, t', Act.returns_bind.mpr
      ⟨res, t', s', returns, Act.returns_pure.mpr ⟨rfl, rfl, rfl⟩⟩⟩
  have warehouse := step.delivery.warehouse
  have ten := step.delivery.districts
  obtain ⟨currentTs, deliveries⟩ := step.delivery.deliveries
  obtain ⟨x, hx⟩ := List.exists_mem_of_length_pos (by omega : 0 < res.orders.length)
  have range := ten ▸ deliveries.range hx
  exact ⟨res, s', .next (.start loaded) step, x, hx, ⟨by omega, by omega⟩, range.2⟩

/-- In every state that a client reaches, an order that the loader has inserted is as it was loaded
until a delivery draws it, and then as the last delivery has left it. -/
theorem order_followed (reached : Reached id W run s) (few : ∀ w d, numOrders w d run ≤ 9997000)
    (hd : IsDistrict W w d) (ho : 1 ≤ o ∧ o ≤ 3000) :
    ∃ row : OrderVal, s (orderKey w d o) = some (orderVal.encode row) ∧
      (5 ≤ row.oOlCnt.toInt ∧ row.oOlCnt.toInt ≤ 15) ∧
      (lastCarrier w d o run = none → row.AsLoaded w d o s) ∧
      ∀ carrier, lastCarrier w d o run = some carrier → row.DeliveredBy carrier w d o s ∧
        (2101 ≤ o ∧ 1 ≤ carrier ∧ carrier ≤ 10) := by
  obtain ⟨row, hrow, count, loaded, delivered⟩ :=
    (Run.ordersFollowed reached few).loaded w d o hd ho
  refine ⟨row, hrow, count, loaded, fun carrier given => ⟨delivered carrier given, ?_⟩⟩
  have range := Run.carrier_range reached given
  exact ⟨range.1.1, range.2⟩

theorem order_followed_delivered : ∃ (run : List (Outcome ℚ)) (s : Store Key (Value ℚ))
    (row : OrderVal) (w d o carrier : Int), Reached id 2 run s ∧
      lastCarrier w d o run = some carrier ∧
      s (orderKey w d o) = some (orderVal.encode row) ∧ row.DeliveredBy carrier w d o s := by
  obtain ⟨res, s, reached, x, hx, hd, ho⟩ := exists_delivery
  have given : lastCarrier res.warehouseId x.districtId x.oId [.delivery res] =
      some res.oCarrierId := by
    rw [lastCarrier_cons, Outcome.carrier_delivery.mpr ⟨rfl, rfl, x, hx, rfl, rfl⟩]
    rfl
  obtain ⟨row, hrow, _, _, delivered⟩ := order_followed reached
    (fun w d => by simp [numOrders, Outcome.isOrderAt]) hd ⟨by omega, ho.2⟩
  exact ⟨_, s, row, _, _, _, _, reached, given, hrow, (delivered _ given).1⟩

/-- The lines that there are after a run: those that a loaded order counts, all 15 of one that has
been delivered, and those of the remote stocks of the orders placed. -/
inductive LineStands (W : Nat) (run : List (Outcome F)) (s : Store Key (Value F)) :
    Int → Int → Int → Int → Prop
  | counted {w d o l : Int} {row : OrderVal} : IsDistrict W w d → 1 ≤ o ∧ o ≤ 3000 →
      s (orderKey w d o) = some (orderVal.encode row) → 1 ≤ l ∧ l ≤ row.oOlCnt.toInt →
      LineStands W run s w d o l
  | delivered {w d o l carrier : Int} : IsDistrict W w d → lastCarrier w d o run = some carrier →
      1 ≤ l ∧ l ≤ 15 → LineStands W run s w d o l
  | placed {res : NewOrderResult} {l : Int} : .newOrder res ∈ run →
      res.selection.locals.length < l ∧ l ≤ (res.lines.length : Int) →
      LineStands W run s res.warehouseId res.districtId res.myNextOId.toInt l

/-- In every state that a client reaches, the rows of the order-line table are those of these
lines. -/
theorem line_rows (reached : Reached id W run s)
    (few : ∀ w d, numOrders w d run ≤ 9997000) (k : Key) (table : k.table = .orderLine) :
    s k ≠ none ↔ ∃ w d o l, LineStands W run s w d o l ∧ k = orderLineKey w d o l := by
  have followed := Run.ordersFollowed reached few
  constructor
  · intro present
    obtain ⟨w, d, o, l, line, rfl⟩ := Run.linesKnown reached k table present
    refine ⟨w, d, o, l, ?_, rfl⟩
    cases line with
    | loaded hd ho hl =>
      obtain ⟨row, hrow, count, loaded, _⟩ := followed.loaded w d o hd ho
      cases given : lastCarrier w d o run with
      | none => exact .counted hd ho hrow ⟨hl.1, (loaded given).lines l hl |>.mp present⟩
      | some carrier => exact .delivered hd given hl
    | placed mem hl =>
      obtain ⟨_, length, _⟩ := (Run.numbered reached).orders _ mem
      exact .placed mem (((followed.placed _ mem).lines l (by omega)).mp present)
  · rintro ⟨w, d, o, l, stands, rfl⟩
    cases stands with
    | counted hd ho hrow hl =>
      obtain ⟨row, hrow', count, loaded, delivered⟩ := followed.loaded w d o hd ho
      obtain rfl := orderVal.encode_injective (Option.some.inj (hrow.symm.trans hrow'))
      cases given : lastCarrier w d o run with
      | none => exact ((loaded given).lines l (by omega)).mpr hl.2
      | some carrier =>
        obtain ⟨date, lines⟩ := (delivered carrier given).lines
        obtain ⟨line, stored, _⟩ := lines l (by omega)
        simp [stored]
    | delivered hd given hl =>
      have range := Run.carrier_range reached given
      obtain ⟨row, _, _, _, delivered⟩ := followed.loaded w d o hd (by omega)
      obtain ⟨date, lines⟩ := (delivered _ given).lines
      obtain ⟨line, stored, _⟩ := lines l hl
      simp [stored]
    | placed mem hl =>
      obtain ⟨_, length, _⟩ := (Run.numbered reached).orders _ mem
      exact ((followed.placed _ mem).lines l (by omega)).mpr hl

theorem line_rows_order : ∃ (run : List (Outcome ℚ)) (s : Store Key (Value ℚ)),
    Reached id 2 run s ∧ numOrders 1 8 run = 1 ∧ ∀ k : Key, k.table = .orderLine →
      (s k ≠ none ↔ ∃ w d o l, LineStands 2 run s w d o l ∧ k = orderLineKey w d o l) := by
  obtain ⟨run, s, reached, length, count⟩ := exists_orders 1 (by norm_num)
  have few (w d : Int) : numOrders w d run ≤ 1 := List.countP_le_length.trans length.le
  exact ⟨run, s, reached, count, line_rows reached fun w d => (few w d).trans (by norm_num)⟩

/-! ### The orders placed stay as they are -/

/-- The rows of an order that has been placed: its row, its new-order row and its lines. -/
def NewOrderResult.RowsOf (res : NewOrderResult) (k : Key) : Prop :=
  k = newOrderKey res.warehouseId res.districtId res.myNextOId.toInt ∨
    Tpcc.RowsOf res.warehouseId res.districtId res.myNextOId.toInt k

/-- No step touches the rows of an order that has been placed before. -/
theorem Step.rowsOf {outcome : Outcome F} {res : NewOrderResult} {k : Key}
    (step : Step id W s outcome s') (reached : Reached id W run s) (mem : .newOrder res ∈ run)
    (few : ∀ w d, numOrders w d (outcome :: run) ≤ 9997000) (own : res.RowsOf k) : s' k = s k := by
  have ids := Run.orderIds reached
  have small := ids.small
  obtain ⟨hd, _, low, high⟩ := (Run.numbered reached).orders res mem
  have bound := few res.warehouseId res.districtId
  have grown := numOrders_le_cons res.warehouseId res.districtId run outcome
  cases outcome with
  | newOrder later =>
    have effect := step.newOrder
    have number := ids.number effect
    have few := few later.warehouseId later.districtId
    rw [numOrders_newOrder, if_pos ⟨rfl, rfl⟩] at few
    have other : ¬(later.At res.warehouseId res.districtId ∧
        res.myNextOId.toInt = later.myNextOId.toInt) := by
      rintro ⟨⟨sameW, sameD⟩, same⟩
      rw [sameW, sameD] at number
      omega
    rcases own with rfl | rfl | ⟨l, hl, rfl⟩
    · obtain ⟨norder, same⟩ := effect.newOrderRow
      apply same.row_of_ne rfl
      intro eq
      obtain ⟨hw, hd⟩ := hd
      obtain ⟨hw', hd'⟩ := effect.isDistrict
      have ids :=
        newOrderKey_inj (by omega) hd ⟨by omega, by omega⟩ (by omega) hd' ⟨by omega, by omega⟩ eq
      exact other ⟨⟨ids.1.symm, ids.2.1.symm⟩, ids.2.2⟩
    · exact effect.order_of_ne rfl
        (effect.orderKey_ne small hd ⟨by omega, by omega⟩ (by omega) other)
    · apply effect.line_of_ne rfl
      intro i iLow iHigh
      have count := effect.lines_le
      apply orderLineKey_ne small hd (by omega) hl effect.isDistrict (by omega) (by omega)
      rintro ⟨sameW, sameD, same⟩
      exact other ⟨⟨sameW.symm, sameD.symm⟩, same⟩
  | delivery res' =>
    rcases own with rfl | own
    · have newOrder : SameOn .newOrder s s' := step.delivery.sameOn (by decide)
      exact newOrder _ rfl
    · exact step.delivery.rowsOf small hd ⟨by omega, by omega⟩ own
        (step.delivery.carrier_placed (by omega))
  | _ =>
    have newOrder : SameOn .newOrder s s' := step.sameOn (by simp [Outcome.tables])
    have order : SameOn .order s s' := step.sameOn (by simp [Outcome.tables])
    have lines : SameOn .orderLine s s' := step.sameOn (by simp [Outcome.tables])
    rcases own with rfl | rfl | ⟨l, hl, rfl⟩
    · exact newOrder _ rfl
    · exact order _ rfl
    · exact lines _ rfl

/-- What `NewOrder` has written of an order stays as it is whatever transactions follow: its row,
its new-order row, and its lines, which are those of the remote stocks and not delivered. -/
theorem placed_order_stays {res : NewOrderResult} {s1 : Store Key (Value F)}
    {later : List (Outcome F)}
    (reached : Reached id W (.newOrder res :: run) s1) (more : Run (· = s1) (Step id W) later s)
    (few : ∀ w d, numOrders w d (later ++ .newOrder res :: run) ≤ 9997000) :
    (∀ k, res.RowsOf k → s k = s1 k) ∧ res.LinesPlaced s := by
  constructor
  · intro k own
    induction more with
    | start same => rw [same]
    | @next later s s' outcome before step ih =>
      have whole : Reached id W (later ++ .newOrder res :: run) s := reached.trans before
      have kept := step.rowsOf whole (by simp) few own
      exact kept.trans (ih fun w d => (numOrders_le_cons w d _ outcome).trans (few w d))
  · have whole : Reached id W (later ++ .newOrder res :: run) s := reached.trans more
    exact (Run.ordersFollowed whole few).placed res (by simp)

theorem exists_next_order {run : List (Outcome ℚ)} {s : Store Key (Value ℚ)}
    (reached : Reached id 2 run s) (few : numOrders 1 8 run ≤ 1) :
    ∃ res s', Step id 2 s (.newOrder res) s' := by
  obtain ⟨dist, row, next⟩ := (Run.orderIds reached).next 1 8 ⟨by decide, by decide⟩
  obtain ⟨res, t', s', returns, _⟩ := sample_order_returns row (by omega)
  exact ⟨res, s', FastRandom, sampleEnv, .newOrder, sampleThread, t', Act.returns_bind.mpr
    ⟨res, t', s', returns, Act.returns_pure.mpr ⟨rfl, rfl, rfl⟩⟩⟩

theorem placed_order_stays_next : ∃ (res next : NewOrderResult) (s1 s : Store Key (Value ℚ)),
    Reached id 2 [.newOrder res] s1 ∧ Step id 2 s1 (.newOrder next) s ∧
      (∀ k, res.RowsOf k → s k = s1 k) ∧ res.LinesPlaced s := by
  obtain ⟨s0, loaded⟩ := exists_loaded id (W := 2) (by norm_num)
  obtain ⟨res, s1, step⟩ := exists_next_order (.start loaded) (by simp)
  have reached : Reached id 2 [.newOrder res] s1 := .next (.start loaded) step
  have one : numOrders 1 8 [Outcome.newOrder (F := ℚ) res] ≤ 1 := List.countP_le_length
  obtain ⟨next, s, more⟩ := exists_next_order reached one
  have later : Run (· = s1) (Step id 2) [.newOrder next] s := .next (.start rfl) more
  have few (w d : Int) : numOrders w d ([.newOrder next] ++ [Outcome.newOrder (F := ℚ) res]) ≤ 2 :=
    List.countP_le_length
  have stays := placed_order_stays reached later fun w d => (few w d).trans (by norm_num)
  exact ⟨res, next, s1, s, reached, more, stays.1, stays.2⟩

end Tpcc
