import Tpcc.Lib.Trace
import Tpcc.LoadedTables

/-! The order index after a load into the shared store.  The loader inserts the index entry of an
order only where its key has no value.  For up to 3299 warehouses, and customer index keys below
`2^47`, no other key of the load is as large as the keys of the order index. -/

namespace Tpcc

open KvProgram Layout

variable {ρ F : Type} [FloatRep F] [DecidableEq F] [Amount F] {env : Env ρ} {W n : Nat}
  {w d c o : Nat} {k : Key} {v : Value F}

/-! ### Orders and their entries -/

/-- An order that the loader inserts, with its index entry. -/
structure OrderEntry where
  w : Nat
  d : Nat
  o : Nat
  order : OrderVal
  index : OrderIndexVal

namespace OrderEntry

/-- The key of the entry. -/
def key (e : OrderEntry) : Key := orderIndexKey e.w e.d e.order.oCId.toInt e.o

/-- How many orders the loader inserts before the order. -/
def number (e : OrderEntry) : Nat := 30000 * (e.w - 1) + 3000 * (e.d - 1) + (e.o - 1)

/-- The accesses that insert the order row and the entry, whose key has no value. -/
def accesses (e : OrderEntry) : List (Event Key (Value F)) :=
  [.put (orderKey e.w e.d e.o) (orderVal.encode e.order),
    .get e.key (orderIndexVal (F := F)).size none,
    .put e.key (orderIndexVal.encode e.index)]

section Filter

variable {F : Type} [FloatRep F] (e : OrderEntry)

theorem filter_order : (e.accesses : List (Event Key (Value F))).filter
    (·.key = orderKey e.w e.d e.o) = [.put (orderKey e.w e.d e.o) (orderVal.encode e.order)] := by
  have index : e.key ≠ orderKey e.w e.d e.o := Key.ne_of_table (by simp [key])
  simp [accesses, index]

/-- The check of the entry comes before its insertion. -/
theorem filter_key : (e.accesses : List (Event Key (Value F))).filter (·.key = e.key) =
    [.get e.key (orderIndexVal (F := F)).size none, .put e.key (orderIndexVal.encode e.index)] := by
  have order : orderKey e.w e.d e.o ≠ e.key := Key.ne_of_table (by simp [key])
  simp [accesses, order]

theorem filter_other {k : Key} (order : orderKey e.w e.d e.o ≠ k) (index : e.key ≠ k) :
    (e.accesses : List (Event Key (Value F))).filter (·.key = k) = [] := by
  simp [accesses, order, index]

end Filter

/-- An order of a load of `W` warehouses, and an entry that points to it. -/
structure Valid (W : Nat) (e : OrderEntry) : Prop where
  range : 1 ≤ e.w ∧ e.w ≤ W ∧ 1 ≤ e.d ∧ e.d ≤ 10 ∧ 1 ≤ e.o ∧ e.o ≤ 3000
  customer : 1 ≤ e.order.oCId.toInt ∧ e.order.oCId.toInt ≤ 3000
  points : e.index.oId = (makeOrderKey e.w e.d e.o).toUInt64

variable {e f : OrderEntry}

theorem Valid.key_toNat (h : e.Valid W) (small : W ≤ 3299) : (e.key.itemKey.toNat : Int) =
    ((10 * e.w + e.d) * 3000 + e.order.oCId.toInt) * 2 ^ 32 + e.o := by
  obtain ⟨range, customer, _⟩ := h
  exact orderIndexKey_toNat (by omega) (by omega) (by omega) (by omega)

/-- The keys of the order index are large. -/
theorem Valid.le_key (h : e.Valid W) (small : W ≤ 3299) : 33001 * 2 ^ 32 ≤ e.key.itemKey.toNat := by
  have value := h.key_toNat small
  obtain ⟨range, customer, _⟩ := h
  omega

/-- The entries of different orders have different keys. -/
theorem Valid.number_eq_of_key (he : e.Valid W) (hf : f.Valid W) (small : W ≤ 3299)
    (same : e.key.itemKey = f.key.itemKey) : e.number = f.number := by
  have left := he.key_toNat small
  have right := hf.key_toNat small
  rw [same] at left
  obtain ⟨range, customer, _⟩ := he
  obtain ⟨range', customer', _⟩ := hf
  have order : e.o = f.o := by omega
  have customers : (10 * e.w + e.d : Int) * 3000 + e.order.oCId.toInt =
      (10 * f.w + f.d) * 3000 + f.order.oCId.toInt := by omega
  have district : 10 * e.w + e.d = 10 * f.w + f.d := by omega
  unfold number
  omega

theorem Valid.number_eq_of_order (he : e.Valid W) (hf : f.Valid W) (small : W ≤ 3299)
    (same : orderKey e.w e.d e.o = orderKey f.w f.d f.o) : e.number = f.number := by
  obtain ⟨range, _, _⟩ := he
  obtain ⟨range', _, _⟩ := hf
  have ids := orderKey_inj (by omega) (by omega) (by omega) (by omega) (by omega) (by omega) same
  unfold number
  omega

end OrderEntry

/-! ### The other keys -/

/-- The keys of a load beside those of the orders and their index. -/
def Beside (k : Key) : Prop :=
  (k.table ≠ .order ∧ k.table ≠ .orderIndex) ∧ k.itemKey.toNat < 33001 * 2 ^ 32

theorem LoadRow.itemKey_lt (h : LoadRow W k v) (small : W ≤ 3299) (index : k.table ≠ .orderIndex)
    (customer : k.table = .customerIndex → k.itemKey.toNat < 2 ^ 47) :
    k.itemKey.toNat < 33001 * 2 ^ 32 := by
  cases h with
  | @warehouse w =>
    have := warehouseKey_toNat (w := w) (by omega) (by omega)
    omega
  | @district w d =>
    have := districtKey_toNat (w := w) (d := d) (by omega) (by omega)
    omega
  | @customer w d c =>
    have := customerKey_toNat (w := w) (d := d) (c := c) (by omega) (by omega) (by omega) (by omega)
    omega
  | customerIndex =>
    have := customer rfl
    omega
  | @history w d c =>
    have : ((historyKey w d w d c).itemKey.toNat : Int) = _ :=
      historyKey_toNat (by omega) (by omega) (by omega) (by omega)
    omega
  | @order w d o =>
    have := orderKey_toNat (w := w) (d := d) (o := o) (by omega) (by omega) (by omega) (by omega)
    omega
  | orderIndex => exact absurd rfl index
  | @newOrder w d o =>
    have := newOrderKey_toNat (w := w) (d := d) (o := o) (by omega) (by omega) (by omega) (by omega)
    omega
  | @orderLine w d o l =>
    have := orderLineKey_toNat (w := w) (d := d) (o := o) (l := l) (by omega) (by omega) (by omega)
      (by omega) (by omega) (by omega)
    omega
  | @item i =>
    have := itemKey_toNat (i := i) (by omega) (by omega)
    omega
  | @stock w i =>
    have := stockKey_toNat (w := w) (i := i) (by omega) (by omega)
    omega

/-- What the other parts of a load may access. -/
def besideContract : Contract Key (Value F) UInt64 where
  addr := Key.itemKey
  mayGet k _ _ := k.table ≠ .order ∧ k.table ≠ .orderIndex
  mayPut k _ := Beside k
  mayStick := True

theorem permits_beside {own : Key → Prop} (small : W ≤ 3299)
    (tables : ∀ k, own k → k.table ≠ .order ∧ k.table ≠ .orderIndex)
    (heap : ∀ k, own k → k.table = .customerIndex → k.itemKey.toNat < 2 ^ 47) :
    Permits (besideContract (F := F)) W own where
  mayGet k _ _ hk := tables k hk
  mayPut k _ hk row := ⟨tables k hk, row.itemKey_lt small (tables k hk).2 (heap k hk)⟩

/-! ### The index after some orders -/

/-- The accesses to the orders and their index. -/
def ofOrders (event : Event Key (Value F)) : Bool :=
  event.key.table = .order ∨ event.key.table = .orderIndex

/-- The state of a load after its first `n` orders: each has been inserted with an entry whose key
had no value, and the large keys hold the entries. -/
def Indexed (W n : Nat) (x : Traced Key (Value F) UInt64) : Prop :=
  ∃ entries : List OrderEntry, (∀ e ∈ entries, e.Valid W) ∧
    entries.map OrderEntry.number = List.range n ∧
    x.2.filter ofOrders = entries.flatMap OrderEntry.accesses ∧
    ∀ a : UInt64, 33001 * 2 ^ 32 ≤ a.toNat → x.1 a = Store.puts Key.itemKey (fun _ => none)
      (entries.map fun e => (e.key, orderIndexVal.encode e.index)) a

omit [DecidableEq F] [Amount F] in
theorem indexed_zero : Indexed W 0 ((fun _ => none, []) : Traced Key (Value F) UInt64) :=
  ⟨[], by simp, rfl, rfl, fun _ _ => rfl⟩

omit [DecidableEq F] [Amount F] in
theorem Indexed.get {x : Traced Key (Value F) UInt64} (h : Indexed W n x) {size : Nat}
    {value : Option (Value F)} (other : k.table ≠ .order ∧ k.table ≠ .orderIndex) :
    Indexed W n (x.1, x.2 ++ [.get k size value]) := by
  obtain ⟨entries, valid, numbers, accesses, high⟩ := h
  refine ⟨entries, valid, numbers, ?_, high⟩
  have skipped : ofOrders (.get k size value : Event Key (Value F)) = false := by
    simp [ofOrders, other]
  rw [List.filter_append, accesses, List.filter_singleton, skipped]
  exact List.append_nil _

omit [DecidableEq F] [Amount F] in
theorem Indexed.put {x : Traced Key (Value F) UInt64} (h : Indexed W n x) (other : Beside k) :
    Indexed W n (x.1.put k.itemKey v, x.2 ++ [.put k v]) := by
  obtain ⟨entries, valid, numbers, accesses, high⟩ := h
  obtain ⟨tables, low⟩ := other
  refine ⟨entries, valid, numbers, ?_, fun a ha => ?_⟩
  · have skipped : ofOrders (.put k v : Event Key (Value F)) = false := by
      simp [ofOrders, tables]
    rw [List.filter_append, accesses, List.filter_singleton, skipped]
    exact List.append_nil _
  · have ne : a ≠ k.itemKey := by
      rintro rfl
      omega
    exact (Store.put_of_ne ne).trans (high a ha)

section Next

variable {x : Traced Key (Value F) UInt64} {row : OrderVal} {index : OrderIndexVal}

omit [DecidableEq F] [Amount F] in
/-- The key of the entry of the next order has no value when the order row has been inserted. -/
theorem Indexed.fresh (h : Indexed W (30000 * (w - 1) + 3000 * (d - 1) + (o - 1)) x)
    (small : W ≤ 3299) (valid : OrderEntry.Valid W ⟨w, d, o, row, index⟩)
    (low : (orderKey w d o).itemKey.toNat < 33001 * 2 ^ 32) :
    (x.1.put (orderKey w d o).itemKey v) (orderIndexKey w d row.oCId.toInt o).itemKey = none := by
  obtain ⟨entries, allValid, numbers, _, high⟩ := h
  have large := valid.le_key small
  simp only [OrderEntry.key] at large
  have ne : (orderIndexKey w d row.oCId.toInt o).itemKey ≠ (orderKey w d o).itemKey := by
    intro same
    rw [same] at large
    omega
  rw [Store.put_of_ne ne, high _ large, Store.puts_of_ne]
  intro write hwrite same
  obtain ⟨f, hf, rfl⟩ := List.mem_map.mp hwrite
  have earlier : f.number ∈ entries.map OrderEntry.number := List.mem_map_of_mem hf
  rw [numbers, List.mem_range, (allValid f hf).number_eq_of_key valid small same] at earlier
  simp only [OrderEntry.number] at earlier
  omega

omit [DecidableEq F] [Amount F] in
/-- The next order is inserted with its entry. -/
theorem Indexed.order (h : Indexed W (30000 * (w - 1) + 3000 * (d - 1) + (o - 1)) x)
    (valid : OrderEntry.Valid W ⟨w, d, o, row, index⟩)
    (low : (orderKey w d o).itemKey.toNat < 33001 * 2 ^ 32) :
    Indexed W (30000 * (w - 1) + 3000 * (d - 1) + (o - 1) + 1)
      ((x.1.put (orderKey w d o).itemKey (orderVal.encode row)).put
        (orderIndexKey w d row.oCId.toInt o).itemKey (orderIndexVal.encode index),
      x.2 ++ ([.put (orderKey w d o) (orderVal.encode row)] ++
        [.get (orderIndexKey w d row.oCId.toInt o) (orderIndexVal (F := F)).size none,
          .put (orderIndexKey w d row.oCId.toInt o) (orderIndexVal.encode index)])) := by
  obtain ⟨entries, allValid, numbers, accesses, high⟩ := h
  refine ⟨entries ++ [⟨w, d, o, row, index⟩], ?_, ?_, ?_, fun a ha => ?_⟩
  · intro f hf
    rcases List.mem_append.mp hf with hf | hf
    · exact allValid f hf
    · rw [List.mem_singleton.mp hf]
      exact valid
  · rw [List.map_append, numbers, List.range_succ]
    simp only [List.map_cons, List.map_nil, OrderEntry.number]
  · rw [List.filter_append, accesses, List.flatMap_append, List.flatMap_singleton]
    simp [OrderEntry.accesses, OrderEntry.key, ofOrders]
  · have ne : a ≠ (orderKey w d o).itemKey := by
      rintro rfl
      omega
    have before : x.1.put (orderKey w d o).itemKey (orderVal.encode row) a = _ :=
      (Store.put_of_ne ne).trans (high a ha)
    have last : OrderEntry.key ⟨w, d, o, row, index⟩ = orderIndexKey w d row.oCId.toInt o := by
      simp only [OrderEntry.key]
    show Store.put _ _ _ a = _
    rw [Store.put_apply, before, List.map_append, Store.puts_append, List.map_singleton,
      Store.puts_cons, Store.puts_nil, last, Store.put_apply]

end Next

section Load

variable {t : Thread ρ} {x : Traced Key (Value F) UInt64}

omit [DecidableEq F] [Amount F] in
/-- A part of the load that leaves the orders and their index alone. -/
theorem Indexed.beside {α : Type} {m : Act (Thread ρ) Key (Value F) α}
    {Q : α → Thread ρ → Store UInt64 (Value F) → Prop} (h : Indexed W n x)
    (wp : Act.wp besideContract.logic m Q t x.1) :
    Act.wp (.traced (Value F) Key.itemKey) m (fun _ _ x => Indexed W n x) t x :=
  Act.wp_mono (Act.wp_traced (C := besideContract) (fun _ _ _ h may => h.get may)
    (fun _ _ _ h may => h.put may) wp h) fun _ _ _ h => h.2

omit [DecidableEq F] [Amount F] in
/-- The existence check of the entry fails, and the entry is inserted. -/
theorem wp_populateOrderIndex_none {cId : Int}
    {Q : Unit → Thread ρ → Traced Key (Value F) UInt64 → Prop}
    (fresh : x.1 (orderIndexKey w d cId o).itemKey = none)
    (h : ∀ (index : OrderIndexVal) t, index.oId = (makeOrderKey w d o).toUInt64 →
      Q () t (x.1.put (orderIndexKey w d cId o).itemKey (orderIndexVal.encode index),
        x.2 ++ [.get (orderIndexKey w d cId o) (orderIndexVal (F := F)).size none,
          .put (orderIndexKey w d cId o) (orderIndexVal.encode index)])) :
    Act.wp (.traced (Value F) Key.itemKey) (populateOrderIndex env w d o cId) Q t x := by
  simp only [populateOrderIndex, Act.wp_bind]
  refine wp_uninit fun val t => wp_getRecord ?_
  rw [Logic.onGet_traced, fresh]
  rintro status found t ⟨rfl, rfl⟩
  simp only [if_true, Act.wp_bind, wp_putRecord, Logic.onPut_traced, List.append_assoc,
    List.singleton_append]
  exact h _ t rfl

/-- The lines of an order leave the index alone. -/
theorem wp_orderLines_indexed {entry : UInt32} {lines : Nat} (small : W ≤ 3299)
    (range : 1 ≤ w ∧ w ≤ W ∧ 1 ≤ d ∧ d ≤ 10 ∧ 1 ≤ o ∧ o ≤ 3000) (few : lines ≤ 15)
    (h : Indexed W n x) :
    Act.wp (.traced (Value F) Key.itemKey) (.forRange (fun l _ => do
      let line ← orderLineRow env w o entry
      let _ ← putRecord orderLineVal (orderLineKey w d o l) line) 1 lines ())
      (fun _ _ x => Indexed W n x) t x := by
  refine Act.wp_forRange (fun _ _ _ x => Indexed W n x) ?_ h
  intro l _ t x low high h
  simp only [Act.wp_bind, wp_putRecord]
  apply wp_orderLineRow
  intro line t
  have := orderLineKey_toNat (w := w) (d := d) (o := o) (l := l) (by omega) (by omega) (by omega)
    (by omega) (by omega) (by omega)
  exact h.put ⟨by simp, by omega⟩

theorem wp_populateOrder_indexed {cIds : List Nat} (small : W ≤ 3299)
    (range : 1 ≤ w ∧ w ≤ W ∧ 1 ≤ d ∧ d ≤ 10 ∧ 1 ≤ o ∧ o ≤ 3000) (length : cIds.length = 3000)
    (ids : ∀ c ∈ cIds, 1 ≤ c ∧ c ≤ 3000)
    (h : Indexed W (30000 * (w - 1) + 3000 * (d - 1) + (o - 1)) x) :
    Act.wp (.traced (Value F) Key.itemKey) (populateOrder env w d cIds o)
      (fun _ _ x => Indexed W (30000 * (w - 1) + 3000 * (d - 1) + o) x) t x := by
  simp only [populateOrder, Act.wp_bind, wp_putRecord]
  have drawn : 1 ≤ cIds.getD (o - 1) 0 ∧ cIds.getD (o - 1) 0 ≤ 3000 := by
    rw [List.getD_eq_getElem _ _ (by omega)]
    exact ids _ (List.getElem_mem _)
  apply wp_orderRow drawn
  intro row t _ count customer
  have low : (orderKey w d o).itemKey.toNat < 33001 * 2 ^ 32 := by
    have := orderKey_toNat (w := w) (d := d) (o := o) (by omega) (by omega) (by omega) (by omega)
    omega
  have valid (index : OrderIndexVal) (points : index.oId = (makeOrderKey w d o).toUInt64) :
      OrderEntry.Valid W ⟨w, d, o, row, index⟩ := ⟨range, customer, points⟩
  have fresh : (x.1.put (orderKey w d o).itemKey (orderVal.encode row))
      (orderIndexKey w d row.oCId.toInt o).itemKey = none := h.fresh small (valid ⟨_, 0⟩ rfl) low
  rw [Logic.onPut_traced]
  apply wp_populateOrderIndex_none fresh
  intro index t points
  have inserted := h.order (valid index points) low
  rw [show 30000 * (w - 1) + 3000 * (d - 1) + (o - 1) + 1 =
    30000 * (w - 1) + 3000 * (d - 1) + o by omega] at inserted
  rw [List.append_assoc]
  unfold populateNewOrder
  split
  · simp only [Act.wp_bind, wp_putRecord]
    refine wp_uninit fun val t => wp_orderLines_indexed small range (by omega) ?_
    have := newOrderKey_toNat (w := w) (d := d) (o := o) (by omega) (by omega) (by omega) (by omega)
    exact inserted.put ⟨by simp, by omega⟩
  · exact wp_orderLines_indexed small range (by omega) inserted

theorem wp_populateOrders_indexed {seed : Nat} (small : W ≤ 3299) (h : Indexed W 0 x) :
    Act.wp (.traced (Value F) Key.itemKey) (populateOrderNewOrderAndOrderLineTable env W seed)
      (fun _ _ x => Indexed W (30000 * W) x) t x := by
  simp only [populateOrderNewOrderAndOrderLineTable, Act.wp_bind]
  refine wp_seeded fun t => Act.wp_mono (Act.wp_forRange
    (fun w _ _ x => Indexed W (30000 * (w - 1)) x) ?_ h) ?_
  · intro w _ t x low high h
    refine Act.wp_mono (Act.wp_forRange
      (fun d _ _ x => Indexed W (30000 * (w - 1) + 3000 * (d - 1)) x) ?_ h) ?_
    · intro d _ t x first (last : d < 1 + 10) h
      rw [Act.wp_bind]
      refine wp_shuffleCustomers (.inl trivial) fun cIds t length nodup ids => ?_
      refine Act.wp_mono (Act.wp_forRange
        (fun o _ _ x => Indexed W (30000 * (w - 1) + 3000 * (d - 1) + (o - 1)) x) ?_ h) ?_
      · intro o _ t x oLow (oHigh : o < 1 + 3000) h
        exact wp_populateOrder_indexed small (by omega) length ids h
      · intro _ _ _ h
        rwa [show 30000 * (w - 1) + 3000 * (d + 1 - 1) =
          30000 * (w - 1) + 3000 * (d - 1) + (1 + 3000 - 1) by omega]
    · intro _ _ _ h
      rwa [show 30000 * (w + 1 - 1) = 30000 * (w - 1) + 3000 * (1 + 10 - 1) by omega]
  · intro _ _ _ h
    rwa [show 30000 * W = 30000 * (1 + W - 1) by omega]

/-- A load inserts its orders one after another, each with its entry. -/
theorem wp_loadTables_indexed (small : W ≤ 3299)
    (heap : ∀ words r, (env.allocate words r).1.toNat < 2 ^ 47) :
    Act.wp (.traced (Value F) Key.itemKey) (loadTables env W)
      (fun _ _ x => Indexed W (30000 * W) x) t (fun _ => none, []) := by
  have permits {table : Table} (other : table ≠ .order ∧ table ≠ .orderIndex)
      (index : table ≠ .customerIndex) :
      Permits (besideContract (F := F)) W (·.table = table) :=
    permits_beside small (fun _ own => by rwa [own]) fun _ own same => absurd (own ▸ same) index
  have customers : Permits (besideContract (F := F)) W (CustomerOwn env) := by
    refine permits_beside small ?_ ?_
    · rintro k (table | ⟨words, r, rfl⟩)
      · simp only [List.mem_cons, List.not_mem_nil, or_false] at table
        rcases table with same | same <;> simp [same]
      · simp
    · rintro k (table | ⟨words, r, rfl⟩) same
      · simp [same] at table
      · exact heap words r
  have zero : Indexed W 0 ((fun _ => none, []) : Traced Key (Value F) UInt64) := indexed_zero
  simp only [loadTables, Act.wp_bind]
  refine Act.wp_mono (zero.beside
    (wp_populateWarehouseTable (.inl trivial) (permits (by simp) (by simp)))) fun _ _ _ h => ?_
  refine Act.wp_mono (h.beside
    (wp_populateDistrictTable (.inl trivial) (permits (by simp) (by simp)))) fun _ _ _ h => ?_
  refine Act.wp_mono (h.beside
    (wp_populateCustomerAndHistoryTable (.inl trivial) customers)) fun _ _ _ h => ?_
  refine Act.wp_mono (wp_populateOrders_indexed small h) fun _ _ _ h => ?_
  refine Act.wp_mono (h.beside
    (wp_populateStockTable (.inl trivial) (permits (by simp) (by simp)))) fun _ _ _ h => ?_
  refine Act.wp_mono (h.beside
    (wp_populateItemTable (W := W) (.inl trivial) (permits (by simp) (by simp)))) fun _ _ _ h => ?_
  exact h.beside (wp_populateStockTable (.inl trivial) (permits (by simp) (by simp)))

end Load

/-! ### The accesses of a load -/

/-- The accesses of a load into an empty shared store. -/
def loadAccesses (env : Env ρ) (W : Nat) (t : Thread ρ) : List (Event Key (Value F)) :=
  Act.accesses Key.itemKey (loadTables env W) t fun _ => none

/-- The insertion of an index entry. -/
def insertsEntry : Event Key (Value F) → Bool
  | .put k _ => k.table = .orderIndex
  | .get .. => false

omit [DecidableEq F] [Amount F] [FloatRep F] in
theorem filter_key_of_orders {events : List (Event Key (Value F))}
    (table : k.table = .order ∨ k.table = .orderIndex) :
    events.filter (·.key = k) = (events.filter ofOrders).filter (·.key = k) := by
  rw [List.filter_filter]
  refine List.filter_congr fun event _ => ?_
  by_cases same : event.key = k
  · simpa [ofOrders, same] using table
  · simp [same]

omit [DecidableEq F] [Amount F] in
theorem countP_insertsEntry {events : List (Event Key (Value F))} {entries : List OrderEntry}
    (accesses : events.filter ofOrders = entries.flatMap OrderEntry.accesses) :
    events.countP insertsEntry = entries.length := by
  have ofIndex (event : Event Key (Value F)) :
      insertsEntry event = (insertsEntry event && ofOrders event) := by
    cases event with
    | get => rfl
    | put k v => by_cases index : k.table = .orderIndex <;> simp [insertsEntry, ofOrders, index]
  rw [List.countP_congr fun event _ => by rw [ofIndex event], ← List.countP_filter, accesses]
  clear accesses
  induction entries with
  | nil => rfl
  | cons e entries ih =>
    rw [List.flatMap_cons, List.countP_append, ih, List.length_cons, add_comm]
    simp [OrderEntry.accesses, OrderEntry.key, insertsEntry]

/-- A load of up to 3299 warehouses into the shared store inserts one index entry for each order:
every existence check fails, and the entry is still there after the load. -/
theorem orderIndex_complete {t t' : Thread ρ} {s : Store UInt64 (Value F)} (small : W ≤ 3299)
    (heap : ∀ words r, (env.allocate words r).1.toNat < 2 ^ 47)
    (returns : Act.Returns Key.itemKey (loadTables env W) t (fun _ => none) () t' s) :
    (∀ (k : Key) (size : Nat) (value : Option (Value F)), .get k size value ∈ loadAccesses env W t →
      k.table = .orderIndex → value = none) ∧
    (loadAccesses (F := F) env W t).countP insertsEntry = 30000 * W ∧
    ∀ w d o : Nat, 1 ≤ w ∧ w ≤ W ∧ 1 ≤ d ∧ d ≤ 10 ∧ 1 ≤ o ∧ o ≤ 3000 →
      ∃ (order : OrderVal) (index : OrderIndexVal),
        (loadAccesses (F := F) env W t).filter (·.key = orderKey w d o) =
          [.put (orderKey w d o) (orderVal.encode order)] ∧
        (loadAccesses (F := F) env W t).filter (·.key = orderIndexKey w d order.oCId.toInt o) =
          [.get (orderIndexKey w d order.oCId.toInt o) (orderIndexVal (F := F)).size none,
            .put (orderIndexKey w d order.oCId.toInt o) (orderIndexVal.encode index)] ∧
        index.oId = (makeOrderKey w d o).toUInt64 ∧
        s (orderIndexKey w d order.oCId.toInt o).itemKey = some (orderIndexVal.encode index) := by
  obtain ⟨entries, valid, numbers, accesses, high⟩ :=
    Act.traced_returns (wp_loadTables_indexed small heap) returns
  have accesses : (loadAccesses env W t).filter ofOrders = entries.flatMap OrderEntry.accesses :=
    accesses
  have nodup : (entries.map OrderEntry.number).Nodup := numbers ▸ List.nodup_range
  refine ⟨?_, ?_, ?_⟩
  · intro k size value mem table
    have ofIndex : .get k size value ∈ (loadAccesses env W t).filter ofOrders :=
      List.mem_filter.mpr ⟨mem, by simp [ofOrders, table]⟩
    rw [accesses] at ofIndex
    obtain ⟨e, _, own⟩ := List.mem_flatMap.mp ofIndex
    simp only [OrderEntry.accesses, List.mem_cons, List.not_mem_nil, or_false, reduceCtorEq,
      false_or, Event.get.injEq] at own
    exact own.2.2
  · rw [countP_insertsEntry accesses, ← List.length_map (f := OrderEntry.number), numbers,
      List.length_range]
  · intro w d o range
    obtain ⟨e, he, number⟩ : ∃ e ∈ entries, e.number =
        30000 * (w - 1) + 3000 * (d - 1) + (o - 1) := by
      apply List.mem_map.mp
      rw [numbers, List.mem_range]
      omega
    have own := valid e he
    obtain ⟨rfl, rfl, rfl⟩ : e.w = w ∧ e.d = d ∧ e.o = o := by
      have := own.range
      unfold OrderEntry.number at number
      omega
    have alone (f : OrderEntry) (hf : f ∈ entries) (ne : f ≠ e) : f.number ≠ e.number :=
      fun same => ne (List.inj_on_of_nodup_map nodup hf he same)
    refine ⟨e.order, e.index, ?_, ?_, own.points, ?_⟩
    · rw [filter_key_of_orders (.inl rfl), accesses, filter_flatMap_of_mem he nodup.of_map]
      · exact e.filter_order
      · exact fun f hf ne => f.filter_other (fun same =>
          alone f hf ne ((valid f hf).number_eq_of_order own small same))
          (Key.ne_of_table (by simp [OrderEntry.key]))
    · rw [filter_key_of_orders (.inr rfl), accesses, filter_flatMap_of_mem he nodup.of_map]
      · exact e.filter_key
      · exact fun f hf ne => f.filter_other (Key.ne_of_table (by simp)) fun same =>
          alone f hf ne ((valid f hf).number_eq_of_key own small (congrArg Key.itemKey same))
    · apply (high _ (own.le_key small)).trans
      have inserted :
          ∃ write ∈ entries.map fun e => (e.key, (orderIndexVal (F := F)).encode e.index),
          write.1.itemKey = e.key.itemKey := ⟨_, List.mem_map_of_mem he, rfl⟩
      obtain ⟨write, hwrite, same, value⟩ := Store.puts_hit (s := fun _ => none) inserted
      obtain ⟨f, hf, rfl⟩ := List.mem_map.mp hwrite
      have : f = e := by
        by_contra ne
        exact alone f hf ne ((valid f hf).number_eq_of_key own small same)
      rw [value, this]

theorem orderIndex_complete_one :
    (loadAccesses (F := ℚ) Env.counting 1 ⟨0, 0⟩).countP insertsEntry = 30000 := by
  obtain ⟨t', s, returns⟩ := counting_returns (W := 1) Key.itemKey (by norm_num)
  exact (orderIndex_complete (by norm_num) (fun _ _ => by simp [Env.counting]) returns).2.1

end Tpcc
