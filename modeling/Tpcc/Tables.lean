import Tpcc.Client

/-! Each table as its own map: the stores whose addresses are whole keys.  What the transactions
leave of each table, and what the load establishes. -/

namespace Tpcc

open KvProgram Layout

/-- Two stores have the same rows in a table. -/
def SameOn {V : Type} (table : Table) (s s' : Store Key V) : Prop :=
  ∀ k, k.table = table → s' k = s k

section SameOn

variable {V : Type} {table : Table} {s s' s'' : Store Key V} {k : Key} {v : V}

theorem SameOn.refl : SameOn table s s := fun _ _ => rfl

theorem SameOn.trans (h : SameOn table s s') (h' : SameOn table s' s'') : SameOn table s s'' :=
  fun k hk => (h' k hk).trans (h k hk)

theorem SameOn.symm (h : SameOn table s s') : SameOn table s' s := fun k hk => (h k hk).symm

theorem sameOn_put (h : k.table ≠ table) : SameOn table s (s.put k v) := fun k' hk' =>
  Store.put_of_ne (Key.ne_of_table (by rw [hk']; exact h.symm))

theorem SameOn.put_other (h : SameOn table s s') (other : k.table ≠ table) :
    SameOn table s (s'.put k v) := h.trans (sameOn_put other)

theorem SameOn.put (h : SameOn table s s') : SameOn table (s.put k v) (s'.put k v) := by
  intro k' hk'
  rw [Store.put_apply, Store.put_apply, h k' hk']

theorem sameOn_puts {writes : List (Key × V)} (h : ∀ w ∈ writes, w.1.table ≠ table) :
    SameOn table s (s.puts id writes) := fun k hk =>
  Store.puts_of_ne fun w hw => Key.ne_of_table (by rw [hk]; exact h w hw)

theorem SameOn.row (h : SameOn table (s.put k v) s') (hk : k.table = table) : s' k = some v := by
  rw [h k hk, Store.put_self]

/-- A row that is not the one written. -/
theorem SameOn.row_of_ne {k' : Key} (h : SameOn table (s.put k v) s') (hk' : k'.table = table)
    (ne : k' ≠ k) : s' k' = s k' := by
  rw [h k' hk', Store.put_of_ne ne]

/-- The rows of a table after a write to it. -/
theorem SameOn.ne_none_iff {k' : Key} (h : SameOn table (s.put k v) s') (hk' : k'.table = table) :
    s' k' ≠ none ↔ s k' ≠ none ∨ k' = k := by
  rw [h k' hk', Store.put_apply]
  split <;> simp_all

theorem sameOn_filter_of {writes : List (Key × V)} (h : SameOn table s s') :
    SameOn table (s.puts id (writes.filter (·.1.table = table))) (s'.puts id writes) := by
  induction writes generalizing s s' with
  | nil => exact h
  | cons w writes ih =>
    rw [List.filter_cons, Store.puts_cons]
    by_cases own : w.1.table = table
    · rw [if_pos (decide_eq_true own), Store.puts_cons]
      exact ih h.put
    · rw [if_neg (by simpa using own)]
      exact ih (h.trans (sameOn_put own))

/-- A table after a list of writes: only those to the table matter. -/
theorem sameOn_filter (table : Table) (writes : List (Key × V)) :
    SameOn table (s.puts id (writes.filter (·.1.table = table))) (s.puts id writes) :=
  sameOn_filter_of SameOn.refl

end SameOn

variable {F : Type} [FloatRep F] [DecidableEq F] [Amount F] {W : Nat} {s s' : Store Key (Value F)}
  {w d o : Int}

/-! ### NewOrder -/

section NewOrder

variable {res : NewOrderResult}

omit [Amount F] in
theorem LineWrites.tables {key : Nat → Key} {lines : List (ChosenStock × UInt32)}
    {writes : List (Key × Value F)} (h : LineWrites key lines writes) :
    ∀ w ∈ writes, w.1.table = .stock ∨ ∃ i < lines.length, w.1 = key i := by
  intro w hw
  obtain ⟨i, stock, quantity, at_i, write⟩ := h.mem hw
  rcases write with ⟨row, rfl⟩ | ⟨line, _, rfl⟩
  · exact .inl rfl
  · exact .inr ⟨i, (List.getElem?_eq_some_iff.mp at_i).1, rfl⟩

/-- A line that is not put at the key of its own is put at the key of the order. -/
theorem lineKey_eq (res : NewOrderResult) (i : Nat) :
    res.lineKey i = orderKey res.warehouseId res.districtId res.myNextOId.toInt ∧
        i < res.selection.locals.length ∨ (res.lineKey i).table = .orderLine := by
  unfold NewOrderResult.lineKey
  split
  · rename_i isLocal
    exact .inl ⟨rfl, isLocal⟩
  · exact .inr rfl

omit [Amount F] in
/-- No line is written to another table than those of the stocks, the orders and the lines. -/
theorem filter_lineWrites {table : Table} {lines : List (ChosenStock × UInt32)}
    {writes : List (Key × Value F)} (h : LineWrites res.lineKey lines writes)
    (other : table ≠ .stock) (notLine : table ≠ .orderLine)
    (notOrder : table = .order → res.selection.locals = []) :
    writes.filter (·.1.table = table) = [] := by
  rw [List.filter_eq_nil_iff]
  intro w hw same
  have same : w.1.table = table := by simpa using same
  rcases h.tables w hw with stock | ⟨i, _, key⟩
  · exact other (same ▸ stock)
  · rcases lineKey_eq res i with ⟨order, isLocal⟩ | line
    · have isOrder : table = .order := by rw [← same, key, order]; rfl
      simp [notOrder isOrder] at isLocal
    · exact notLine (by rw [← same, key, line])

omit [Amount F] in
/-- The order takes its number from the district, whose next number is then one more. -/
theorem NewOrderResult.Effect.districtRow (h : res.Effect id W s s') :
    ∃ old status dist next,
      Reads districtVal (s (districtKey res.warehouseId res.districtId)) old status dist ∧
      res.myNextOId = dist.dNextOId ∧ addInt32 dist.dNextOId 1 = some next ∧
      SameOn .district (s.put (districtKey res.warehouseId res.districtId)
        (districtVal.encode { dist with dNextOId := next })) s' := by
  obtain ⟨old, status, dist, next, norder, order, writes, reads, number, more, _, lines, rfl⟩ :=
    h.writes
  have own := sameOn_filter (s := s) .district
    (res.rowWrites { dist with dNextOId := next } norder order ++ writes)
  rw [List.filter_append, filter_lineWrites lines (by decide) (by decide) (by simp)] at own
  exact ⟨old, status, dist, next, reads, number, more, own⟩

omit [Amount F] in
theorem NewOrderResult.Effect.newOrderRow (h : res.Effect id W s s') :
    ∃ norder : NewOrderVal, SameOn .newOrder (s.put
      (newOrderKey res.warehouseId res.districtId res.myNextOId.toInt) (newOrderVal.encode norder))
      s' := by
  obtain ⟨_, _, dist, next, norder, order, writes, _, _, _, _, lines, rfl⟩ := h.writes
  have own := sameOn_filter (s := s) .newOrder
    (res.rowWrites { dist with dNextOId := next } norder order ++ writes)
  rw [List.filter_append, filter_lineWrites lines (by decide) (by decide) (by simp)] at own
  exact ⟨norder, own⟩

omit [Amount F] in
/-- An order without a local line keeps its row. -/
theorem NewOrderResult.Effect.orderRow (h : res.Effect id W s s')
    (remote : res.selection.locals = []) : ∃ order, res.IsOrder order ∧ SameOn .order (s.put
      (orderKey res.warehouseId res.districtId res.myNextOId.toInt)
        (orderVal.encode order)) s' := by
  obtain ⟨_, _, dist, next, norder, order, writes, _, _, _, isOrder, lines, rfl⟩ := h.writes
  have own := sameOn_filter (s := s) .order
    (res.rowWrites { dist with dNextOId := next } norder order ++ writes)
  rw [List.filter_append, filter_lineWrites lines (by decide) (by decide) fun _ => remote] at own
  exact ⟨order, isOrder, own⟩

omit [Amount F] in
theorem NewOrderResult.Effect.order_of_ne (h : res.Effect id W s s') {k : Key}
    (table : k.table = .order)
    (ne : k ≠ orderKey res.warehouseId res.districtId res.myNextOId.toInt) : s' k = s k := by
  obtain ⟨_, _, dist, next, norder, order, writes, _, _, _, _, lines, rfl⟩ := h.writes
  apply Store.puts_of_ne
  intro w hw same
  have same : w.1 = k := same
  rcases List.mem_append.mp hw with row | line
  · simp only [rowWrites, List.mem_cons, List.not_mem_nil, or_false] at row
    rcases row with rfl | rfl | rfl | rfl
    · exact absurd (same ▸ table) (by simp)
    · exact absurd (same ▸ table) (by simp)
    · exact ne same.symm
    · exact absurd (same ▸ table) (by simp)
  · rcases lines.tables w line with stock | ⟨i, _, key⟩
    · rw [same, table] at stock
      exact absurd stock (by decide)
    · rcases lineKey_eq res i with ⟨order, _⟩ | line
      · exact ne (same ▸ key.trans order)
      · rw [← key, same, table] at line
        exact absurd line (by decide)

omit [Amount F] in
theorem NewOrderResult.Effect.order_ne_none (h : res.Effect id W s s') :
    s' (orderKey res.warehouseId res.districtId res.myNextOId.toInt) ≠ none := by
  obtain ⟨_, _, dist, next, norder, order, writes, _, _, _, _, lines, rfl⟩ := h.writes
  let key := orderKey res.warehouseId res.districtId res.myNextOId.toInt
  have written : (key, orderVal.encode order) ∈
      res.rowWrites { dist with dNextOId := next } norder order ++ writes := by
    simp [key, rowWrites]
  exact Store.puts_mem_ne_none (k := key) id (List.mem_map_of_mem written)

omit [Amount F] in
theorem NewOrderResult.Effect.sameOn {table : Table} (h : res.Effect id W s s')
    (other : table ∉ [.district, .newOrder, .order, .orderIndex, .stock, .orderLine]) :
    SameOn table s s' := by
  obtain ⟨_, _, dist, next, norder, order, writes, _, _, _, _, lines, rfl⟩ := h.writes
  apply sameOn_puts
  intro w hw same
  rcases List.mem_append.mp hw with row | line
  · simp only [rowWrites, List.mem_cons, List.not_mem_nil, or_false] at row
    rcases row with rfl | rfl | rfl | rfl <;>
      exact other (same ▸ by simp)
  · rcases lines.tables w line with stock | ⟨i, _, key⟩
    · exact other (same ▸ stock ▸ by simp)
    · rcases lineKey_eq res i with ⟨order, _⟩ | line
      · exact other (same ▸ key ▸ order ▸ by simp)
      · exact other (same ▸ key ▸ line ▸ by simp)

omit [Amount F] in
theorem NewOrderResult.Effect.isDistrict (h : res.Effect id W s s') :
    IsDistrict W res.warehouseId res.districtId :=
  ⟨⟨h.warehouse.1, h.warehouse.2.le⟩, h.district⟩

/-- The order is one of the district `(w, d)`. -/
def NewOrderResult.At (res : NewOrderResult) (w d : Int) : Prop :=
  res.warehouseId = w ∧ res.districtId = d

instance : Decidable (res.At w d) := inferInstanceAs (Decidable (_ ∧ _))

omit [Amount F] in
/-- The row of a district after an order: only that of the order's district changes, in the number
of the next order. -/
theorem NewOrderResult.Effect.district_after (h : res.Effect id W s s') (small : W ≤ 21474)
    (hd : IsDistrict W w d) {row : DistrictVal F}
    (hrow : s (districtKey w d) = some (districtVal.encode row)) :
    (res.At w d ∧ res.myNextOId = row.dNextOId ∧
      ∃ next, addInt32 row.dNextOId 1 = some next ∧
        s' (districtKey w d) = some (districtVal.encode { row with dNextOId := next })) ∨
    (¬res.At w d ∧ s' (districtKey w d) = some (districtVal.encode row)) := by
  obtain ⟨old, status, dist, next, reads, number, more, same⟩ := h.districtRow
  obtain ⟨hw', hd'⟩ := h.isDistrict
  obtain ⟨hw, hd⟩ := hd
  by_cases here : res.At w d
  · obtain ⟨rfl, rfl⟩ := here
    rw [hrow, reads_encode] at reads
    obtain ⟨_, rfl⟩ := reads
    exact .inl ⟨⟨rfl, rfl⟩, number, next, more, same.row rfl⟩
  · refine .inr ⟨here, ?_⟩
    rw [same.row_of_ne (by simp), hrow]
    intro eq
    obtain ⟨rfl, rfl⟩ := districtKey_inj (by omega) hd (by omega) hd' eq
    exact here ⟨rfl, rfl⟩

omit [Amount F] in
theorem NewOrderResult.Effect.orderKey_ne (h : res.Effect id W s s') (small : W ≤ 21474)
    (hd : IsDistrict W w d) (ho : IsInt32 o) (number : 0 ≤ res.myNextOId.toInt)
    (ne : ¬(res.At w d ∧ o = res.myNextOId.toInt)) :
    orderKey w d o ≠ orderKey res.warehouseId res.districtId res.myNextOId.toInt := by
  obtain ⟨hw', hd'⟩ := h.isDistrict
  obtain ⟨hw, hd⟩ := hd
  intro eq
  obtain ⟨rfl, rfl, rfl⟩ := orderKey_inj (by omega) hd ho (by omega) hd'
    ⟨number, res.myNextOId.toInt_lt⟩ eq
  exact ne ⟨⟨rfl, rfl⟩, rfl⟩

omit [Amount F] in
/-- The orders that have a row after another one. -/
theorem NewOrderResult.Effect.order_iff (h : res.Effect id W s s') (small : W ≤ 21474)
    (hd : IsDistrict W w d) (ho : IsInt32 o) (number : 0 ≤ res.myNextOId.toInt) :
    s' (orderKey w d o) ≠ none ↔
      s (orderKey w d o) ≠ none ∨ res.At w d ∧ o = res.myNextOId.toInt := by
  by_cases own : res.At w d ∧ o = res.myNextOId.toInt
  · obtain ⟨⟨rfl, rfl⟩, rfl⟩ := own
    exact iff_of_true h.order_ne_none (.inr ⟨⟨rfl, rfl⟩, rfl⟩)
  · rw [h.order_of_ne (by simp) (h.orderKey_ne small hd ho number own)]
    exact ⟨.inl, fun row => row.resolve_right own⟩

omit [Amount F] in
theorem NewOrderResult.Effect.newOrder_iff (h : res.Effect id W s s') (small : W ≤ 21474)
    (hd : IsDistrict W w d) (ho : IsInt32 o) (number : 0 ≤ res.myNextOId.toInt) :
    s' (newOrderKey w d o) ≠ none ↔
      s (newOrderKey w d o) ≠ none ∨ res.At w d ∧ o = res.myNextOId.toInt := by
  obtain ⟨norder, same⟩ := h.newOrderRow
  rw [same.ne_none_iff (by simp)]
  obtain ⟨hw', hd'⟩ := h.isDistrict
  obtain ⟨hw, hd⟩ := hd
  constructor
  · rintro (old | eq)
    · exact .inl old
    · obtain ⟨rfl, rfl, rfl⟩ := newOrderKey_inj (by omega) hd ho (by omega) hd'
        ⟨number, res.myNextOId.toInt_lt⟩ eq
      exact .inr ⟨⟨rfl, rfl⟩, rfl⟩
  · rintro (old | ⟨⟨rfl, rfl⟩, rfl⟩)
    · exact .inl old
    · exact .inr rfl

end NewOrder

/-! ### Payment -/

section Payment

variable {res : PaymentResult F}

theorem PaymentResult.Effect.warehouseRow (h : res.Effect id W s s') :
    ∃ old status ware, Reads warehouseVal (s (warehouseKey res.warehouseId)) old status ware ∧
      SameOn .warehouse (s.put (warehouseKey res.warehouseId)
        (warehouseVal.encode { ware with wYtd := ware.wYtd + res.hAmount })) s' := by
  obtain ⟨old, status, ware, _, _, dist, _, _, cust, _, _, hist, _, _, reads, rfl, _, rfl, _, _, _,
    rfl⟩ := h.writes
  refine ⟨old, status, ware, reads, ?_⟩
  apply SameOn.put_other _ (by simp)
  apply SameOn.put_other _ (by simp)
  exact sameOn_put (by simp)

theorem PaymentResult.Effect.districtRow (h : res.Effect id W s s') :
    ∃ old status dist,
      Reads districtVal (s (districtKey res.warehouseId res.districtId)) old status dist ∧
      SameOn .district (s.put (districtKey res.warehouseId res.districtId)
        (districtVal.encode { dist with dYtd := dist.dYtd + res.hAmount })) s' := by
  obtain ⟨_, _, ware, old, status, dist, _, _, cust, _, _, hist, s1, _, _, hs1, reads, rfl, _, _, _,
    rfl⟩ := h.writes
  have before : SameOn .district s s1 := by
    rw [hs1]
    exact sameOn_put (by simp)
  refine ⟨old, status, dist, ?_, ?_⟩
  · rw [← before _ (table_districtKey ..)]
    exact reads
  · apply SameOn.put_other _ (by simp)
    exact before.put.put_other (by simp)

theorem PaymentResult.Effect.historyRow (h : res.Effect id W s s') :
    ∃ hist : HistoryVal F, hist.hAmount = res.hAmount ∧ SameOn .history (s.put
      (historyKey res.warehouseId res.districtId res.cWId res.cDId res.customerId)
      (historyVal.encode hist)) s' := by
  obtain ⟨_, _, ware, _, _, dist, _, _, cust, _, _, hist, _, _, _, rfl, _, rfl, _, _,
      amount, rfl⟩ :=
    h.writes
  refine ⟨hist, amount, SameOn.put ?_⟩
  apply SameOn.put_other _ (by simp)
  apply SameOn.put_other _ (by simp)
  exact sameOn_put (by simp)

theorem PaymentResult.Effect.sameOn {table : Table} (h : res.Effect id W s s')
    (other : table ∉ [.warehouse, .district, .customer, .history]) : SameOn table s s' := by
  simp only [List.mem_cons, List.not_mem_nil, or_false, not_or] at other
  obtain ⟨_, _, ware, _, _, dist, _, _, cust, _, _, hist, _, _, _, rfl, _, rfl, _, _, _, rfl⟩ :=
    h.writes
  obtain ⟨notWarehouse, notDistrict, notCustomer, notHistory⟩ := other
  apply SameOn.put_other _ (Ne.symm notHistory)
  apply SameOn.put_other _ (Ne.symm notCustomer)
  apply SameOn.put_other _ (Ne.symm notDistrict)
  exact sameOn_put (Ne.symm notWarehouse)

theorem PaymentResult.Effect.isDistrict (h : res.Effect id W s s') :
    IsDistrict W res.warehouseId res.districtId :=
  ⟨⟨h.warehouse.1, h.warehouse.2.le⟩, h.district⟩

/-- The payment is made at the district `(w, d)`. -/
def PaymentResult.At (res : PaymentResult F) (w d : Int) : Prop :=
  res.warehouseId = w ∧ res.districtId = d

instance : Decidable (res.At w d) := inferInstanceAs (Decidable (_ ∧ _))

/-- The row of a warehouse after a payment: only that of the payment's warehouse changes, in its
year-to-date total. -/
theorem PaymentResult.Effect.warehouse_after (h : res.Effect id W s s') (small : W ≤ 21474)
    (hw : 1 ≤ w ∧ w ≤ W) {row : WarehouseVal F}
    (hrow : s (warehouseKey w) = some (warehouseVal.encode row)) :
    (res.warehouseId = w ∧ s' (warehouseKey w) =
      some (warehouseVal.encode { row with wYtd := row.wYtd + res.hAmount })) ∨
    (res.warehouseId ≠ w ∧ s' (warehouseKey w) = some (warehouseVal.encode row)) := by
  obtain ⟨old, status, ware, reads, same⟩ := h.warehouseRow
  obtain ⟨hw', -⟩ := h.isDistrict
  by_cases here : res.warehouseId = w
  · subst here
    rw [hrow, reads_encode] at reads
    obtain ⟨_, rfl⟩ := reads
    exact .inl ⟨rfl, same.row rfl⟩
  · refine .inr ⟨here, ?_⟩
    rw [same.row_of_ne (by simp), hrow]
    intro eq
    exact here (warehouseKey_inj (by omega) (by omega) eq).symm

/-- The row of a district after a payment: only that of the payment's district changes, in its
year-to-date total. -/
theorem PaymentResult.Effect.district_after (h : res.Effect id W s s') (small : W ≤ 21474)
    (hd : IsDistrict W w d) {row : DistrictVal F}
    (hrow : s (districtKey w d) = some (districtVal.encode row)) :
    (res.At w d ∧ s' (districtKey w d) =
      some (districtVal.encode { row with dYtd := row.dYtd + res.hAmount })) ∨
    (¬res.At w d ∧ s' (districtKey w d) = some (districtVal.encode row)) := by
  obtain ⟨old, status, dist, reads, same⟩ := h.districtRow
  obtain ⟨hw', hd'⟩ := h.isDistrict
  obtain ⟨hw, hd⟩ := hd
  by_cases here : res.At w d
  · obtain ⟨rfl, rfl⟩ := here
    rw [hrow, reads_encode] at reads
    obtain ⟨_, rfl⟩ := reads
    exact .inl ⟨⟨rfl, rfl⟩, same.row rfl⟩
  · refine .inr ⟨here, ?_⟩
    rw [same.row_of_ne (by simp), hrow]
    intro eq
    obtain ⟨rfl, rfl⟩ := districtKey_inj (by omega) hd (by omega) hd' eq
    exact here ⟨rfl, rfl⟩

end Payment

/-! ### Delivery -/

section Delivery

variable {x : DeliveredOrder F} {w carrier : Int} {currentTs : UInt32}

omit [Amount F] in
theorem DatedLines.sameOn {table : Table} {key : Nat → Key} {lines : List (OrderLineVal F)}
    (h : DatedLines id key currentTs s lines s') (other : ∀ i, (key i).table ≠ table) :
    SameOn table s s' := by
  induction h with
  | nil => exact SameOn.refl
  | snoc _ _ ih => exact ih.put_other (other _)

theorem DeliveredOrder.Effect.orderRow (h : x.Effect id w carrier currentTs s s') :
    ∃ old status row, Reads orderVal (s (orderKey w x.districtId x.oId)) old status row ∧
      SameOn .order (s.put (orderKey w x.districtId x.oId)
        (orderVal.encode { row with oCarrierId := Int32.ofInt carrier })) s' := by
  obtain ⟨old, status, row, lines, s1, _, _, cust, _, reads, _, dated, _, _, _, _, rfl⟩ := h.writes
  refine ⟨old, status, row, reads, ?_⟩
  have lines : SameOn .order _ s1 := dated.sameOn fun i => by simp
  exact lines.put_other (by simp)

theorem DeliveredOrder.Effect.sameOn {table : Table} (h : x.Effect id w carrier currentTs s s')
    (other : table ∉ [.order, .orderLine, .customer]) : SameOn table s s' := by
  simp only [List.mem_cons, List.not_mem_nil, or_false, not_or] at other
  obtain ⟨_, _, row, lines, s1, _, _, cust, _, _, _, dated, _, _, _, _, rfl⟩ := h.writes
  obtain ⟨notOrder, notLine, notCustomer⟩ := other
  apply SameOn.put_other _ (Ne.symm notCustomer)
  have order : (orderKey w x.districtId x.oId).table ≠ table := Ne.symm notOrder
  exact (sameOn_put order).trans (dated.sameOn fun i => Ne.symm notLine)

theorem DeliveryResult.Effect.sameOn {table : Table} {res : DeliveryResult F}
    (h : res.Effect id W s s') (other : table ∉ [.order, .orderLine, .customer]) :
    SameOn table s s' := by
  obtain ⟨currentTs, deliveries⟩ := h.deliveries
  exact deliveries.keeps (R := SameOn table s)
    (fun x s1 s2 _ _ effect same => same.trans (effect.sameOn other)) SameOn.refl

/-- The row of an order after a delivery, which may have changed its carrier. -/
theorem DeliveryResult.Effect.order_after {res : DeliveryResult F} (h : res.Effect id W s s')
    {k : Key} (table : k.table = .order) {row : OrderVal}
    (hrow : s k = some (orderVal.encode row)) :
    ∃ carrier, s' k = some (orderVal.encode { row with oCarrierId := carrier }) := by
  obtain ⟨currentTs, deliveries⟩ := h.deliveries
  refine deliveries.keeps
    (R := fun s => ∃ carrier, s k = some (orderVal.encode { row with oCarrierId := carrier }))
    ?_ ⟨row.oCarrierId, hrow⟩
  rintro x s1 s2 - - effect ⟨carrier, row1⟩
  obtain ⟨old, status, read, reads, same⟩ := effect.orderRow
  by_cases own : k = orderKey res.warehouseId x.districtId x.oId
  · subst own
    rw [row1, reads_encode] at reads
    obtain ⟨_, rfl⟩ := reads
    exact ⟨_, same.row rfl⟩
  · exact ⟨carrier, (same.row_of_ne table own).trans row1⟩

/-- A delivery inserts no order, when the orders that it may draw have rows. -/
theorem DeliveryResult.Effect.order_iff {res : DeliveryResult F} (h : res.Effect id W s s')
    (drawn : ∀ w d o, IsDistrict W w d → 2101 ≤ o ∧ o ≤ 3000 → s (orderKey w d o) ≠ none)
    {k : Key} (table : k.table = .order) : s' k ≠ none ↔ s k ≠ none := by
  obtain ⟨currentTs, deliveries⟩ := h.deliveries
  have districts := h.districts
  have warehouse := h.warehouse
  refine deliveries.keeps (R := fun s1 => s1 k ≠ none ↔ s k ≠ none) ?_ Iff.rfl
  intro x s1 s2 low high effect before
  obtain ⟨old, status, read, reads, same⟩ := effect.orderRow
  rw [same.ne_none_iff table, before]
  constructor
  · rintro (row | rfl)
    · exact row
    · exact drawn _ _ _ ⟨by omega, by omega⟩ effect.order
  · exact .inl

end Delivery

/-! ### Steps -/

/-- The tables that a transaction writes to. -/
def Outcome.tables : Outcome F → List Table
  | .newOrder _ => [.district, .newOrder, .order, .orderIndex, .stock, .orderLine]
  | .payment _ => [.warehouse, .district, .customer, .history]
  | .delivery _ => [.order, .orderLine, .customer]
  | .orderStatus _ | .stockLevel _ => []

/-- A step leaves the other tables as they are. -/
theorem Step.sameOn {table : Table} {outcome : Outcome F} (step : Step id W s outcome s')
    (other : table ∉ outcome.tables) : SameOn table s s' := by
  have effect := step_effect step
  cases outcome with
  | newOrder res => exact step.newOrder.sameOn other
  | payment res => exact step.payment.sameOn other
  | delivery res => exact step.delivery.sameOn other
  | orderStatus res =>
    obtain rfl : s' = s := effect
    exact SameOn.refl
  | stockLevel res =>
    obtain rfl : s' = s := effect
    exact SameOn.refl

end Tpcc
