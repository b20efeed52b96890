import Tpcc.Tables

/-! The tables that `LoadTables` leaves when each table is its own map: which rows there are, and
what they hold. -/

namespace Tpcc

open KvProgram Layout

section Rows

variable {F : Type} [FloatRep F] [DecidableEq F] [Amount F] {W : Nat} {k : Key} {v : Value F}

theorem LoadRow.warehouse_row (h : LoadRow W k v) (table : k.table = .warehouse) :
    ∃ row : WarehouseVal F, v = warehouseVal.encode row ∧
      row.wYtd = Amount.ofInt (300000 * 100) ∧ row.wName.IsStr 10 := by
  cases h <;> simp at table
  case warehouse row range ytd name => exact ⟨row, rfl, ytd, name⟩

theorem LoadRow.district_row (h : LoadRow W k v) (table : k.table = .district) :
    ∃ row : DistrictVal F, v = districtVal.encode row ∧ row.dYtd = Amount.ofInt (30000 * 100) ∧
      row.dNextOId = 3001 ∧ row.dName.IsStr 10 := by
  cases h <;> simp at table
  case district row range ytd next name => exact ⟨row, rfl, ytd, next, name⟩

theorem LoadRow.customer_row (h : LoadRow W k v) (table : k.table = .customer) :
    ∃ row : CustomerVal F, v = customerVal.encode row ∧ row.cDeliveryCnt = 0 ∧
      row.cPaymentCnt = 1 ∧ row.cData.IsStr 500 := by
  cases h <;> simp at table
  case customer row range delivered paid data => exact ⟨row, rfl, delivered, paid, data⟩

/-- The history rows are those of payments at the district of the customer. -/
theorem LoadRow.history_row (h : LoadRow W k v) (table : k.table = .history) :
    ∃ (w d c : Int) (row : HistoryVal F), IsDistrict W w d ∧ (1 ≤ c ∧ c ≤ 3000) ∧
      k = historyKey w d w d c ∧ v = historyVal.encode row ∧ row.hAmount = Amount.ofInt 10 := by
  cases h <;> simp at table
  case history w d c row range amount =>
    exact ⟨w, d, c, row, ⟨by omega, by omega⟩, by omega, rfl, rfl, amount⟩

theorem LoadRow.order_row (h : LoadRow W k v) (table : k.table = .order) :
    ∃ (w d o : Int) (row : OrderVal), IsDistrict W w d ∧ (1 ≤ o ∧ o ≤ 3000) ∧ k = orderKey w d o ∧
      v = orderVal.encode row ∧ (row.oCarrierId = 0 ↔ 2100 < o) ∧
      (5 ≤ row.oOlCnt.toInt ∧ row.oOlCnt.toInt ≤ 15) ∧
      1 ≤ row.oCId.toInt ∧ row.oCId.toInt ≤ 3000 := by
  cases h <;> simp at table
  case order w d o row range carrier count customer =>
    exact ⟨w, d, o, row, ⟨by omega, by omega⟩, by omega, rfl, rfl, carrier.trans (by omega), count,
      customer⟩

theorem LoadRow.newOrder_row (h : LoadRow W k v) (table : k.table = .newOrder) :
    ∃ w d o : Int, IsDistrict W w d ∧ (2100 < o ∧ o ≤ 3000) ∧ k = newOrderKey w d o := by
  cases h <;> simp at table
  case newOrder w d o row range => exact ⟨w, d, o, ⟨by omega, by omega⟩, by omega, rfl⟩

theorem LoadRow.orderIndex_row (h : LoadRow W k v) (table : k.table = .orderIndex) :
    ∃ w d c o : Int, IsDistrict W w d ∧ (1 ≤ c ∧ c ≤ 3000) ∧ (1 ≤ o ∧ o ≤ 3000) ∧
      k = orderIndexKey w d c o := by
  cases h <;> simp at table
  case orderIndex w d o c row range customer =>
    exact ⟨w, d, c, o, ⟨by omega, by omega⟩, customer, by omega, rfl⟩

theorem LoadRow.orderLine_row (h : LoadRow W k v) (table : k.table = .orderLine) :
    ∃ (w d o l : Int) (row : OrderLineVal F), IsDistrict W w d ∧ (1 ≤ o ∧ o ≤ 3000) ∧
      (1 ≤ l ∧ l ≤ 15) ∧ k = orderLineKey w d o l ∧ v = orderLineVal.encode row := by
  cases h <;> simp at table
  case orderLine w d o l row range =>
    exact ⟨w, d, o, l, row, ⟨by omega, by omega⟩, by omega, by omega, rfl, rfl⟩

end Rows

variable {F : Type} [FloatRep F] [DecidableEq F] [Amount F] {W : Nat} {s : Store Key (Value F)}

/-! ### The load of an order -/

/-- The rows that the load of an order has written: its row, its lines, and a new-order row if it
has not been delivered. -/
structure OrderLoaded (w d o : Int) (s : Store Key (Value F)) : Prop where
  order : ∃ row : OrderVal, s (orderKey w d o) = some (orderVal.encode row) ∧
    ∀ l : Int, 1 ≤ l → l ≤ row.oOlCnt.toInt → s (orderLineKey w d o l) ≠ none
  newOrder : 2100 < o → s (newOrderKey w d o) ≠ none

omit [DecidableEq F] [Amount F] in
/-- An order that has been loaded stays so under writes to the rows of others. -/
theorem OrderLoaded.put {w d o : Int} {k : Key} {v : Value F} (h : OrderLoaded w d o s)
    (ne : k ≠ orderKey w d o) : OrderLoaded w d o (s.put k v) := by
  obtain ⟨row, hrow, lines⟩ := h.order
  constructor
  · refine ⟨row, ?_, fun l low high => Store.put_ne_none (lines l low high)⟩
    rw [Store.put_of_ne ne.symm, hrow]
  · exact fun more => Store.put_ne_none (h.newOrder more)

omit [DecidableEq F] [Amount F] in
theorem OrderPut.orderLoaded {w d o : Nat} {s' : Store Key (Value F)}
    (h : OrderPut id w d o s s') : OrderLoaded (w : Int) d o s' := by
  obtain ⟨row, writes, rfl, beside, isNew, lines⟩ := h
  constructor
  · refine ⟨row, ?_, fun l low high => ?_⟩
    · have last : ∀ x ∈ writes, id x.1 ≠ orderKey w d o := fun x hx =>
        Key.ne_of_table (by simpa using (beside x hx).1)
      rw [Store.puts_cons, Store.puts_of_ne last]
      exact Store.put_self
    · have written := lines l.toNat (by omega) (by omega)
      rw [Int.toNat_of_nonneg (by omega)] at written
      exact Store.puts_mem_ne_none id (List.mem_cons_of_mem _ written)
  · intro more
    have written := isNew (by omega)
    exact Store.puts_mem_ne_none id (List.mem_cons_of_mem _ written)

/-! ### The loaded tables -/

/-- The tables after a load of `W` warehouses. -/
structure TablesLoaded (W : Nat) (s : Store Key (Value F)) : Prop where
  small : W ≤ 21474
  rows : RowsLoaded id W s
  typed : ∀ k v, s k = some v → LoadRow W k v
  orders : ∀ w d o : Int, IsDistrict W w d → 1 ≤ o ∧ o ≤ 3000 → OrderLoaded w d o s

theorem Loaded.tables (h : Loaded id W s) : TablesLoaded W s := by
  obtain ⟨ρ, env, t, t', returns⟩ := h
  have load := wp_loadTables (F := F) (t := t) (s := fun _ => none) env id W True (.inl trivial)
    (fun w d o s => W * 100000 < 2 ^ 31 → OrderLoaded (w : Int) d o s) ?_ ?_ ?_
  · have kept := Act.wp_keeps (R := fun s => ∀ k v, s k = some v → LoadRow W k v)
      (fun s k v typed row k' v' hk' => ?_) load (by simp)
    · obtain ⟨⟨rows, orders⟩, typed⟩ := Act.wp_returns kept returns
      have small := rows.small
      refine ⟨by omega, rows, typed, fun w d o ⟨hw, hd⟩ ho => ?_⟩
      have := orders w.toNat d.toNat o.toNat (by omega) small
      rwa [Int.toNat_of_nonneg (by omega), Int.toNat_of_nonneg (by omega),
        Int.toNat_of_nonneg (by omega)] at this
    · rw [Store.put_apply] at hk'
      split at hk'
      · rename_i same
        rw [show k' = k from same, ← Option.some.inj hk']
        exact row
      · exact typed k' v' hk'
  · exact fun w d o s s' _ put _ => put.orderLoaded
  · intro _ w d o w' d' o' range range' other s k v order row _ own small
    apply (order small).put
    intro (same : k = orderKey w d o)
    have same' := own (by rw [same]; rfl)
    have ids : (w : Int) = w' ∧ (d : Int) = d' ∧ (o : Int) = o' :=
      orderKey_inj (by omega) (by omega)
      (by omega) (by omega) (by omega) (by omega) (same.symm.trans same')
    exact other (by simp; omega)
  · intro w d o s k v order row later small
    apply (order small).put
    rintro rfl
    simp at later

namespace TablesLoaded

variable {w d c o : Int} (h : TablesLoaded W s)
include h

theorem typed_of_ne_none {k : Key} (row : s k ≠ none) :
    ∃ v, s k = some v ∧ LoadRow W k v := by
  obtain ⟨v, hv⟩ := Option.ne_none_iff_exists'.mp row
  exact ⟨v, hv, h.typed k v hv⟩

theorem warehouse (hw : 1 ≤ w ∧ w ≤ W) : ∃ row : WarehouseVal F,
    s (warehouseKey w) = some (warehouseVal.encode row) ∧
      row.wYtd = Amount.ofInt (300000 * 100) ∧ row.wName.IsStr 10 := by
  lift w to Nat using by omega
  obtain ⟨v, hv, typed⟩ := h.typed_of_ne_none (h.rows.warehouse w (by omega) (by omega))
  obtain ⟨row, rfl, facts⟩ := typed.warehouse_row (by simp)
  exact ⟨row, hv, facts⟩

theorem district (hd : IsDistrict W w d) : ∃ row : DistrictVal F,
    s (districtKey w d) = some (districtVal.encode row) ∧
      row.dYtd = Amount.ofInt (30000 * 100) ∧ row.dNextOId = 3001 ∧ row.dName.IsStr 10 := by
  obtain ⟨hw, hd⟩ := hd
  lift w to Nat using by omega
  lift d to Nat using by omega
  obtain ⟨v, hv, typed⟩ := h.typed_of_ne_none
    (h.rows.district w d (by omega) (by omega) (by omega) (by omega))
  obtain ⟨row, rfl, facts⟩ := typed.district_row (by simp)
  exact ⟨row, hv, facts⟩

theorem customer (hd : IsDistrict W w d) (hc : 1 ≤ c ∧ c ≤ 3000) : ∃ row : CustomerVal F,
    s (customerKey w d c) = some (customerVal.encode row) ∧ row.cDeliveryCnt = 0 ∧
      row.cPaymentCnt = 1 ∧ row.cData.IsStr 500 := by
  obtain ⟨hw, hd⟩ := hd
  lift w to Nat using by omega
  lift d to Nat using by omega
  lift c to Nat using by omega
  obtain ⟨v, hv, typed⟩ := h.typed_of_ne_none
    (h.rows.customer w d c (by omega) (by omega) (by omega) (by omega) (by omega) (by omega)).1
  obtain ⟨row, rfl, facts⟩ := typed.customer_row (by simp)
  exact ⟨row, hv, facts⟩

/-- An order that has a row is one of the 3000 that the loader inserts. -/
theorem order_range (hd : IsDistrict W w d) (ho : IsInt32 o) (row : s (orderKey w d o) ≠ none) :
    1 ≤ o ∧ o ≤ 3000 := by
  have small := h.small
  obtain ⟨v, hv, typed⟩ := h.typed_of_ne_none row
  obtain ⟨w', d', o', row, ⟨hw', hd'⟩, ho', same, _⟩ := typed.order_row (by simp)
  obtain ⟨hw, hd⟩ := hd
  obtain ⟨_, _, rfl⟩ := orderKey_inj (by omega) hd ho (by omega) hd' (by omega) same
  exact ho'

theorem order (hd : IsDistrict W w d) (ho : 1 ≤ o ∧ o ≤ 3000) : ∃ row : OrderVal,
    s (orderKey w d o) = some (orderVal.encode row) ∧ (row.oCarrierId = 0 ↔ 2100 < o) ∧
      (5 ≤ row.oOlCnt.toInt ∧ row.oOlCnt.toInt ≤ 15) ∧
      (1 ≤ row.oCId.toInt ∧ row.oCId.toInt ≤ 3000) ∧
      ∀ l : Int, 1 ≤ l → l ≤ row.oOlCnt.toInt → s (orderLineKey w d o l) ≠ none := by
  have small := h.small
  obtain ⟨row, hrow, lines⟩ := (h.orders w d o hd ho).order
  obtain ⟨w', d', o', row', ⟨hw', hd'⟩, ho', same, image, carrier, count, customer⟩ :=
    (h.typed _ _ hrow).order_row (by simp)
  obtain ⟨hw, hd⟩ := hd
  obtain ⟨_, _, rfl⟩ := orderKey_inj (by omega) hd (by omega) (by omega) hd' (by omega) same
  obtain rfl := orderVal.encode_injective image
  exact ⟨row, hrow, carrier, count, customer, lines⟩

theorem newOrder_iff (hd : IsDistrict W w d) (ho : IsInt32 o) :
    s (newOrderKey w d o) ≠ none ↔ 2100 < o ∧ o ≤ 3000 := by
  have small := h.small
  constructor
  · intro row
    obtain ⟨v, hv, typed⟩ := h.typed_of_ne_none row
    obtain ⟨w', d', o', ⟨hw', hd'⟩, ho', same⟩ := typed.newOrder_row (by simp)
    obtain ⟨hw, hd⟩ := hd
    obtain ⟨_, _, rfl⟩ := newOrderKey_inj (by omega) hd ho (by omega) hd' (by omega) same
    exact ho'
  · rintro ⟨low, high⟩
    exact (h.orders w d o hd (by omega)).newOrder low

/-- The order index has rows only for the orders that the loader inserts. -/
theorem orderIndex_range (hd : IsDistrict W w d) (hc : 1 ≤ c ∧ c ≤ 3000)
    (ho : 0 ≤ o ∧ o < 2 ^ 31) (row : s (orderIndexKey w d c o) ≠ none) : 1 ≤ o ∧ o ≤ 3000 := by
  have small := h.small
  obtain ⟨v, hv, typed⟩ := h.typed_of_ne_none row
  obtain ⟨w', d', c', o', ⟨hw', hd'⟩, hc', ho', same⟩ := typed.orderIndex_row (by simp)
  obtain ⟨hw, hd⟩ := hd
  have key :=
    orderIndexKey_toNat (w := w) (d := d) (c := c) (o := o) (by omega) (by omega) ho.1 ho.2
  have key' := orderIndexKey_toNat (w := w') (d := d') (c := c') (o := o') (by omega) (by omega)
    (by omega) (by omega)
  rw [same] at key
  omega

/-- The order-line table has lines only of the orders that the loader inserts. -/
theorem orderLine_range {l : Int} (hd : IsDistrict W w d) (ho : 1 ≤ o ∧ o ≤ 10000000)
    (hl : 1 ≤ l ∧ l ≤ 15) (row : s (orderLineKey w d o l) ≠ none) : o ≤ 3000 := by
  have small := h.small
  obtain ⟨v, hv, typed⟩ := h.typed_of_ne_none row
  obtain ⟨w', d', o', l', _, ⟨hw', hd'⟩, ho', hl', same, _⟩ := typed.orderLine_row (by simp)
  obtain ⟨hw, hd⟩ := hd
  have ids := orderLineKey_inj (by omega) hd ho hl (by omega) hd' (by omega) hl' same
  omega

end TablesLoaded

/-! ### Loads that finish -/

/-- The load of `W` warehouses over exact amounts finishes when the generator counts. -/
theorem counting_finishes (small : W * 100000 < 2 ^ 31) : Env.counting.Finishes ℚ W where
  accepting := counting_accepting
  prices p lower upper := by
    have low : (100 : ℚ) ≤ p := by exact_mod_cast lower
    have high : (p : ℚ) ≤ 10000 := by exact_mod_cast upper
    simp only [Amount.ofInt, Amount.quotient, Amount.le]
    constructor
    · norm_num
      linarith
    · norm_num
      linarith
  counters := small

/-- A load with a generator that counts returns. -/
theorem counting_returns {κ : Type} [DecidableEq κ] (addr : Key → κ) (small : W * 100000 < 2 ^ 31) :
    ∃ (t' : Thread Nat) (s : Store κ (Value ℚ)),
      Act.Returns addr (loadTables Env.counting W) ⟨0, 0⟩ (fun _ => none) () t' s := by
  have load := wp_loadTables (F := ℚ) (t := ⟨0, 0⟩) (s := fun _ => none) Env.counting addr W False
    (.inr (counting_finishes small))
    (fun _ _ _ _ => True) (fun _ _ _ _ _ _ _ => trivial) (fun _ _ _ _ _ _ _ _ _ _ _ _ _ _ _ _ _ =>
      trivial) (fun _ _ _ _ _ _ _ _ _ => trivial)
  obtain ⟨_, t', s, returns, _⟩ := Act.returns_of_wp load id
  exact ⟨t', s, returns⟩

theorem exists_loaded {κ : Type} [DecidableEq κ] (addr : Key → κ)
    (small : W * 100000 < 2 ^ 31) : ∃ s : Store κ (Value ℚ), Loaded addr W s := by
  obtain ⟨t', s, returns⟩ := counting_returns addr small
  exact ⟨s, Nat, Env.counting, ⟨0, 0⟩, t', returns⟩

end Tpcc
