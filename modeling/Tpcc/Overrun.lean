import Tpcc.LoadedTables

/-! The copies of `GetRecord` in the one store that all tables share.  The loader fills the order
tables after the customers, and the row of order `c` of a district has the item key of its customer
`c`: after the load every customer key holds a value that is shorter than a customer row, and any
`OrderStatus` copies beyond it. -/

namespace Tpcc

open KvProgram Layout

variable {F : Type} [FloatRep F] [DecidableEq F] [Amount F] {W : Nat}
  {s : Store UInt64 (Value F)} {w d c : Int}

/-- A read that copies beyond the value that it finds. -/
def Overruns : Event Key (Value F) → Prop
  | .get _ size (some v) => v.length < size
  | _ => False

/-- Every read of a transaction from a state finds enough bytes, and in a payment the names that
are read have room in the data of a history row. -/
structure NoOverrun (W : Nat) (s : Store UInt64 (Value F)) : Prop where
  reads : ∀ (ρ : Type) (env : Env ρ) (type : TxType) (t : Thread ρ),
    ∀ e ∈ Act.accesses Key.itemKey (transaction env W type) t s, ¬Overruns e
  names : ∀ (ρ : Type) (env : Env ρ) (w d : Int) (amount : F) (t t1 t2 : Thread ρ)
    (s1 s2 : Store UInt64 (Value F)) (ware : WarehouseVal F) (dist : DistrictVal F),
    IsDistrict W w d → Act.Returns Key.itemKey (payWarehouse env w amount) t s ware t1 s1 →
      Act.Returns Key.itemKey (payDistrict env w d amount) t1 s1 dist t2 s2 →
        (CharArray.cStr ware.fromName).length + 2 + (CharArray.cStr dist.fromName).length ≤ 24

/-- There is a value at an address, and it is shorter than a customer row. -/
def Short (a : UInt64) (s : Store UInt64 (Value F)) : Prop :=
  ∃ v, s a = some v ∧ v.length < 664

omit [FloatRep F] [DecidableEq F] [Amount F] in
theorem Short.put {a b : UInt64} {v : Value F} (h : Short a s) (length : v.length < 664) :
    Short a (s.put b v) := by
  obtain ⟨old, hold, short⟩ := h
  by_cases same : a = b
  · subst same
    exact ⟨v, Store.put_self, length⟩
  · exact ⟨old, by rw [Store.put_of_ne same, hold], short⟩

/-- The rows of the tables that are loaded after the customers are shorter than those. -/
theorem LoadRow.length_lt {k : Key} {v : Value F} (h : LoadRow W k v)
    (table : OrderTables k ∨ k.table = .stock ∨ k.table = .item) : v.length < 664 := by
  cases h <;> simp [OrderTables] at table ⊢

/-- The customer key of `c` and the key of order `c` are one item key. -/
theorem customerKey_itemKey (w d c : Int) :
    (customerKey w d c).itemKey = (orderKey w d c).itemKey := rfl

omit [DecidableEq F] [Amount F] in
/-- The load of an order leaves a short value at the key of the customer. -/
theorem OrderPut.short {w d c : Nat} {s s' : Store UInt64 (Value F)}
    (h : OrderPut Key.itemKey w d c s s') : Short (customerKey w d c).itemKey s' := by
  obtain ⟨row, writes, rfl, beside, _, _⟩ := h
  rw [customerKey_itemKey]
  obtain ⟨x, hx, _, value⟩ := Store.puts_hit (s := s) (a := (orderKey w d c).itemKey)
    ⟨(orderKey w d c, orderVal.encode row), List.mem_cons_self (l := writes), rfl⟩
  refine ⟨x.2, value, ?_⟩
  rcases List.mem_cons.mp hx with rfl | hx
  · simp
  · have := (beside x hx).2
    omega

/-- After the load, every customer key holds a value shorter than a customer row. -/
theorem Loaded.short_customer (h : Loaded Key.itemKey W s) (hd : IsDistrict W w d)
    (hc : 1 ≤ c ∧ c ≤ 3000) : Short (customerKey w d c).itemKey s := by
  obtain ⟨ρ, env, t, t', returns⟩ := h
  have load := wp_loadTables (F := F) (t := t) (s := fun _ => none) env Key.itemKey W True
    (.inl trivial) (fun w d c s => Short (customerKey w d c).itemKey s)
    (fun w d c s s' _ put => put.short)
    (fun _ w d c w' d' c' _ _ _ s k v short row table _ => short.put (row.length_lt (.inl table)))
    (fun w d c s k v short row table => short.put (row.length_lt (.inr table)))
  obtain ⟨_, short⟩ := Act.wp_returns (C := loadContract Key.itemKey W True) load returns
  obtain ⟨hw, hd⟩ := hd
  lift w to Nat using by omega
  lift d to Nat using by omega
  lift c to Nat using by omega
  exact short w d c (by omega)

/-- From the loaded store, any `OrderStatus` copies beyond the value at the key of its customer. -/
theorem orderStatus_overruns {ρ : Type} (env : Env ρ) (t : Thread ρ) (two : 2 ≤ W)
    (h : Loaded Key.itemKey W s) :
    ∃ e ∈ Act.accesses Key.itemKey (transaction env W .orderStatus) t s, Overruns e := by
  apply Act.exists_access
  simp only [transaction, orderStatus, Act.wp_bind]
  refine wp_randomNumber (.inr (by decide)) fun y t _ _ => ?_
  refine wp_pickWarehouseId (.inr two) fun w t hw hw' => ?_
  refine wp_randomNumber (.inr (by decide)) fun d t hd hd' => wp_statusCustomer fun c t hc hc' => ?_
  obtain ⟨v, hv, short⟩ := h.short_customer (w := w) (d := d) ⟨⟨hw, hw'.le⟩, hd, hd'⟩ ⟨hc, hc'⟩
  refine wp_uninit fun cust t => wp_getRecord (.inl ?_)
  simp only [hv, Overruns, size_customerVal]
  exact short

/-- With any number of warehouses, the loaded store is a state in which a client overruns, whatever
it draws. -/
theorem loaded_overruns (two : 2 ≤ W) (h : Loaded Key.itemKey W s) :
    Reached Key.itemKey W [] s ∧ ¬NoOverrun W s ∧
      ∀ (ρ : Type) (env : Env ρ) (t : Thread ρ),
        ∃ e ∈ Act.accesses Key.itemKey (transaction env W .orderStatus) t s, Overruns e := by
  refine ⟨.start h, fun safe => ?_, fun ρ env t => orderStatus_overruns env t two h⟩
  obtain ⟨e, access, overruns⟩ := orderStatus_overruns Env.counting ⟨0, 0⟩ two h
  exact safe.reads Nat Env.counting .orderStatus ⟨0, 0⟩ e access overruns

theorem loaded_overruns_two : ∃ s : Store UInt64 (Value ℚ), Loaded Key.itemKey 2 s ∧
    ¬NoOverrun 2 s := by
  obtain ⟨s, loaded⟩ := exists_loaded Key.itemKey (W := 2) (by norm_num)
  exact ⟨s, loaded, (loaded_overruns le_rfl loaded).2.1⟩

/-- Two warehouses, and the customer that the counting generator draws. -/
theorem some_client_overruns :
    ¬∀ (W : Nat) (run : List (Outcome ℚ)) (s : Store UInt64 (Value ℚ)), 2 ≤ W →
      Reached Key.itemKey W run s → NoOverrun W s := by
  intro claim
  obtain ⟨s, loaded⟩ := exists_loaded Key.itemKey (W := 2) (by norm_num)
  have safe := claim 2 [] s le_rfl (.start loaded)
  obtain ⟨e, access, overruns⟩ := orderStatus_overruns Env.counting ⟨0, 0⟩ le_rfl loaded
  exact safe.reads Nat Env.counting .orderStatus ⟨0, 0⟩ e access overruns

end Tpcc
