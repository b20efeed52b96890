import Tpcc.Lib.Trace
import Tpcc.Rejection

/-! The customers of the loaded orders.  `PopulateOrderNewOrderAndOrderLineTable` draws the
customers of each district in an order of their own, and inserts one order for each of them; what it
inserts is read off its accesses, so that nothing is asked of the keys. -/

namespace Tpcc

open KvProgram Layout

/-! ### The orders of a district -/

/-- The customers of a district in the order in which they get its orders: each of them gets one. -/
structure DistrictOrders where
  w : Nat
  d : Nat
  customers : List Nat
  each : customers.Perm (List.range' 1 3000)

namespace DistrictOrders

/-- The customer of order `o`. -/
def customer (x : DistrictOrders) (o : Nat) : Nat := x.customers.getD (o - 1) 0

/-- The keys of the first `n` orders of the district, with their customers. -/
def orders (x : DistrictOrders) (n : Nat) : List (Key × Int32) :=
  (List.range' 1 n).map fun o : Nat => (orderKey x.w x.d o, Int32.ofNat (x.customer o))

theorem orders_succ (x : DistrictOrders) (n : Nat) : x.orders (n + 1) =
    x.orders n ++ [(orderKey x.w x.d (n + 1 : Nat), Int32.ofNat (x.customer (n + 1)))] := by
  rw [orders, List.range'_1_concat, List.map_append, Nat.add_comm 1 n]
  rfl

/-- Every customer has one of the orders. -/
theorem existsUnique_order (x : DistrictOrders) {c : Nat} (hc : 1 ≤ c ∧ c ≤ 3000) :
    ∃! o, (1 ≤ o ∧ o ≤ 3000) ∧ x.customer o = c := by
  have length : x.customers.length = 3000 := by rw [x.each.length_eq, List.length_range']
  have nodup : x.customers.Nodup := x.each.nodup_iff.mpr List.nodup_range'
  have mem : c ∈ x.customers := x.each.mem_iff.mpr (List.mem_range'_1.mpr (by omega))
  obtain ⟨i, hi, rfl⟩ := List.getElem_of_mem mem
  have at' (o : Nat) (ho : 1 ≤ o ∧ o ≤ 3000) : x.customer o = x.customers[o - 1] :=
    List.getD_eq_getElem _ _ (by omega)
  refine ⟨i + 1, ⟨by omega, at' (i + 1) (by omega)⟩, ?_⟩
  rintro o ⟨ho, same⟩
  rw [at' o ho, nodup.getElem_inj_iff] at same
  omega

end DistrictOrders

/-! ### The inserted orders -/

section Inserted

variable {ρ F κ : Type} [FloatRep F] [DecidableEq κ] {addr : Key → κ} {env : Env ρ} {t : Thread ρ}
  {x : Traced Key (Value F) κ} {done : List (Key × Int32)} {w d o : Nat}

/-- The key and the customer of the order that an access inserts. -/
def insertedOrder : Event Key (Value F) → Option (Key × Int32)
  | .put k v => if k.table = .order then some (k, (orderVal.decode v).oCId) else none
  | .get .. => none

/-- The accesses have inserted the orders of a list, the first one first. -/
def Inserted (done : List (Key × Int32)) (x : Traced Key (Value F) κ) : Prop :=
  x.2.filterMap insertedOrder = done

omit [DecidableEq κ] in
theorem Inserted.get {k : Key} {n : Nat} {v : Option (Value F)} (h : Inserted done x) :
    Inserted done (x.1, x.2 ++ [.get k n v]) := by
  have none : [(Event.get k n v : Event Key (Value F))].filterMap insertedOrder = [] := rfl
  rw [Inserted, List.filterMap_append, none, List.append_nil]
  exact h

theorem Inserted.put {k : Key} {v : Value F} (h : Inserted done x) (other : k.table ≠ .order) :
    Inserted done (x.1.put (addr k) v, x.2 ++ [.put k v]) := by
  have none : [(Event.put k v : Event Key (Value F))].filterMap insertedOrder = [] := by
    simp [insertedOrder, other]
  rw [Inserted, List.filterMap_append, none, List.append_nil]
  exact h

theorem Inserted.order {row : OrderVal} (h : Inserted done x) :
    Inserted (done ++ [(orderKey w d o, row.oCId)])
      (x.1.put (addr (orderKey w d o)) (orderVal.encode row),
        x.2 ++ [.put (orderKey w d o) (orderVal.encode row)]) := by
  have row : [(Event.put (orderKey w d o) (orderVal.encode row) : Event Key (Value F))].filterMap
      insertedOrder = [((orderKey w d o : Key), row.oCId)] := by
    simp [insertedOrder]
  rw [Inserted, List.filterMap_append, row]
  exact congrArg (· ++ _) h

omit [FloatRep F] in
theorem wp_orderRow_customer {S : Type} {L : Logic Key (Value F) S} {s : S} {c cId : Nat}
    {Q : OrderVal → Thread ρ → S → Prop}
    (h : ∀ (row : OrderVal) t, row.oCId = Int32.ofNat cId → Q row t s) :
    Act.wp L (orderRow env c cId) Q t s := by
  simp only [orderRow, Act.wp_bind, Act.wp_pure]
  refine wp_orderCarrier fun carrier t _ => wp_randomNumber (.inr (by decide)) fun n t _ _ => ?_
  exact wp_getCurrentTimeMillis fun entry t => h _ t rfl

theorem wp_populateOrderIndex_inserted {cId : Int} (h : Inserted done x) :
    Act.wp (.followed (Value F) addr) (populateOrderIndex env w d o cId)
      (fun _ _ x => Inserted done x) t x := by
  simp only [populateOrderIndex, Act.wp_bind]
  refine wp_uninit fun val t => wp_getRecord fun status found t _ => ?_
  split
  · simp only [Act.wp_bind, wp_putRecord]
    exact h.get.put (by simp)
  · exact h.get

theorem wp_populateNewOrder_inserted (h : Inserted done x) :
    Act.wp (.followed (Value F) addr) (populateNewOrder env w d o)
      (fun _ _ x => Inserted done x) t x := by
  unfold populateNewOrder
  split
  · simp only [Act.wp_bind, wp_putRecord]
    exact wp_uninit fun val t => h.put (by simp)
  · exact h

variable [DecidableEq F] [Amount F]

/-- The load of an order inserts one order, for its customer. -/
theorem wp_populateOrder_inserted {cIds : List Nat} (h : Inserted done x) :
    Act.wp (.followed (Value F) addr) (populateOrder env w d cIds o) (fun _ _ x =>
      Inserted (done ++ [(orderKey w d o, Int32.ofNat (cIds.getD (o - 1) 0))]) x) t x := by
  simp only [populateOrder, Act.wp_bind, wp_putRecord]
  refine wp_orderRow_customer fun row t customer => ?_
  rw [← customer, Logic.onPut_followed]
  refine Act.wp_mono (wp_populateOrderIndex_inserted h.order) fun _ t x h => ?_
  refine Act.wp_mono (wp_populateNewOrder_inserted h) fun _ t x h => ?_
  refine Act.wp_forRange (fun _ _ _ x => Inserted _ x) (fun l _ t x _ _ h => ?_) h
  simp only [Act.wp_bind, wp_putRecord]
  exact wp_orderLineRow fun line t => h.put (by simp)

end Inserted

/-! ### The load of the orders -/

section Load

variable {F κ : Type} [FloatRep F] [DecidableEq F] [Amount F] [DecidableEq κ] {addr : Key → κ}
  {memory : Nat → List UInt8} {allocate : List UInt64 → UInt64} {attempts W w d : Nat}
  {t : Thread FastRandom} {x : Traced Key (Value F) κ} {districts : List DistrictOrders}

/-- The districts of the first `n` warehouses, in the order in which they are loaded. -/
def districtsBefore (n : Nat) : List (Nat × Nat) :=
  (List.range' 1 n).flatMap fun w => (List.range' 1 10).map (w, ·)

theorem districtsBefore_succ (n : Nat) :
    districtsBefore (n + 1) = districtsBefore n ++ (List.range' 1 10).map (n + 1, ·) := by
  rw [districtsBefore, List.range'_1_concat (n := n), List.flatMap_append, List.flatMap_singleton,
    Nat.add_comm 1 n]
  rfl

/-- The accesses have inserted the orders of the districts of a list. -/
def Filled (ids : List (Nat × Nat)) (x : Traced Key (Value F) κ) : Prop :=
  ∃ districts : List DistrictOrders, districts.map (fun x => (x.w, x.d)) = ids ∧
    Inserted (districts.flatMap fun x => x.orders 3000) x

/-- The orders of a district are inserted, each for the customer that has been drawn for it. -/
theorem wp_populateDistrict (enough : 3000 * 2 ^ 47 < attempts) {ids : List (Nat × Nat)}
    (h : Filled ids x) : Act.wp (.followed (Value F) addr) (do
      let cIds ← shuffleCustomers (FastRandom.env memory allocate attempts)
      .forRange (fun c _ => populateOrder (FastRandom.env memory allocate attempts) w d cIds c) 1
        numCustomerPerDistrict ()) (fun _ _ x => Filled (ids ++ [(w, d)]) x) t x := by
  obtain ⟨districts, rfl, inserted⟩ := h
  rw [Act.wp_bind]
  refine wp_fast_shuffleCustomers enough fun cIds t each => ?_
  let district : DistrictOrders := ⟨w, d, cIds, each⟩
  refine Act.wp_mono (Act.wp_forRange (fun o _ _ x => Inserted
    ((districts.flatMap fun x => x.orders 3000) ++ district.orders (o - 1)) x) ?_ ?_) ?_
  · intro o _ t x low _ h
    obtain ⟨n, rfl⟩ : ∃ n, o = n + 1 := ⟨o - 1, by omega⟩
    refine Act.wp_mono (wp_populateOrder_inserted h) fun _ _ x next => ?_
    rw [Nat.add_sub_cancel, district.orders_succ, ← List.append_assoc]
    exact next
  · simpa [DistrictOrders.orders] using inserted
  · intro _ t x h
    refine ⟨districts ++ [district], ?_, ?_⟩
    · rw [List.map_append, List.map_singleton]
    · rw [List.flatMap_append, List.flatMap_singleton]
      exact h

/-- The load inserts the orders of all districts, whatever the state of the generator. -/
theorem wp_populateOrders_filled {seed : Nat} (enough : 3000 * 2 ^ 47 < attempts)
    (h : Filled [] x) :
    Act.wp (.followed (Value F) addr)
      (populateOrderNewOrderAndOrderLineTable (FastRandom.env memory allocate attempts) W seed)
      (fun _ _ x => Filled (districtsBefore W) x) t x := by
  simp only [populateOrderNewOrderAndOrderLineTable, Act.wp_bind]
  refine wp_seeded fun t => Act.wp_mono (Act.wp_forRange
    (fun w _ _ x => Filled (districtsBefore (w - 1)) x) ?_ h) ?_
  · intro w _ t x low _ h
    obtain ⟨n, rfl⟩ : ∃ n, w = n + 1 := ⟨w - 1, by omega⟩
    refine Act.wp_mono (Act.wp_forRange (fun d _ _ x =>
      Filled (districtsBefore n ++ (List.range' 1 (d - 1)).map (n + 1, ·)) x) ?_ ?_) ?_
    · intro d _ t x low _ h
      obtain ⟨m, rfl⟩ : ∃ m, d = m + 1 := ⟨d - 1, by omega⟩
      refine Act.wp_mono (wp_populateDistrict enough h) fun _ _ x next => ?_
      rw [Nat.add_sub_cancel, List.range'_1_concat, List.map_append, ← List.append_assoc,
        Nat.add_comm 1 m]
      exact next
    · simpa using h
    · intro _ t x h
      rw [Nat.add_sub_cancel, districtsBefore_succ]
      exact h
  · intro _ t x h
    rwa [Nat.add_sub_cancel_left] at h

/-- The customers of a district are drawn, each of them once, and the orders that are loaded are, in
every district of every warehouse, one for each customer. -/
structure OneOrderEach {ρ : Type} (addr : Key → κ) (env : Env ρ) (t : Thread ρ)
    (s : Store κ (Value F)) : Prop where
  shuffle : ∃ cIds t', Act.Returns addr (shuffleCustomers env) t s cIds t' s ∧
    cIds.Perm (List.range' 1 3000)
  load : ∀ W seed : Nat,
    let load : Act (Thread ρ) Key (Value F) Unit :=
      populateOrderNewOrderAndOrderLineTable env W seed
    (∃ t' s', Act.Returns addr load t s () t' s') ∧
    ∃ districts : List DistrictOrders,
      districts.map (fun x => (x.w, x.d)) = districtsBefore W ∧
      (Act.accesses addr load t s).filterMap insertedOrder =
        districts.flatMap (fun x => x.orders 3000) ∧
      ∀ x ∈ districts, ∀ c : Nat, 1 ≤ c ∧ c ≤ 3000 →
        ∃! o, (1 ≤ o ∧ o ≤ 3000) ∧ x.customer o = c

/-- The customers are shuffled in every state of the generator. -/
theorem shuffle_permutes (addr : Key → κ) (memory : Nat → List UInt8)
    (allocate : List UInt64 → UInt64) {attempts : Nat} (enough : 3000 * 2 ^ 47 < attempts)
    (t : Thread FastRandom) (s : Store κ (Value F)) :
    OneOrderEach addr (FastRandom.env memory allocate attempts) t s where
  shuffle := Act.returns_of_frame (wp_fast_shuffleCustomers enough fun _ _ each => ⟨rfl, each⟩)
  load W seed := by
    have filled : Act.wp (.followed (Value F) addr) (populateOrderNewOrderAndOrderLineTable
        (FastRandom.env memory allocate attempts) W seed)
        (fun _ _ x => Filled (districtsBefore W) x) t (s, []) :=
      wp_populateOrders_filled enough ⟨[], rfl, rfl⟩
    obtain ⟨_, t', s', returns, districts, ids, inserted⟩ := Act.followed_returns filled
    exact ⟨⟨t', s', returns⟩, districts, ids, inserted, fun x _ c hc => x.existsUnique_order hc⟩

theorem shuffle_permutes_source : OneOrderEach (F := ℚ) Key.itemKey
    (FastRandom.env (List.replicate · 0) (fun _ => 0) (2 ^ 60)) ⟨.setSeed0 2343352, 0⟩
    (fun _ => none) :=
  shuffle_permutes _ _ _ (by norm_num) _ _

end Load

end Tpcc
