import Mathlib.Data.List.Nodup
import Mathlib.Data.List.Perm.Subperm
import Tpcc.DistrictRow
import Tpcc.Lib.Clients
import Tpcc.NewOrderRows

/-! Clients that share a table.  Nothing orders the `GetRecord` and the `PutRecord` of a district
row in one transaction against those of another: two orders of a district can get one number.  As
long as no `NewOrder` writes the row between the read and the write of another client, the numbers
of the orders differ, and the number of the next order counts them. -/

namespace Tpcc

open KvProgram Layout

/-- The programs of a transaction, with any draws. -/
def IsTransaction {F : Type} [FloatRep F] [DecidableEq F] [Amount F] (W : Nat) (type : TxType)
    (p : Prog Key (Value F) (Outcome F)) : Prop :=
  ∃ (ρ : Type) (env : Env ρ) (t : Thread ρ), p = (transaction env W type t).bind fun x => .done x.1

section

variable (ι F : Type)

abbrev TableMove := Move ι TxType Key (Value F) (Outcome F)

abbrev TableClients (κ : Type) := Clients ι TxType Key (Value F) (Outcome F) (Store κ (Value F))

end

variable {ι F κ : Type} [DecidableEq ι] [FloatRep F] [DecidableEq F] [Amount F] [DecidableEq κ]

/-- The runs of clients that share a table, from a store and with no transaction running. -/
abbrev SharedRun (addr : Key → κ) (W : Nat) (s : Store κ (Value F)) :
    List (TableMove ι F) → TableClients ι F κ → Prop :=
  Run (fun c => c.store = s ∧ c.Idle) (Clients.Step (.exact (Value F) addr) (IsTransaction W))

/-! ### The moves at the row of a district -/

section Moves

variable (w d : Int)

/-- The client and the number of an order that a move completes. -/
def completes : TableMove ι F → Option (ι × Int)
  | .finish i _ outcome => (outcome.orderAt w d).map (i, ·)
  | _ => none

/-- The orders completed at the row of the district `(w, d)`, the latest first. -/
def placedAt (l : List (TableMove ι F)) : List (ι × Int) := l.filterMap (completes w d)

/-- The client and the number of an order that a move enters in the row. -/
def enters : TableMove ι F → Option (ι × Int)
  | .access i type (.put k v) =>
    if type = .newOrder ∧ k = districtKey w d then
      some (i, (districtVal.decode v).dNextOId.toInt - 1)
    else none
  | _ => none

def enteredAt (l : List (TableMove ι F)) : List (ι × Int) := l.filterMap (enters w d)

/-- The client reads the row. -/
def readsRow (i : ι) : TableMove ι F → Bool
  | .access j _ (.get k _ _) => j = i ∧ k = districtKey w d
  | _ => false

/-- A `NewOrder` of another client writes the row. -/
def overtakes (i : ι) : TableMove ι F → Bool
  | .access j type (.put k _) => j ≠ i ∧ type = .newOrder ∧ k = districtKey w d
  | _ => false

/-- No `NewOrder` of another client has written the row since the client has read it. -/
def Current (i : ι) : List (TableMove ι F) → Prop
  | [] => True
  | move :: l => readsRow w d i move ∨ overtakes w d i move = false ∧ Current i l

/-- A write to the row is that of a client whose read is current, and no other row is put at the
address of the row. -/
def Undisturbed (addr : Key → κ) : TableMove ι F → List (TableMove ι F) → Prop
  | .access i _ (.put k _), l =>
    addr k = addr (districtKey w d) → k = districtKey w d ∧ Current w d i l
  | _, _ => True

instance Current.decidable (i : ι) : ∀ l : List (TableMove ι F), Decidable (Current w d i l)
  | [] => .isTrue trivial
  | move :: l =>
    have : Decidable (Current w d i l) := Current.decidable i l
    inferInstanceAs (Decidable (readsRow w d i move ∨ overtakes w d i move = false ∧
      Current w d i l))

instance (addr : Key → κ) (move : TableMove ι F) (l : List (TableMove ι F)) :
    Decidable (Undisturbed w d addr move l) :=
  match move with
  | .access i _ (.put k _) => inferInstanceAs (Decidable
      (addr k = addr (districtKey w d) → k = districtKey w d ∧ Current w d i l))
  | .access _ _ (.get ..) | .start .. | .finish .. => .isTrue trivial

end Moves

section Placed

omit [DecidableEq ι] [FloatRep F] [DecidableEq F] [Amount F]

variable {w d : Int} {i : ι} {type : TxType} {l : List (TableMove ι F)}

theorem placedAt_accessMoves {events : List (Event Key (Value F))} :
    placedAt w d (accessMoves i type events ++ l) = placedAt w d l := by
  have none : placedAt w d (accessMoves i type events : List (TableMove ι F)) = [] := by
    rw [placedAt, List.filterMap_eq_nil_iff]
    intro move hmove
    obtain ⟨e, _, rfl⟩ := List.mem_map.mp (List.mem_reverse.mp hmove)
    rfl
  rw [placedAt, List.filterMap_append]
  simpa [placedAt] using none

theorem placedAt_finish {outcome : Outcome F} {o : Int} (placed : outcome.orderAt w d = some o) :
    placedAt w d (.finish i type outcome :: l) = (i, o) :: placedAt w d l :=
  List.filterMap_cons_some (by rw [completes, placed, Option.map_some])

end Placed

/-- No two orders of the district get one number, neither those entered in the row nor those
completed, which have all been entered; and once no transaction runs, the number of the next order
has moved on by the number of the orders completed. -/
structure NoLostUpdate (addr : Key → κ) (w d : Int) (dist : DistrictVal F)
    (l : List (TableMove ι F)) (c : TableClients ι F κ) : Prop where
  entered : ((enteredAt w d l).map Prod.snd).Nodup
  completed : (placedAt w d l).Subperm (enteredAt w d l)
  numbers : ((placedAt w d l).map Prod.snd).Nodup
  counted : c.Idle → ∃ row : DistrictVal F,
    c.store (addr (districtKey w d)) = some (districtVal.encode row) ∧
      row.dNextOId.toInt = dist.dNextOId.toInt + (placedAt w d l).length

/-- What all interleavings keep, with `base` for the first number: the orders entered have the
numbers up to the next one, a client whose read is current has read that one, and an order that has
been entered is completed or that of a client in this phase. -/
structure RowKept (addr : Key → κ) (w d base : Int) (l : List (TableMove ι F))
    (s : Store κ (Value F)) (phase : ι → RowPhase) : Prop where
  row : ∃ row : DistrictVal F, s (addr (districtKey w d)) = some (districtVal.encode row) ∧
    row.dNextOId.toInt = base + (enteredAt w d l).length
  current : ∀ i n, phase i = .read n → Current w d i l → n = base + (enteredAt w d l).length
  below : ∀ x ∈ enteredAt w d l, x.2 < base + (enteredAt w d l).length
  numbers : ((enteredAt w d l).map Prod.snd).Nodup
  balance : ∀ i o, (enteredAt w d l).count (i, o) =
    (placedAt w d l).count (i, o) + if (phase i).order = some o then 1 else 0

section Kept

variable {addr : Key → κ} {w d base : Int} {l : List (TableMove ι F)} {s : Store κ (Value F)}
  {phase : ι → RowPhase} {c : TableClients ι F κ} {dist : DistrictVal F}

omit [Amount F] [DecidableEq κ] in
/-- An order that is completed has been entered. -/
theorem RowKept.noLostUpdate (h : RowKept addr w d dist.dNextOId.toInt l c.store phase)
    (waits : ∀ i, c.running i = none → phase i = .outside) : NoLostUpdate addr w d dist l c := by
  have le : ∀ x, (placedAt w d l).count x ≤ (enteredAt w d l).count x := by
    rintro ⟨i, o⟩
    rw [h.balance i o]
    exact Nat.le_add_right ..
  have completed : (placedAt w d l).Subperm (enteredAt w d l) :=
    List.subperm_ext_iff.mpr fun x _ => le x
  constructor
  · exact h.numbers
  · exact completed
  · obtain ⟨placed, perm, sub⟩ := completed
    exact (perm.map Prod.snd).nodup_iff.mp ((sub.map Prod.snd).nodup h.numbers)
  · intro isIdle
    have perm : (enteredAt w d l).Perm (placedAt w d l) := by
      rw [List.perm_iff_count]
      rintro ⟨i, o⟩
      rw [h.balance i o, waits i (isIdle i)]
      rfl
    obtain ⟨row, hrow, next⟩ := h.row
    exact ⟨row, hrow, by rw [next, perm.length_eq]⟩

omit [Amount F] [DecidableEq κ] in
/-- A move of a client that enters and completes no order, and leaves the number in the row. -/
theorem RowKept.keep (h : RowKept addr w d base l s phase) {move : TableMove ι F}
    {s' : Store κ (Value F)} {i : ι} {φ : RowPhase} (entered : enters w d move = none)
    (completed : completes w d move = none)
    (own : ∀ j, j ≠ i → readsRow w d j move = false)
    (row : ∀ row : DistrictVal F, s (addr (districtKey w d)) = some (districtVal.encode row) →
      ∃ row' : DistrictVal F, s' (addr (districtKey w d)) = some (districtVal.encode row') ∧
        row'.dNextOId.toInt = row.dNextOId.toInt)
    (same : φ.order = (phase i).order)
    (current : ∀ n, φ = .read n → n = base + (enteredAt w d l).length ∨
      phase i = .read n ∧ readsRow w d i move = false) :
    RowKept addr w d base (move :: l) s' (Function.update phase i φ) := by
  have noneEntered : enteredAt w d (move :: l) = enteredAt w d l := List.filterMap_cons_none entered
  have nonePlaced : placedAt w d (move :: l) = placedAt w d l := List.filterMap_cons_none completed
  constructor
  · obtain ⟨row₀, hrow, next⟩ := h.row
    obtain ⟨row', hrow', same⟩ := row row₀ hrow
    exact ⟨row', hrow', by rw [same, next, noneEntered]⟩
  · rw [noneEntered]
    intro j n read isCurrent
    have before (quiet : readsRow w d j move = false) : Current w d j l :=
      (isCurrent.resolve_left (by simp [quiet])).2
    by_cases hj : j = i
    · subst hj
      rw [Function.update_self] at read
      rcases current n read with last | ⟨earlier, quiet⟩
      · exact last
      · exact h.current j n earlier (before quiet)
    · rw [Function.update_of_ne hj] at read
      exact h.current j n read (before (own j hj))
  · rw [noneEntered]
    exact h.below
  · rw [noneEntered]
    exact h.numbers
  · intro j o
    rw [noneEntered, nonePlaced, h.balance j o]
    by_cases hj : j = i
    · subst hj
      rw [Function.update_self, same]
    · rw [Function.update_of_ne hj]

omit [Amount F] in
/-- A `NewOrder` whose read of the row is current enters its order. -/
theorem RowKept.enter (h : RowKept addr w d base l s phase) {i : ι} {n : Int} {dist : DistrictVal F}
    (read : phase i = .read n) (current : Current w d i l) (next : dist.dNextOId.toInt = n + 1) :
    RowKept addr w d base
      (.access i .newOrder (.put (districtKey w d) (districtVal.encode dist)) :: l)
      (s.put (addr (districtKey w d)) (districtVal.encode dist))
      (Function.update phase i (.ordered n)) := by
  have number := h.current i n read current
  have entered : enteredAt w d (.access i .newOrder (.put (districtKey w d)
      (districtVal.encode dist)) :: l) = (i, n) :: enteredAt w d l := by
    apply List.filterMap_cons_some
    simp [enters, next]
  constructor
  · exact ⟨dist, Store.put_self, by rw [entered, next, number, List.length_cons]; push_cast; ring⟩
  · intro j m read' isCurrent
    by_cases hj : j = i
    · subst hj
      rw [Function.update_self] at read'
      contradiction
    · rcases isCurrent with reads | ⟨quiet, _⟩
      · simp [readsRow] at reads
      · simp [overtakes, Ne.symm hj] at quiet
  · rw [entered, List.length_cons]
    intro x hx
    rcases List.mem_cons.mp hx with rfl | hx
    · dsimp only
      omega
    · have := h.below x hx
      omega
  · rw [entered, List.map_cons, List.nodup_cons]
    refine ⟨fun old => ?_, h.numbers⟩
    obtain ⟨x, hx, same⟩ := List.mem_map.mp old
    have := h.below x hx
    omega
  · intro j o
    have placed : placedAt w d (.access i .newOrder (.put (districtKey w d)
      (districtVal.encode dist)) :: l) = placedAt w d l := List.filterMap_cons_none rfl
    have balance := h.balance j o
    rw [entered, placed, List.count_cons, balance]
    by_cases hj : j = i
    · subst hj
      simp [read, RowPhase.order]
    · simp [hj, Ne.symm hj]

omit [Amount F] [DecidableEq κ] in
/-- A transaction that ends in a phase that says what order it has placed. -/
theorem RowKept.finish (h : RowKept addr w d base l s phase) {i : ι} {type : TxType}
    {outcome : Outcome F} (placed : (phase i).order = outcome.orderAt w d) :
    RowKept addr w d base (.finish i type outcome :: l) s
      (Function.update phase i .outside) := by
  have entered : enteredAt w d (.finish i type outcome :: l) = enteredAt w d l :=
    List.filterMap_cons_none rfl
  constructor
  · rw [entered]
    exact h.row
  · rw [entered]
    intro j n read isCurrent
    by_cases hj : j = i
    · subst hj
      rw [Function.update_self] at read
      contradiction
    · rw [Function.update_of_ne hj] at read
      exact h.current j n read (isCurrent.resolve_left (by simp [readsRow])).2
  · rw [entered]
    exact h.below
  · rw [entered]
    exact h.numbers
  · intro j o
    have balance := h.balance j o
    rw [entered, balance]
    by_cases hj : j = i
    · subst hj
      rw [Function.update_self, placed]
      cases number : outcome.orderAt w d with
      | none => simp [placedAt, completes, number, RowPhase.order]
      | some n =>
        simp [placedAt, completes, number, RowPhase.order, List.count_cons]
    · rw [Function.update_of_ne hj]
      cases number : outcome.orderAt w d with
      | none => simp [placedAt, completes, number]
      | some n => simp [placedAt, completes, number, Ne.symm hj]

omit [Amount F] [DecidableEq κ] in
/-- A client reads the row. -/
theorem RowKept.read (h : RowKept addr w d base l s phase) {i : ι} {type : TxType} {n : Nat}
    {v : Option (Value F)} {row : DistrictVal F} (none : (phase i).order = none)
    (found : s (addr (districtKey w d)) = some (districtVal.encode row)) :
    RowKept addr w d base (.access i type (.get (districtKey w d) n v) :: l) s
      (Function.update phase i (.read row.dNextOId.toInt)) := by
  refine h.keep rfl rfl (fun j hj => by simp [readsRow, Ne.symm hj])
    (fun row hrow => ⟨row, hrow, rfl⟩) none.symm ?_
  rintro _ ⟨⟩
  obtain ⟨row', hrow, next⟩ := h.row
  obtain rfl := districtVal.encode_injective (Option.some.inj (found.symm.trans hrow))
  exact .inl next

omit [Amount F] in
/-- A client whose read of the row is current writes it back. -/
theorem RowKept.write (h : RowKept addr w d base l s phase) {i : ι} {type : TxType} {n : Int}
    {dist : DistrictVal F} (read : phase i = .read n) (current : Current w d i l)
    (next : dist.dNextOId.toInt = n + type.orders) :
    RowKept addr w d base (.access i type (.put (districtKey w d) (districtVal.encode dist)) :: l)
      (s.put (addr (districtKey w d)) (districtVal.encode dist))
      (Function.update phase i (type.written n)) := by
  by_cases order : type = .newOrder
  · subst order
    exact h.enter read current next
  · have zero : type.orders = 0 := by cases type <;> first | contradiction | rfl
    have outside : type.written n = .outside := if_neg order
    rw [outside]
    refine h.keep (by simp [enters, order]) rfl (fun _ _ => rfl) ?_ (by rw [read]; rfl) (by simp)
    intro row hrow
    obtain ⟨row', hrow', last⟩ := h.row
    obtain rfl := districtVal.encode_injective (Option.some.inj (hrow.symm.trans hrow'))
    refine ⟨dist, Store.put_self, ?_⟩
    rw [next, zero, last, h.current i n read current, add_zero]

omit [Amount F] in
/-- The moves of a client that follows the logic of the row keep what all interleavings keep. -/
theorem rowKept_keeps : Clients.Keeps addr (rowLogic F w d)
    (fun _ (outcome : Outcome F) φ => φ.order = outcome.orderAt w d) .outside
    (Undisturbed w d addr) (fun (l : List (TableMove ι F)) => RowKept addr w d base l) := by
  constructor
  · intro l s phase i type h _
    have next : RowKept addr w d base (.start i type :: l) s (Function.update phase i (phase i)) :=
      h.keep rfl rfl (fun _ _ => rfl) (fun row hrow => ⟨row, hrow, rfl⟩) rfl
        fun n read => .inr ⟨read, rfl⟩
    rwa [Function.update_eq_self] at next
  · intro l s phase i type k n P h allowed
    by_cases own : k = districtKey w d
    · subst own
      simp only [rowLogic, if_true] at allowed
      obtain ⟨row, hrow, _⟩ := h.row
      exact ⟨_, by rw [hrow]; exact allowed.2 row, h.read allowed.1 hrow⟩
    · simp only [rowLogic, if_neg own] at allowed
      refine ⟨phase i, allowed _, ?_⟩
      exact h.keep rfl rfl (fun j hj => by simp [readsRow, own])
        (fun row hrow => ⟨row, hrow, rfl⟩) rfl fun n read => .inr ⟨read, by simp [readsRow, own]⟩
  · intro l s phase i type k v P undisturbed h allowed
    by_cases own : k = districtKey w d
    · subst own
      simp only [rowLogic, if_true] at allowed
      obtain ⟨n, dist, read, rfl, next, post⟩ := allowed
      exact ⟨type.written n, post, h.write read (undisturbed rfl).2 next⟩
    · simp only [rowLogic, if_neg own] at allowed
      have apart : addr k ≠ addr (districtKey w d) := fun same => own (undisturbed same).1
      refine ⟨phase i, allowed, ?_⟩
      exact h.keep (by simp [enters, own]) rfl (fun _ _ => rfl)
        (fun row hrow => ⟨row, by rw [Store.put_of_ne apart.symm, hrow], rfl⟩) rfl
        fun n read => .inr ⟨read, rfl⟩
  · exact fun i type outcome h placed => h.finish placed

/-- Clients lose no update of the row of a district, as long as no `NewOrder` writes it between the
read and the write of another client, and no other row is put at its address. -/
theorem no_lost_update {W : Nat} (run : SharedRun addr W s l c)
    (row : s (addr (districtKey w d)) = some (districtVal.encode dist))
    (undisturbed : Relied (Undisturbed w d addr) l) : NoLostUpdate addr w d dist l c := by
  have programs : ∀ type (p : Prog Key (Value F) (Outcome F)), IsTransaction W type p →
      p.wp (rowLogic F w d type) (fun outcome φ => φ.order = outcome.orderAt w d) .outside := by
    rintro type p ⟨ρ, env, t, rfl⟩
    rw [Prog.wp_bind]
    exact wp_transaction_row type
  have first : ∀ c : TableClients ι F κ, c.store = s ∧ c.Idle →
      c.Idle ∧ RowKept addr w d dist.dNextOId.toInt [] c.store fun _ : ι => .outside := by
    rintro c ⟨rfl, isIdle⟩
    refine ⟨isIdle, ⟨dist, row, by simp [enteredAt]⟩, ?_, ?_, ?_, ?_⟩
    · intro i n read
      contradiction
    · simp [enteredAt]
    · simp [enteredAt]
    · simp [enteredAt, placedAt, RowPhase.order]
  obtain ⟨phase, follow⟩ := Run.clients rowKept_keeps programs first run undisturbed
  exact follow.invariant.noLostUpdate follow.waits

end Kept

/-! ### Orders at the district (1, 8) -/

section Sample

/-- A `NewOrder` at the district (1, 8). -/
def sampleOrder : Prog Key (Value ℚ) (Outcome ℚ) :=
  (transaction sampleEnv 2 .newOrder sampleThread).bind fun x => .done x.1

/-- A `Payment` there. -/
def samplePaying : Prog Key (Value ℚ) (Outcome ℚ) :=
  (transaction sampleEnv 2 .payment sampleThread).bind fun x => .done x.1

theorem sampleOrder_isTransaction : IsTransaction 2 .newOrder sampleOrder :=
  ⟨FastRandom, sampleEnv, sampleThread, rfl⟩

theorem samplePaying_isTransaction : IsTransaction 2 .payment samplePaying :=
  ⟨FastRandom, sampleEnv, sampleThread, rfl⟩

theorem sampleOrder_begins : sampleOrder.Begins := by decide +kernel

/-- Two clients over any backend: one has made the first accesses of its order, and the other one
some of its own after them. -/
theorem exists_two_orders {σ : Type} {isProgram : TxType → Prog Key (Value ℚ) (Outcome ℚ) → Prop}
    (program : isProgram .newOrder sampleOrder) (db : Backend Key (Value ℚ) σ) (s : σ) :
    ∃ (l : List (TableMove Bool ℚ)) (c : Clients Bool TxType Key (Value ℚ) (Outcome ℚ) σ),
      Run (fun c => c.store = s ∧ c.Idle) (Clients.Step db isProgram) l c ∧
        (∀ i, ∃ e, .access i .newOrder e ∈ l) ∧ l.length ≤ 105 ∧
        ∃ p, c.running true = some (.newOrder, p) := by
  let first : Clients Bool TxType Key (Value ℚ) (Outcome ℚ) σ := ⟨s, fun _ => none⟩
  have start : Run (fun c => c.store = s ∧ c.Idle) (Clients.Step db isProgram) [] first :=
    .start ⟨rfl, fun _ => rfl⟩
  have one := Run.advance (.next start (.start (i := true) rfl program)) Clients.running_set 3
  have two := Run.advance (.next one (.start (i := false) rfl program)) Clients.running_set 100
  refine ⟨_, _, two, ?_, ?_, ?_⟩
  · intro i
    have made {n : Nat} (pos : 0 < n) (s : σ) : ∃ e, e ∈ (sampleOrder.advance db n s).1 :=
      Prog.exists_mem_advance db sampleOrder_begins pos
    cases i with
    | false =>
      obtain ⟨e, mem⟩ := made (n := 100) (by decide) _
      exact ⟨e, List.mem_append_left _ (mem_accessMoves.mpr mem)⟩
    | true =>
      obtain ⟨e, mem⟩ := made (n := 3) (by decide) _
      exact ⟨e, List.mem_append_right _
        (.tail _ (List.mem_append_left _ (mem_accessMoves.mpr mem)))⟩
  · have few (p : Prog Key (Value ℚ) (Outcome ℚ)) (n : Nat) (s : σ) :
        (p.advance db n s).1.length ≤ n := Prog.length_advance_le
    simp only [List.length_append, List.length_cons, List.length_nil, length_accessMoves]
    have := few sampleOrder 3
    have := few sampleOrder 100
    grind
  · exact ⟨_, (Clients.running_set_of_ne (by decide)).trans
      ((Clients.running_set_of_ne (by decide)).trans Clients.running_set)⟩

theorem sample_row :
    sampleStore (districtKey 1 8).itemKey = some (districtVal.encode sampleDistrict) := by
  rw [sampleStore, if_neg (by decide), if_pos (by decide)]

/-- The first accesses of the order, before it reads the district row. -/
@[irreducible] def sampleFirst := sampleOrder.advance (.exact (Value ℚ) Key.itemKey) 2 sampleStore

/-- All accesses of another one after those. -/
@[irreducible] def sampleSecond :=
  sampleOrder.advance (.exact (Value ℚ) Key.itemKey) 100 sampleFirst.2.2

/-- All accesses of a payment of the other client. -/
@[irreducible] def samplePaid :=
  samplePaying.advance (.exact (Value ℚ) Key.itemKey) 100 sampleSecond.2.2

/-- The other accesses of the first order. -/
@[irreducible] def sampleLast :=
  sampleFirst.2.1.advance (.exact (Value ℚ) Key.itemKey) 100 samplePaid.2.2

theorem sampleSecond_returns : sampleSecond.2.1.result.isSome := by decide +kernel

theorem samplePaid_returns : samplePaid.2.1.result.isSome := by decide +kernel

theorem sampleLast_returns : sampleLast.2.1.result.isSome := by decide +kernel

/-- The moves of a client whose order is overlapped by an order and a payment of another one. -/
def sampleMoves : List (TableMove Bool ℚ) :=
  .finish false .newOrder (sampleLast.2.1.result.get sampleLast_returns) ::
    (accessMoves false .newOrder sampleLast.1 ++
  .finish true .payment (samplePaid.2.1.result.get samplePaid_returns) ::
    (accessMoves true .payment samplePaid.1 ++ .start true .payment ::
  .finish true .newOrder (sampleSecond.2.1.result.get sampleSecond_returns) ::
    (accessMoves true .newOrder sampleSecond.1 ++ .start true .newOrder ::
  (accessMoves false .newOrder sampleFirst.1 ++ [.start false .newOrder]))))

theorem sampleMoves_undisturbed : Relied (Undisturbed 1 8 Key.itemKey) sampleMoves := by
  decide +kernel

theorem sampleMoves_placed : placedAt 1 8 sampleMoves = [(false, 3002), (true, 3001)] := by
  decide +kernel

theorem sampleMoves_run : ∃ c : TableClients Bool ℚ UInt64,
    SharedRun Key.itemKey 2 sampleStore sampleMoves c ∧ c.Idle := by
  let c : TableClients Bool ℚ UInt64 := ⟨sampleStore, fun _ => none⟩
  have start : SharedRun Key.itemKey 2 sampleStore [] c := .start ⟨rfl, fun _ => rfl⟩
  have paused := Run.part (start.next (.start (i := false) rfl sampleOrder_isTransaction))
    Clients.running_set sampleFirst.eq_1.symm
  have second := Run.whole (i := true) paused (Clients.running_set_of_ne (by decide))
    sampleOrder_isTransaction 100 sampleSecond.eq_1.symm (Option.some_get sampleSecond_returns).symm
  have paid := Run.whole (i := true) second Clients.running_set samplePaying_isTransaction 100
    samplePaid.eq_1.symm (Option.some_get samplePaid_returns).symm
  have resumed := Run.part (i := false) paid (by
    rw [Clients.running_set_of_ne (by decide), Clients.running_set_of_ne (by decide),
      Clients.running_set]) sampleLast.eq_1.symm
  have done :=
    resumed.next (.of_result Clients.running_set (Option.some_get sampleLast_returns).symm)
  refine ⟨_, done, fun i => ?_⟩
  cases i <;> rfl

/-- Two clients, one of which places an order and makes a payment while the other one places its
own. -/
theorem no_lost_update_two : ∃ (l : List (TableMove Bool ℚ)) (c : TableClients Bool ℚ UInt64),
    placedAt 1 8 l = [(false, 3002), (true, 3001)] ∧ c.Idle ∧
      NoLostUpdate Key.itemKey 1 8 sampleDistrict l c := by
  obtain ⟨c, run, isIdle⟩ := sampleMoves_run
  exact ⟨sampleMoves, c, sampleMoves_placed, isIdle,
    no_lost_update run sample_row sampleMoves_undisturbed⟩

/-- The first accesses of the order, up to the read of the district row. -/
@[irreducible] def sampleReads := sampleOrder.advance (.exact (Value ℚ) Key.itemKey) 3 sampleStore

/-- All accesses of another one after those. -/
@[irreducible] def sampleOther :=
  sampleOrder.advance (.exact (Value ℚ) Key.itemKey) 100 sampleReads.2.2

/-- The other accesses of the first one. -/
@[irreducible] def sampleRest :=
  sampleReads.2.1.advance (.exact (Value ℚ) Key.itemKey) 100 sampleOther.2.2

theorem sampleOther_order : ∃ outcome, sampleOther.2.1.result = some outcome ∧
    outcome.orderAt 1 8 = some 3001 :=
  Option.bind_eq_some_iff.mp (by decide +kernel)

theorem sampleRest_order : ∃ outcome, sampleRest.2.1.result = some outcome ∧
    outcome.orderAt 1 8 = some 3001 :=
  Option.bind_eq_some_iff.mp (by decide +kernel)

/-- Two clients that read the district row before either of them writes it back. -/
theorem two_orders_one_number : ¬∀ (W : Nat) (s : Store UInt64 (Value ℚ))
    (l : List (TableMove Nat ℚ)) (c : TableClients Nat ℚ UInt64) (w d : Int) (dist : DistrictVal ℚ),
    IsDistrict W w d → SharedRun Key.itemKey W s l c →
      s (districtKey w d).itemKey = some (districtVal.encode dist) →
        NoLostUpdate Key.itemKey w d dist l c := by
  intro claim
  obtain ⟨a, result, number⟩ := sampleOther_order
  obtain ⟨b, result', number'⟩ := sampleRest_order
  let c : TableClients Nat ℚ UInt64 := ⟨sampleStore, fun _ => none⟩
  have start : SharedRun Key.itemKey 2 sampleStore [] c := .start ⟨rfl, fun _ => rfl⟩
  obtain ⟨c', run⟩ := Run.overlap (i := 0) (j := 1) start (by decide) rfl rfl
    sampleOrder_isTransaction sampleOrder_isTransaction 3 100 sampleReads.eq_1.symm
    sampleOther.eq_1.symm sampleRest.eq_1.symm result result'
  have kept := claim 2 sampleStore _ c' 1 8 sampleDistrict ⟨by decide, by decide⟩ run sample_row
  have numbers := kept.numbers
  rw [placedAt_finish number', placedAt_accessMoves, placedAt_finish number] at numbers
  simp at numbers

end Sample

end Tpcc
