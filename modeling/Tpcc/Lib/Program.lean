import Mathlib.Logic.Function.Iterate

/-! Programs that read and write a key-value store.  A `Prog` is the tree of the accesses that a
program makes, one `get` or `put` at a time; an `Act` is a program of a thread with a state of its
own.  `exec` runs a program alone on a backend and lists its accesses, `access` performs the first
one, so that programs can be interleaved.  An exact backend hands back the value last put: it holds
values at addresses, and `addr` says at which address a key is stored, so that two kinds of keys
may or may not share a store.  `wp` is the weakest precondition of a program in a `Logic`, which
says what an access does to the states that a proof follows; a `Contract` gives the logic of a
program that runs alone on an exact backend, and `Keeps` collects what each part of an action
preserves. -/

namespace KvProgram

/-- A program: a result, a read of `size` bytes at a key, a write at a key, or an execution that
does not go on (a failed assertion, undefined behaviour, or a loop that has not ended). -/
inductive Prog (K V α : Type) where
  | done (a : α)
  | get (key : K) (size : Nat) (next : Option V → Prog K V α)
  | put (key : K) (value : V) (next : Prog K V α)
  | stuck

/-- A store: the value at each address that has one. -/
abbrev Store (κ V : Type) := κ → Option V

/-- The store after a write. -/
def Store.put {κ V : Type} [DecidableEq κ] (s : Store κ V) (a : κ) (v : V) : Store κ V :=
  Function.update s a (some v)

/-- An access that a program has made. -/
inductive Event (K V : Type) where
  | get (key : K) (size : Nat) (value : Option V)
  | put (key : K) (value : V)
  deriving DecidableEq

section Store

variable {κ V : Type} [DecidableEq κ] {s : Store κ V} {a b : κ} {v : V}

@[simp] theorem Store.put_self : s.put a v a = some v := Function.update_self ..

theorem Store.put_self_ne_none : s.put a v a ≠ none := by simp

theorem Store.put_of_ne (h : b ≠ a) : s.put a v b = s b := Function.update_of_ne h ..

theorem Store.put_apply : s.put a v b = if b = a then some v else s b := by
  simp [Store.put, Function.update_apply]

/-- A write removes no value. -/
theorem Store.put_ne_none (h : s b ≠ none) : s.put a v b ≠ none := by
  rw [Store.put_apply]
  split <;> simp_all

variable {K : Type} (addr : K → κ)

/-- The store after a list of writes, the first one first. -/
def Store.puts (s : Store κ V) (writes : List (K × V)) : Store κ V :=
  writes.foldl (fun s w => s.put (addr w.1) w.2) s

variable {addr} {writes rest : List (K × V)} {k : K}

@[simp] theorem Store.puts_nil : s.puts addr [] = s := rfl

@[simp] theorem Store.puts_cons :
    s.puts addr ((k, v) :: writes) = (s.put (addr k) v).puts addr writes := rfl

theorem Store.puts_append :
    s.puts addr (writes ++ rest) = (s.puts addr writes).puts addr rest :=
  List.foldl_append ..

theorem Store.puts_of_ne (h : ∀ w ∈ writes, addr w.1 ≠ a) : s.puts addr writes a = s a := by
  induction writes generalizing s with
  | nil => rfl
  | cons w writes ih =>
    rw [Store.puts_cons, ih fun w hw => h w (by simp [hw]), Store.put_of_ne (h w (by simp)).symm]

variable (writes) in
/-- A write that no later one hits. -/
theorem Store.puts_last (h : ∀ w ∈ rest, addr w.1 ≠ addr k) :
    s.puts addr (writes ++ (k, v) :: rest) (addr k) = some v := by
  rw [Store.puts_append, Store.puts_cons, Store.puts_of_ne h, Store.put_self]

/-- A write that is hit is followed by a last one to its address. -/
theorem Store.puts_hit (h : ∃ w ∈ writes, addr w.1 = a) :
    ∃ w ∈ writes, addr w.1 = a ∧ s.puts addr writes a = some w.2 := by
  induction writes generalizing s with
  | nil => simp at h
  | cons w writes ih =>
    by_cases later : ∃ w ∈ writes, addr w.1 = a
    · obtain ⟨x, hx, same, value⟩ := ih (s := s.put (addr w.1) w.2) later
      exact ⟨x, by simp [hx], same, value⟩
    · have same : addr w.1 = a := by
        obtain ⟨x, hx, same⟩ := h
        rcases List.mem_cons.mp hx with rfl | hx
        · exact same
        · exact absurd ⟨x, hx, same⟩ later
      refine ⟨w, by simp, same, ?_⟩
      rw [Store.puts_cons, Store.puts_of_ne fun x hx hxa => later ⟨x, hx, hxa⟩, ← same,
        Store.put_self]

/-- A value is one of before the writes, or at the address of a write. -/
theorem Store.puts_origin (h : s.puts addr writes a ≠ none) :
    s a ≠ none ∨ ∃ w ∈ writes, addr w.1 = a := by
  by_cases hit : ∃ w ∈ writes, addr w.1 = a
  · exact .inr hit
  · rw [Store.puts_of_ne fun w hw same => hit ⟨w, hw, same⟩] at h
    exact .inl h

theorem Store.puts_mem_ne_none (addr : K → κ) (h : k ∈ writes.map Prod.fst) :
    s.puts addr writes (addr k) ≠ none := by
  obtain ⟨w, hw, rfl⟩ := List.mem_map.mp h
  have hit : ∃ x ∈ writes, addr x.1 = addr w.1 := ⟨w, hw, rfl⟩
  obtain ⟨_, _, _, value⟩ := Store.puts_hit (s := s) hit
  rw [value]
  exact Option.some_ne_none _

end Store

/-- What stores values at keys, with states in `σ`. -/
structure Backend (K V σ : Type) where
  get : σ → K → Option V
  put : σ → K → V → σ

/-- The backend that hands back what was last put at the address of a key. -/
def Backend.exact {K κ : Type} (V : Type) [DecidableEq κ] (addr : K → κ) :
    Backend K V (Store κ V) where
  get s k := s (addr k)
  put s k v := s.put (addr k) v

section Semantics

variable {K V σ α β : Type}

/-- One program after another. -/
def Prog.bind : Prog K V α → (α → Prog K V β) → Prog K V β
  | .done a, f => f a
  | .get k n next, f => .get k n fun v => (next v).bind f
  | .put k v next, f => .put k v (next.bind f)
  | .stuck, _ => .stuck

variable (db : Backend K V σ)

/-- The accesses of a program that runs alone, and its result with the state it leaves. -/
def Prog.exec : Prog K V α → σ → List (Event K V) × Option (α × σ)
  | .done a, s => ([], some (a, s))
  | .get k n next, s =>
    let rest := (next (db.get s k)).exec s
    (.get k n (db.get s k) :: rest.1, rest.2)
  | .put k v next, s =>
    let rest := next.exec (db.put s k v)
    (.put k v :: rest.1, rest.2)
  | .stuck, _ => ([], none)

theorem Prog.exec_bind (p : Prog K V α) (f : α → Prog K V β) (s : σ) :
    (p.bind f).exec db s = match (p.exec db s).2 with
      | some (a, s') => ((p.exec db s).1 ++ ((f a).exec db s').1, ((f a).exec db s').2)
      | none => ((p.exec db s).1, none) := by
  induction p generalizing s with
  | done a => rfl
  | get k n next ih =>
    simp only [Prog.bind, Prog.exec, ih]
    split <;> rfl
  | put k v next ih =>
    simp only [Prog.bind, Prog.exec, ih]
    split <;> rfl
  | stuck => rfl

/-- The first access of a program, the rest of the program, and the state after the access. -/
def Prog.access : Prog K V α → σ → Option (Event K V × Prog K V α × σ)
  | .get k n next, s => some (.get k n (db.get s k), next (db.get s k), s)
  | .put k v next, s => some (.put k v, next, db.put s k v)
  | .done _, _ | .stuck, _ => none

end Semantics

/-- The result of a program that has returned. -/
def Prog.result {K V α : Type} : Prog K V α → Option α
  | .done a => some a
  | _ => none

theorem Prog.eq_done {K V α : Type} {p : Prog K V α} {a : α} (h : p.result = some a) :
    p = .done a := by
  cases p with
  | done b => rw [Option.some.inj h]
  | _ => contradiction

/-! ### Weakest preconditions -/

/-- How a proof follows a program over states in `S`: `onGet k n P s` is what `s` must satisfy for
a read of `n` bytes at `k` to leave a value and a state with `P`, `onPut` is the same for a write,
and `mayStick` says whether an execution may fail to go on. -/
structure Logic (K V S : Type) where
  onGet : K → Nat → (Option V → S → Prop) → S → Prop
  onPut : K → V → (S → Prop) → S → Prop
  mayStick : Prop
  onGet_mono : ∀ {k n P R s}, onGet k n P s → (∀ v s', P v s' → R v s') → onGet k n R s
  onPut_mono : ∀ {k v P R s}, onPut k v P s → (∀ s', P s' → R s') → onPut k v R s

section Wp

variable {K V S α β : Type} {L : Logic K V S}

/-- The weakest precondition of a program. -/
def Prog.wp (L : Logic K V S) (Q : α → S → Prop) : Prog K V α → S → Prop
  | .done a => Q a
  | .get k n next => L.onGet k n fun v => (next v).wp L Q
  | .put k v next => L.onPut k v (next.wp L Q)
  | .stuck => fun _ => L.mayStick

theorem Prog.wp_bind {p : Prog K V α} {f : α → Prog K V β} {Q : β → S → Prop} :
    (p.bind f).wp L Q = p.wp L fun a => (f a).wp L Q := by
  induction p with
  | done a => rfl
  | get k n next ih => simp only [Prog.bind, Prog.wp, ih]
  | put k v next ih => simp only [Prog.bind, Prog.wp, ih]
  | stuck => rfl

theorem Prog.wp_mono {p : Prog K V α} {Q R : α → S → Prop} {s : S} (h : p.wp L Q s)
    (hQR : ∀ a s', Q a s' → R a s') : p.wp L R s := by
  induction p generalizing s with
  | done a => exact hQR _ _ h
  | get k n next ih => exact L.onGet_mono h fun v _ => ih v
  | put k v next ih => exact L.onPut_mono h fun _ => ih
  | stuck => exact h

end Wp

/-- What a proof asks of a program that runs alone on an exact backend: `mayGet` of every read and
its outcome, `mayPut` of every write, and `mayStick`. -/
structure Contract (K V κ : Type) where
  addr : K → κ
  mayGet : K → Nat → Option V → Prop
  mayPut : K → V → Prop
  mayStick : Prop

/-- Partial correctness: nothing is asked of the accesses. -/
def Contract.partly {K κ : Type} (V : Type) (addr : K → κ) : Contract K V κ :=
  ⟨addr, fun _ _ _ => True, fun _ _ => True, True⟩

/-- Total correctness: every execution returns. -/
def Contract.totally {K κ : Type} (V : Type) (addr : K → κ) : Contract K V κ :=
  ⟨addr, fun _ _ _ => True, fun _ _ => True, False⟩

section Contract

variable {K V κ α : Type} [DecidableEq κ] {C : Contract K V κ}

def Contract.logic (C : Contract K V κ) : Logic K V (Store κ V) where
  onGet k n P s := C.mayGet k n (s (C.addr k)) ∧ P (s (C.addr k)) s
  onPut k v P s := C.mayPut k v ∧ P (s.put (C.addr k) v)
  mayStick := C.mayStick
  onGet_mono h hPR := ⟨h.1, hPR _ _ h.2⟩
  onPut_mono h hPR := ⟨h.1, hPR _ h.2⟩

@[simp] theorem Contract.onGet_logic {k : K} {n : Nat} {P : Option V → Store κ V → Prop}
    {s : Store κ V} :
    C.logic.onGet k n P s = (C.mayGet k n (s (C.addr k)) ∧ P (s (C.addr k)) s) := rfl

@[simp] theorem Contract.onPut_logic {k : K} {v : V} {P : Store κ V → Prop} {s : Store κ V} :
    C.logic.onPut k v P s = (C.mayPut k v ∧ P (s.put (C.addr k) v)) := rfl

@[simp] theorem Contract.mayStick_logic : C.logic.mayStick = C.mayStick := rfl

/-- The obligation of an access that has been made. -/
def Event.Allowed (C : Contract K V κ) : Event K V → Prop
  | .get k n v => C.mayGet k n v
  | .put k v => C.mayPut k v

/-- What the weakest precondition says of an execution. -/
theorem Prog.wp_exec {p : Prog K V α} {Q : α → Store κ V → Prop} {s : Store κ V}
    (h : p.wp C.logic Q s) :
    (∀ e ∈ (p.exec (.exact V C.addr) s).1, e.Allowed C) ∧
      match (p.exec (.exact V C.addr) s).2 with
      | some (a, s') => Q a s'
      | none => C.mayStick := by
  induction p generalizing s with
  | done a => exact ⟨by simp [Prog.exec], h⟩
  | get k n next ih =>
    obtain ⟨events, result⟩ := ih _ h.2
    refine ⟨fun e he => ?_, result⟩
    rcases List.mem_cons.mp he with rfl | he
    · exact h.1
    · exact events e he
  | put k v next ih =>
    obtain ⟨events, result⟩ := ih h.2
    refine ⟨fun e he => ?_, result⟩
    rcases List.mem_cons.mp he with rfl | he
    · exact h.1
    · exact events e he
  | stuck => exact ⟨by simp [Prog.exec], h⟩

/-- A program keeps what the writes that its contract allows keep. -/
theorem Prog.wp_keeps {R : Store κ V → Prop} {p : Prog K V α} {Q : α → Store κ V → Prop}
    {s : Store κ V} (keeps : ∀ s k v, R s → C.mayPut k v → R (s.put (C.addr k) v))
    (h : p.wp C.logic Q s) (hR : R s) : p.wp C.logic (fun a s' => Q a s' ∧ R s') s := by
  induction p generalizing s with
  | done a => exact ⟨h, hR⟩
  | get k n next ih => exact ⟨h.1, ih _ h.2 hR⟩
  | put k v next ih => exact ⟨h.1, ih h.2 (keeps _ _ _ hR h.1)⟩
  | stuck => exact h

theorem Prog.wp_partly {addr : K → κ} {p : Prog K V α} {s : Store κ V} :
    p.wp (Contract.partly V addr).logic (fun _ _ => True) s := by
  induction p generalizing s with
  | done a => trivial
  | get k n next ih => exact ⟨trivial, ih _⟩
  | put k v next ih => exact ⟨trivial, ih⟩
  | stuck => trivial

/-- A program ends where its execution does. -/
theorem Prog.wp_exec_self {addr : K → κ} (p : Prog K V α) (s : Store κ V) :
    p.wp (Contract.partly V addr).logic
      (fun a s' => (p.exec (.exact V addr) s).2 = some (a, s')) s := by
  induction p generalizing s with
  | done a => rfl
  | get k n next ih => exact ⟨trivial, ih _ s⟩
  | put k v next ih => exact ⟨trivial, ih _⟩
  | stuck => trivial

/-- A contract that asks more of every write. -/
def Contract.demand (C : Contract K V κ) (P : K → V → Prop) : Contract K V κ :=
  { C with mayPut := fun k v => C.mayPut k v ∧ P k v }

theorem Prog.wp_of_demand {P : K → V → Prop} {p : Prog K V α} {Q : α → Store κ V → Prop}
    {s : Store κ V} (h : p.wp (C.demand P).logic Q s) : p.wp C.logic Q s := by
  induction p generalizing s with
  | done a => exact h
  | get k n next ih => exact ⟨h.1, ih _ h.2⟩
  | put k v next ih => exact ⟨h.1.1, ih h.2⟩
  | stuck => exact h

theorem Prog.wp_demand {P : K → V → Prop} {p : Prog K V α} {Q : α → Store κ V → Prop}
    {s : Store κ V} (hP : ∀ k v, C.mayPut k v → P k v) (h : p.wp C.logic Q s) :
    p.wp (C.demand P).logic Q s := by
  induction p generalizing s with
  | done a => exact h
  | get k n next ih => exact ⟨h.1, ih _ h.2⟩
  | put k v next ih => exact ⟨⟨h.1, hP _ _ h.1⟩, ih h.2⟩
  | stuck => exact h

end Contract

section Reaching

variable {K V κ α : Type} [DecidableEq κ] {addr : K → κ} {bad : Event K V → Prop}

/-- The logic of the programs that make a bad access before they return or stop. -/
def Logic.reaching (addr : K → κ) (bad : Event K V → Prop) : Logic K V (Store κ V) where
  onGet k n P s := bad (.get k n (s (addr k))) ∨ P (s (addr k)) s
  onPut k v P s := bad (.put k v) ∨ P (s.put (addr k) v)
  mayStick := False
  onGet_mono h hPR := h.imp_right (hPR _ _)
  onPut_mono h hPR := h.imp_right (hPR _)

theorem Prog.exists_event {p : Prog K V α} {s : Store κ V}
    (h : p.wp (.reaching addr bad) (fun _ _ => False) s) :
    ∃ e ∈ (p.exec (.exact V addr) s).1, bad e := by
  induction p generalizing s with
  | done a => exact h.elim
  | get k n next ih =>
    rcases h with here | later
    · exact ⟨_, List.mem_cons_self, here⟩
    · obtain ⟨e, he, hbad⟩ := ih _ later
      exact ⟨e, List.mem_cons_of_mem _ he, hbad⟩
  | put k v next ih =>
    rcases h with here | later
    · exact ⟨_, List.mem_cons_self, here⟩
    · obtain ⟨e, he, hbad⟩ := ih later
      exact ⟨e, List.mem_cons_of_mem _ he, hbad⟩
  | stuck => exact h.elim

end Reaching

/-! ### Actions of a thread -/

/-- A program of a thread with state in `ρ`. -/
def Act (ρ K V α : Type) := ρ → Prog K V (α × ρ)

namespace Act

variable {ρ K V κ α β σ : Type}

instance : Monad (Act ρ K V) where
  pure a := fun r => .done (a, r)
  bind m f := fun r => (m r).bind fun x => f x.1 x.2

/-- An execution that does not go on. -/
def stuck : Act ρ K V α := fun _ => .stuck

/-- `assert`. -/
def assert (p : Prop) [Decidable p] : Act ρ K V Unit := if p then pure () else stuck

/-- A computation that may fail, and then does not go on. -/
def ofOption : Option α → Act ρ K V α
  | some a => pure a
  | none => stuck

theorem pure_bind {a : α} {f : α → Act ρ K V β} : (pure a >>= f : Act ρ K V β) = f a := rfl

theorem assert_pos {p : Prop} [Decidable p] (h : p) : (assert p : Act ρ K V Unit) = pure () :=
  if_pos h

theorem ofOption_some {x : Option α} {a : α} (h : x = some a) :
    (ofOption x : Act ρ K V α) = pure a := by
  rw [h]
  rfl

/-- A step of the thread's own state. -/
def own (f : ρ → α × ρ) : Act ρ K V α := fun r => .done (f r)

def get (key : K) (size : Nat) : Act ρ K V (Option V) := fun r =>
  .get key size fun v => .done (v, r)

def put (key : K) (value : V) : Act ρ K V Unit := fun r => .put key value (.done ((), r))

/-- `body i x` for `i` from `lo` on, `n` times, from the state `x`. -/
def forRange (body : Nat → σ → Act ρ K V σ) : Nat → Nat → σ → Act ρ K V σ
  | _, 0, x => pure x
  | lo, n + 1, x => do
    let x ← body lo x
    forRange body (lo + 1) n x

/-- `body i a x` for each `a` of a list, with `i` counting from `lo`. -/
def forEach (body : Nat → α → σ → Act ρ K V σ) : Nat → List α → σ → Act ρ K V σ
  | _, [], x => pure x
  | lo, a :: as, x => do
    let x ← body lo a x
    forEach body (lo + 1) as x

/-- A loop that goes on while its body returns `inl`, at most `fuel` times. -/
def loop (body : σ → Act ρ K V (σ ⊕ α)) : Nat → σ → Act ρ K V α
  | 0, _ => stuck
  | fuel + 1, x => do
    match ← body x with
    | .inl x => loop body fuel x
    | .inr a => pure a

section Wp

variable {S : Type} {L : Logic K V S} {Q : α → ρ → S → Prop} {r : ρ} {s : S}

/-- The weakest precondition of an action, from states of the thread and of the logic. -/
def wp (L : Logic K V S) (m : Act ρ K V α) (Q : α → ρ → S → Prop) (r : ρ) (s : S) : Prop :=
  (m r).wp L (fun x => Q x.1 x.2) s

@[simp] theorem wp_pure {a : α} : wp L (pure a : Act ρ K V α) Q = Q a := rfl

@[simp] theorem wp_bind {m : Act ρ K V α} {f : α → Act ρ K V β} {Q : β → ρ → S → Prop} :
    wp L (m >>= f) Q = wp L m fun a => wp L (f a) Q := by
  funext r s
  exact congrFun Prog.wp_bind s

@[simp] theorem wp_stuck : wp L (stuck : Act ρ K V α) Q r s = L.mayStick := rfl

@[simp] theorem wp_own {f : ρ → α × ρ} :
    wp L (own f : Act ρ K V α) Q = fun r => Q (f r).1 (f r).2 := rfl

@[simp] theorem wp_get {key : K} {size : Nat} {Q : Option V → ρ → S → Prop} :
    wp L (get key size) Q = fun r => L.onGet key size fun v => Q v r := rfl

@[simp] theorem wp_put {key : K} {value : V} {Q : Unit → ρ → S → Prop} :
    wp L (put key value) Q = fun r => L.onPut key value (Q () r) := rfl

theorem wp_assert {p : Prop} [Decidable p] {Q : Unit → ρ → S → Prop}
    (hQ : p → Q () r s) (hp : L.mayStick ∨ p) : wp L (assert p) Q r s := by
  unfold assert
  split
  · exact hQ ‹p›
  · exact hp.resolve_right ‹¬p›

theorem wp_ofOption {x : Option α} (hQ : ∀ a, x = some a → Q a r s)
    (hx : L.mayStick ∨ x.isSome) : wp L (ofOption x) Q r s := by
  cases x with
  | none => exact hx.resolve_right (by simp)
  | some a => exact hQ a rfl

/-- An action that makes no access. -/
theorem wp_of_result {m : Act ρ K V α} {a : α} {r' : ρ} (h : (m r).result = some (a, r'))
    (hQ : Q a r' s) : wp L m Q r s := by
  rw [wp, Prog.eq_done h]
  exact hQ

theorem wp_mono {m : Act ρ K V α} {R : α → ρ → S → Prop} (h : wp L m Q r s)
    (hQR : ∀ a r' s', Q a r' s' → R a r' s') : wp L m R r s :=
  Prog.wp_mono h fun _ _ => hQR _ _ _

theorem wp_bind_of {m : Act ρ K V α} {f : α → Act ρ K V β} {R : α → ρ → S → Prop}
    {Q : β → ρ → S → Prop} (hm : wp L m R r s)
    (hf : ∀ a r' s', R a r' s' → wp L (f a) Q r' s') : wp L (m >>= f) Q r s := by
  rw [wp_bind]
  exact wp_mono hm hf

/-- A loop over a range keeps an invariant that each of its iterations keeps. -/
theorem wp_forRange (I : Nat → σ → ρ → S → Prop) {body : Nat → σ → Act ρ K V σ}
    {lo n : Nat} {x : σ}
    (step : ∀ i x r s, lo ≤ i → i < lo + n → I i x r s → wp L (body i x) (I (i + 1)) r s)
    (init : I lo x r s) : wp L (forRange body lo n x) (I (lo + n)) r s := by
  induction n generalizing lo x r s with
  | zero => exact init
  | succ n ih =>
    rw [forRange, wp_bind]
    refine wp_mono (step lo x r s (by omega) (by omega) init) fun x' r' s' next => ?_
    rw [show lo + (n + 1) = lo + 1 + n by omega]
    exact ih (fun i x r s hlo hhi => step i x r s (by omega) (by omega)) next

/-- A loop over a list keeps an invariant of the part of the list that it has seen. -/
theorem wp_forEach (I : List α → σ → ρ → S → Prop) {body : Nat → α → σ → Act ρ K V σ}
    {lo : Nat} {as : List α} {x : σ}
    (step : ∀ seen a x r s, seen ++ [a] <+: as → I seen x r s →
      wp L (body (lo + seen.length) a x) (I (seen ++ [a])) r s)
    (init : I [] x r s) : wp L (forEach body lo as x) (I as) r s := by
  suffices go : ∀ rest seen lo' x r s, seen ++ rest = as → lo' = lo + seen.length →
      I seen x r s → wp L (forEach body lo' rest x) (I as) r s from go as [] lo x r s rfl rfl init
  intro rest
  induction rest with
  | nil =>
    intro seen lo' x r s split _ hI
    rw [← split, List.append_nil]
    exact hI
  | cons a rest ih =>
    intro seen lo' x r s split hlo hI
    rw [forEach, wp_bind, hlo]
    refine wp_mono (step seen a x r s ⟨rest, by simpa using split⟩ hI) fun x' r' s' next => ?_
    exact ih (seen ++ [a]) _ x' r' s' (by simpa using split) (by simp; omega) next

/-- A loop keeps an invariant, of the number of its iterations too, until its body returns a
result.  Where an execution must go on, the invariant must exclude that the fuel runs out. -/
theorem wp_loop (I : Nat → σ → ρ → S → Prop) {body : σ → Act ρ K V (σ ⊕ α)} {fuel : Nat} {x : σ}
    (ends : L.mayStick ∨ ∀ x r s, ¬I fuel x r s)
    (step : ∀ n x r s, I n x r s → wp L (body x) (fun | .inl x => I (n + 1) x | .inr a => Q a) r s)
    (init : I 0 x r s) : wp L (loop body fuel x) Q r s := by
  suffices go : ∀ left n x r s, n + left = fuel → I n x r s → wp L (loop body left x) Q r s from
    go fuel 0 x r s (by omega) init
  intro left
  induction left with
  | zero =>
    intro n x r s hn hI
    refine ends.resolve_right fun none => none x r s ?_
    rwa [show fuel = n by omega]
  | succ left ih =>
    intro n x r s hn hI
    rw [loop, wp_bind]
    refine wp_mono (step n x r s hI) fun y r' s' next => ?_
    cases y with
    | inl x' => exact ih (n + 1) x' r' s' (by omega) next
    | inr a => exact next

/-- A loop of draws, each of which is accepted or changes nothing but the thread.  It ends when from
every state of the thread one of the next `N` draws is accepted, and an accepted draw leaves less to
do. -/
theorem wp_loop_draws {body : σ → Act ρ K V (σ ⊕ α)} {fuel N : Nat} {x : σ} (I : σ → Prop)
    (left : σ → Nat) (draw : ρ → ρ) (accepts : σ → ρ → Prop)
    (arrives : ∀ x r, I x → left x ≠ 0 → ∃ n < N, accepts x (draw^[n] r))
    (step : ∀ x r, I x → wp L (body x) (fun y r' s' => match y with
      | .inl x' => left x ≠ 0 ∧ r' = draw r ∧ s' = s ∧ I x' ∧ (accepts x r → left x' < left x) ∧
          (¬accepts x r → x' = x)
      | .inr a => Q a r' s') r s)
    (enough : left x * N < fuel) (init : I x) : wp L (loop body fuel x) Q r s := by
  -- After `n` iterations `m` more draws are rejected, and `N` draws remain for each later accepted
  -- one.
  let Due (n : Nat) (x : σ) (r : ρ) : Prop := (left x = 0 → n < fuel) ∧
    (left x ≠ 0 → ∃ m, accepts x (draw^[m] r) ∧ n + m + 1 + (left x - 1) * N < fuel)
  have due (n : Nat) (x : σ) (r : ρ) (hI : I x) (room : n + left x * N < fuel) : Due n x r := by
    refine ⟨fun none => by omega, fun some => ?_⟩
    obtain ⟨m, within, accepted⟩ := arrives x r hI some
    refine ⟨m, accepted, ?_⟩
    obtain ⟨l, hl⟩ := Nat.exists_eq_succ_of_ne_zero some
    rw [hl, Nat.succ_mul] at room
    rw [hl, Nat.succ_sub_one]
    omega
  refine wp_loop (fun n x r s' => s' = s ∧ I x ∧ Due n x r) (.inr ?_) ?_
    ⟨rfl, init, due 0 x r init (by omega)⟩
  · rintro x r _ ⟨-, -, done, more⟩
    by_cases hl : left x = 0
    · exact absurd (done hl) (Nat.lt_irrefl _)
    · obtain ⟨m, -, room⟩ := more hl
      omega
  · rintro n x r _ ⟨rfl, hI, -, more⟩
    refine wp_mono (step x r hI) fun y r' s' next => ?_
    cases y with
    | inr a => exact next
    | inl x' =>
      obtain ⟨some, rfl, rfl, hI', progress, stays⟩ := next
      obtain ⟨m, accepted, room⟩ := more some
      refine ⟨rfl, hI', ?_⟩
      by_cases now : accepts x r
      · have less := progress now
        have mono := Nat.mul_le_mul_right N (show left x' ≤ left x - 1 by omega)
        exact due (n + 1) x' _ hI' (by omega)
      · obtain rfl := stays now
        refine ⟨fun none => absurd none some, fun _ => ?_⟩
        cases m with
        | zero => exact absurd accepted now
        | succ m =>
          rw [Function.iterate_succ_apply] at accepted
          exact ⟨m, accepted, by omega⟩

end Wp

section Alone

variable [DecidableEq κ] {C : Contract K V κ} {m : Act ρ K V α} {Q : α → ρ → Store κ V → Prop}
  {r r' : ρ} {s s' : Store κ V} {a b : α}

/-- The action returns `a` and leaves `r'` and `s'` when it runs alone. -/
def Returns (addr : K → κ) (m : Act ρ K V α) (r : ρ) (s : Store κ V) (a : α) (r' : ρ)
    (s' : Store κ V) : Prop :=
  ((m r).exec (.exact V addr) s).2 = some ((a, r'), s')

/-- The accesses of the action when it runs alone. -/
def accesses (addr : K → κ) (m : Act ρ K V α) (r : ρ) (s : Store κ V) : List (Event K V) :=
  ((m r).exec (.exact V addr) s).1

theorem returns_bind {f : α → Act ρ K V β} {addr : K → κ} {b : β} :
    Returns addr (m >>= f) r s b r' s' ↔
      ∃ a r1 s1, Returns addr m r s a r1 s1 ∧ Returns addr (f a) r1 s1 b r' s' := by
  simp only [Returns, show (m >>= f) r = (m r).bind fun x => f x.1 x.2 from rfl, Prog.exec_bind]
  split
  · rename_i x s1 same
    rw [same]
    constructor
    · exact fun h => ⟨x.1, x.2, s1, rfl, h⟩
    · rintro ⟨a, r1, s2, eq, h⟩
      cases eq
      exact h
  · rename_i none
    simp [none]

theorem returns_pure {addr : K → κ} :
    Returns addr (pure a : Act ρ K V α) r s b r' s' ↔ a = b ∧ r = r' ∧ s = s' := by
  simp [Returns, show (pure a : Act ρ K V α) r = .done (a, r) from rfl, Prog.exec, and_assoc]

theorem returns_ofOption {addr : K → κ} {x : Option α} :
    Returns addr (ofOption x : Act ρ K V α) r s b r' s' ↔ x = some b ∧ r = r' ∧ s = s' := by
  cases x with
  | none => simp [ofOption, stuck, Returns, Prog.exec]
  | some a => simp [ofOption, returns_pure]

theorem returns_assert {addr : K → κ} {p : Prop} [Decidable p] :
    Returns addr (assert p : Act ρ K V Unit) r s () r' s' ↔ p ∧ r = r' ∧ s = s' := by
  unfold assert
  split
  · rename_i holds
    simp [returns_pure, holds]
  · rename_i fails
    simp [stuck, Returns, Prog.exec, fails]

theorem wp_returns (h : wp C.logic m Q r s) (returns : Returns C.addr m r s a r' s') :
    Q a r' s' := by
  have := (Prog.wp_exec h).2
  rwa [returns] at this

theorem wp_accesses (h : wp C.logic m Q r s) : ∀ e ∈ accesses C.addr m r s, e.Allowed C :=
  (Prog.wp_exec h).1

theorem exists_access {addr : K → κ} {bad : Event K V → Prop}
    (h : wp (.reaching addr bad) m (fun _ _ _ => False) r s) :
    ∃ e ∈ accesses addr m r s, bad e :=
  Prog.exists_event h

theorem returns_of_wp (h : wp C.logic m Q r s) (total : ¬C.mayStick) :
    ∃ a r' s', Returns C.addr m r s a r' s' ∧ Q a r' s' := by
  have := (Prog.wp_exec h).2
  unfold Returns
  split at this
  · rename_i x s' same
    exact ⟨x.1, x.2, s', same, this⟩
  · exact absurd this total

/-- Partial correctness is what holds wherever the action returns. -/
theorem wp_of_returns {addr : K → κ} (h : ∀ a r' s', Returns addr m r s a r' s' → Q a r' s') :
    wp (Contract.partly V addr).logic m Q r s := by
  refine Prog.wp_mono (Prog.wp_exec_self (m r) s) fun x s' returns => h x.1 x.2 s' returns

/-- An action that returns and leaves the store as it is. -/
theorem returns_of_frame {addr : K → κ} {P : α → Prop}
    (h : wp (Contract.totally V addr).logic m (fun a _ s' => s' = s ∧ P a) r s) :
    ∃ a r', Returns addr m r s a r' s ∧ P a := by
  obtain ⟨a, r', _, returns, rfl, result⟩ := returns_of_wp h id
  exact ⟨a, r', returns, result⟩

theorem wp_keeps {R : Store κ V → Prop}
    (keeps : ∀ s k v, R s → C.mayPut k v → R (s.put (C.addr k) v))
    (h : wp C.logic m Q r s) (hR : R s) :
    wp C.logic m (fun a r s' => Q a r s' ∧ R s') r s :=
  Prog.wp_keeps keeps h hR

/-- No address loses its value. -/
theorem wp_grows (h : wp C.logic m Q r s) :
    wp C.logic m (fun a r s' => Q a r s' ∧ ∀ a, s a ≠ none → s' a ≠ none) r s :=
  wp_keeps (R := fun s' => ∀ a, s a ≠ none → s' a ≠ none)
    (fun _ _ _ grown _ a ha => Store.put_ne_none (grown a ha)) h fun _ ha => ha

/-- No address loses its value to a program that returns. -/
theorem Returns.grows {addr : K → κ} {x : κ} (returns : Returns addr m r s a r' s')
    (h : s x ≠ none) : s' x ≠ none := by
  have partly : wp (Contract.partly V addr).logic m (fun _ _ _ => True) r s := Prog.wp_partly
  exact (wp_returns (wp_grows partly) returns).2 x h

theorem wp_of_demand {P : K → V → Prop} (h : wp (C.demand P).logic m Q r s) :
    wp C.logic m Q r s :=
  Prog.wp_of_demand h

/-- A loop over a range does for every number what its iteration does, when the writes of the other
iterations, for which the contract demands `D`, keep that. -/
theorem wp_forRange_each {P : Nat → Store κ V → Prop} {D : Nat → K → V → Prop} (I : Nat → σ → Prop)
    {body : Nat → σ → Act ρ K V σ} {lo n : Nat} {x : σ}
    (keeps : ∀ i j s k v, lo ≤ j → j < i → i < lo + n → P j s → C.mayPut k v → D i k v →
      P j (s.put (C.addr k) v))
    (step : ∀ i x r s, lo ≤ i → i < lo + n → I i x →
      wp (C.demand (D i)).logic (body i x) (fun x _ s' => I (i + 1) x ∧ P i s') r s)
    (init : I lo x) :
    wp C.logic (forRange body lo n x)
      (fun x _ s' => I (lo + n) x ∧ ∀ i, lo ≤ i → i < lo + n → P i s') r s := by
  refine wp_forRange (fun i x _ s' => I i x ∧ ∀ j, lo ≤ j → j < i → P j s') ?_
    ⟨init, fun j _ _ => by omega⟩
  rintro i x r s hlo hhi ⟨hI, done⟩
  have kept := wp_keeps (C := C.demand (D i)) (R := fun s => ∀ j, lo ≤ j → j < i → P j s)
    (fun s k v hs may j hj hj' => keeps i j s k v hj hj' hhi (hs j hj hj') may.1 may.2)
    (step i x r s hlo hhi hI) done
  apply wp_mono (wp_of_demand kept)
  rintro x' r' s' ⟨⟨next, this⟩, before⟩
  refine ⟨next, fun j hj hj' => ?_⟩
  rcases Nat.lt_succ_iff_lt_or_eq.mp hj' with earlier | rfl
  · exact before j hj earlier
  · exact this

/-- A loop over a range does for every number what its iteration does, when all the writes that the
contract allows keep that. -/
theorem wp_forRange_all {P : Nat → Store κ V → Prop} (I : Nat → σ → Prop)
    {body : Nat → σ → Act ρ K V σ} {lo n : Nat} {x : σ}
    (keeps : ∀ i s k v, P i s → C.mayPut k v → P i (s.put (C.addr k) v))
    (step : ∀ i x r s, lo ≤ i → i < lo + n → I i x →
      wp C.logic (body i x) (fun x _ s' => I (i + 1) x ∧ P i s') r s) (init : I lo x) :
    wp C.logic (forRange body lo n x)
      (fun x _ s' => I (lo + n) x ∧ ∀ i, lo ≤ i → i < lo + n → P i s') r s :=
  wp_forRange_each (D := fun _ => C.mayPut) I
    (fun _ j s k v _ _ _ hP may _ => keeps j s k v hP may)
    (fun i x r s hlo hhi hI => Prog.wp_demand (fun _ _ may => may) (step i x r s hlo hhi hI)) init

end Alone

/-! ### What actions keep -/

/-- The action keeps a property of the thread and the store wherever it returns. -/
structure Keeps [DecidableEq κ] (addr : K → κ) (I : ρ → Store κ V → Prop) (m : Act ρ K V α) :
    Prop where
  wp : ∀ r s, I r s → wp (Contract.partly V addr).logic m (fun _ => I) r s

section Keeps

variable [DecidableEq κ] {addr : K → κ} {I : ρ → Store κ V → Prop}

theorem keeps_pure {a : α} : Keeps addr I (pure a : Act ρ K V α) := ⟨fun _ _ h => h⟩

theorem keeps_bind {m : Act ρ K V α} {f : α → Act ρ K V β} (hm : Keeps addr I m)
    (hf : ∀ a, Keeps addr I (f a)) : Keeps addr I (m >>= f) :=
  ⟨fun r s h => wp_bind_of (hm.wp r s h) fun a => (hf a).wp⟩

theorem keeps_own {f : ρ → α × ρ} (h : ∀ r s, I r s → I (f r).2 s) :
    Keeps addr I (own f : Act ρ K V α) := ⟨h⟩

theorem keeps_get {key : K} {size : Nat} : Keeps addr I (get key size : Act ρ K V (Option V)) :=
  ⟨fun _ _ h => ⟨trivial, h⟩⟩

theorem keeps_put {key : K} {value : V} (h : ∀ r s, I r s → I r (s.put (addr key) value)) :
    Keeps addr I (put key value : Act ρ K V Unit) :=
  ⟨fun r s hI => ⟨trivial, h r s hI⟩⟩

theorem keeps_assert {p : Prop} [Decidable p] : Keeps addr I (assert p : Act ρ K V Unit) :=
  ⟨fun _ _ h => wp_assert (fun _ => h) (.inl trivial)⟩

theorem keeps_ofOption {x : Option α} : Keeps addr I (ofOption x : Act ρ K V α) :=
  ⟨fun _ _ h => wp_ofOption (fun _ _ => h) (.inl trivial)⟩

theorem keeps_ite {p : Prop} [Decidable p] {m m' : Act ρ K V α} (h : p → Keeps addr I m)
    (h' : ¬p → Keeps addr I m') : Keeps addr I (if p then m else m') := by
  split
  · exact h ‹p›
  · exact h' ‹¬p›

theorem keeps_forRange {body : Nat → σ → Act ρ K V σ} {lo n : Nat} {x : σ}
    (step : ∀ i x, lo ≤ i → i < lo + n → Keeps addr I (body i x)) :
    Keeps addr I (forRange body lo n x) where
  wp _ _ h := wp_forRange (fun _ _ => I) (fun i x r s low high => (step i x low high).wp r s) h

theorem keeps_loop {body : σ → Act ρ K V (σ ⊕ α)} {fuel : Nat} {x : σ}
    (step : ∀ x, Keeps addr I (body x)) : Keeps addr I (loop body fuel x) where
  wp _ _ h := by
    refine wp_loop (fun _ _ => I) (.inl trivial) (fun n x r s hI => ?_) h
    refine wp_mono ((step x).wp r s hI) fun y r s kept => ?_
    cases y with
    | inl x => exact kept
    | inr a => exact kept

theorem Keeps.returns {m : Act ρ K V α} {r r' : ρ} {s s' : Store κ V} {a : α}
    (keeps : Keeps addr I m) (h : I r s) (returns : Returns addr m r s a r' s') : I r' s' :=
  wp_returns (C := Contract.partly V addr) (keeps.wp r s h) returns

end Keeps

end Act

/-! ### Runs -/

/-- The runs of a system: the labels of the steps taken, the latest first, and the state reached
from an initial one. -/
inductive Run {σ ι : Type} (init : σ → Prop) (step : σ → ι → σ → Prop) : List ι → σ → Prop
  | start {s : σ} : init s → Run init step [] s
  | next {l : List ι} {s s' : σ} {i : ι} : Run init step l s → step s i s' →
      Run init step (i :: l) s'

/-- A property of the steps taken and the state reached that the initial states have and that every
step keeps. -/
theorem Run.invariant {σ ι : Type} {init : σ → Prop} {step : σ → ι → σ → Prop}
    {I : List ι → σ → Prop} (start : ∀ s, init s → I [] s)
    (next : ∀ l s i s', I l s → step s i s' → I (i :: l) s') {l : List ι} {s : σ}
    (run : Run init step l s) : I l s := by
  induction run with
  | start h => exact start _ h
  | next _ step ih => exact next _ _ _ _ ih step

/-- A run that goes on where another has ended. -/
theorem Run.trans {σ ι : Type} {init : σ → Prop} {step : σ → ι → σ → Prop} {l l' : List ι}
    {s s' : σ} (run : Run init step l s) (more : Run (· = s) step l' s') :
    Run init step (l' ++ l) s' := by
  induction more with
  | start same => exact same ▸ run
  | next _ step ih => exact ih.next step

/-- An iteration of a loop that goes on, between states of the loop, the thread and the store: its
label has the states of the loop before and after it. -/
def Act.Iterates {K κ V ρ σ α : Type} [DecidableEq κ] (addr : K → κ)
    (body : σ → Act ρ K V (σ ⊕ α)) (c : σ × ρ × Store κ V) (pair : σ × σ)
    (c' : σ × ρ × Store κ V) : Prop :=
  pair = (c.1, c'.1) ∧ Returns addr (body c.1) c.2.1 c.2.2 (.inl c'.1) c'.2.1 c'.2.2

/-- A loop that returns is a run of its iterations, and then one that ends it. -/
theorem Act.returns_loop {K κ V ρ σ α : Type} [DecidableEq κ] {addr : K → κ}
    {body : σ → Act ρ K V (σ ⊕ α)} {fuel : Nat} {x : σ} {r r' : ρ} {s s' : Store κ V} {a : α}
    (returns : Returns addr (loop body fuel x) r s a r' s') : ∃ pairs last r1 s1,
      Run (· = (x, r, s)) (Iterates addr body) pairs (last, r1, s1) ∧
        Returns addr (body last) r1 s1 (.inr a) r' s' := by
  induction fuel generalizing x r s with
  | zero => simp [loop, stuck, Returns, Prog.exec] at returns
  | succ fuel ih =>
    obtain ⟨y, r1, s1, first, rest⟩ := returns_bind.mp returns
    cases y with
    | inl x' =>
      obtain ⟨pairs, last, r2, s2, run, ends⟩ := ih rest
      have start : Run (· = (x, r, s)) (Iterates addr body) [(x, x')] (x', r1, s1) :=
        .next (.start rfl) ⟨rfl, first⟩
      exact ⟨pairs ++ [(x, x')], last, r2, s2, start.trans run, ends⟩
    | inr b =>
      obtain ⟨rfl, rfl, rfl⟩ := returns_pure.mp rest
      exact ⟨[], x, r, s, .start rfl, first⟩

end KvProgram
