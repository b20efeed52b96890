import Tpcc.Lib.Program

/-! Programs whose accesses are followed together with the store that they leave.  A state of a
proof is a store and the list of the accesses made so far, the first one first. -/

namespace KvProgram

/-- The key of an access. -/
def Event.key {K V : Type} : Event K V → K
  | .get k _ _ => k
  | .put k _ => k

@[simp] theorem Event.key_get {K V : Type} {k : K} {n : Nat} {v : Option V} :
    (Event.get k n v).key = k := rfl

@[simp] theorem Event.key_put {K V : Type} {k : K} {v : V} : (Event.put k v).key = k := rfl

/-- A store, and the accesses that have been made. -/
abbrev Traced (K V κ : Type) := Store κ V × List (Event K V)

section Traced

variable {ρ K V κ α : Type} [DecidableEq κ]

/-- The logic of a program that runs alone on an exact backend and whose accesses are followed. -/
def Logic.traced (V : Type) (addr : K → κ) : Logic K V (Traced K V κ) where
  onGet k n P x := P (x.1 (addr k)) (x.1, x.2 ++ [.get k n (x.1 (addr k))])
  onPut k v P x := P (x.1.put (addr k) v, x.2 ++ [.put k v])
  mayStick := True
  onGet_mono h hPR := hPR _ _ h
  onPut_mono h hPR := hPR _ h

variable {addr : K → κ}

@[simp] theorem Logic.onGet_traced {k : K} {n : Nat} {P : Option V → Traced K V κ → Prop}
    {x : Traced K V κ} : (Logic.traced V addr).onGet k n P x =
      P (x.1 (addr k)) (x.1, x.2 ++ [.get k n (x.1 (addr k))]) := rfl

@[simp] theorem Logic.onPut_traced {k : K} {v : V} {P : Traced K V κ → Prop} {x : Traced K V κ} :
    (Logic.traced V addr).onPut k v P x = P (x.1.put (addr k) v, x.2 ++ [.put k v]) := rfl

/-- The same logic for programs that return. -/
def Logic.followed (V : Type) (addr : K → κ) : Logic K V (Traced K V κ) :=
  { Logic.traced V addr with mayStick := False }

@[simp] theorem Logic.onGet_followed {k : K} {n : Nat} {P : Option V → Traced K V κ → Prop}
    {x : Traced K V κ} : (Logic.followed V addr).onGet k n P x =
      P (x.1 (addr k)) (x.1, x.2 ++ [.get k n (x.1 (addr k))]) := rfl

@[simp] theorem Logic.onPut_followed {k : K} {v : V} {P : Traced K V κ → Prop} {x : Traced K V κ} :
    (Logic.followed V addr).onPut k v P x = P (x.1.put (addr k) v, x.2 ++ [.put k v]) := rfl

/-- What the weakest precondition says of an execution and its accesses. -/
theorem Prog.traced_exec {p : Prog K V α} {Q : α → Traced K V κ → Prop} {s : Store κ V}
    {events : List (Event K V)} (h : p.wp (.traced V addr) Q (s, events)) :
    match (p.exec (.exact V addr) s).2 with
    | some (a, s') => Q a (s', events ++ (p.exec (.exact V addr) s).1)
    | none => True := by
  induction p generalizing s events with
  | done a =>
    rw [Prog.exec, List.append_nil]
    exact h
  | get k n next ih =>
    rw [Prog.exec, List.append_cons]
    exact ih _ h
  | put k v next ih =>
    rw [Prog.exec, List.append_cons]
    exact ih h
  | stuck => trivial

/-- A program that returns, and its accesses. -/
theorem Prog.followed_exec {p : Prog K V α} {Q : α → Traced K V κ → Prop} {s : Store κ V}
    {events : List (Event K V)} (h : p.wp (.followed V addr) Q (s, events)) :
    ∃ a s', (p.exec (.exact V addr) s).2 = some (a, s') ∧
      Q a (s', events ++ (p.exec (.exact V addr) s).1) := by
  induction p generalizing s events with
  | done a =>
    refine ⟨a, s, rfl, ?_⟩
    rw [Prog.exec, List.append_nil]
    exact h
  | get k n next ih =>
    rw [Prog.exec, List.append_cons]
    exact ih _ h
  | put k v next ih =>
    rw [Prog.exec, List.append_cons]
    exact ih h
  | stuck => exact h.elim

/-- A program keeps, of the store and its accesses, what the accesses that its contract allows
keep. -/
theorem Prog.wp_traced {C : Contract K V κ} {R : Traced K V κ → Prop} {p : Prog K V α}
    {Q : α → Store κ V → Prop} {x : Traced K V κ}
    (onGet : ∀ x k n, R x → C.mayGet k n (x.1 (C.addr k)) →
      R (x.1, x.2 ++ [.get k n (x.1 (C.addr k))]))
    (onPut : ∀ x k v, R x → C.mayPut k v → R (x.1.put (C.addr k) v, x.2 ++ [.put k v]))
    (h : p.wp C.logic Q x.1) (hR : R x) :
    p.wp (.traced V C.addr) (fun a x => Q a x.1 ∧ R x) x := by
  induction p generalizing x with
  | done a => exact ⟨h, hR⟩
  | get k n next ih => exact ih _ h.2 (onGet x k n hR h.1)
  | put k v next ih => exact ih h.2 (onPut x k v hR h.1)
  | stuck => trivial

namespace Act

variable {m : Act ρ K V α} {r r' : ρ} {s s' : Store κ V} {a : α}

theorem traced_returns {Q : α → ρ → Traced K V κ → Prop} {events : List (Event K V)}
    (h : wp (.traced V addr) m Q r (s, events)) (returns : Returns addr m r s a r' s') :
    Q a r' (s', events ++ accesses addr m r s) := by
  have := Prog.traced_exec h
  rwa [returns] at this

theorem followed_returns {Q : α → ρ → Traced K V κ → Prop} {events : List (Event K V)}
    (h : wp (.followed V addr) m Q r (s, events)) : ∃ a r' s',
      Returns addr m r s a r' s' ∧ Q a r' (s', events ++ accesses addr m r s) := by
  obtain ⟨x, s', returns, result⟩ := Prog.followed_exec h
  exact ⟨x.1, x.2, s', returns, result⟩

theorem wp_traced {C : Contract K V κ} {R : Traced K V κ → Prop} {Q : α → ρ → Store κ V → Prop}
    {x : Traced K V κ}
    (onGet : ∀ x k n, R x → C.mayGet k n (x.1 (C.addr k)) →
      R (x.1, x.2 ++ [.get k n (x.1 (C.addr k))]))
    (onPut : ∀ x k v, R x → C.mayPut k v → R (x.1.put (C.addr k) v, x.2 ++ [.put k v]))
    (h : wp C.logic m Q r x.1) (hR : R x) :
    wp (.traced V C.addr) m (fun a r x => Q a r x.1 ∧ R x) r x :=
  Prog.wp_traced onGet onPut h hR

end Act

end Traced

/-- What a filter leaves of parts of which it keeps those of one element alone. -/
theorem filter_flatMap_of_mem {α β : Type} {l : List α} {f : α → List β} {p : β → Bool} {a : α}
    (ha : a ∈ l) (nodup : l.Nodup) (other : ∀ b ∈ l, b ≠ a → (f b).filter p = []) :
    (l.flatMap f).filter p = (f a).filter p := by
  induction l with
  | nil => contradiction
  | cons b l ih =>
    obtain ⟨fresh, nodup⟩ := List.nodup_cons.mp nodup
    rw [List.flatMap_cons, List.filter_append]
    rcases List.mem_cons.mp ha with rfl | later
    · have rest : (l.flatMap f).filter p = [] := by
        rw [List.filter_eq_nil_iff]
        intro x hx
        obtain ⟨b, hb, hx⟩ := List.mem_flatMap.mp hx
        have ne : b ≠ a := fun same => fresh (same ▸ hb)
        exact List.filter_eq_nil_iff.mp (other b (by simp [hb]) ne) x hx
      rw [rest, List.append_nil]
    · have ne : b ≠ a := fun same => fresh (same ▸ later)
      rw [other b (by simp) ne, List.nil_append,
        ih later nodup fun b hb => other b (List.mem_cons_of_mem _ hb)]

end KvProgram
