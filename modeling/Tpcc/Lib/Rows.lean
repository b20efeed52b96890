import Mathlib.Algebra.Order.Ring.Nat
import Tpcc.Lib.Clients

/-! Clients that rely on what the rows of their store can be.  A `Rows` says what value may stand at
a key after a number of moves, and which keys have a value.  A client that finds such rows, whatever
they are and whenever it reads them, and writes only such rows, keeps them in every interleaving
with clients that do the same; it can go on wherever it may not stick, and makes no more accesses
than it has left. -/

namespace KvProgram

/-- What the values at the keys of a store may be after a number of moves, and the keys that have
one. -/
structure Rows (K V : Type) where
  Row : Nat → K → V → Prop
  Present : K → Prop
  later : ∀ {n m k v}, Row n k v → n ≤ m → Row m k v

/-- What a client may find at a key. -/
structure Rows.Found {K V : Type} (R : Rows K V) (n : Nat) (k : K) (v : Option V) : Prop where
  row : ∀ x, v = some x → R.Row n k x
  present : R.Present k → v ≠ none

/-- The logic of a client of such a store, in a run with fewer moves than `limit`.  Its states are
the number of moves made, and how many accesses the client has left; any number of moves of other
clients comes before an access. -/
def Rows.logic {K V : Type} (R : Rows K V) (limit : Nat) (mayStick : Prop) :
    Logic K V (Nat × Nat) where
  onGet k _ P x := 0 < x.2 ∧ ∀ m, x.1 ≤ m → m < limit → ∀ v, R.Found m k v → P v (m + 1, x.2 - 1)
  onPut k v P x := 0 < x.2 ∧ ∀ m, x.1 ≤ m → m < limit → R.Row (m + 1) k v ∧ P (m + 1, x.2 - 1)
  mayStick := mayStick
  onGet_mono h hPR := ⟨h.1, fun m le less v found => hPR _ _ (h.2 m le less v found)⟩
  onPut_mono h hPR := ⟨h.1, fun m le less => ⟨(h.2 m le less).1, hPR _ (h.2 m le less).2⟩⟩

section Moves

variable {ι J K V α : Type} [DecidableEq ι]

/-- How many accesses a client has made. -/
def accessesOf (i : ι) (l : List (Move ι J K V α)) : Nat :=
  l.countP fun | .access j _ _ => j = i | _ => false

/-- How many accesses the jobs that a client has started may make. -/
def allowance (size : J → Nat) (i : ι) (l : List (Move ι J K V α)) : Nat :=
  (l.map fun | .start j job => if j = i then size job else 0 | _ => 0).sum

end Moves

section Rule

variable {ι J K V α : Type} [DecidableEq ι] [DecidableEq K] {R : Rows K V} {limit : Nat}
  {mayStick : Prop} {isProgram : J → Prog K V α → Prop} {size : J → Nat}
  {init : Clients ι J K V α (Store K V) → Prop}

omit [DecidableEq K] in
/-- What is shown from a number of moves on holds from later ones on. -/
theorem Rows.wp_later {p : Prog K V α} {n m b : Nat}
    (h : p.wp (R.logic limit mayStick) (fun _ _ => True) (n, b)) (le : n ≤ m) :
    p.wp (R.logic limit mayStick) (fun _ _ => True) (m, b) := by
  cases p with
  | done a => trivial
  | get k size next => exact ⟨h.1, fun m' le' => h.2 m' (Nat.le_trans le le')⟩
  | put k v next => exact ⟨h.1, fun m' le' => h.2 m' (Nat.le_trans le le')⟩
  | stuck => exact h

/-- A store whose rows are as they may be after some moves, and clients that can go on from
there. -/
structure Rows.Kept (R : Rows K V) (limit : Nat) (mayStick : Prop) (n : Nat) (left : ι → Nat)
    (c : Clients ι J K V α (Store K V)) : Prop where
  found : ∀ k, R.Found n k (c.store k)
  rest : ∀ i job p, c.running i = some (job, p) →
    p.wp (R.logic limit mayStick) (fun _ _ => True) (n, left i)

omit [DecidableEq K] in
/-- A move of one client leaves the others where they are. -/
theorem Rows.Kept.set {n b : Nat} {left : ι → Nat} {c : Clients ι J K V α (Store K V)}
    {s : Store K V} {i : ι} {rest : Option (J × Prog K V α)} (h : R.Kept limit mayStick n left c)
    (found : ∀ k, R.Found (n + 1) k (s k))
    (program : ∀ job p, rest = some (job, p) →
      p.wp (R.logic limit mayStick) (fun _ _ => True) (n + 1, b)) :
    R.Kept limit mayStick (n + 1) (Function.update left i b) (c.set i s rest) := by
  constructor
  · exact found
  · intro j job p running
    by_cases own : j = i
    · subst own
      rw [Clients.running_set] at running
      rw [Function.update_self]
      exact program job p running
    · rw [Clients.running_set_of_ne own] at running
      rw [Function.update_of_ne own]
      exact Rows.wp_later (h.rest j job p running) (Nat.le_succ n)

omit [DecidableEq K] in
theorem Rows.Found.later {n m : Nat} {k : K} {v : Option V} (h : R.Found n k v) (le : n ≤ m) :
    R.Found m k v :=
  ⟨fun x hx => R.later (h.row x hx) le, h.present⟩

theorem Rows.Found.put {n : Nat} {s : Store K V} {k : K} {v : V} (h : ∀ k, R.Found n k (s k))
    (row : R.Row n k v) : ∀ k', R.Found n k' (s.put k v k') := by
  intro k'
  by_cases same : k' = k
  · subst same
    exact ⟨fun x hx => by rwa [← Option.some.inj (Store.put_self.symm.trans hx)],
      fun _ => Store.put_self_ne_none⟩
  · rw [Store.put_of_ne same]
    exact h k'

/-- The accesses that the clients have made, and those that they have left, are those of the jobs
that they have started. -/
def Spent (size : J → Nat) (l : List (Move ι J K V α)) (left : ι → Nat) : Prop :=
  ∀ i, accessesOf i l + left i ≤ allowance size i l

omit [DecidableEq K] in
theorem Spent.cons {l : List (Move ι J K V α)} {left : ι → Nat} (h : Spent size l left)
    {move : Move ι J K V α} {i : ι} {b : Nat}
    (own : accessesOf i [move] + b ≤ allowance size i [move] + left i)
    (others : ∀ j, j ≠ i → accessesOf j [move] = 0) :
    Spent size (move :: l) (Function.update left i b) := by
  intro j
  have before := h j
  have accesses : accessesOf j (move :: l) = accessesOf j [move] + accessesOf j l := by
    rw [accessesOf, ← List.singleton_append, List.countP_append]
    rfl
  have allowed : allowance size j (move :: l) = allowance size j [move] + allowance size j l := by
    simp [allowance]
  rw [accesses, allowed]
  by_cases same : j = i
  · subst same
    rw [Function.update_self]
    omega
  · rw [Function.update_of_ne same, others j same]
    omega

theorem Rows.Kept.step {n : Nat} {left : ι → Nat} {l : List (Move ι J K V α)}
    {c c' : Clients ι J K V α (Store K V)} {move : Move ι J K V α}
    (programs : ∀ job p, isProgram job p →
      p.wp (R.logic limit mayStick) (fun _ _ => True) (0, size job))
    (h : R.Kept limit mayStick n left c) (spent : Spent size l left) (less : n < limit)
    (step : Clients.Step (.exact V id) isProgram c move c') :
    ∃ left', R.Kept limit mayStick (n + 1) left' c' ∧ Spent size (move :: l) left' := by
  have found k := (h.found k).later (Nat.le_succ n)
  cases step with
  | @start i job p isIdle program =>
    refine ⟨_, h.set (b := size job) found ?_, spent.cons ?_ ?_⟩
    · rintro job' p' ⟨⟩
      exact Rows.wp_later (programs job p program) (Nat.zero_le _)
    · simp [accessesOf, allowance]
    · simp [accessesOf]
  | @access i job p p' e s running access =>
    have rest := h.rest i job p running
    have made (some : 0 < left i) : Spent size (.access i job e :: l)
        (Function.update left i (left i - 1)) := by
      apply spent.cons
      · simp [accessesOf]
        omega
      · intro j other
        simpa [accessesOf] using other.symm
    cases p with
    | done a => simp [Prog.access] at access
    | stuck => simp [Prog.access] at access
    | get k size next =>
      simp only [Prog.access, Option.some.injEq, Prod.mk.injEq] at access
      obtain ⟨rfl, rfl, rfl⟩ := access
      refine ⟨_, h.set (b := left i - 1) found ?_, made rest.1⟩
      rintro job' p' ⟨⟩
      exact rest.2 n (Nat.le_refl n) less _ (h.found k)
    | put k v next =>
      simp only [Prog.access, Option.some.injEq, Prod.mk.injEq] at access
      obtain ⟨rfl, rfl, rfl⟩ := access
      obtain ⟨row, program⟩ := rest.2 n (Nat.le_refl n) less
      refine ⟨_, h.set (b := left i - 1) (Rows.Found.put found row) ?_, made rest.1⟩
      rintro job' p' ⟨⟩
      exact program
  | @finish i job a running =>
    refine ⟨_, h.set (b := 0) found (by simp), spent.cons ?_ ?_⟩
    · simp [accessesOf]
    · simp [accessesOf]

/-- The rule: the rows are kept in every run of clients that rely on them and keep them, and no
client makes more accesses than its jobs may. -/
theorem Run.rows (programs : ∀ job p, isProgram job p →
      p.wp (R.logic limit mayStick) (fun _ _ => True) (0, size job))
    (first : ∀ c, init c → c.Idle ∧ ∀ k, R.Found 0 k (c.store k)) {l : List (Move ι J K V α)}
    {c : Clients ι J K V α (Store K V)} (run : Run init (Clients.Step (.exact V id) isProgram) l c)
    (few : l.length ≤ limit) :
    ∃ left, R.Kept limit mayStick l.length left c ∧ Spent size l left := by
  induction run with
  | @start c isFirst =>
    obtain ⟨isIdle, found⟩ := first c isFirst
    refine ⟨fun _ => 0, ⟨found, fun i job p running => ?_⟩, fun i => Nat.zero_le _⟩
    rw [isIdle i] at running
    contradiction
  | next _ step ih =>
    have less := Nat.lt_of_succ_le few
    obtain ⟨left, kept, spent⟩ := ih (Nat.le_of_lt less)
    exact kept.step programs spent less step

omit [DecidableEq K] in
/-- A client that may not stick can move. -/
theorem Rows.Kept.moves {db : Backend K V (Store K V)} {n : Nat} {left : ι → Nat}
    {c : Clients ι J K V α (Store K V)} (h : R.Kept limit False n left c) {i : ι} {job : J}
    {p : Prog K V α} (running : c.running i = some (job, p)) :
    ∃ move c', Clients.Step db isProgram c move c' ∧
      ((∃ e, move = .access i job e) ∨ ∃ a, move = .finish i job a) := by
  cases p with
  | done a => exact ⟨_, _, .finish running, .inr ⟨a, rfl⟩⟩
  | get k size next => exact ⟨_, _, .access running rfl, .inl ⟨_, rfl⟩⟩
  | put k v next => exact ⟨_, _, .access running rfl, .inl ⟨_, rfl⟩⟩
  | stuck => exact (h.rest i job .stuck running).elim

end Rule

/-! ### Loops of clients -/

section Loops

variable {ρ K V α σ : Type} {R : Rows K V} {limit n b c : Nat} {mayStick : Prop} {r : ρ}

/-- A loop over a list, each of whose iterations makes at most `c` accesses. -/
theorem Rows.wp_forEach {body : Nat → α → σ → Act ρ K V σ} {lo : Nat} {as : List α} {x : σ}
    (step : ∀ a ∈ as, ∀ i x r m b, lo ≤ i → i < lo + as.length → n ≤ m →
      Act.wp (R.logic limit mayStick) (body i a x) (fun _ _ y => m ≤ y.1 ∧ b ≤ y.2) r (m, b + c)) :
    Act.wp (R.logic limit mayStick) (.forEach body lo as x) (fun _ _ y => n ≤ y.1 ∧ b ≤ y.2) r
      (n, b + c * as.length) := by
  have loop : Act.wp (R.logic limit mayStick) (.forEach body lo as x)
      (fun _ _ y => n ≤ y.1 ∧ b + c * (as.length - as.length) ≤ y.2) r
      (n, b + c * as.length) := by
    refine Act.wp_forEach (fun seen _ _ (y : Nat × Nat) =>
      n ≤ y.1 ∧ b + c * (as.length - seen.length) ≤ y.2) ?_ (by simp)
    rintro seen a x r ⟨m, left⟩ part ⟨later, enough⟩
    have mem : a ∈ as := part.subset (by simp)
    have fewer := part.length_le
    rw [List.length_append, List.length_singleton] at fewer
    obtain ⟨k, rest⟩ := Nat.exists_eq_add_of_lt fewer
    have now : as.length - seen.length = k + 1 := by omega
    have next : as.length - (seen.length + 1) = k := by omega
    simp only [now, Nat.mul_succ] at enough
    obtain ⟨b', rfl⟩ := Nat.exists_eq_add_of_le' (show c ≤ left by omega)
    apply Act.wp_mono (step a mem _ x r m b' (by omega) (by omega) later)
    rintro x' r' y ⟨more, le⟩
    simp only [List.length_append, List.length_singleton, next]
    omega
  exact Act.wp_mono loop fun _ _ _ left => by simpa using left

/-- A loop over a range, each of whose iterations makes at most `c` accesses. -/
theorem Rows.wp_forRange {body : Nat → σ → Act ρ K V σ} {lo k : Nat} {x : σ}
    (step : ∀ i x r n b, lo ≤ i → i < lo + k → Act.wp (R.logic limit mayStick) (body i x)
      (fun _ _ y => b ≤ y.2) r (n, b + c)) :
    Act.wp (R.logic limit mayStick) (.forRange body lo k x) (fun _ _ y => b ≤ y.2) r
      (n, b + c * k) := by
  have loop : Act.wp (R.logic limit mayStick) (.forRange body lo k x)
      (fun _ _ y => b + c * (lo + k - (lo + k)) ≤ y.2) r (n, b + c * k) := by
    refine Act.wp_forRange (fun i _ _ (y : Nat × Nat) => b + c * (lo + k - i) ≤ y.2) ?_ (by simp)
    rintro i x r ⟨n, left⟩ low high enough
    have now : lo + k - i = lo + k - (i + 1) + 1 := by omega
    simp only [now, Nat.mul_succ] at enough
    obtain ⟨b', rfl⟩ := Nat.exists_eq_add_of_le' (show c ≤ left by omega)
    apply Act.wp_mono (step i x r n b' low high)
    intro x' r' y le
    omega
  exact Act.wp_mono loop fun _ _ _ left => by simpa using left

end Loops

/-! ### Actions that draw first -/

section Draws

variable {ρ K V S α β : Type} {L : Logic K V S}

/-- The logic of programs that make no access. -/
def Logic.still (K V : Type) : Logic K V Unit where
  onGet _ _ _ _ := False
  onPut _ _ _ _ := False
  mayStick := True
  onGet_mono h _ := h
  onPut_mono h _ := h

theorem Prog.wp_still {p : Prog K V α} {Q : α → Unit → Prop} (h : p.wp (.still K V) Q ()) :
    p = .stuck ∨ ∃ a, p = .done a ∧ Q a () := by
  cases p with
  | done a => exact .inr ⟨a, rfl, h⟩
  | stuck => exact .inl rfl
  | get | put => exact h.elim

/-- An action that is stuck before its first access, or meets its postcondition. -/
def Act.Begins (L : Logic K V S) (m : Act ρ K V α) (Q : α → ρ → S → Prop) (r : ρ) (s : S) : Prop :=
  m r = .stuck ∨ Act.wp L m Q r s

variable {m : Act ρ K V α} {f : α → Act ρ K V β} {Q : β → ρ → S → Prop} {r : ρ} {s : S}

theorem Act.bind_stuck (stuck : m r = .stuck) : (m >>= f) r = .stuck := by
  show (m r).bind _ = _
  rw [stuck]
  rfl

/-- The draws with which an action begins may stick; what comes after them goes on. -/
theorem Act.begins_draw
    (h : Act.wp (.still K V) m (fun a r _ => Act.Begins L (f a) Q r s) r ()) :
    Act.Begins L (m >>= f) Q r s := by
  rcases Prog.wp_still h with stuck | ⟨⟨a, r'⟩, done, begins⟩
  · exact .inl (Act.bind_stuck stuck)
  · have same : (m >>= f) r = f a r' := by
      show (m r).bind _ = _
      rw [done]
      rfl
    unfold Act.Begins Act.wp at begins ⊢
    rwa [same]

theorem Act.begins_bind (h : Act.Begins L m (fun a => Act.wp L (f a) Q) r s) :
    Act.Begins L (m >>= f) Q r s := by
  rcases h with stuck | goes
  · exact .inl (Act.bind_stuck stuck)
  · right
    rwa [Act.wp_bind]

/-- An action that returns is not stuck before its first access. -/
theorem Act.Returns.ne_stuck {κ : Type} [DecidableEq κ] {addr : K → κ} {s s' : Store κ V} {a : α}
    {r' : ρ} (returns : Act.Returns addr m r s a r' s') {f : α × ρ → β} :
    ((m r).bind fun x => .done (f x)) ≠ .stuck := by
  unfold Act.Returns at returns
  cases start : m r with
  | stuck => simp [start, Prog.exec] at returns
  | done | get | put => simp [Prog.bind]

end Draws

end KvProgram
