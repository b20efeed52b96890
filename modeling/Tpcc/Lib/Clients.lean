import Tpcc.Lib.Program

/-! Clients that share a backend.  Each client is idle or has the rest of a program to run; a move
starts a program, makes the next access of one, or ends one that has returned, so that the accesses
of the clients interleave in any order.  `Run.clients` is the rule for what all interleavings keep:
every client follows the weakest precondition of its program in a logic whose states are the phases
of one client, and an invariant ties the phases of all clients to the store and the moves made, in
runs whose moves are as they are relied on. -/

namespace KvProgram

/-- Clients `ι` with jobs `J` on a backend with states in `σ`. -/
structure Clients (ι J K V α σ : Type) where
  store : σ
  running : ι → Option (J × Prog K V α)

/-- No client runs a program. -/
def Clients.Idle {ι J K V α σ : Type} (c : Clients ι J K V α σ) : Prop := ∀ i, c.running i = none

/-- A move of a client. -/
inductive Move (ι J K V α : Type) where
  | start (client : ι) (job : J)
  | access (client : ι) (job : J) (event : Event K V)
  | finish (client : ι) (job : J) (result : α)

/-- The moves of a client that makes accesses one after another, the latest first. -/
def accessMoves {ι J K V α : Type} (i : ι) (job : J) (events : List (Event K V)) :
    List (Move ι J K V α) :=
  (events.map (Move.access i job)).reverse

theorem mem_accessMoves {ι J K V α : Type} {i : ι} {job : J} {events : List (Event K V)}
    {e : Event K V} :
    (.access i job e : Move ι J K V α) ∈ accessMoves i job events ↔ e ∈ events := by
  simp [accessMoves]

theorem length_accessMoves {ι J K V α : Type} {i : ι} {job : J} {events : List (Event K V)} :
    (accessMoves i job events : List (Move ι J K V α)).length = events.length := by
  simp [accessMoves]

section Moves

variable {ι J K V α σ : Type} [DecidableEq ι] (db : Backend K V σ)
  (isProgram : J → Prog K V α → Prop)

/-- The clients when one of them goes on with a program, or becomes idle. -/
def Clients.set (c : Clients ι J K V α σ) (i : ι) (store : σ) (rest : Option (J × Prog K V α)) :
    Clients ι J K V α σ :=
  ⟨store, Function.update c.running i rest⟩

@[simp] theorem Clients.store_set {c : Clients ι J K V α σ} {i : ι} {store : σ}
    {rest : Option (J × Prog K V α)} : (c.set i store rest).store = store := rfl

@[simp] theorem Clients.running_set {c : Clients ι J K V α σ} {i : ι} {store : σ}
    {rest : Option (J × Prog K V α)} : (c.set i store rest).running i = rest :=
  Function.update_self ..

theorem Clients.running_set_of_ne {c : Clients ι J K V α σ} {i j : ι} {store : σ}
    {rest : Option (J × Prog K V α)} (h : j ≠ i) : (c.set i store rest).running j = c.running j :=
  Function.update_of_ne h ..

@[simp] theorem Clients.set_set {c : Clients ι J K V α σ} {i : ι} {store store' : σ}
    {rest rest' : Option (J × Prog K V α)} :
    (c.set i store rest).set i store' rest' = c.set i store' rest' := by
  simp [Clients.set]

/-- The moves: a job is done by any of its programs. -/
inductive Clients.Step (c : Clients ι J K V α σ) : Move ι J K V α → Clients ι J K V α σ → Prop
  | start {i : ι} {job : J} {p : Prog K V α} : c.running i = none → isProgram job p →
      Step c (.start i job) (c.set i c.store (some (job, p)))
  | access {i : ι} {job : J} {p p' : Prog K V α} {e : Event K V} {s : σ} :
      c.running i = some (job, p) → p.access db c.store = some (e, p', s) →
      Step c (.access i job e) (c.set i s (some (job, p')))
  | finish {i : ι} {job : J} {a : α} : c.running i = some (job, .done a) →
      Step c (.finish i job a) (c.set i c.store none)

/-- A program after at most `n` of its accesses, made alone. -/
def Prog.advance : Nat → Prog K V α → σ → List (Event K V) × Prog K V α × σ
  | 0, p, s => ([], p, s)
  | n + 1, p, s => match p.access db s with
    | some (e, p', s') => let rest := p'.advance n s'; (e :: rest.1, rest.2)
    | none => ([], p, s)

variable {db isProgram}

/-- A program that makes an access. -/
def Prog.Begins : Prog K V α → Bool
  | .get .. | .put .. => true
  | .done _ | .stuck => false

variable (db) in
theorem Prog.exists_mem_advance {p : Prog K V α} (begins : p.Begins) {n : Nat} (pos : 0 < n)
    {s : σ} : ∃ e, e ∈ (p.advance db n s).1 := by
  obtain ⟨n, rfl⟩ := Nat.exists_eq_add_of_lt pos
  cases p with
  | get k size next => exact ⟨_, by simp [Prog.advance, Prog.access]; exact .inl rfl⟩
  | put k v next => exact ⟨_, by simp [Prog.advance, Prog.access]; exact .inl rfl⟩
  | done | stuck => contradiction

theorem Prog.length_advance_le {p : Prog K V α} {n : Nat} {s : σ} :
    (p.advance db n s).1.length ≤ n := by
  induction n generalizing p s with
  | zero => simp [Prog.advance]
  | succ n ih =>
    rw [Prog.advance]
    split
    · simpa using ih
    · simp

/-- A client whose program has returned may become idle. -/
theorem Clients.Step.of_result {c : Clients ι J K V α σ} {i : ι} {job : J} {p : Prog K V α} {a : α}
    (running : c.running i = some (job, p)) (result : p.result = some a) :
    Clients.Step db isProgram c (.finish i job a) (c.set i c.store none) := by
  cases p with
  | done b =>
    obtain rfl := Option.some.inj result
    exact .finish running
  | _ => simp [Prog.result] at result

/-- A client may make some of its accesses one after another. -/
theorem Run.advance {init : Clients ι J K V α σ → Prop} {l : List (Move ι J K V α)}
    {c : Clients ι J K V α σ} {i : ι} {job : J} {p : Prog K V α}
    (run : Run init (Clients.Step db isProgram) l c) (running : c.running i = some (job, p))
    (n : Nat) :
    Run init (Clients.Step db isProgram) (accessMoves i job (p.advance db n c.store).1 ++ l)
      (c.set i (p.advance db n c.store).2.2 (some (job, (p.advance db n c.store).2.1))) := by
  induction n generalizing l c p with
  | zero =>
    have same : c.set i c.store (some (job, p)) = c := by
      rw [Clients.set, ← running, Function.update_eq_self]
    simpa [Prog.advance, accessMoves, same] using run
  | succ n ih =>
    rw [Prog.advance]
    split
    · rename_i e p' s' access
      have next := ih (.next run (.access running access)) Clients.running_set
      simpa [Clients.set, accessMoves] using next
    · have same : c.set i c.store (some (job, p)) = c := by
        rw [Clients.set, ← running, Function.update_eq_self]
      simpa [accessMoves, same] using run

/-- The same, with the part of the program that it runs given. -/
theorem Run.part {init : Clients ι J K V α σ → Prop} {l : List (Move ι J K V α)}
    {c : Clients ι J K V α σ} {i : ι} {job : J} {p : Prog K V α} {n : Nat}
    {x : List (Event K V) × Prog K V α × σ} (run : Run init (Clients.Step db isProgram) l c)
    (running : c.running i = some (job, p)) (part : p.advance db n c.store = x) :
    Run init (Clients.Step db isProgram) (accessMoves i job x.1 ++ l)
      (c.set i x.2.2 (some (job, x.2.1))) := by
  subst part
  exact Run.advance run running n

/-- A client may run a program alone. -/
theorem Run.whole {init : Clients ι J K V α σ → Prop} {l : List (Move ι J K V α)}
    {c : Clients ι J K V α σ} {i : ι} {job : J} {p : Prog K V α} {a : α}
    {x : List (Event K V) × Prog K V α × σ} (run : Run init (Clients.Step db isProgram) l c)
    (waits : c.running i = none) (program : isProgram job p) (n : Nat)
    (all : p.advance db n c.store = x) (result : x.2.1.result = some a) :
    Run init (Clients.Step db isProgram)
      (.finish i job a :: (accessMoves i job x.1 ++ .start i job :: l)) (c.set i x.2.2 none) := by
  subst all
  have done := Run.advance (.next run (.start waits program)) Clients.running_set n
  have next := done.next (.of_result Clients.running_set result)
  simpa using next

/-- A client may run a program while another one pauses in its own. -/
theorem Run.overlap {init : Clients ι J K V α σ → Prop} {l : List (Move ι J K V α)}
    {c : Clients ι J K V α σ} {i j : ι} {job job' : J} {p p' : Prog K V α} {a b : α}
    {x y z : List (Event K V) × Prog K V α × σ}
    (run : Run init (Clients.Step db isProgram) l c) (ne : j ≠ i) (waits : c.running i = none)
    (waits' : c.running j = none) (program : isProgram job p) (program' : isProgram job' p')
    (n m : Nat) (first : p.advance db n c.store = x) (other : p'.advance db m x.2.2 = y)
    (rest : x.2.1.advance db m y.2.2 = z) (result : y.2.1.result = some a)
    (result' : z.2.1.result = some b) :
    ∃ c', Run init (Clients.Step db isProgram) (.finish i job b :: (accessMoves i job z.1 ++
      .finish j job' a :: (accessMoves j job' y.1 ++ .start j job' ::
        (accessMoves i job x.1 ++ .start i job :: l)))) c' := by
  subst first other rest
  have paused := Run.advance (.next run (.start waits program)) Clients.running_set n
  rw [Clients.set_set] at paused
  have stillWaits : (c.set i (p.advance db n c.store).2.2
      (some (job, (p.advance db n c.store).2.1))).running j = none := by
    rw [Clients.running_set_of_ne ne, waits']
  have others := Run.whole paused stillWaits program' m rfl result
  have resumed := Run.advance others (by rw [Clients.running_set_of_ne ne.symm,
    Clients.running_set]) m
  exact ⟨_, resumed.next (.of_result Clients.running_set result')⟩

end Moves

section Rule

variable {ι J K V α κ Φ : Type} [DecidableEq ι] [DecidableEq κ] {addr : K → κ}
  {isProgram : J → Prog K V α → Prop} {init : Clients ι J K V α (Store κ V) → Prop}
  {L : J → Logic K V Φ} {Q : J → α → Φ → Prop} {idle : Φ}
  {relied : Move ι J K V α → List (Move ι J K V α) → Prop}
  {I : List (Move ι J K V α) → Store κ V → (ι → Φ) → Prop}

/-- The moves of a client, as the logic of its job allows them and as they are relied on after those
made before, keep an invariant of the moves made, the store and the phases of the clients. -/
structure Clients.Keeps (addr : K → κ) (L : J → Logic K V Φ) (Q : J → α → Φ → Prop) (idle : Φ)
    (relied : Move ι J K V α → List (Move ι J K V α) → Prop)
    (I : List (Move ι J K V α) → Store κ V → (ι → Φ) → Prop) : Prop where
  start : ∀ {l s phase} i job, I l s phase → phase i = idle → I (.start i job :: l) s phase
  get : ∀ {l s phase} i job k n {P}, I l s phase → (L job).onGet k n P (phase i) →
    ∃ φ, P (s (addr k)) φ ∧
      I (.access i job (.get k n (s (addr k))) :: l) s (Function.update phase i φ)
  put : ∀ {l s phase} i job k v {P}, relied (.access i job (.put k v)) l → I l s phase →
    (L job).onPut k v P (phase i) →
    ∃ φ, P φ ∧ I (.access i job (.put k v) :: l) (s.put (addr k) v) (Function.update phase i φ)
  finish : ∀ {l s phase} i job a, I l s phase → Q job a (phase i) →
    I (.finish i job a :: l) s (Function.update phase i idle)

/-- Every move is as it is relied on after those before it. -/
def Relied (relied : Move ι J K V α → List (Move ι J K V α) → Prop) :
    List (Move ι J K V α) → Prop
  | [] => True
  | move :: l => relied move l ∧ Relied relied l

instance Relied.decidable [∀ move l, Decidable (relied move l)] : ∀ l, Decidable (Relied relied l)
  | [] => .isTrue trivial
  | move :: l =>
    have : Decidable (Relied relied l) := Relied.decidable l
    inferInstanceAs (Decidable (relied move l ∧ Relied relied l))

/-- What holds of all clients while they run: the invariant, and that the program of each client can
go on from the phase of the client. -/
structure Clients.Follow (L : J → Logic K V Φ) (Q : J → α → Φ → Prop) (idle : Φ)
    (I : List (Move ι J K V α) → Store κ V → (ι → Φ) → Prop) (l : List (Move ι J K V α))
    (c : Clients ι J K V α (Store κ V)) (phase : ι → Φ) : Prop where
  invariant : I l c.store phase
  rest : ∀ i job p, c.running i = some (job, p) → p.wp (L job) (Q job) (phase i)
  waits : ∀ i, c.running i = none → phase i = idle

omit [DecidableEq κ] in
/-- A move of one client leaves the others where they are. -/
theorem Clients.Follow.set {l : List (Move ι J K V α)} {c : Clients ι J K V α (Store κ V)}
    {phase : ι → Φ} (h : Clients.Follow L Q idle I l c phase) {move : Move ι J K V α} {i : ι}
    {s : Store κ V} {rest : Option (J × Prog K V α)} {φ : Φ}
    (invariant : I (move :: l) s (Function.update phase i φ))
    (program : ∀ job p, rest = some (job, p) → p.wp (L job) (Q job) φ)
    (waits : rest = none → φ = idle) :
    Clients.Follow L Q idle I (move :: l) (c.set i s rest) (Function.update phase i φ) := by
  constructor
  · exact invariant
  · intro j job p running
    by_cases own : j = i
    · subst own
      rw [Clients.running_set] at running
      rw [Function.update_self]
      exact program job p running
    · rw [Clients.running_set_of_ne own] at running
      rw [Function.update_of_ne own]
      exact h.rest j job p running
  · intro j running
    by_cases own : j = i
    · subst own
      rw [Clients.running_set] at running
      rw [Function.update_self]
      exact waits running
    · rw [Clients.running_set_of_ne own] at running
      rw [Function.update_of_ne own]
      exact h.waits j running

theorem Clients.Follow.step (keeps : Clients.Keeps addr L Q idle relied I)
    (programs : ∀ job p, isProgram job p → p.wp (L job) (Q job) idle)
    {l : List (Move ι J K V α)} {c c' : Clients ι J K V α (Store κ V)} {phase : ι → Φ}
    {move : Move ι J K V α} (h : Clients.Follow L Q idle I l c phase) (rely : relied move l)
    (step : Clients.Step (.exact V addr) isProgram c move c') :
    ∃ phase', Clients.Follow L Q idle I (move :: l) c' phase' := by
  cases step with
  | @start i job p isIdle program =>
    have same : Function.update phase i idle = phase := by
      rw [← h.waits i isIdle, Function.update_eq_self]
    have next : I (.start i job :: l) c.store (Function.update phase i idle) := by
      rw [same]
      exact keeps.start i job h.invariant (h.waits i isIdle)
    refine ⟨_, h.set next ?_ (by simp)⟩
    rintro job' p' ⟨⟩
    exact programs job p program
  | @access i job p p' e s running access =>
    have rest := h.rest i job p running
    cases p with
    | done a => simp [Prog.access] at access
    | stuck => simp [Prog.access] at access
    | get k n next =>
      simp only [Prog.access, Option.some.injEq, Prod.mk.injEq] at access
      obtain ⟨rfl, rfl, rfl⟩ := access
      obtain ⟨φ, program, invariant⟩ := keeps.get i job k n h.invariant rest
      refine ⟨_, h.set invariant ?_ (by simp)⟩
      rintro job' p' ⟨⟩
      exact program
    | put k v next =>
      simp only [Prog.access, Option.some.injEq, Prod.mk.injEq] at access
      obtain ⟨rfl, rfl, rfl⟩ := access
      obtain ⟨φ, program, invariant⟩ := keeps.put i job k v rely h.invariant rest
      refine ⟨_, h.set invariant ?_ (by simp)⟩
      rintro job' p' ⟨⟩
      exact program
  | @finish i job a running =>
    have result : Q job a (phase i) := h.rest i job (.done a) running
    exact ⟨_, h.set (keeps.finish i job a h.invariant result) (by simp) fun _ => rfl⟩

/-- The rule for interleavings: what the moves of single clients keep holds after all runs whose
moves are as they are relied on. -/
theorem Run.clients (keeps : Clients.Keeps addr L Q idle relied I)
    (programs : ∀ job p, isProgram job p → p.wp (L job) (Q job) idle)
    (first : ∀ c, init c → c.Idle ∧ I [] c.store fun _ => idle)
    {l : List (Move ι J K V α)} {c : Clients ι J K V α (Store κ V)}
    (run : Run init (Clients.Step (.exact V addr) isProgram) l c) (rely : Relied relied l) :
    ∃ phase, Clients.Follow L Q idle I l c phase := by
  induction run with
  | @start c isFirst =>
    obtain ⟨isIdle, invariant⟩ := first c isFirst
    refine ⟨fun _ => idle, invariant, fun i job p running => ?_, fun _ _ => rfl⟩
    rw [isIdle i] at running
    contradiction
  | next _ step ih =>
    obtain ⟨phase, follow⟩ := ih rely.2
    exact follow.step keeps programs rely.1 step

end Rule

end KvProgram
