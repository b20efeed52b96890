import Tpcc.Lib.Simulation

/-! Jobs that leave no trace.  The programs of some jobs write nothing; when their moves are left
out of a run of clients, a run of the other jobs remains, through the same states of the backend and
with the other programs at the same places. -/

namespace KvProgram

section Programs

variable {K V σ α : Type} {db : Backend K V σ}

/-- A program that writes nothing, whatever it reads. -/
def Prog.Reads (p : Prog K V α) : Prop := p.Writes fun _ _ => False

/-- The next access of a program that writes nothing is a read, and leaves the backend as it is. -/
theorem Prog.Reads.access {p p' : Prog K V α} {e : Event K V} {s s' : σ} (h : p.Reads)
    (access : p.access db s = some (e, p', s')) :
    (∃ k n, e = .get k n (db.get s k)) ∧ p'.Reads ∧ s' = s := by
  cases p with
  | done a => simp [Prog.access] at access
  | stuck => simp [Prog.access] at access
  | get k n next =>
    simp only [Prog.access, Option.some.injEq, Prod.mk.injEq] at access
    obtain ⟨rfl, rfl, rfl⟩ := access
    exact ⟨⟨k, n, rfl⟩, h _, rfl⟩
  | put k v next => exact h.1.elim

end Programs

section Moves

variable {ι J K V α σ : Type} {reads : J → Bool}

/-- The job that a move belongs to. -/
def Move.job : Move ι J K V α → J
  | .start _ job | .access _ job _ | .finish _ job _ => job

/-- The moves of the jobs that `reads` does not hold of. -/
def others (reads : J → Bool) (l : List (Move ι J K V α)) : List (Move ι J K V α) :=
  l.filter fun move => !reads move.job

theorem others_cons_of_reads {move : Move ι J K V α} {l : List (Move ι J K V α)}
    (h : reads move.job = true) : others reads (move :: l) = others reads l :=
  List.filter_cons_of_neg (by simp [h])

theorem others_cons {move : Move ι J K V α} {l : List (Move ι J K V α)}
    (h : reads move.job = false) : others reads (move :: l) = move :: others reads l :=
  List.filter_cons_of_pos (by simp [h])

/-- The clients as if those that run a job that `reads` holds of were idle. -/
def Clients.others (reads : J → Bool) (c : Clients ι J K V α σ) : Clients ι J K V α σ :=
  ⟨c.store, fun i => (c.running i).filter fun x => !reads x.1⟩

theorem Clients.Idle.others {c : Clients ι J K V α σ} (h : c.Idle) : c.others reads = c := by
  unfold Clients.others
  congr 1
  funext i
  rw [h i, Option.filter_none]

theorem Clients.running_others {c : Clients ι J K V α σ} {i : ι} {job : J} {p : Prog K V α}
    (running : c.running i = some (job, p)) (h : reads job = false) :
    (c.others reads).running i = some (job, p) := by
  simp [Clients.others, running, h]

theorem Clients.idle_others {c : Clients ι J K V α σ} {i : ι}
    (h : ∀ job p, c.running i = some (job, p) → reads job = true) :
    (c.others reads).running i = none := by
  cases running : c.running i with
  | none => simp [Clients.others, running]
  | some x => simp [Clients.others, running, h x.1 x.2 running]

variable [DecidableEq ι]

theorem Clients.others_set {c : Clients ι J K V α σ} {i : ι} {s : σ}
    {rest : Option (J × Prog K V α)} :
    (c.set i s rest).others reads =
      (c.others reads).set i s (rest.filter fun x => !reads x.1) := by
  unfold Clients.others Clients.set
  congr 1
  funext j
  by_cases own : j = i
  · subst own
    simp only [Function.update_self]
  · simp only [Function.update_of_ne own]

theorem Clients.others_set_some {c : Clients ι J K V α σ} {i : ι} {s : σ} {job : J}
    {p : Prog K V α} (h : reads job = false) :
    (c.set i s (some (job, p))).others reads = (c.others reads).set i s (some (job, p)) := by
  rw [Clients.others_set, Option.filter_some, if_pos (by simp [h])]

/-- A client that goes on with a job that is left out, from a place where it is left out too. -/
theorem Clients.others_set_of_reads {c : Clients ι J K V α σ} {i : ι}
    {rest : Option (J × Prog K V α)} (before : (c.others reads).running i = none)
    (after : ∀ job p, rest = some (job, p) → reads job = true) :
    (c.set i c.store rest).others reads = c.others reads := by
  have left : rest.filter (fun x => !reads x.1) = none := by
    cases rest with
    | none => rfl
    | some x => simp [after x.1 x.2 rfl]
  rw [Clients.others_set, left, ← before, Clients.set, Function.update_eq_self]
  rfl

variable {db : Backend K V σ} {isProgram : J → Prog K V α → Prop}
  {init : Clients ι J K V α σ → Prop}

/-- What is left of a run, when the moves of the jobs whose programs write nothing are left out. -/
structure Erased (db : Backend K V σ) (isProgram : J → Prog K V α → Prop)
    (init : Clients ι J K V α σ → Prop) (reads : J → Bool) (l : List (Move ι J K V α))
    (c : Clients ι J K V α σ) : Prop where
  run : Run init (Clients.Step db isProgram) (KvProgram.others reads l) (c.others reads)
  rest : ∀ i job p, c.running i = some (job, p) → reads job = true → p.Reads
  puts : ∀ i job k v, reads job = true → .access i job (.put k v) ∉ l

/-- One client goes on. -/
theorem Erased.rest_set {l : List (Move ι J K V α)} {c : Clients ι J K V α σ}
    (h : Erased db isProgram init reads l c) {i : ι} {s : σ} {rest : Option (J × Prog K V α)}
    (program : ∀ job p, rest = some (job, p) → reads job = true → p.Reads) (j : ι) (job : J)
    (p : Prog K V α) (running : (c.set i s rest).running j = some (job, p))
    (isReading : reads job = true) : p.Reads := by
  by_cases own : j = i
  · subst own
    rw [Clients.running_set] at running
    exact program job p running isReading
  · rw [Clients.running_set_of_ne own] at running
    exact h.rest j job p running isReading

theorem Erased.step (programs : ∀ job p, reads job = true → isProgram job p → p.Reads)
    {l : List (Move ι J K V α)} {c c' : Clients ι J K V α σ} {move : Move ι J K V α}
    (h : Erased db isProgram init reads l c) (step : Clients.Step db isProgram c move c') :
    Erased db isProgram init reads (move :: l) c' := by
  cases step with
  | @start i job p isIdle program =>
    have waits : (c.others reads).running i = none := Clients.idle_others (by simp [isIdle])
    refine ⟨?_, ?_, fun j job' k v isReading => ?_⟩
    · by_cases isReading : reads job = true
      · rw [others_cons_of_reads isReading, Clients.others_set_of_reads waits (by simp [isReading])]
        exact h.run
      · have writes : reads job = false := by simpa using isReading
        rw [others_cons writes, Clients.others_set_some writes]
        exact h.run.next (.start waits program)
    · apply h.rest_set
      rintro job' p' ⟨⟩ isReading
      exact programs job p isReading program
    · simpa using h.puts j job' k v isReading
  | @access i job p p' e s running access =>
    refine ⟨?_, ?_, fun j job' k v isReading mem => ?_⟩
    · by_cases isReading : reads job = true
      · obtain ⟨_, _, rfl⟩ := (h.rest i job p running isReading).access access
        have out : (c.others reads).running i = none :=
          Clients.idle_others (by simp [running, isReading])
        rw [others_cons_of_reads isReading, Clients.others_set_of_reads out (by simp [isReading])]
        exact h.run
      · have writes : reads job = false := by simpa using isReading
        rw [others_cons writes, Clients.others_set_some writes]
        exact h.run.next (.access (Clients.running_others running writes) access)
    · apply h.rest_set
      rintro job' p'' ⟨⟩ isReading
      exact ((h.rest i job p running isReading).access access).2.1
    · rcases List.mem_cons.mp mem with same | mem
      · simp only [Move.access.injEq] at same
        obtain ⟨rfl, rfl, rfl⟩ := same
        obtain ⟨⟨_, _, read⟩, _⟩ := (h.rest j job' p running isReading).access access
        contradiction
      · exact h.puts j job' k v isReading mem
  | @finish i job a running =>
    refine ⟨?_, ?_, fun j job' k v isReading => ?_⟩
    · by_cases isReading : reads job = true
      · have out : (c.others reads).running i = none :=
          Clients.idle_others (by simp [running, isReading])
        rw [others_cons_of_reads isReading, Clients.others_set_of_reads out (by simp)]
        exact h.run
      · have writes : reads job = false := by simpa using isReading
        rw [others_cons writes, Clients.others_set]
        exact h.run.next (.finish (Clients.running_others running writes))
    · exact h.rest_set (by simp)
    · simpa using h.puts j job' k v isReading

end Moves

end KvProgram
