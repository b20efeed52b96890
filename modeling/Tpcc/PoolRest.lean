import Mathlib.Data.Fintype.BigOperators
import Tpcc.ThreadPool

/-! How the thread pool comes to rest.  Sleeping workers have threads that will take the tasks of
the queue, or wake one of them to do so; the workers that are stopped and a user who waits are
woken; so a pool that can move no further has run all tasks.  The moves of a pool are bounded by its
calls. -/

namespace Tpcc.ThreadPool

open KvProgram Monitor

/-! ### Wake-ups -/

section WakeUps

variable {τ ω : Type} [DecidableEq ω] [Fintype ω] {n : Nat}
  {l : List (Move (Thread n ω) (Place τ))} {s s' : State (Thread n ω) (Pool τ) Cv (Place τ)}

/-- Where threads wait on the condition variables. -/
def waits : Cv → Place τ → Prop
  | .taskAvailable, p => p = .worker
  | .tasksDone, p => ∃ caller, p = .waiting caller

theorem take_waits {d : Pool τ} {c : Cv} (sleeps : (take d).2.waitsOn = some c) :
    c = .taskAvailable ∧ d.workersRunning = true ∧ d.tasks = [] ∧ (take d).1 = d ∧
      (take d).2.place = .worker := by
  unfold take at sleeps ⊢
  split at sleeps
  · split at sleeps
    · simp_all
    · cases sleeps
  · cases sleeps

theorem look_waits {d : Pool τ} {caller : Caller τ} {c : Cv}
    (sleeps : (look caller d).2.waitsOn = some c) :
    c = .tasksDone ∧ ¬(d.tasksRunning = 0 ∧ d.tasks = []) ∧ (look caller d).1 = d ∧
      (look caller d).2.place = .waiting caller := by
  by_cases returns : d.tasksRunning = 0 ∧ d.tasks = []
  · simp [look, returns] at sleeps
  · have same : look caller d = (d, ⟨.waiting caller, some .tasksDone, []⟩) := if_neg returns
    rw [same] at sleeps ⊢
    cases sleeps
    exact ⟨rfl, returns, rfl, rfl⟩

theorem take_running (d : Pool τ) : (take d).1.workersRunning = d.workersRunning := by
  unfold take
  split
  · split <;> rfl
  · rfl

theorem look_running (caller : Caller τ) (d : Pool τ) :
    (look caller d).1.workersRunning = d.workersRunning := by
  unfold look
  split <;> rfl

theorem take_idle {d : Pool τ} (idle : (take d).1.tasksRunning = 0) : (take d).1 = d := by
  unfold take at idle ⊢
  split
  · rw [if_pos ‹_›] at idle
    split
    · rfl
    · simp [‹d.tasks = _›] at idle
  · rfl

theorem look_done {d : Pool τ} {caller : Caller τ}
    (done : (look caller d).1.tasksRunning = 0 ∧ (look caller d).1.tasks = []) :
    (d.tasksRunning = 0 ∧ d.tasks = []) ∧ (look caller d).2.waitsOn = none := by
  by_cases returns : d.tasksRunning = 0 ∧ d.tasks = []
  · exact ⟨returns, by simp [look, returns]⟩
  · have same : look caller d = (d, ⟨.waiting caller, some .tasksDone, []⟩) := if_neg returns
    rw [same] at done
    exact absurd done returns

omit [DecidableEq ω] [Fintype ω] in
theorem instr_rests : Rests (instr n : Place τ → Instr (Thread n ω) _ _ _) waits := by
  intro p body code d c sleeps
  rcases critical_cases code with ⟨_, rfl⟩ | ⟨_, rfl⟩ | ⟨caller, t, _, rfl⟩ | ⟨caller, _, rfl⟩ |
    ⟨caller, _, rfl⟩ | ⟨t, _, rfl⟩
  · obtain ⟨rfl, _, _, _, place⟩ := take_waits sleeps
    exact place
  · cases sleeps
  · cases sleeps
  · obtain ⟨rfl, _, _, place⟩ := look_waits sleeps
    exact ⟨caller, place⟩
  · obtain ⟨rfl, _, _, place⟩ := look_waits sleeps
    exact ⟨caller, place⟩
  · cases sleeps

omit [Fintype ω] in
theorem PoolRun.waits (run : PoolRun n l s) :
    ∀ i c, s.asleep i = some c → waits c (s.place i) :=
  Runs.rests instr_rests run

/-- The tasks that wait for a worker, while the workers are not stopped. -/
def tickets (d : Pool τ) : Nat := if d.workersRunning then d.tasks.length else 0

/-- The places of the threads that will take a task: at the top of the loop, or about to notify a
thread that is there. -/
abbrev Serving (n : Nat) (ω : Type) (p : Place τ) : Prop :=
  Serves (instr n : Place τ → Instr (Thread n ω) _ _ _) .taskAvailable (· = .worker) p

omit [DecidableEq ω] [Fintype ω] in
theorem serving_cases {p : Place τ} (serves : Serving n ω p) :
    p = .worker ∨ ∃ caller, p = .notify caller := by
  rcases serves with there | ⟨next, code⟩
  · exact .inl there
  · obtain ⟨-, caller, there, -⟩ := notifyOne_cases code
    exact .inr ⟨caller, there⟩

omit [DecidableEq ω] [Fintype ω] in
/-- Where a thread that serves no task makes none, nothing is to be shown. -/
theorem tickets_look {d : Pool τ} {caller : Caller τ} {p : Place τ} (serves : ¬Serving n ω p) :
    tickets (look caller d).1 = 0 ∨ (look caller d).2.waitsOn ≠ some .taskAvailable ∧
      tickets (look caller d).1 + weight (Serving n ω p) ≤
        tickets d + weight ((look caller d).2.waitsOn = none ∧
          Serving n ω (look caller d).2.place) := by
  unfold look
  split
  · simp [tickets, (‹_ ∧ _› : d.tasksRunning = 0 ∧ d.tasks = []).2]
  · simp [weight_neg serves]

omit [DecidableEq ω] [Fintype ω] in
/-- Each push makes a task and notifies a worker, and a worker sleeps only where there is no
task. -/
theorem tickets_served :
    Tickets (instr n : Place τ → Instr (Thread n ω) _ _ _) .taskAvailable
      (· = .worker) tickets where
  body := by
    intro p body d code
    rcases critical_cases code with ⟨rfl, rfl⟩ | ⟨rfl, rfl⟩ | ⟨caller, t, rfl, rfl⟩ |
      ⟨caller, rfl, rfl⟩ |
      ⟨caller, rfl, rfl⟩ | ⟨t, rfl, rfl⟩
    · unfold take
      split
      · split
        · left
          simp [tickets, ‹d.tasks = []›]
        · right
          have one : weight (Serving n ω (.worker : Place τ)) ≤ 1 := weight_le _
          simp only [Serving] at one
          simp [tickets, ‹d.tasks = _›, ‹d.workersRunning = true›]
          omega
      · left
        simp [tickets, ‹¬d.workersRunning = true›]
    · exact .inl rfl
    · right
      have serves : ¬Serving n ω (.push caller t) :=
        fun serves => by simpa using serving_cases serves
      have next : Serving n ω (.notify caller : Place τ) := .inr ⟨_, rfl⟩
      simp only [weight_neg serves, next, and_true, weight_pos, tickets, List.length_append]
      split <;> simp
    · exact tickets_look fun serves => by simpa using serving_cases serves
    · exact tickets_look fun serves => by simpa using serving_cases serves
    · right
      have serves : ¬Serving n ω (.ran t) := fun serves => by simpa using serving_cases serves
      simp only [weight_neg serves, leaveTask, tickets]
      exact ⟨nofun, Nat.le_add_right ..⟩
  critical := by
    rintro p rfl
    exact ⟨take, rfl⟩
  rests := by
    intro p body d code sleeps
    rcases critical_cases code with ⟨_, rfl⟩ | ⟨_, rfl⟩ | ⟨caller, t, _, rfl⟩ | ⟨caller, _, rfl⟩ |
      ⟨caller, _, rfl⟩ | ⟨t, _, rfl⟩
    · obtain ⟨_, _, _, _, place⟩ := take_waits sleeps
      exact place
    · cases sleeps
    · cases sleeps
    · cases (look_waits sleeps).1
    · cases (look_waits sleeps).1
    · cases sleeps

omit [Fintype ω] in
/-- Stopped workers do not sleep, or are about to be notified. -/
theorem PoolRun.stop_signalled (run : PoolRun n l s) :
    Signalled (instr n) (fun d => d.workersRunning = false) .taskAvailable s := by
  apply Runs.signalled _ run
  intro l s _ i body awake code stopped
  rcases critical_cases code with ⟨_, rfl⟩ | ⟨_, rfl⟩ | ⟨caller, t, _, rfl⟩ | ⟨caller, _, rfl⟩ |
    ⟨caller, _, rfl⟩ | ⟨t, _, rfl⟩
  · have before := (take_running _).symm.trans stopped
    refine ⟨fun sleeps => ?_, .inl before⟩
    rw [(take_waits sleeps).2.1] at before
    contradiction
  · exact ⟨nofun, .inr (.inr (.inr ⟨rfl, .join 0, rfl⟩))⟩
  · exact ⟨nofun, .inl stopped⟩
  · exact ⟨fun sleeps => (nomatch (look_waits sleeps).1),
      .inl (by simpa only [look_running] using stopped)⟩
  · exact ⟨fun sleeps => (nomatch (look_waits sleeps).1),
      .inl (by simpa only [look_running] using stopped)⟩
  · exact ⟨nofun, .inl stopped⟩

/-- A user thread does not sleep where all tasks are done. -/
theorem PoolRun.done_signalled [Subsingleton ω] (run : PoolRun n l s) :
    Signalled (instr n) (fun d => d.tasksRunning = 0 ∧ d.tasks = []) .tasksDone s := by
  classical
  apply Runs.signalled _ run
  intro l s run i body awake code done
  rcases critical_cases code with ⟨_, rfl⟩ | ⟨_, rfl⟩ | ⟨caller, t, _, rfl⟩ | ⟨caller, _, rfl⟩ |
    ⟨caller, _, rfl⟩ | ⟨t, there, rfl⟩
  · refine ⟨fun sleeps => (nomatch (take_waits sleeps).1), .inl ?_⟩
    rw [take_idle done.1] at done
    exact done
  · exact ⟨nofun, .inl done⟩
  · simp at done
  · obtain ⟨before, waits⟩ := look_done done
    exact ⟨by simp [waits], .inl before⟩
  · obtain ⟨before, waits⟩ := look_done done
    exact ⟨by simp [waits], .inl before⟩
  · refine ⟨nofun, .inr ?_⟩
    by_cases sleeper : ∃ j, s.asleep j = some .tasksDone
    · obtain ⟨j, sleeps⟩ := sleeper
      obtain ⟨caller, waiting⟩ := PoolRun.waits run j _ sleeps
      right; left
      have flag : s.data.waiting = true := by
        apply PoolRun.flag run j caller waiting
        -- A second worker in a task would keep the counter above zero.
        cases task : caller.ofTask with
        | none => rfl
        | some u =>
          have other : j ≠ i := by
            rintro rfl
            rw [awake] at sleeps
            contradiction
          have two := count_two (p := fun j => (s.place j).task.isSome) (i := i) (j := j)
            (by simp [there, Place.task]) (by simp [waiting, Place.task, task]) other
          rw [← (PoolRun.accounts run).running] at two
          have last : s.data.tasksRunning - 1 = 0 := done.1
          omega
      have notified : (leaveTask s.data).2.notified = [.tasksDone] := if_pos ⟨flag, done⟩
      rw [notified]
      exact List.mem_singleton_self _
    · exact .inl fun j sleeps => sleeper ⟨j, sleeps⟩

end WakeUps

/-! ### Pools at rest -/

section Rest

variable {τ ω : Type} [DecidableEq ω] {n : Nat}
  {l : List (Move (Thread n ω) (Place τ))} {s s' : State (Thread n ω) (Pool τ) Cv (Place τ)}

/-- A pool at rest: nothing moves but the code of users, and threads that wake up without being
notified. -/
def AtRest (s : State (Thread n ω) (Pool τ) Cv (Place τ)) : Prop :=
  ∀ i p q s', Step (instr n) s (.go i p q) s' → p = .body .user

/-- An awake thread of a pool at rest. -/
theorem AtRest.awake (rest : AtRest s) {i : Thread n ω} (awake : s.asleep i = none) :
    s.place i = .body .user ∨ s.place i = .exited ∨ ∃ k, s.place i = .join k ∧
      ∀ h : k < n, s.place (.inl ⟨k, h⟩) ≠ .exited := by
  have stays (ready : (instr n (s.place i)).Ready (instr n) s) : s.place i = .body .user := by
    obtain ⟨q, s', step⟩ := exists_step awake ready
    exact rest i _ q s' step
  cases there : s.place i with
  | body caller =>
    rw [there] at stays
    cases caller with
    | user => exact .inl rfl
    | task t => exact .inl (stays ⟨.ran t, .inr (.inr rfl)⟩)
    | destructor => exact .inl (stays trivial)
  | exited => exact .inr (.inl rfl)
  | join k =>
    refine .inr (.inr ⟨k, rfl, fun bound exited => ?_⟩)
    have code : (instr n (.join k : Place τ) : Instr (Thread n ω) _ _ _) =
        .join (.inl ⟨k, bound⟩) (.join (k + 1)) := dif_pos bound
    rw [there, code] at stays
    have halted : Instr.Ready (instr n) s (.join (.inl ⟨k, bound⟩) (.join (k + 1))) := by
      rw [Instr.Ready, exited]
      rfl
    exact nomatch stays halted
  | worker | push | notify | wait | waiting | ran | notifyStop =>
    rw [there] at stays
    exact .inl (stays trivial)

section Done

variable (run : PoolRun n l s) (rest : AtRest s)
  (alone : ∀ i t, s.place i ≠ .waiting (.task t))

include run rest alone

/-- Where no task waits, the workers of a pool at rest sleep or have left their loops. -/
theorem worker_at_rest (w : Fin n) :
    s.place (.inl w) = .worker ∧ s.asleep (.inl w) = some .taskAvailable ∨
      s.place (.inl w) = .exited := by
  have role := (PoolRun.ofWorker run (.inl w)).mpr rfl
  cases asleep : s.asleep (.inl w) with
  | none =>
    rcases rest.awake asleep with there | there | ⟨k, there, -⟩
    · simp [there, Place.OfWorker, Place.task, Caller.ofTask] at role
    · exact .inr there
    · simp [there, Place.OfWorker, Place.task] at role
  | some c =>
    have there := PoolRun.waits run _ c asleep
    cases c with
    | taskAvailable => exact .inl ⟨there, rfl⟩
    | tasksDone =>
      obtain ⟨caller, there⟩ := there
      rw [there] at role
      cases caller with
      | task t => exact absurd there (alone _ t)
      | user | destructor => simp [Place.OfWorker, Place.task, Caller.ofTask] at role

/-- Stopped workers of a pool at rest have left their loops. -/
theorem exited_at_rest (stopped : s.data.workersRunning = false) (w : Fin n) :
    s.place (.inl w) = .exited := by
  rcases worker_at_rest run rest alone w with ⟨-, asleep⟩ | exited
  · rcases PoolRun.stop_signalled run stopped with quiet | ⟨i, next, awake, code⟩
    · exact absurd asleep (quiet _)
    · obtain ⟨-, place, -⟩ := notifyAll_cases code
      rcases rest.awake awake with there | there | ⟨k, there, -⟩ <;> simp [there] at place
  · exact exited

variable [Fintype ω]

theorem idle_at_rest : s.data.tasksRunning = 0 := by
  classical
  have none (i : Thread n ω) : (s.place i).task = none := by
    cases i with
    | inl w =>
      rcases worker_at_rest run rest alone w with ⟨there, -⟩ | there <;> rw [there] <;> rfl
    | inr u => exact PoolRun.user_task run u
  rw [(PoolRun.accounts run).running]
  simp [none, count]

/-- While the workers are not stopped, the queue of a pool at rest is empty. -/
theorem empty_at_rest (w : Fin n) (running : s.data.workersRunning = true) : s.data.tasks = [] := by
  have asleep : s.asleep (.inl w) = some .taskAvailable := by
    rcases worker_at_rest run rest alone w with ⟨-, asleep⟩ | exited
    · exact asleep
    · rw [PoolRun.exited run _ exited] at running
      contradiction
  have served := Runs.served tickets_served run ⟨_, asleep⟩
  have none : count (s.Serving (instr n) .taskAvailable (· = .worker)) = 0 := by
    apply Nat.eq_zero_of_not_pos
    intro some
    obtain ⟨i, awake, serves⟩ := exists_of_count_pos some
    have place := serving_cases serves
    rcases rest.awake awake with there | there | ⟨k, there, -⟩ <;> simp [there] at place
  rw [none, tickets, if_pos running] at served
  exact List.eq_nil_of_length_eq_zero (Nat.le_zero.mp served)

/-- The user thread of a pool at rest is outside of the pool, or has destroyed it. -/
theorem user_at_rest [Subsingleton ω] (empty : s.data.tasks = []) (u : ω) :
    s.place (.inr u) = .body .user ∨ s.place (.inr u) = .join n := by
  have role := (PoolRun.ofWorker run (.inr u)).not.mpr (by simp)
  cases asleep : s.asleep (.inr u) with
  | none =>
    rcases rest.awake asleep with there | there | ⟨k, there, joins⟩
    · exact .inl there
    · exact absurd (.inr (.inl there)) role
    · right
      have stopped := PoolRun.stops run _ (.inr ⟨k, there⟩)
      have bound := (PoolRun.joined run _ k there).1
      have all : ¬k < n := fun h => joins h (exited_at_rest run rest alone stopped ⟨k, h⟩)
      rw [there, show k = n from by omega]
  | some c =>
    have there := PoolRun.waits run _ c asleep
    cases c with
    | taskAvailable => exact absurd (.inl there) role
    | tasksDone =>
      rcases PoolRun.done_signalled run ⟨idle_at_rest run rest alone, empty⟩ with quiet |
        ⟨i, next, -, code⟩
      · exact absurd asleep (quiet _)
      · cases (notifyAll_cases code).1

end Done

/-- No wake-up is lost: where a pool with one user thread, whose tasks do not wait for the pool, can
move no further on its own, every task that has been pushed has been run to its end, and no call of
the user thread is still under way.  The pool has at least one worker for that. -/
theorem pool_at_rest [Fintype ω] [Subsingleton ω] (hardware threadCount : UInt32)
    {l : List (Move (Thread (determineThreadCount hardware threadCount).toNat ω) (Place τ))}
    {s : State (Thread (determineThreadCount hardware threadCount).toNat ω) (Pool τ) Cv (Place τ)}
    (run : PoolRun (determineThreadCount hardware threadCount).toNat l s) (rest : AtRest s)
    (alone : ∀ i t, s.place i ≠ .waiting (.task t)) :
    (finished l).Perm (pushed l) ∧ ∀ u, s.place (.inr u) = .body .user ∨
      s.place (.inr u) = .join (determineThreadCount hardware threadCount).toNat := by
  have zero := idle_at_rest run rest alone
  have empty : s.data.tasks = [] := by
    by_cases running : s.data.workersRunning = true
    · exact empty_at_rest run rest alone ⟨0, determineThreadCount_pos hardware threadCount⟩ running
    · obtain ⟨u, stops⟩ := PoolRun.stopper run (by simpa using running)
      exact (PoolRun.destroying run _ (.inr stops)).2
  exact ⟨PoolRun.all_finished run zero empty, user_at_rest run rest alone empty⟩

theorem pool_at_rest_destroyed : (finished (destroyed 7 8)).Perm (pushed (destroyed 7 8)) := by
  let places : Thread 2 Unit → Place Nat := placesOf .exited .exited (.join 2)
  have rest : AtRest (awake { created with workersRunning := false } places) := by
    intro i p q s' step
    obtain ⟨source, -, -⟩ := step.source
    match i with
    | .inl 0 | .inl 1 | .inr () => exact absurd rfl (source ▸ step.not_halt)
  have alone : ∀ i t, places i ≠ .waiting (.task t) := by
    intro i t
    match i with
    | .inl 0 | .inl 1 | .inr () => nofun
  exact (pool_at_rest 0 2 (run_destroyed 7 8) rest alone).1

end Rest

/-! ### How long a pool moves -/

section Length

variable {τ ω : Type}

/-- What the moves to a place cost that are left to its thread, in a pool with `n` workers and `N`
threads. -/
def Caller.toll (n N : Nat) : Caller τ → Nat
  | .user => 0
  | .task _ => N + 3
  | .destructor => n + N + 2

def Place.toll (n N : Nat) : Place τ → Nat
  | .worker => 1
  | .body caller => caller.toll n N
  | .push caller _ => caller.toll n N + N + 6
  | .notify caller => caller.toll n N + 2
  | .wait caller | .waiting caller => caller.toll n N + 1
  | .ran _ => N + 2
  | .exited => 0
  | .notifyStop => n + N + 1
  | .join i => n - i

/-- The places where calls of the pool begin. -/
def Place.call : Place τ → Bool
  | .push _ _ | .wait _ => true
  | _ => false

/-- The moves of a run that begin calls. -/
def calls {ι : Type} (l : List (Move ι (Place τ))) : Nat :=
  l.countP fun
    | .go _ _ target => target.call
    | .wake _ => false

/-- The moves of a run by which threads wake up without being notified. -/
def wakes {ι : Type} (l : List (Move ι (Place τ))) : Nat :=
  l.countP fun
    | .go _ _ _ => false
    | .wake _ => true

/-- A look of a wait costs the moves that follow it. -/
theorem look_paid (n N : Nat) (caller : Caller τ) (d : Pool τ) :
    (N + 3) * (look caller d).1.tasks.length + (look caller d).2.place.toll n N +
        (look caller d).2.notified.length * N + weight ((look caller d).2.waitsOn = none) ≤
      (N + 3) * d.tasks.length + (caller.toll n N + 1) +
        if (look caller d).2.place.call then n + N + 7 else 0 := by
  unfold look
  split
  · simp only [Place.toll, Place.call, weight_pos, List.length_nil, Nat.zero_mul]
    omega
  · simp [Place.toll, Place.call, weight_neg]

/-- A call pays for all moves that it leads to. -/
theorem paid (n N : Nat) : Paid N (instr n : Place τ → Instr (Thread n ω) _ _ _)
    (fun d => (N + 3) * d.tasks.length) (Place.toll n N)
    (fun p => if p.call then n + N + 7 else 0) where
  critical := by
    intro p body d code
    rcases critical_cases code with ⟨rfl, rfl⟩ | ⟨rfl, rfl⟩ | ⟨caller, t, rfl, rfl⟩ |
      ⟨caller, rfl, rfl⟩ |
      ⟨caller, rfl, rfl⟩ | ⟨t, rfl, rfl⟩
    · unfold take
      split
      · split
        · simp [Place.toll, Place.call, weight_neg]
        · rename_i tasks
          simp [Place.toll, Place.call, Caller.toll, weight_pos, tasks, Nat.mul_add]
      · simp [Place.toll, Place.call, weight_pos]
    · simp only [Place.toll, Place.call, Caller.toll, weight_pos, List.length_nil, Nat.zero_mul,
        Bool.false_eq_true, if_false]
      omega
    · simp [Place.toll, Place.call, weight_pos, Nat.mul_add]
      omega
    · exact look_paid n N caller _
    · exact look_paid n N caller d
    · have woken : (leaveTask d).2.notified.length ≤ 1 := by
        simp only [leaveTask]
        split <;> simp
      have most := Nat.mul_le_mul_right N woken
      simp only [leaveTask, Nat.one_mul, Place.toll, weight_pos] at most ⊢
      omega
  notifyOne := by
    intro p c next code
    obtain ⟨-, caller, rfl, rfl⟩ := notifyOne_cases code
    simp [Place.toll]
  notifyAll := by
    intro p c next code
    obtain ⟨-, rfl, rfl⟩ := notifyAll_cases code
    simp [Place.toll]
  join := by
    intro p j next code
    obtain ⟨i, rfl, rfl, rfl⟩ := join_cases code
    simp only [Place.toll]
    omega
  outside := by
    intro p next target code allowed
    rcases outside_cases code with ⟨rfl, rfl⟩ | ⟨t, rfl, rfl⟩
    · rcases allowed with ⟨t, rfl⟩ | rfl | rfl
      · simp [Place.toll, Place.call, Caller.toll]
      · simp [Place.toll, Place.call, Caller.toll]
      · simp [Place.toll, Place.call, Caller.toll]
    · rcases allowed with ⟨u, rfl⟩ | rfl | rfl
      · simp only [Place.toll, Place.call, Caller.toll, if_true]
        omega
      · simp only [Place.toll, Place.call, Caller.toll, if_true]
        omega
      · simp [Place.toll, Caller.toll]

theorem sum_cost {ι : Type} (c : Nat) (l : List (Move ι (Place τ))) :
    (l.map (Move.cost fun p => if p.call then c else 0)).sum = c * calls l + 2 * wakes l := by
  induction l with
  | nil => rfl
  | cons m l ih =>
    rw [List.map_cons, List.sum_cons, ih]
    cases m with
    | go i p q =>
      cases called : q.call
      · simp [Move.cost, calls, wakes, called]
      · simp [Move.cost, calls, wakes, called, Nat.mul_add]
        omega
    | wake i =>
      simp [Move.cost, calls, wakes, Nat.mul_add]
      omega

/-- A pool comes to rest: the moves of a run are bounded by the calls that it begins and the threads
that wake up without being notified. -/
theorem comes_to_rest [DecidableEq ω] [Fintype ω] {n : Nat}
    {l : List (Move (Thread n ω) (Place τ))} {s : State (Thread n ω) (Pool τ) Cv (Place τ)}
    (run : PoolRun n l s) :
    l.length ≤ 2 * n + Fintype.card ω + (2 * n + Fintype.card ω + 7) * calls l + 2 * wakes l := by
  have card : Fintype.card (Thread n ω) = n + Fintype.card ω := by simp
  have bound := Runs.length_le (paid n (Fintype.card (Thread n ω))) run
  have first :
      ∑ i : Thread n ω, (firstPlace i : Place τ).toll n (Fintype.card (Thread n ω)) = n := by
    simp [Fintype.sum_sum_type, firstPlace, Place.toll, Caller.toll]
  rw [sum_cost, first, card] at bound
  simp only [created, List.length_nil, Nat.mul_zero] at bound
  rw [show 2 * n + Fintype.card ω + 7 = n + (n + Fintype.card ω) + 7 from by omega]
  omega

theorem comes_to_rest_destroyed : (destroyed 7 8).length ≤ 2 * 2 + Fintype.card Unit +
    (2 * 2 + Fintype.card Unit + 7) * calls (destroyed 7 8) + 2 * wakes (destroyed 7 8) :=
  comes_to_rest (run_destroyed 7 8)

end Length

end Tpcc.ThreadPool
