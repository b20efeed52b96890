import Mathlib.Data.Fintype.Sum
import Tpcc.Lib.Monitor

/-! The thread pool.  Its threads are the workers and the users of the pool; the code of a user and
of a task may push tasks and wait for them, and that of a user may destroy the pool.  Tasks are run
in the order in which they are pushed and each of them once, a wait that returns has waited for all
of them, no wake-up is lost, and the destructor leaves neither a task nor a worker behind. -/

namespace Tpcc.ThreadPool

open KvProgram Monitor

/-- `determine_thread_count`, with what `std::thread::hardware_concurrency` gives. -/
def determineThreadCount (hardware threadCount : UInt32) : UInt32 :=
  if threadCount > 0 then threadCount else if hardware > 0 then hardware else 1

theorem determineThreadCount_pos (hardware threadCount : UInt32) :
    0 < (determineThreadCount hardware threadCount).toNat := by
  have pos {x : UInt32} (h : x > 0) : 0 < x.toNat := h
  unfold determineThreadCount
  split
  · exact pos ‹_›
  · split
    · exact pos ‹_›
    · decide

/-- The condition variables `task_available_cv` and `tasks_done_cv`. -/
inductive Cv where
  | taskAvailable
  | tasksDone
  deriving DecidableEq

/-- The data that `tasks_mutex` protects, the front of the queue first. -/
structure Pool (τ : Type) where
  tasks : List τ
  tasksRunning : Nat
  waiting : Bool
  workersRunning : Bool

/-- Whose code calls the pool. -/
inductive Caller (τ : Type) where
  | user
  | task (t : τ)
  | destructor

/-- Where a thread is: at the top of the loop of `worker`, in code outside of the pool, in
`push_task`, in `wait_for_tasks` before and after its first look, at the second lock of `worker`,
past its loop, or in `destroy_threads` after its lock. -/
inductive Place (τ : Type) where
  | worker
  | body (caller : Caller τ)
  | push (caller : Caller τ) (t : τ)
  | notify (caller : Caller τ)
  | wait (caller : Caller τ)
  | waiting (caller : Caller τ)
  | ran (t : τ)
  | exited
  | notifyStop
  | join (i : Nat)

/-- The places of a user thread that destroys the pool, from the store to `workers_running` on. -/
def Place.Stops {τ : Type} (p : Place τ) : Prop := p = .notifyStop ∨ ∃ k, p = .join k

section Code

variable {τ ω : Type}

/-- The top of the loop of `worker`, up to `tasks_lock.unlock()`. -/
def take (d : Pool τ) : Pool τ × Leave Cv (Place τ) :=
  if d.workersRunning then
    match d.tasks with
    | [] => (d, ⟨.worker, some .taskAvailable, []⟩)
    | t :: tasks =>
      ({ d with tasks, tasksRunning := d.tasksRunning + 1 }, ⟨.body (.task t), none, []⟩)
  else (d, ⟨.exited, none, []⟩)

/-- The rest of the loop of `worker`, after the task. -/
def leaveTask (d : Pool τ) : Pool τ × Leave Cv (Place τ) :=
  let d := { d with tasksRunning := d.tasksRunning - 1 }
  (d, ⟨.worker, none,
    if d.waiting = true ∧ d.tasksRunning = 0 ∧ d.tasks = [] then [.tasksDone] else []⟩)

/-- A look of `wait_for_tasks` at its condition. -/
def look (caller : Caller τ) (d : Pool τ) : Pool τ × Leave Cv (Place τ) :=
  if d.tasksRunning = 0 ∧ d.tasks = [] then
    ({ d with waiting := false }, ⟨.body caller, none, []⟩)
  else (d, ⟨.waiting caller, some .tasksDone, []⟩)

/-- The threads of a pool with `n` workers, and of its users. -/
abbrev Thread (n : Nat) (ω : Type) := Fin n ⊕ ω

/-- What a thread does. -/
def instr (n : Nat) : Place τ → Instr (Thread n ω) (Pool τ) Cv (Place τ)
  | .worker => .critical take
  | .body .user => .outside fun p =>
      (∃ t, p = .push .user t) ∨ p = .wait .user ∨ p = .wait .destructor
  | .body (.task t) => .outside fun p =>
      (∃ u, p = .push (.task t) u) ∨ p = .wait (.task t) ∨ p = .ran t
  | .body .destructor =>
      .critical fun d => ({ d with workersRunning := false }, ⟨.notifyStop, none, []⟩)
  | .push caller t =>
      .critical fun d => ({ d with tasks := d.tasks ++ [t] }, ⟨.notify caller, none, []⟩)
  | .notify caller => .notifyOne .taskAvailable (.body caller)
  | .wait caller => .critical fun d => look caller { d with waiting := true }
  | .waiting caller => .critical (look caller)
  | .ran _ => .critical leaveTask
  | .exited => .halt
  | .notifyStop => .notifyAll .taskAvailable (.join 0)
  | .join i => if h : i < n then .join (.inl ⟨i, h⟩) (.join (i + 1)) else .halt

/-- A pool after its constructor. -/
def created : Pool τ := ⟨[], 0, false, true⟩

def firstPlace {n : Nat} : Thread n ω → Place τ
  | .inl _ => .worker
  | .inr _ => .body .user

/-- The runs of a pool with `n` workers. -/
abbrev PoolRun (n : Nat) [DecidableEq ω] :
    List (Move (Thread n ω) (Place τ)) → State (Thread n ω) (Pool τ) Cv (Place τ) → Prop :=
  Runs (instr n) created firstPlace

end Code

/-! ### What a move does to the pool -/

section Instr

variable {τ ω : Type} {n : Nat}

theorem critical_cases {p : Place τ} {body : Pool τ → Pool τ × Leave Cv (Place τ)}
    (code : (instr n p : Instr (Thread n ω) _ _ _) = .critical body) :
    p = .worker ∧ body = take ∨
    p = .body .destructor ∧
      body = (fun d => ({ d with workersRunning := false }, ⟨.notifyStop, none, []⟩)) ∨
    (∃ caller t, p = .push caller t ∧
      body = fun d => ({ d with tasks := d.tasks ++ [t] }, ⟨.notify caller, none, []⟩)) ∨
    (∃ caller, p = .wait caller ∧ body = fun d => look caller { d with waiting := true }) ∨
    (∃ caller, p = .waiting caller ∧ body = look caller) ∨
    (∃ t, p = .ran t ∧ body = leaveTask) := by
  cases p with
  | body caller => cases caller <;> cases code; simp
  | join k => simp only [instr] at code; split at code <;> cases code
  | worker | push | notify | wait | waiting | ran | exited | notifyStop => cases code <;> simp

theorem notifyOne_cases {p next : Place τ} {c : Cv}
    (code : (instr n p : Instr (Thread n ω) _ _ _) = .notifyOne c next) :
    c = .taskAvailable ∧ ∃ caller, p = .notify caller ∧ next = .body caller := by
  cases p with
  | body caller => cases caller <;> cases code
  | join k => simp only [instr] at code; split at code <;> cases code
  | notify caller => cases code; simp
  | worker | push | wait | waiting | ran | exited | notifyStop => cases code

theorem notifyAll_cases {p next : Place τ} {c : Cv}
    (code : (instr n p : Instr (Thread n ω) _ _ _) = .notifyAll c next) :
    c = .taskAvailable ∧ p = .notifyStop ∧ next = .join 0 := by
  cases p with
  | body caller => cases caller <;> cases code
  | join k => simp only [instr] at code; split at code <;> cases code
  | notifyStop => cases code; simp
  | worker | push | wait | waiting | ran | exited | notify => cases code

theorem join_cases {p next : Place τ} {j : Thread n ω}
    (code : (instr n p : Instr (Thread n ω) _ _ _) = .join j next) :
    ∃ i : Fin n, p = .join i ∧ j = .inl i ∧ next = .join (i + 1) := by
  cases p with
  | body caller => cases caller <;> cases code
  | join k =>
    simp only [instr] at code
    split at code
    · cases code
      exact ⟨⟨k, ‹_›⟩, rfl, rfl, rfl⟩
    · cases code
  | worker | push | wait | waiting | ran | exited | notify | notifyStop => cases code

theorem outside_cases {p : Place τ} {next : Place τ → Prop}
    (code : (instr n p : Instr (Thread n ω) _ _ _) = .outside next) :
    p = .body .user ∧
      next = (fun p => (∃ t, p = .push .user t) ∨ p = .wait .user ∨ p = .wait .destructor) ∨
    ∃ t, p = .body (.task t) ∧
      next = fun p => (∃ u, p = .push (.task t) u) ∨ p = .wait (.task t) ∨ p = .ran t := by
  cases p with
  | body caller => cases caller <;> cases code <;> simp
  | join k => simp only [instr] at code; split at code <;> cases code
  | worker | push | wait | waiting | ran | exited | notify | notifyStop => cases code

theorem halt_cases {p : Place τ} (code : (instr n p : Instr (Thread n ω) _ _ _) = .halt) :
    p = .exited ∨ p.Stops := by
  cases p with
  | body caller => cases caller <;> cases code
  | join k => exact .inr (.inr ⟨k, rfl⟩)
  | exited => exact .inl rfl
  | worker | push | wait | waiting | ran | notify | notifyStop => cases code

end Instr

section Does

variable {τ ω : Type} [DecidableEq ω] {n : Nat}

/-- What a move from one place to another does to the data. -/
inductive Does (n : Nat) : Pool τ → Place τ → Place τ → Pool τ → Prop
  | exit {d : Pool τ} : d.workersRunning = false → Does n d .worker .exited d
  | sleep {d : Pool τ} : d.workersRunning = true → d.tasks = [] → Does n d .worker .worker d
  | take {d : Pool τ} {t : τ} {tasks : List τ} : d.workersRunning = true → d.tasks = t :: tasks →
      Does n d .worker (.body (.task t)) { d with tasks, tasksRunning := d.tasksRunning + 1 }
  | callPush {d : Pool τ} {caller : Caller τ} {t : τ} : caller ≠ .destructor →
      Does n d (.body caller) (.push caller t) d
  | callWait {d : Pool τ} {caller : Caller τ} : Does n d (.body caller) (.wait caller) d
  | callDestroy {d : Pool τ} : Does n d (.body .user) (.wait .destructor) d
  | finish {d : Pool τ} {t : τ} : Does n d (.body (.task t)) (.ran t) d
  | push {d : Pool τ} {caller : Caller τ} {t : τ} :
      Does n d (.push caller t) (.notify caller) { d with tasks := d.tasks ++ [t] }
  | notify {d : Pool τ} {caller : Caller τ} : Does n d (.notify caller) (.body caller) d
  | done {d : Pool τ} {caller : Caller τ} {p : Place τ} : p = .wait caller ∨ p = .waiting caller →
      d.tasksRunning = 0 → d.tasks = [] → Does n d p (.body caller) { d with waiting := false }
  | wait {d : Pool τ} {caller : Caller τ} : ¬(d.tasksRunning = 0 ∧ d.tasks = []) →
      Does n d (.wait caller) (.waiting caller) { d with waiting := true }
  | waitMore {d : Pool τ} {caller : Caller τ} : ¬(d.tasksRunning = 0 ∧ d.tasks = []) →
      Does n d (.waiting caller) (.waiting caller) d
  | leaveTask {d : Pool τ} {t : τ} :
      Does n d (.ran t) .worker { d with tasksRunning := d.tasksRunning - 1 }
  | stop {d : Pool τ} : Does n d (.body .destructor) .notifyStop { d with workersRunning := false }
  | stopped {d : Pool τ} : Does n d .notifyStop (.join 0) d
  | join {d : Pool τ} {i : Nat} : i < n → Does n d (.join i) (.join (i + 1)) d

theorem does_take (d : Pool τ) : Does n d .worker (take d).2.place (take d).1 := by
  unfold take
  split
  · split
    · exact .sleep ‹_› ‹_›
    · exact .take ‹_› ‹_›
  · exact .exit (by simpa using ‹¬d.workersRunning = true›)

variable {s s' : State (Thread n ω) (Pool τ) Cv (Place τ)}

theorem does_of_step {i : Thread n ω} {p q : Place τ} (step : Step (instr n) s (.go i p q) s') :
    Does n s.data p q s'.data := by
  cases step with
  | @critical _ body awake code =>
    rcases critical_cases code with ⟨there, rfl⟩ | ⟨there, rfl⟩ | ⟨caller, t, there, rfl⟩ |
      ⟨caller, there, rfl⟩ |
      ⟨caller, there, rfl⟩ | ⟨t, there, rfl⟩
    · rw [there]
      exact does_take s.data
    · rw [there]
      exact .stop
    · rw [there]
      exact .push
    · rw [there]
      simp only [look]
      split
      · exact .done (.inl rfl) (And.left ‹_›) (And.right ‹_›)
      · exact .wait ‹_›
    · rw [there]
      unfold look
      split
      · exact .done (.inr rfl) (And.left ‹_›) (And.right ‹_›)
      · exact .waitMore ‹_›
    · rw [there]
      exact .leaveTask
  | notifyOne awake code sleeps =>
    obtain ⟨-, caller, there, rfl⟩ := notifyOne_cases code
    rw [there]
    exact .notify
  | notifyNone awake code none =>
    obtain ⟨-, caller, there, rfl⟩ := notifyOne_cases code
    rw [there]
    exact .notify
  | notifyAll awake code =>
    obtain ⟨-, there, rfl⟩ := notifyAll_cases code
    rw [there]
    exact .stopped
  | join awake code halted =>
    obtain ⟨i, there, -, rfl⟩ := join_cases code
    rw [there]
    exact .join i.isLt
  | outside awake code target =>
    rcases outside_cases code with ⟨there, rfl⟩ | ⟨t, there, rfl⟩
    · rw [there]
      rcases target with ⟨t, rfl⟩ | rfl | rfl
      · exact .callPush nofun
      · exact .callWait
      · exact .callDestroy
    · rw [there]
      rcases target with ⟨u, rfl⟩ | rfl | rfl
      · exact .callPush nofun
      · exact .callWait
      · exact .finish

end Does

/-! ### A run of a pool with two workers -/

section Awake

variable {τ ω : Type} [DecidableEq ω] {n : Nat} {d d' : Pool τ}
  {places places' : Thread n ω → Place τ}
  {i : Thread n ω} {p q : Place τ}

/-- A pool none of whose threads sleeps. -/
def awake (d : Pool τ) (places : Thread n ω → Place τ) : State (Thread n ω) (Pool τ) Cv (Place τ) :=
  ⟨d, places, fun _ => none⟩

omit [DecidableEq ω] in
theorem wakeAll_none (cs : List Cv) :
    wakeAll cs (fun _ : Thread n ω => none) = fun _ => none := by
  funext i
  exact wakeAll_eq_none rfl

theorem awake_critical {body : Pool τ → Pool τ × Leave Cv (Place τ)} {cs : List Cv}
    (there : places i = p) (code : (instr n p : Instr (Thread n ω) _ _ _) = .critical body)
    (ends : body d = (d', ⟨q, none, cs⟩)) (moved : Function.update places i q = places') :
    Step (instr n) (awake d places) (.go i p q) (awake d' places') := by
  subst there moved
  have step := Step.critical (s := awake d places) rfl code
  rw [show body (awake d places).data = _ from ends] at step
  have still : Function.update (fun _ : Thread n ω => (none : Option Cv)) i none = fun _ => none :=
    Function.update_eq_self ..
  simp only [awake, wakeAll_none, still] at step
  exact step

theorem awake_outside {next : Place τ → Prop} (there : places i = p)
    (code : (instr n p : Instr (Thread n ω) _ _ _) = .outside next) (allowed : next q)
    (moved : Function.update places i q = places') :
    Step (instr n) (awake d places) (.go i p q) (awake d places') := by
  subst there moved
  exact .outside (s := awake d places) rfl code allowed

theorem awake_notify {c : Cv} (there : places i = p)
    (code : (instr n p : Instr (Thread n ω) _ _ _) = .notifyOne c q)
    (moved : Function.update places i q = places') :
    Step (instr n) (awake d places) (.go i p q) (awake d places') := by
  subst there moved
  exact .notifyNone (s := awake d places) rfl code nofun

theorem awake_notifyAll {c : Cv} (there : places i = p)
    (code : (instr n p : Instr (Thread n ω) _ _ _) = .notifyAll c q)
    (moved : Function.update places i q = places') :
    Step (instr n) (awake d places) (.go i p q) (awake d places') := by
  subst there moved
  have step := Step.notifyAll (s := awake d places) rfl code
  simp only [awake, wakeAll_none] at step
  exact step

theorem awake_join {j : Thread n ω} (there : places i = p)
    (code : (instr n p : Instr (Thread n ω) _ _ _) = .join j q)
    (halted : (instr n (places j) : Instr (Thread n ω) _ _ _) = .halt)
    (moved : Function.update places i q = places') :
    Step (instr n) (awake d places) (.go i p q) (awake d places') := by
  subst there moved
  exact .join (s := awake d places) rfl code halted

end Awake

section Two

variable {τ : Type} {v v' w w' u u' : Place τ}

/-- The places of two workers and of a user thread. -/
def placesOf (v w u : Place τ) : Thread 2 Unit → Place τ
  | .inl 0 => v
  | .inl 1 => w
  | .inr _ => u

theorem placesOf_first : Function.update (placesOf v w u) (.inl 0) v' = placesOf v' w u := by
  funext i
  match i with
  | .inl 0 | .inl 1 | .inr () => rfl

theorem placesOf_second : Function.update (placesOf v w u) (.inl 1) w' = placesOf v w' u := by
  funext i
  match i with
  | .inl 0 | .inl 1 | .inr () => rfl

theorem placesOf_user : Function.update (placesOf v w u) (.inr ()) u' = placesOf v w u' := by
  funext i
  match i with
  | .inl 0 | .inl 1 | .inr () => rfl

/-- A user pushes two tasks, and a worker starts the first. -/
def begun (t t' : τ) : List (Move (Thread 2 Unit) (Place τ)) :=
  [.go (.inl 0) .worker (.body (.task t)), .go (.inr ()) (.notify .user) (.body .user),
    .go (.inr ()) (.push .user t') (.notify .user), .go (.inr ()) (.body .user) (.push .user t'),
    .go (.inr ()) (.notify .user) (.body .user), .go (.inr ()) (.push .user t) (.notify .user),
    .go (.inr ()) (.body .user) (.push .user t)]

theorem run_begun (t t' : τ) : PoolRun 2 (begun t t')
    (awake ⟨[t'], 1, false, true⟩ (placesOf (.body (.task t)) .worker (.body .user))) := by
  have first : State.mk created firstPlace (fun _ => none) =
      awake (created : Pool τ) (placesOf .worker .worker (.body .user)) := by
    simp only [awake, State.mk.injEq, true_and, and_true]
    funext i
    match i with
    | .inl 0 | .inl 1 | .inr () => rfl
  have run : PoolRun 2 [] (awake (created : Pool τ) (placesOf .worker .worker (.body .user))) :=
    .start first.symm
  have run := run.next (awake_outside rfl rfl (.inl ⟨t, rfl⟩) placesOf_user)
  have run := run.next (awake_critical rfl rfl rfl placesOf_user)
  have run := run.next (awake_notify rfl rfl placesOf_user)
  have run := run.next (awake_outside rfl rfl (.inl ⟨t', rfl⟩) placesOf_user)
  have run := run.next (awake_critical rfl rfl rfl placesOf_user)
  have run := run.next (awake_notify rfl rfl placesOf_user)
  exact run.next (awake_critical rfl rfl rfl placesOf_first)

/-- The other worker runs the second task and ends it before the first, and the wait of the
destructor returns. -/
def waited (t t' : τ) : List (Move (Thread 2 Unit) (Place τ)) :=
  .go (.inr ()) (.wait .destructor) (.body .destructor) ::
    .go (.inr ()) (.body .user) (.wait .destructor) :: .go (.inl 0) (.ran t) .worker ::
    .go (.inl 0) (.body (.task t)) (.ran t) :: .go (.inl 1) (.ran t') .worker ::
    .go (.inl 1) (.body (.task t')) (.ran t') :: .go (.inl 1) .worker (.body (.task t')) ::
    begun t t'

theorem run_waited (t t' : τ) :
    PoolRun 2 (waited t t') (awake created (placesOf .worker .worker (.body .destructor))) := by
  have run := (run_begun t t').next (awake_critical rfl rfl rfl placesOf_second)
  have run := run.next (awake_outside rfl rfl (.inr (.inr rfl)) placesOf_second)
  have run := run.next (awake_critical rfl rfl rfl placesOf_second)
  have run := run.next (awake_outside rfl rfl (.inr (.inr rfl)) placesOf_first)
  have run := run.next (awake_critical rfl rfl rfl placesOf_first)
  have run := run.next (awake_outside rfl rfl (.inr (.inr rfl)) placesOf_user)
  exact run.next (awake_critical rfl rfl rfl placesOf_user)

/-- Then the destructor stops the workers and joins them. -/
def destroyed (t t' : τ) : List (Move (Thread 2 Unit) (Place τ)) :=
  .go (.inr ()) (.join 1) (.join 2) :: .go (.inr ()) (.join 0) (.join 1) ::
    .go (.inl 0) .worker .exited :: .go (.inl 1) .worker .exited ::
    .go (.inr ()) .notifyStop (.join 0) :: .go (.inr ()) (.body .destructor) .notifyStop ::
    waited t t'

theorem run_destroyed (t t' : τ) : PoolRun 2 (destroyed t t')
    (awake { created with workersRunning := false } (placesOf .exited .exited (.join 2))) := by
  have run := (run_waited t t').next (awake_critical rfl rfl rfl placesOf_user)
  have run := run.next (awake_notifyAll rfl rfl placesOf_user)
  have run := run.next (awake_critical rfl rfl rfl placesOf_second)
  have run := run.next (awake_critical rfl rfl rfl placesOf_first)
  have run := run.next (awake_join rfl rfl rfl placesOf_user)
  exact run.next (awake_join rfl rfl rfl placesOf_user)

end Two

/-! ### Tasks that are pushed, started and finished -/

/-- The task whose code calls the pool. -/
def Caller.ofTask {τ : Type} : Caller τ → Option τ
  | .task t => some t
  | .user | .destructor => none

/-- The task that a thread at a place is running. -/
def Place.task {τ : Type} : Place τ → Option τ
  | .body caller | .push caller _ | .notify caller | .wait caller | .waiting caller => caller.ofTask
  | .ran t => some t
  | .worker | .exited | .notifyStop | .join _ => none

section History

variable {ι τ : Type}

/-- The task that a move pushes. -/
def pushedBy : Move ι (Place τ) → Option τ
  | .go _ (.push _ t) _ => some t
  | _ => none

/-- The task that a move starts. -/
def startedBy : Move ι (Place τ) → Option τ
  | .go _ .worker (.body (.task t)) => some t
  | _ => none

/-- The task that a move ends. -/
def finishedBy : Move ι (Place τ) → Option τ
  | .go _ (.ran t) _ => some t
  | _ => none

/-- The tasks that have been pushed, started and finished in a run, each in that order. -/
def pushed (l : List (Move ι (Place τ))) : List τ := (l.filterMap pushedBy).reverse

def started (l : List (Move ι (Place τ))) : List τ := (l.filterMap startedBy).reverse

def finished (l : List (Move ι (Place τ))) : List τ := (l.filterMap finishedBy).reverse

theorem pushed_cons (m : Move ι (Place τ)) (l : List (Move ι (Place τ))) :
    pushed (m :: l) = pushed l ++ (pushedBy m).toList := by
  cases h : pushedBy m <;> simp [pushed, h]

theorem started_cons (m : Move ι (Place τ)) (l : List (Move ι (Place τ))) :
    started (m :: l) = started l ++ (startedBy m).toList := by
  cases h : startedBy m <;> simp [started, h]

theorem finished_cons (m : Move ι (Place τ)) (l : List (Move ι (Place τ))) :
    finished (m :: l) = finished l ++ (finishedBy m).toList := by
  cases h : finishedBy m <;> simp [finished, h]

variable {n : Nat} {d d' : Pool τ} {p q : Place τ}

/-- Tasks enter the queue at its end and leave it at its front. -/
theorem Does.queue (does : Does n d p q d') (i : ι) :
    d.tasks ++ (pushedBy (.go i p q)).toList = (startedBy (.go i p q)).toList ++ d'.tasks := by
  cases does with
  | take running tasks => simp [pushedBy, startedBy, tasks]
  | push => simp [pushedBy, startedBy]
  | done there => rcases there with rfl | rfl <;> simp [pushedBy, startedBy]
  | _ => simp [pushedBy, startedBy]

/-- A thread runs a task from the move that starts it to the one that ends it. -/
theorem Does.task (does : Does n d p q d') (i : ι) :
    (startedBy (.go i p q) = none ∧ finishedBy (.go i p q) = none ∧ q.task = p.task ∧
      d'.tasksRunning = d.tasksRunning) ∨
    (∃ t, startedBy (.go i p q) = some t ∧ finishedBy (.go i p q) = none ∧ p.task = none ∧
      q.task = some t ∧ d'.tasksRunning = d.tasksRunning + 1) ∨
    (∃ t, startedBy (.go i p q) = none ∧ finishedBy (.go i p q) = some t ∧ p.task = some t ∧
      q.task = none ∧ d'.tasksRunning = d.tasksRunning - 1) := by
  cases does with
  | done there => rcases there with rfl | rfl <;> simp [startedBy, finishedBy, Place.task]
  | _ => simp [startedBy, finishedBy, Place.task, Caller.ofTask]

/-- A thread takes up the task that its move starts, and lays down the one that it ends. -/
theorem Does.weight_task (does : Does n d p q d') (i : ι) (t : τ) :
    weight (q.task = some t) + weight (finishedBy (.go i p q) = some t) =
      weight (p.task = some t) + weight (startedBy (.go i p q) = some t) := by
  rcases does.task i with ⟨start, finish, same, -⟩ | ⟨u, start, finish, before, after, -⟩ |
    ⟨u, start, finish, before, after, -⟩
  · rw [start, finish, same]
  · rw [start, finish, before, after, Nat.add_comm]
  · rw [start, finish, before, after, Nat.add_comm]

theorem count_toList [DecidableEq τ] (o : Option τ) (t : τ) :
    o.toList.count t = weight (o = some t) := by
  cases o with
  | none => exact (weight_neg nofun).symm
  | some u =>
    by_cases same : u = t
    · simp [same, weight_pos]
    · simp [same, weight_neg]

end History

section OfWorker

variable {τ ω : Type} [DecidableEq ω] {n : Nat}
  {l : List (Move (Thread n ω) (Place τ))} {s : State (Thread n ω) (Pool τ) Cv (Place τ)}
  {d d' : Pool τ} {p q : Place τ}

/-- The places of workers. -/
def Place.OfWorker (p : Place τ) : Prop := p = .worker ∨ p = .exited ∨ p.task.isSome

theorem Does.ofWorker (does : Does n d p q d') : p.OfWorker ↔ q.OfWorker := by
  cases does with
  | done there => rcases there with rfl | rfl <;> simp [Place.OfWorker, Place.task]
  | _ => simp [Place.OfWorker, Place.task, Caller.ofTask]

theorem PoolRun.ofWorker (run : PoolRun n l s) (i : Thread n ω) :
    (s.place i).OfWorker ↔ i.isLeft := by
  apply Runs.places (A := fun i _ p => p.OfWorker ↔ i.isLeft) _ _ _ run
  · intro i
    cases i <;> simp [firstPlace, Place.OfWorker, Place.task, Caller.ofTask]
  · intro l s i p q s' _ step own
    rw [← (does_of_step step).ofWorker, own]
  · exact fun l s i p q s' j _ _ _ h => h

/-- A user thread runs no task. -/
theorem PoolRun.user_task (run : PoolRun n l s) (u : ω) : (s.place (.inr u)).task = none := by
  have role := (PoolRun.ofWorker run (.inr u)).not.mpr (by simp)
  cases task : (s.place (.inr u)).task with
  | none => rfl
  | some t => exact absurd (.inr (.inr (by simp [task]))) role

end OfWorker

section Accounts

variable {τ ω : Type} [DecidableEq ω] [Fintype ω] {n : Nat}
  {l : List (Move (Thread n ω) (Place τ))} {s s' : State (Thread n ω) (Pool τ) Cv (Place τ)}
  {m : Move (Thread n ω) (Place τ)}

/-- The tasks that have been pushed have been started in that order, up to those in the queue. -/
def InOrder (l : List (Move (Thread n ω) (Place τ)))
    (s : State (Thread n ω) (Pool τ) Cv (Place τ)) :
    Prop :=
  pushed l = started l ++ s.data.tasks

/-- A task that has been started is run by a worker, or has been finished, as often as it has been
started, and `tasks_running` counts the workers that run one. -/
structure Accounts [DecidableEq τ] (l : List (Move (Thread n ω) (Place τ)))
    (s : State (Thread n ω) (Pool τ) Cv (Place τ)) : Prop where
  task : ∀ t, (started l).count t =
    (finished l).count t + count fun i => (s.place i).task = some t
  running : s.data.tasksRunning = count fun i => (s.place i).task.isSome

omit [Fintype ω] in
theorem PoolRun.inOrder (run : PoolRun n l s) : InOrder l s := by
  induction run with
  | start first =>
    subst first
    rfl
  | @next l s s' m run step ih =>
    cases m with
    | go i p q =>
      have queue := (does_of_step step).queue i
      rw [InOrder, pushed_cons, started_cons, ih, List.append_assoc, List.append_assoc, queue]
    | wake i =>
      cases step
      rw [InOrder, pushed_cons, started_cons]
      simpa [pushedBy, startedBy, InOrder] using ih

theorem Accounts.step [DecidableEq τ] (h : Accounts l s) (step : Step (instr n) s m s') :
    Accounts (m :: l) s' := by
  cases m with
  | go i p q =>
    have does := does_of_step step
    constructor
    · intro t
      have moved := step.count_places fun p => p.task = some t
      have own := does.weight_task i t
      have counted := h.task t
      simp only [started_cons, finished_cons, List.count_append, count_toList]
      omega
    · have moved := step.count_places fun p => p.task.isSome
      rcases does.task i with ⟨-, -, same, data⟩ | ⟨t, -, -, before, after, data⟩ |
        ⟨t, -, -, before, after, data⟩
      · rw [same] at moved
        rw [data, h.running]
        omega
      · simp only [before, after, Option.isSome_none, Option.isSome_some, weight_pos,
          weight_neg Bool.false_ne_true] at moved
        rw [data, h.running]
        omega
      · simp only [before, after, Option.isSome_none, Option.isSome_some, weight_pos,
          weight_neg Bool.false_ne_true] at moved
        rw [data, h.running]
        omega
  | wake i =>
    cases step
    refine ⟨fun t => ?_, h.running⟩
    rw [started_cons, finished_cons]
    simpa [startedBy, finishedBy] using h.task t

theorem PoolRun.accounts [DecidableEq τ] (run : PoolRun n l s) : Accounts l s := by
  induction run with
  | start first =>
    subst first
    have none (i : Thread n ω) : (firstPlace i : Place τ).task = none := by cases i <;> rfl
    constructor
    · intro t
      simp [started, finished, none, count]
    · simp [created, none, count]
  | next _ step ih => exact ih.step step

/-- Tasks are started in the order in which they are pushed, each as often as it is pushed, up to
those that are still in the queue; one that has been started is run by one worker, or has been
finished; `tasks_running` is the number of the workers that run one, and no user thread does. -/
theorem tasks_in_order [DecidableEq τ] (run : PoolRun n l s) :
    pushed l = started l ++ s.data.tasks ∧
      (∀ t, (started l).count t =
        (finished l).count t + count fun i => (s.place i).task = some t) ∧
      s.data.tasksRunning = (count fun i => (s.place i).task.isSome) ∧
      ∀ u : ω, (s.place (.inr u)).task = none :=
  ⟨PoolRun.inOrder run, (PoolRun.accounts run).task, (PoolRun.accounts run).running,
    PoolRun.user_task run⟩

theorem tasks_in_order_begun : pushed (begun 7 8) = started (begun 7 8) ++ [8] :=
  (tasks_in_order (run_begun 7 8)).1

omit [DecidableEq ω] in
/-- Where the counter is zero no thread runs a task. -/
theorem Accounts.idle [DecidableEq τ] (h : Accounts l s) (zero : s.data.tasksRunning = 0)
    (j : Thread n ω) : (s.place j).task = none := by
  cases task : (s.place j).task with
  | none => rfl
  | some t =>
    have one := count_pos (p := fun j => (s.place j).task.isSome) (i := j) (by simp [task])
    rw [← h.running, zero] at one
    contradiction

/-- Where the queue is empty too, all tasks that have been pushed have been run to their end. -/
theorem PoolRun.all_finished (run : PoolRun n l s) (zero : s.data.tasksRunning = 0)
    (empty : s.data.tasks = []) : (finished l).Perm (pushed l) := by
  classical
  have accounts := PoolRun.accounts run
  rw [List.perm_iff_count]
  intro t
  have none : (count fun i => (s.place i).task = some t) = 0 := by
    simp [accounts.idle zero, count]
  rw [PoolRun.inOrder run, empty, List.append_nil, accounts.task t, none, Nat.add_zero]

/-- A wait ends where the counter is zero and the queue is empty. -/
theorem Does.wait_returns {d d' : Pool τ} {p : Place τ} {caller : Caller τ}
    (there : p = .wait caller ∨ p = .waiting caller) (does : Does n d p (.body caller) d') :
    d'.tasksRunning = 0 ∧ d'.tasks = [] := by
  cases does with
  | done _ zero empty => exact ⟨zero, empty⟩
  | take | notify => simp at there

/-- A `wait_for_tasks` that returns has waited for all tasks that have been pushed: they have been
run to their end, and no thread runs one.  So the code of a task does not return from it. -/
theorem wait_for_tasks_returns {i : Thread n ω} {p : Place τ} {caller : Caller τ}
    (there : p = .wait caller ∨ p = .waiting caller)
    (run : PoolRun n (.go i p (.body caller) :: l) s) :
    (finished (.go i p (.body caller) :: l)).Perm (pushed (.go i p (.body caller) :: l)) ∧
      caller.ofTask = none ∧ ∀ j, (s.place j).task = none := by
  classical
  have accounts := PoolRun.accounts run
  cases id run with
  | next before step =>
    obtain ⟨zero, empty⟩ := (does_of_step step).wait_returns there
    have own := accounts.idle zero i
    rw [step.source.2.2] at own
    exact ⟨PoolRun.all_finished run zero empty, own, accounts.idle zero⟩

theorem wait_for_tasks_returns_waited : (finished (waited 7 8)).Perm (pushed (waited 7 8)) :=
  (wait_for_tasks_returns (.inl rfl) (run_waited 7 8)).1

end Accounts

/-! ### Workers and users -/

section Roles

variable {τ ω : Type} [DecidableEq ω] {n : Nat}
  {l : List (Move (Thread n ω) (Place τ))} {s s' : State (Thread n ω) (Pool τ) Cv (Place τ)}
  {d d' : Pool τ} {p q : Place τ}

theorem Does.stays_stopped (does : Does n d p q d') (stopped : d.workersRunning = false) :
    d'.workersRunning = false := by
  cases does <;> first | exact stopped | rfl

theorem Does.stays_running (does : Does n d p q d') (running : d.workersRunning = true) :
    d'.workersRunning = true ∨ q = .notifyStop := by
  cases does <;> first | exact .inl running | exact .inr rfl

/-- The workers that have left their loop have been stopped. -/
theorem PoolRun.exited (run : PoolRun n l s) :
    ∀ i, s.place i = .exited → s.data.workersRunning = false := by
  apply Runs.places (A := fun _ d p => p = .exited → d.workersRunning = false) _ _ _ run
  · intro i
    cases i <;> simp [firstPlace]
  · rintro l s i p q s' _ step own rfl
    have does := does_of_step step
    generalize s.data = d, s'.data = d' at does
    cases does
    assumption
  · exact fun l s i p q s' j _ step _ h there => (does_of_step step).stays_stopped (h there)

theorem PoolRun.stops (run : PoolRun n l s) :
    ∀ i, (s.place i).Stops → s.data.workersRunning = false := by
  apply Runs.places (A := fun _ d p => p.Stops → d.workersRunning = false) _ _ _ run
  · intro i
    cases i <;> simp [firstPlace, Place.Stops]
  · intro l s i p q s' _ step own stops
    have does := does_of_step step
    generalize s.data = d, s'.data = d' at own does
    cases does <;> simp [Place.Stops] at own stops ⊢ <;> assumption
  · exact fun l s i p q s' j _ step _ h there => (does_of_step step).stays_stopped (h there)

theorem Does.stops (does : Does n d p q d') (stops : p.Stops) : q.Stops := by
  rcases stops with rfl | ⟨k, rfl⟩ <;> cases does <;> simp [Place.Stops] at *

theorem not_worker_of_stops (stops : p.Stops) : ¬p.OfWorker := by
  rcases stops with rfl | ⟨k, rfl⟩ <;> simp [Place.OfWorker, Place.task]

/-- Some user thread has stopped the workers that are stopped. -/
theorem PoolRun.stopper (run : PoolRun n l s) (stopped : s.data.workersRunning = false) :
    ∃ u, (s.place (.inr u)).Stops := by
  induction run with
  | start first =>
    subst first
    contradiction
  | @next l s s' m run step ih =>
    cases m with
    | go i p q =>
      have does := does_of_step step
      obtain ⟨source, -, target⟩ := step.source
      by_cases before : s.data.workersRunning = false
      · obtain ⟨u, stops⟩ := ih before
        refine ⟨u, ?_⟩
        by_cases same : .inr u = i
        · subst same
          rw [target]
          exact does.stops (source ▸ stops)
        · rwa [(step.others (show .inr u ≠ Move.thread (.go i p q) from same)).1]
      · have stops : q = .notifyStop := by
          simpa [stopped] using does.stays_running (by simpa using before)
        have role := PoolRun.ofWorker (run.next step) i
        rw [target] at role
        cases i with
        | inl w => exact absurd (role.mpr rfl) (not_worker_of_stops (.inl stops))
        | inr u => exact ⟨u, target ▸ .inl stops⟩
    | wake i =>
      cases step
      exact ih stopped

/-- A thread that joins a worker finds it past its loop. -/
theorem step_join (run : PoolRun n l s) {i : Thread n ω} {k : Nat}
    (step : Step (instr n) s (.go i (.join k) q) s') :
    ∃ h : k < n, q = .join (k + 1) ∧ s.place (.inl ⟨k, h⟩) = .exited := by
  have bound : k < n := by
    have does := does_of_step step
    generalize s.data = d, s'.data = d' at does
    cases does with
    | done there => simp at there
    | join bound => exact bound
  have code : (instr n (.join k : Place τ) : Instr (Thread n ω) _ _ _) =
      .join (.inl ⟨k, bound⟩) (.join (k + 1)) := dif_pos bound
  obtain ⟨next, halted⟩ := step.joined code
  refine ⟨bound, next, (halt_cases halted).resolve_right fun stops => ?_⟩
  exact not_worker_of_stops stops ((PoolRun.ofWorker run (.inl ⟨k, bound⟩)).mpr rfl)

theorem Does.not_exited (does : Does n d p q d') : p ≠ .exited := by
  rintro rfl
  cases does with
  | done there => simp at there

/-- A thread that has joined `k` workers has found them past their loops. -/
theorem PoolRun.joined (run : PoolRun n l s) :
    ∀ i k, s.place i = .join k → k ≤ n ∧ ∀ w : Fin n, w.val < k → s.place (.inl w) = .exited := by
  induction run with
  | start first =>
    subst first
    intro i
    cases i <;> simp [firstPlace]
  | @next l s s' m run step ih =>
    intro i k joins
    cases m with
    | go j p q =>
      have does := does_of_step step
      obtain ⟨source, -, target⟩ := step.source
      have stays {w : Fin n} (exited : s.place (.inl w) = .exited) :
          s'.place (.inl w) = .exited := by
        by_cases same : .inl w = j
        · rw [same, source] at exited
          exact absurd exited does.not_exited
        · rwa [(step.others (show .inl w ≠ Move.thread (.go j p q) from same)).1]
      by_cases same : i = j
      · subst same
        rw [joins] at target
        subst target
        generalize data : s.data = d, data' : s'.data = d' at does
        cases does with
        | stopped => exact ⟨Nat.zero_le n, fun w bound => absurd bound (Nat.not_lt_zero _)⟩
        | @join k bound =>
          obtain ⟨_, _, exited⟩ := step_join run step
          refine ⟨bound, fun w before => stays ?_⟩
          rcases Nat.lt_succ_iff_lt_or_eq.mp before with before | last
          · exact (ih i k source).2 w before
          · obtain rfl : w = ⟨k, bound⟩ := Fin.ext last
            exact exited
      · rw [(step.others (show i ≠ Move.thread (.go j p q) from same)).1] at joins
        exact ⟨(ih i k joins).1, fun w before => stays ((ih i k joins).2 w before)⟩
    | wake j =>
      cases step
      exact ih i k joins

/-- The destructor pushes nothing. -/
theorem PoolRun.no_push (run : PoolRun n l s) :
    ∀ i, s.place i ≠ .notify .destructor ∧ ∀ t, s.place i ≠ .push .destructor t := by
  apply Runs.places (A := fun _ _ p => p ≠ .notify .destructor ∧ ∀ t, p ≠ .push .destructor t)
    _ _ _ run
  · intro i
    cases i <;> simp [firstPlace]
  · intro l s i p q s' _ step own
    have does := does_of_step step
    generalize s.data = d, s'.data = d' at does
    cases does with
    | callPush user => exact ⟨nofun, fun t same => user (by cases same; rfl)⟩
    | push => exact ⟨fun same => own.2 _ (by cases same; rfl), nofun⟩
    | _ => simp
  · exact fun l s i p q s' j _ _ _ h => h

/-- A worker at the top of its loop changes nothing where the queue is empty. -/
theorem Does.of_empty (does : Does n d .worker q d') (empty : d.tasks = []) : d' = d := by
  cases does with
  | exit | sleep => rfl
  | take _ tasks => simp [empty] at tasks
  | done there => simp at there

end Roles

/-! ### Pools with one user thread -/

section OneUser

variable {τ ω : Type} [DecidableEq ω] [Fintype ω] {n : Nat}
  {l : List (Move (Thread n ω) (Place τ))} {s s' : State (Thread n ω) (Pool τ) Cv (Place τ)}
  {d d' : Pool τ} {p q : Place τ}

/-- While no task is run, a worker does not leave the top of its loop but to run one or to exit. -/
theorem worker_of_idle (run : PoolRun n l s) {w : Fin n}
    (step : Step (instr n) s (.go (.inl w) p q) s')
    (zero : s.data.tasksRunning = 0) : p = .worker := by
  classical
  have role := (PoolRun.ofWorker run (.inl w)).mpr rfl
  have idle := (PoolRun.accounts run).idle zero (.inl w)
  rw [step.source.1] at role idle
  rcases role with there | exited | busy
  · exact there
  · exact absurd exited (does_of_step step).not_exited
  · simp [idle] at busy

variable [Subsingleton ω]

/-- While no task is run and the queue is empty, only the user thread changes the data. -/
theorem idle_pool (run : PoolRun n l s) {i j : Thread n ω} (step : Step (instr n) s (.go i p q) s')
    (zero : s.data.tasksRunning = 0) (empty : s.data.tasks = []) (other : j ≠ i)
    (user : ¬(s.place j).OfWorker) : s'.data = s.data := by
  have does := does_of_step step
  rw [PoolRun.ofWorker run j] at user
  cases i with
  | inl w =>
    obtain rfl := worker_of_idle run step zero
    exact does.of_empty empty
  | inr u =>
    cases j with
    | inl w => exact absurd rfl user
    | inr v => exact absurd (congrArg Sum.inr (Subsingleton.elim v u)) other

/-- Past the wait of the destructor there is no task. -/
theorem PoolRun.destroying (run : PoolRun n l s) : ∀ i,
    s.place i = .body .destructor ∨ (s.place i).Stops →
      s.data.tasksRunning = 0 ∧ s.data.tasks = [] := by
  apply Runs.places (A := fun _ d p => p = .body .destructor ∨ p.Stops →
    d.tasksRunning = 0 ∧ d.tasks = []) _ _ _ run
  · intro i
    cases i <;> simp [firstPlace, Place.Stops]
  · intro l s i p q s' run step own there
    have does := does_of_step step
    have pushes := (PoolRun.no_push run i).1
    rw [step.source.1] at pushes
    generalize s.data = d, s'.data = d' at own does
    cases does with
    | done _ zero empty => exact ⟨zero, empty⟩
    | notify => simp [Place.Stops] at there; simp [there] at pushes
    | stop => exact own (.inl rfl)
    | stopped => exact own (.inr (.inl rfl))
    | join => exact own (.inr (.inr ⟨_, rfl⟩))
    | _ => simp [Place.Stops] at there
  · intro l s i p q s' j run step other h there
    obtain ⟨zero, empty⟩ := h there
    have user : ¬(s.place j).OfWorker := by
      rcases there with there | stops
      · simp [there, Place.OfWorker, Place.task, Caller.ofTask]
      · exact not_worker_of_stops stops
    rw [idle_pool run step zero empty other user]
    exact ⟨zero, empty⟩

/-- The user thread has set the flag while it waits. -/
theorem PoolRun.flag (run : PoolRun n l s) : ∀ i caller,
    s.place i = .waiting caller → caller.ofTask = none → s.data.waiting = true := by
  apply Runs.places (A := fun _ d p => ∀ caller, p = .waiting caller → caller.ofTask = none →
    d.waiting = true) _ _ _ run
  · intro i
    cases i <;> simp [firstPlace]
  · rintro l s i p q s' run step own caller rfl user
    have does := does_of_step step
    generalize s.data = d, s'.data = d' at own does
    cases does with
    | wait => rfl
    | waitMore => exact own caller rfl user
  · intro l s i p q s' j run step other h caller there user
    have flag := h caller there user
    have does := does_of_step step
    by_cases returns : s.data.tasksRunning = 0 ∧ s.data.tasks = []
    · have task : ¬(s.place j).OfWorker := by simp [there, Place.OfWorker, Place.task, user]
      rw [idle_pool run step returns.1 returns.2 other task]
      exact flag
    · generalize s.data = d, s'.data = d' at flag returns does
      cases does with
      | done _ zero empty => exact absurd ⟨zero, empty⟩ returns
      | wait => rfl
      | _ => exact flag

/-- `~ThreadPool` that returns leaves no task behind, neither in the queue nor in a worker, and all
workers have left their loops. -/
theorem destructor_returns (run : PoolRun n l s) {u : ω} (returned : s.place (.inr u) = .join n) :
    (finished l).Perm (pushed l) ∧ (∀ j, (s.place j).task = none) ∧
      ∀ w : Fin n, s.place (.inl w) = .exited := by
  classical
  obtain ⟨zero, empty⟩ := PoolRun.destroying run (.inr u) (.inr (.inr ⟨n, returned⟩))
  exact ⟨PoolRun.all_finished run zero empty, (PoolRun.accounts run).idle zero,
    fun w => (PoolRun.joined run (.inr u) n returned).2 w w.isLt⟩

theorem destructor_returns_destroyed :
    (finished (destroyed 7 8)).Perm (pushed (destroyed 7 8)) :=
  (destructor_returns (run_destroyed 7 8) (u := ()) rfl).1

end OneUser

end Tpcc.ThreadPool
