import Mathlib.Algebra.BigOperators.Group.Finset.Piecewise
import Mathlib.Algebra.Order.BigOperators.Group.Finset
import Mathlib.Algebra.Order.Ring.Nat
import Mathlib.Data.Fintype.Card
import Tpcc.Lib.Program

/-! Threads that share data under one mutex and wait on condition variables.  A program is what a
thread does at each of its places: a critical section, which is one step, may end by waiting on a
condition, so that the thread sleeps until it is notified, or wakes up by itself, and then takes the
mutex again at its place.  The rules are for what runs keep: the places where threads sleep, a
condition whose threads are all notified when it comes to hold, and one where each ticket notifies
one thread. -/

namespace Monitor

open KvProgram

/-- How a critical section ends: the place where its thread goes on, the condition that it waits on
there, and the conditions whose threads it has all notified. -/
structure Leave (C P : Type) where
  place : P
  waitsOn : Option C
  notified : List C

/-- What a thread does at a place. -/
inductive Instr (ι σ C P : Type) where
  | critical (body : σ → σ × Leave C P)
  | notifyOne (c : C) (next : P)
  | notifyAll (c : C) (next : P)
  | join (thread : ι) (next : P)
  | outside (next : P → Prop)
  | halt

/-- The shared data, the places of the threads, and what each of them sleeps on. -/
structure State (ι σ C P : Type) where
  data : σ
  place : ι → P
  asleep : ι → Option C

/-- A move of a thread: it goes from a place to another, or wakes up without being notified. -/
inductive Move (ι P : Type) where
  | go (thread : ι) (source target : P)
  | wake (thread : ι)

section Step

variable {ι σ C P : Type} [DecidableEq ι] [DecidableEq C]

/-- The threads that sleep on one of the conditions wake up. -/
def wakeAll (cs : List C) (asleep : ι → Option C) : ι → Option C :=
  fun i => (asleep i).filter fun c => c ∉ cs

/-- The moves of the threads. -/
inductive Step (instr : P → Instr ι σ C P) (s : State ι σ C P) : Move ι P → State ι σ C P → Prop
  | critical {i : ι} {body : σ → σ × Leave C P} : s.asleep i = none →
      instr (s.place i) = .critical body →
      Step instr s (.go i (s.place i) (body s.data).2.place)
        { data := (body s.data).1
          place := Function.update s.place i (body s.data).2.place
          asleep := Function.update (wakeAll (body s.data).2.notified s.asleep) i
            (body s.data).2.waitsOn }
  | notifyOne {i j : ι} {c : C} {next : P} : s.asleep i = none →
      instr (s.place i) = .notifyOne c next → s.asleep j = some c →
      Step instr s (.go i (s.place i) next)
        { s with
          place := Function.update s.place i next, asleep := Function.update s.asleep j none }
  | notifyNone {i : ι} {c : C} {next : P} : s.asleep i = none →
      instr (s.place i) = .notifyOne c next → (∀ j, s.asleep j ≠ some c) →
      Step instr s (.go i (s.place i) next) { s with place := Function.update s.place i next }
  | notifyAll {i : ι} {c : C} {next : P} : s.asleep i = none →
      instr (s.place i) = .notifyAll c next →
      Step instr s (.go i (s.place i) next)
        { s with place := Function.update s.place i next, asleep := wakeAll [c] s.asleep }
  | join {i j : ι} {next : P} : s.asleep i = none → instr (s.place i) = .join j next →
      instr (s.place j) = .halt →
      Step instr s (.go i (s.place i) next) { s with place := Function.update s.place i next }
  | outside {i : ι} {next : P → Prop} {target : P} : s.asleep i = none →
      instr (s.place i) = .outside next → next target →
      Step instr s (.go i (s.place i) target) { s with place := Function.update s.place i target }
  | wake {i : ι} {c : C} : s.asleep i = some c →
      Step instr s (.wake i) { s with asleep := Function.update s.asleep i none }

/-- The runs from given data, with every thread awake at its first place. -/
abbrev Runs (instr : P → Instr ι σ C P) (data : σ) (place : ι → P) :
    List (Move ι P) → State ι σ C P → Prop :=
  Run (· = ⟨data, place, fun _ => none⟩) (Step instr)

end Step

section WakeAll

variable {ι C : Type} [DecidableEq C] {asleep : ι → Option C} {cs : List C} {i : ι} {c : C}

theorem wakeAll_eq_some : wakeAll cs asleep i = some c ↔ asleep i = some c ∧ c ∉ cs := by
  simp [wakeAll, Option.filter_eq_some_iff]

theorem wakeAll_eq_none (h : asleep i = none) : wakeAll cs asleep i = none := by
  simp [wakeAll, h]

end WakeAll

section Moves

variable {ι σ C P : Type} [DecidableEq ι] [DecidableEq C] {instr : P → Instr ι σ C P}
  {s s' : State ι σ C P} {m : Move ι P}

/-- The thread of a move. -/
def Move.thread : Move ι P → ι
  | .go i _ _ => i
  | .wake i => i

/-- The other threads stay at their places, and go to sleep on nothing. -/
theorem Step.others (step : Step instr s m s') {j : ι} (other : j ≠ m.thread) :
    s'.place j = s.place j ∧ ∀ c, s'.asleep j = some c → s.asleep j = some c := by
  cases step with
  | @critical i body awake code =>
    have other : j ≠ i := other
    refine ⟨Function.update_of_ne other .., fun c asleep => ?_⟩
    simp only [Function.update_of_ne other] at asleep
    exact (wakeAll_eq_some.mp asleep).1
  | @notifyOne i k c next awake code sleeps =>
    refine ⟨Function.update_of_ne other .., fun c' asleep => ?_⟩
    by_cases woken : j = k
    · subst woken
      simp at asleep
    · simpa only [Function.update_of_ne woken] using asleep
  | notifyNone awake code none => exact ⟨Function.update_of_ne other .., fun _ asleep => asleep⟩
  | notifyAll awake code =>
    exact ⟨Function.update_of_ne other .., fun c asleep => (wakeAll_eq_some.mp asleep).1⟩
  | join awake code halted => exact ⟨Function.update_of_ne other .., fun _ asleep => asleep⟩
  | outside awake code target => exact ⟨Function.update_of_ne other .., fun _ asleep => asleep⟩
  | @wake i c sleeps =>
    have other : j ≠ i := other
    refine ⟨rfl, fun c asleep => ?_⟩
    simpa only [Function.update_of_ne other] using asleep

/-- A thread that goes from a place was there, and awake. -/
theorem Step.source {i : ι} {p q : P} (step : Step instr s (.go i p q) s') :
    s.place i = p ∧ s.asleep i = none ∧ s'.place i = q := by
  cases step with
  | critical awake code => exact ⟨rfl, awake, Function.update_self ..⟩
  | notifyOne awake code sleeps => exact ⟨rfl, awake, Function.update_self ..⟩
  | notifyNone awake code none => exact ⟨rfl, awake, Function.update_self ..⟩
  | notifyAll awake code => exact ⟨rfl, awake, Function.update_self ..⟩
  | join awake code halted => exact ⟨rfl, awake, Function.update_self ..⟩
  | outside awake code target => exact ⟨rfl, awake, Function.update_self ..⟩

/-- A thread that is asleep after a move of its own has ended a critical section. -/
theorem Step.falls (step : Step instr s m s') {c : C} (asleep : s'.asleep m.thread = some c) :
    ∃ body, instr (s.place m.thread) = .critical body ∧ s.asleep m.thread = none ∧
      s'.data = (body s.data).1 ∧ s'.place m.thread = (body s.data).2.place ∧
      (body s.data).2.waitsOn = some c := by
  cases step with
  | @critical i body awake code =>
    simp only [Move.thread, Function.update_self] at asleep
    exact ⟨body, code, awake, rfl, Function.update_self .., asleep⟩
  | @notifyOne i k c' next awake code sleeps =>
    by_cases woken : i = k
    · subst woken
      simp [awake] at sleeps
    · simp [Move.thread, Function.update_of_ne woken, awake] at asleep
  | notifyNone awake code none => simp [Move.thread, awake] at asleep
  | notifyAll awake code => simp [Move.thread, wakeAll_eq_none awake] at asleep
  | join awake code halted => simp [Move.thread, awake] at asleep
  | outside awake code target => simp [Move.thread, awake] at asleep
  | wake sleeps => simp [Move.thread] at asleep

/-- A thread that has halted does not move. -/
theorem Step.not_halt {i : ι} {p q : P} (step : Step instr s (.go i p q) s') : instr p ≠ .halt := by
  cases step with
  | critical awake code | notifyOne awake code | notifyNone awake code | notifyAll awake code
    | join awake code | outside awake code => simp [code]

/-- A thread that goes on from a join has found the other thread halted. -/
theorem Step.joined {i j : ι} {p q next : P} (step : Step instr s (.go i p q) s')
    (joins : instr p = .join j next) : q = next ∧ instr (s.place j) = .halt := by
  cases step with
  | critical awake code | notifyOne awake code | notifyNone awake code | notifyAll awake code
    | outside awake code =>
    rw [code] at joins
    cases joins
  | join awake code halted =>
    rw [code] at joins
    cases joins
    exact ⟨rfl, halted⟩

end Moves

section Ready

variable {ι σ C P : Type} [DecidableEq ι] [DecidableEq C] {instr : P → Instr ι σ C P}
  {s : State ι σ C P}

/-- What an awake thread needs in order to move. -/
def Instr.Ready (instr : P → Instr ι σ C P) (s : State ι σ C P) : Instr ι σ C P → Prop
  | .critical _ | .notifyOne _ _ | .notifyAll _ _ => True
  | .join j _ => instr (s.place j) = .halt
  | .outside next => ∃ p, next p
  | .halt => False

/-- An awake thread that is ready can move. -/
theorem exists_step {i : ι} (awake : s.asleep i = none)
    (ready : (instr (s.place i)).Ready instr s) :
    ∃ q s', Step instr s (.go i (s.place i) q) s' := by
  cases code : instr (s.place i) with
  | critical body => exact ⟨_, _, .critical awake code⟩
  | notifyOne c next =>
    by_cases sleeper : ∃ j, s.asleep j = some c
    · obtain ⟨j, sleeps⟩ := sleeper
      exact ⟨_, _, .notifyOne awake code sleeps⟩
    · exact ⟨_, _, .notifyNone awake code fun j sleeps => sleeper ⟨j, sleeps⟩⟩
  | notifyAll c next => exact ⟨_, _, .notifyAll awake code⟩
  | join j next =>
    rw [code] at ready
    exact ⟨_, _, .join awake code ready⟩
  | outside next =>
    rw [code] at ready
    obtain ⟨target, allowed⟩ := ready
    exact ⟨_, _, .outside awake code allowed⟩
  | halt =>
    rw [code] at ready
    exact ready.elim

end Ready

/-! ### What holds of the place of each thread -/

section Places

variable {ι σ C P : Type} [DecidableEq ι] [DecidableEq C] {instr : P → Instr ι σ C P}

/-- A property of the data and the place of a thread that its own moves and those of the others
keep. -/
theorem Runs.places {data : σ} {place : ι → P} {A : ι → σ → P → Prop}
    (first : ∀ i, A i data (place i))
    (own : ∀ l s i p q s', Runs instr data place l s → Step instr s (.go i p q) s' →
      A i s.data p → A i s'.data q)
    (others : ∀ l s i p q s' j, Runs instr data place l s → Step instr s (.go i p q) s' → j ≠ i →
      A j s.data (s.place j) → A j s'.data (s.place j))
    {l : List (Move ι P)} {s : State ι σ C P} (run : Runs instr data place l s) :
    ∀ i, A i s.data (s.place i) := by
  induction run with
  | start start =>
    subst start
    exact first
  | @next l s s' m run step ih =>
    intro j
    cases m with
    | go i p q =>
      obtain ⟨source, -, target⟩ := step.source
      by_cases same : j = i
      · subst same
        rw [target]
        exact own l s j p q s' run step (source ▸ ih j)
      · rw [(step.others (show j ≠ Move.thread (.go i p q) from same)).1]
        exact others l s i p q s' j run step same (ih j)
    | wake i =>
      cases step
      exact ih j

end Places

/-! ### Where threads sleep -/

section Rests

variable {ι σ C P : Type} [DecidableEq ι] [DecidableEq C] {instr : P → Instr ι σ C P}

/-- The critical sections that wait on a condition leave their threads at places in `rests`. -/
def Rests (instr : P → Instr ι σ C P) (rests : C → P → Prop) : Prop :=
  ∀ p body, instr p = .critical body →
    ∀ d c, (body d).2.waitsOn = some c → rests c (body d).2.place

theorem Rests.step {rests : C → P → Prop} (h : Rests instr rests) {s s' : State ι σ C P}
    {m : Move ι P} (step : Step instr s m s')
    (before : ∀ i c, s.asleep i = some c → rests c (s.place i)) :
    ∀ i c, s'.asleep i = some c → rests c (s'.place i) := by
  intro j c asleep
  by_cases own : j = m.thread
  · subst own
    obtain ⟨body, code, _, _, place, waits⟩ := step.falls asleep
    rw [place]
    exact h _ body code _ c waits
  · obtain ⟨place, sleeps⟩ := step.others own
    rw [place]
    exact before j c (sleeps c asleep)

/-- A thread that sleeps on a condition is at a place where threads wait on it. -/
theorem Runs.rests {rests : C → P → Prop} (h : Rests instr rests) {data : σ} {place : ι → P}
    {l : List (Move ι P)} {s : State ι σ C P} (run : Runs instr data place l s) :
    ∀ i c, s.asleep i = some c → rests c (s.place i) := by
  induction run with
  | start first =>
    subst first
    simp
  | next _ step ih => exact h.step step ih

end Rests

/-! ### Conditions whose threads are all notified -/

section Signalled

variable {ι σ C P : Type} [DecidableEq ι] [DecidableEq C] {instr : P → Instr ι σ C P}

/-- Where `G` holds no thread sleeps on `c`, or a thread is about to notify all that do. -/
def Signalled (instr : P → Instr ι σ C P) (G : σ → Prop) (c : C) (s : State ι σ C P) : Prop :=
  G s.data → (∀ j, s.asleep j ≠ some c) ∨
    ∃ i next, s.asleep i = none ∧ instr (s.place i) = .notifyAll c next

/-- A critical section that waits on `c` leaves data without `G`, and one that brings `G` about
while a thread sleeps on `c` notifies all that do, or goes to a place where it will. -/
def Signals (instr : P → Instr ι σ C P) (G : σ → Prop) (c : C) (s : State ι σ C P) : Prop :=
  ∀ i body, s.asleep i = none → instr (s.place i) = .critical body → G (body s.data).1 →
    (body s.data).2.waitsOn ≠ some c ∧ (G s.data ∨ (∀ j, s.asleep j ≠ some c) ∨
      c ∈ (body s.data).2.notified ∨ (body s.data).2.waitsOn = none ∧
        ∃ next, instr (body s.data).2.place = .notifyAll c next)

theorem Signalled.step {G : σ → Prop} {c : C} {s s' : State ι σ C P} {m : Move ι P}
    (h : Signalled instr G c s) (signals : Signals instr G c s) (step : Step instr s m s') :
    Signalled instr G c s' := by
  intro holds
  -- A thread that sleeps on `c` afterwards has done so before, unless it has just gone to sleep.
  have keeps (quiet : ∀ j, s.asleep j ≠ some c) (own : s'.asleep m.thread ≠ some c) :
      ∀ j, s'.asleep j ≠ some c := by
    intro j asleep
    by_cases same : j = m.thread
    · exact own (same ▸ asleep)
    · exact quiet j ((step.others same).2 c asleep)
  -- A thread that is about to notify still is, unless it has made the move.
  have stays {i : ι} {next : P} (other : i ≠ m.thread) (awake : s.asleep i = none)
      (code : instr (s.place i) = .notifyAll c next) :
      ∃ i next, s'.asleep i = none ∧ instr (s'.place i) = .notifyAll c next := by
    obtain ⟨place, sleeps⟩ := step.others other
    refine ⟨i, next, ?_, by rw [place, code]⟩
    cases asleep : s'.asleep i with
    | none => rfl
    | some c' => rw [sleeps c' asleep] at awake; contradiction
  have goes (own : s'.asleep m.thread ≠ some c)
      (source : ∀ next, instr (s.place m.thread) ≠ .notifyAll c next) (before : G s.data) :
      (∀ j, s'.asleep j ≠ some c) ∨
        ∃ i next, s'.asleep i = none ∧ instr (s'.place i) = .notifyAll c next := by
    rcases h before with quiet | ⟨i, next, awake, code⟩
    · exact .inl (keeps quiet own)
    · refine .inr (stays (fun same => source next ?_) awake code)
      rw [← same, code]
  cases step with
  | @critical i body awake code =>
    obtain ⟨waits, before | quiet | notified | ⟨open', next, place⟩⟩ :=
      signals i body awake code holds
    · exact goes (by simpa [Move.thread] using waits) (by simp [Move.thread, code]) before
    · exact .inl (keeps quiet (by simpa [Move.thread] using waits))
    · left
      intro j
      by_cases same : j = i
      · simpa [same] using waits
      · simp only [Function.update_of_ne same]
        exact fun asleep => (wakeAll_eq_some.mp asleep).2 notified
    · exact .inr ⟨i, next, by simpa using open', by simpa using place⟩
  | @notifyOne i k c' next awake code sleeps =>
    have apart : i ≠ k := fun same => by simp [← same, awake] at sleeps
    exact goes (by simp [Move.thread, Function.update_of_ne apart, awake])
      (by simp [Move.thread, code]) holds
  | @notifyNone i c' next awake code none =>
    exact goes (by simp [Move.thread, awake]) (by simp [Move.thread, code]) holds
  | @notifyAll i c' next awake code =>
    by_cases same : c' = c
    · subst same
      exact .inl fun j asleep => (wakeAll_eq_some.mp asleep).2 (by simp)
    · refine goes ?_ (by simp [Move.thread, code, same]) holds
      simp [Move.thread, wakeAll_eq_none awake]
  | join awake code halted =>
    exact goes (by simp [Move.thread, awake]) (by simp [Move.thread, code]) holds
  | outside awake code target =>
    exact goes (by simp [Move.thread, awake]) (by simp [Move.thread, code]) holds
  | @wake i c' sleeps =>
    rcases h holds with quiet | ⟨k, next, awake, code⟩
    · exact .inl (keeps quiet (by simp [Move.thread]))
    · refine .inr (stays (fun same => ?_) awake code)
      have asleep : s.asleep k = some c' := same ▸ sleeps
      simp [awake] at asleep

theorem Runs.signalled {G : σ → Prop} {c : C} {data : σ} {place : ι → P}
    (signals : ∀ l s, Runs instr data place l s → Signals instr G c s) {l : List (Move ι P)}
    {s : State ι σ C P} (run : Runs instr data place l s) : Signalled instr G c s := by
  induction run with
  | start first =>
    subst first
    exact fun _ => .inl fun _ => nofun
  | next run step ih => exact ih.step (signals _ _ run) step

end Signalled

/-! ### Counting threads -/

section Count

variable {ι : Type} [Fintype ι] {p q : ι → Prop} {i : ι}

open Classical in
/-- The number of threads with a property. -/
noncomputable def count (p : ι → Prop) : Nat := (Finset.univ.filter p).card

open Classical in
/-- One for a property that a thread has, zero for one that it does not. -/
noncomputable def weight (p : Prop) : Nat := if p then 1 else 0

theorem weight_le (p : Prop) : weight p ≤ 1 := by
  unfold weight
  split <;> omega

theorem weight_pos {p : Prop} (h : p) : weight p = 1 := if_pos h

theorem weight_neg {p : Prop} (h : ¬p) : weight p = 0 := if_neg h

/-- One thread may lose a property that the others keep. -/
theorem count_others (i : ι) (others : ∀ j, j ≠ i → p j → q j) :
    count p + weight (q i) ≤ count q + weight (p i) := by
  classical
  simp only [count, Finset.card_filter, weight]
  rw [← Finset.add_sum_erase _ (fun j => if p j then 1 else 0) (Finset.mem_univ i),
    ← Finset.add_sum_erase _ (fun j => if q j then 1 else 0) (Finset.mem_univ i)]
  have rest : ∑ j ∈ Finset.univ.erase i, (if p j then 1 else 0) ≤
      ∑ j ∈ Finset.univ.erase i, if q j then 1 else 0 := by
    apply Finset.sum_le_sum
    intro j hj
    by_cases holds : p j
    · simp [holds, others j (Finset.ne_of_mem_erase hj) holds]
    · simp [holds]
  omega

/-- One thread changes, the others keep the property or its lack. -/
theorem count_change (i : ι) (others : ∀ j, j ≠ i → (p j ↔ q j)) :
    count p + weight (q i) = count q + weight (p i) := by
  have there := count_others i fun j other => (others j other).mp
  have back := count_others i fun j other => (others j other).mpr
  omega

theorem count_mono (h : ∀ j, p j → q j) : count p ≤ count q := by
  classical
  exact Finset.card_le_card fun j hj => by simpa using h j (by simpa using hj)

theorem count_pos (h : p i) : 0 < count p := by
  classical
  exact Finset.card_pos.mpr ⟨i, by simpa using h⟩

theorem exists_of_count_pos (h : 0 < count p) : ∃ i, p i := by
  classical
  obtain ⟨i, hi⟩ := Finset.card_pos.mp h
  exact ⟨i, by simpa using hi⟩

/-- A thread that gains a property. -/
theorem count_gain (h : ¬p i) : count (fun j => p j ∨ j = i) = count p + 1 := by
  classical
  have inserted : Finset.univ.filter (fun j => p j ∨ j = i) = insert i (Finset.univ.filter p) := by
    ext j
    simp [or_comm]
  have card := Finset.card_insert_of_notMem (s := Finset.univ.filter p) (a := i) (by simpa using h)
  rw [← inserted] at card
  rw [count, count, ← card]
  congr

/-- Two threads. -/
theorem count_two {j : ι} (hi : p i) (hj : p j) (other : j ≠ i) : 2 ≤ count p := by
  have gained := count_gain (p := fun k => k = i) other
  have one := count_pos (p := fun k => k = i) (i := i) rfl
  have more := count_mono (p := fun k => k = i ∨ k = j) (q := p) fun k either => by
    rcases either with rfl | rfl
    · exact hi
    · exact hj
  omega

end Count

section Places

variable {ι σ C P : Type} [Fintype ι] [DecidableEq ι] [DecidableEq C] {instr : P → Instr ι σ C P}
  {s s' : State ι σ C P}

/-- The number of threads at places with a property changes by the thread that moves. -/
theorem Step.count_places (A : P → Prop) {i : ι} {p q : P} (step : Step instr s (.go i p q) s') :
    count (fun j => A (s.place j)) + weight (A q) =
      count (fun j => A (s'.place j)) + weight (A p) := by
  obtain ⟨source, -, target⟩ := step.source
  have moved := count_change (p := fun j => A (s.place j)) (q := fun j => A (s'.place j)) i
    fun j other => by rw [(step.others (show j ≠ Move.thread (.go i p q) from other)).1]
  rwa [source, target] at moved

end Places

/-! ### Potentials -/

section Potential

variable {ι σ C P : Type} [Fintype ι] [DecidableEq ι] [DecidableEq C] {instr : P → Instr ι σ C P}

/-- The number of threads that are awake. -/
noncomputable def State.awake (s : State ι σ C P) : Nat := count fun i => s.asleep i = none

/-- The potential of a state: that of its data, those of the places of its threads, and one for each
thread that is awake. -/
noncomputable def State.potential (f : σ → Nat) (w : P → Nat) (s : State ι σ C P) : Nat :=
  f s.data + ∑ i, w (s.place i) + s.awake

/-- What a move may add to the potential: the price of outside code, or two for a thread that wakes
up without being notified. -/
def Move.cost (price : P → Nat) : Move ι P → Nat
  | .go _ _ target => price target
  | .wake _ => 2

/-- A move of a thread uses up potential, for itself and for each thread that it may notify; outside
code pays its price. -/
structure Paid (n : Nat) (instr : P → Instr ι σ C P) (f : σ → Nat) (w price : P → Nat) : Prop where
  critical : ∀ p body d, instr p = .critical body →
    f (body d).1 + w (body d).2.place + (body d).2.notified.length * n +
      weight ((body d).2.waitsOn = none) ≤ f d + w p + price (body d).2.place
  notifyOne : ∀ p c next, instr p = .notifyOne c next → w next + 2 ≤ w p
  notifyAll : ∀ p c next, instr p = .notifyAll c next → w next + n + 1 ≤ w p
  join : ∀ p j next, instr p = .join j next → w next + 1 ≤ w p
  outside : ∀ p next target, instr p = .outside next → next target →
    w target + 1 ≤ w p + price target

section Step

variable {f : σ → Nat} {w price : P → Nat} {s s' : State ι σ C P} {m : Move ι P}

/-- The potentials of the places change by that of the thread that moves. -/
theorem sum_update (w : P → Nat) (place : ι → P) (i : ι) (q : P) :
    ∑ j, w (Function.update place i q j) + w (place i) = ∑ j, w (place j) + w q := by
  rw [← Finset.add_sum_erase _ (fun j => w (place j)) (Finset.mem_univ i),
    ← Finset.add_sum_erase _ (fun j => w (Function.update place i q j)) (Finset.mem_univ i),
    Function.update_self]
  have rest : ∑ j ∈ Finset.univ.erase i, w (Function.update place i q j) =
      ∑ j ∈ Finset.univ.erase i, w (place j) := by
    apply Finset.sum_congr rfl
    intro j hj
    rw [Function.update_of_ne (Finset.ne_of_mem_erase hj)]
  omega

omit [DecidableEq ι] in
theorem count_le (p : ι → Prop) : count p ≤ Fintype.card ι := by
  classical
  exact Finset.card_le_univ _

/-- Threads that a critical section has notified are awake after it, and its own unless it waits. -/
theorem awake_critical {asleep : ι → Option C} {i : ι} (awake : asleep i = none) (cs : List C)
    (waitsOn : Option C) :
    count (fun j => Function.update (wakeAll cs asleep) i waitsOn j = none) + 1 ≤
      count (fun j => asleep j = none) + cs.length * Fintype.card ι + weight (waitsOn = none) := by
  cases cs with
  | nil =>
    have moved :=
      count_change (p := fun j => Function.update (wakeAll [] asleep) i waitsOn j = none)
      (q := fun j => asleep j = none) i fun j other => by
        cases sleeps : asleep j <;> simp [Function.update_of_ne other, wakeAll, sleeps]
    simp only [Function.update_self, weight_pos awake] at moved
    omega
  | cons c cs =>
    have moved :=
      count_others (p := fun j => Function.update (wakeAll (c :: cs) asleep) i waitsOn j =
      none) (q := fun _ => True) i fun _ _ _ => trivial
    have all := count_le fun _ : ι => True
    have most : Fintype.card ι ≤ (c :: cs).length * Fintype.card ι :=
      Nat.le_mul_of_pos_left _ (by simp)
    simp only [Function.update_self, weight_pos] at moved
    omega

omit [DecidableEq C] in
/-- At most one thread is woken. -/
theorem awake_update (asleep : ι → Option C) (i : ι) :
    count (fun j => Function.update asleep i none j = none) ≤
      count (fun j => asleep j = none) + 1 := by
  have moved := count_others (p := fun j => Function.update asleep i none j = none)
    (q := fun j => asleep j = none) i fun j other woken => by
      simpa [Function.update_of_ne other] using woken
  have bound := weight_le (Function.update asleep i none i = none)
  omega

theorem Paid.step (h : Paid (Fintype.card ι) instr f w price) (step : Step instr s m s') :
    s'.potential f w + 1 ≤ s.potential f w + m.cost price := by
  cases step with
  | @critical i body awake code =>
    have places := sum_update w s.place i (body s.data).2.place
    have woken := awake_critical awake (body s.data).2.notified (body s.data).2.waitsOn
    have paid := h.critical _ body s.data code
    simp only [State.potential, State.awake, Move.cost]
    omega
  | @notifyOne i j c next awake code sleeps =>
    have places := sum_update w s.place i next
    have woken := awake_update s.asleep j
    have paid := h.notifyOne _ c next code
    simp only [State.potential, State.awake, Move.cost]
    omega
  | @notifyNone i c next awake code none =>
    have places := sum_update w s.place i next
    have paid := h.notifyOne _ c next code
    simp only [State.potential, State.awake, Move.cost]
    omega
  | @notifyAll i c next awake code =>
    have places := sum_update w s.place i next
    have woken := count_le fun j => wakeAll [c] s.asleep j = none
    have paid := h.notifyAll _ c next code
    simp only [State.potential, State.awake, Move.cost]
    omega
  | @join i j next awake code halted =>
    have places := sum_update w s.place i next
    have paid := h.join _ j next code
    simp only [State.potential, State.awake, Move.cost]
    omega
  | @outside i next target awake code allowed =>
    have places := sum_update w s.place i target
    have paid := h.outside _ next target code allowed
    simp only [State.potential, State.awake, Move.cost]
    omega
  | @wake i c sleeps =>
    have woken := awake_update s.asleep i
    simp only [State.potential, State.awake, Move.cost]
    omega

end Step

/-- The moves of a run are no more than the potential at its start and the prices it pays. -/
theorem Runs.length_le {f : σ → Nat} {w price : P → Nat}
    (h : Paid (Fintype.card ι) instr f w price) {data : σ} {place : ι → P} {l : List (Move ι P)}
    {s : State ι σ C P} (run : Runs instr data place l s) :
    l.length + s.potential f w ≤
      f data + ∑ i, w (place i) + Fintype.card ι + (l.map (Move.cost price)).sum := by
  induction run with
  | start first =>
    subst first
    have all := count_le fun _ : ι => True
    simp only [State.potential, State.awake, List.length_nil, List.map_nil, List.sum_nil]
    omega
  | next _ step ih =>
    have paid := h.step step
    simp only [List.length_cons, List.map_cons, List.sum_cons]
    omega

end Potential

/-! ### Conditions with a notification for each ticket -/

section Tickets

variable {ι σ C P : Type} [Fintype ι] [DecidableEq ι] [DecidableEq C] {instr : P → Instr ι σ C P}

/-- The places of the threads that will serve a ticket: those where a thread looks for one, and
those where a thread is about to notify one that does. -/
def Serves (instr : P → Instr ι σ C P) (c : C) (looks : P → Prop) (p : P) : Prop :=
  looks p ∨ ∃ next, instr p = .notifyOne c next

/-- An awake thread at a place of those. -/
def State.Serving (instr : P → Instr ι σ C P) (c : C) (looks : P → Prop)
    (s : State ι σ C P) (i : ι) :
    Prop :=
  s.asleep i = none ∧ Serves instr c looks (s.place i)

/-- While a thread sleeps on `c`, each ticket has a thread that will serve it. -/
def Served (instr : P → Instr ι σ C P) (c : C) (looks : P → Prop) (tickets : σ → Nat)
    (s : State ι σ C P) : Prop :=
  (∃ j, s.asleep j = some c) → tickets s.data ≤ count (s.Serving instr c looks)

/-- A critical section leaves no ticket, or does not sleep on `c`, and makes no more tickets than it
leaves threads to serve them. -/
structure Tickets (instr : P → Instr ι σ C P) (c : C) (looks : P → Prop) (tickets : σ → Nat) :
    Prop where
  body : ∀ p body d, instr p = .critical body → tickets (body d).1 = 0 ∨
    (body d).2.waitsOn ≠ some c ∧ tickets (body d).1 + weight (Serves instr c looks p) ≤
      tickets d + weight ((body d).2.waitsOn = none ∧ Serves instr c looks (body d).2.place)
  critical : ∀ p, looks p → ∃ body, instr p = .critical body
  rests : ∀ p body d, instr p = .critical body → (body d).2.waitsOn = some c →
    looks (body d).2.place

section Step

variable {c : C} {looks : P → Prop} {tickets : σ → Nat} {s s' : State ι σ C P} {m : Move ι P}

omit [Fintype ι] [DecidableEq ι] [DecidableEq C] in
/-- A thread outside of critical sections that is not about to notify a thread on `c` serves no
ticket. -/
theorem Tickets.not_serves (h : Tickets instr c looks tickets) {p : P}
    (code : ∀ body, instr p ≠ .critical body) (other : ∀ next, instr p ≠ .notifyOne c next) :
    ¬Serves instr c looks p := by
  rintro (here | ⟨next, notifies⟩)
  · obtain ⟨body, same⟩ := h.critical p here
    exact code body same
  · exact other next notifies

omit [Fintype ι] in
theorem Step.serving_others (step : Step instr s m s') {j : ι} (other : j ≠ m.thread)
    (serves : s.Serving instr c looks j) : s'.Serving instr c looks j := by
  obtain ⟨place, sleeps⟩ := step.others other
  refine ⟨?_, by rw [place]; exact serves.2⟩
  cases asleep : s'.asleep j with
  | none => rfl
  | some c' =>
    have before := sleeps c' asleep
    rw [serves.1] at before
    contradiction

variable (c looks) in
/-- Only the thread that moves may stop to serve a ticket. -/
theorem Step.serving (step : Step instr s m s') :
    count (s.Serving instr c looks) + weight (s'.Serving instr c looks m.thread) ≤
      count (s'.Serving instr c looks) + weight (s.Serving instr c looks m.thread) :=
  count_others m.thread fun _ other serves => step.serving_others other serves

/-- A thread that is woken serves a ticket in place of the one that moves. -/
theorem Step.serving_woken (step : Step instr s m s') {k : ι} (other : k ≠ m.thread)
    (before : ¬s.Serving instr c looks k) (after : s'.Serving instr c looks k) :
    count (s.Serving instr c looks) ≤ count (s'.Serving instr c looks) := by
  have gained := count_gain before
  have moved := count_others (p := fun j => s.Serving instr c looks j ∨ j = k)
    (q := s'.Serving instr c looks) m.thread fun j other serves => by
      rcases serves with serves | rfl
      · exact step.serving_others other serves
      · exact after
  have bound := weight_le (s.Serving instr c looks m.thread ∨ m.thread = k)
  omega

/-- A move of a thread that has served no ticket. -/
theorem Served.quiet (h : Served instr c looks tickets s) (step : Step instr s m s')
    (data : tickets s'.data = tickets s.data) (own : s'.asleep m.thread ≠ some c)
    (idle : ¬s.Serving instr c looks m.thread) : Served instr c looks tickets s' := by
  rintro ⟨j, asleep⟩
  have other : j ≠ m.thread := fun same => own (same ▸ asleep)
  have more :=
    count_mono (p := s.Serving instr c looks) (q := s'.Serving instr c looks) fun k serves =>
    step.serving_others (fun same => idle (same ▸ serves)) serves
  have before := h ⟨j, (step.others other).2 c asleep⟩
  omega

theorem Served.step (h : Served instr c looks tickets s) (rule : Tickets instr c looks tickets)
    (rests : ∀ i, s.asleep i = some c → looks (s.place i)) (step : Step instr s m s') :
    Served instr c looks tickets s' := by
  cases step with
  | @critical i body awake code =>
    rintro ⟨j, asleep⟩
    rcases rule.body _ body s.data code with none | ⟨waits, balance⟩
    · simp [none]
    · have step := Step.critical awake code
      have other : j ≠ i := by
        rintro rfl
        simp only [Function.update_self] at asleep
        exact waits asleep
      have before := h ⟨j, (step.others other).2 c asleep⟩
      have moved := step.serving c looks
      simp only [Move.thread, State.Serving, Function.update_self, awake, true_and] at moved before
      show tickets (body s.data).1 ≤ _
      omega
  | @notifyOne i k c' next awake code sleeps =>
    have step := Step.notifyOne awake code sleeps
    have apart : i ≠ k := fun same => by simp [← same, awake] at sleeps
    by_cases same : c' = c
    · -- The thread that is woken serves the ticket that was to be served by the one that wakes it.
      subst same
      intro _
      have looks' : looks (Function.update s.place i next k) := by
        simpa [Function.update_of_ne (Ne.symm apart)] using rests k sleeps
      have moved := step.serving_woken (Ne.symm apart)
        (fun serves => by simp [State.Serving, sleeps] at serves)
        (show State.Serving instr c' looks _ k from ⟨by simp, .inl looks'⟩)
      exact (h ⟨k, sleeps⟩).trans moved
    · apply h.quiet step rfl
      · simp [Move.thread, Function.update_of_ne apart, awake]
      · exact fun serves => rule.not_serves (by simp [Move.thread, code])
          (by simp [Move.thread, code, same]) serves.2
  | @notifyNone i c' next awake code none =>
    by_cases same : c' = c
    · subst same
      rintro ⟨j, asleep⟩
      exact absurd asleep (none j)
    · apply h.quiet (Step.notifyNone awake code none) rfl (by simp [Move.thread, awake])
      exact fun serves => rule.not_serves (by simp [Move.thread, code])
        (by simp [Move.thread, code, same]) serves.2
  | notifyAll awake code =>
    apply h.quiet (Step.notifyAll awake code) rfl (by simp [Move.thread, wakeAll_eq_none awake])
    exact fun serves => rule.not_serves (by simp [Move.thread, code]) (by simp [Move.thread, code])
      serves.2
  | join awake code halted =>
    apply h.quiet (Step.join awake code halted) rfl (by simp [Move.thread, awake])
    exact fun serves => rule.not_serves (by simp [Move.thread, code]) (by simp [Move.thread, code])
      serves.2
  | outside awake code target =>
    apply h.quiet (Step.outside awake code target) rfl (by simp [Move.thread, awake])
    exact fun serves => rule.not_serves (by simp [Move.thread, code]) (by simp [Move.thread, code])
      serves.2
  | wake sleeps =>
    apply h.quiet (Step.wake sleeps) rfl (by simp [Move.thread])
    exact fun serves => by simp [Move.thread, State.Serving, sleeps] at serves

end Step

/-- While a thread sleeps on `c`, each ticket has a thread that will serve it. -/
theorem Runs.served {c : C} {looks : P → Prop} {tickets : σ → Nat}
    (rule : Tickets instr c looks tickets) {data : σ} {place : ι → P} {l : List (Move ι P)}
    {s : State ι σ C P} (run : Runs instr data place l s) : Served instr c looks tickets s := by
  induction run with
  | start first =>
    subst first
    rintro ⟨j, asleep⟩
    simp at asleep
  | next run step ih =>
    have places : Rests instr fun c' p => c' = c → looks p := by
      rintro p body code d c' waits rfl
      exact rule.rests p body d code waits
    exact ih.step rule (fun i asleep => Runs.rests places run i c asleep rfl) step

end Tickets

end Monitor
