import Tpcc.Lib.Clients

/-! Backends that stand for one another.  A backend implements another one when their states can be
related so that reads agree and the writes that `may` admits keep them related.  A program that
makes no other writes then makes the same accesses with the same result on both, whether it runs
alone or interleaved with others. -/

namespace KvProgram

/-- `db` does for the writes in `may` what `spec` does, between states that `R` relates. -/
structure Backend.Implements {K V σ τ : Type} (db : Backend K V σ) (spec : Backend K V τ)
    (may : K → V → Prop) (R : σ → τ → Prop) : Prop where
  get : ∀ {s t} k, R s t → db.get s k = spec.get t k
  put : ∀ {s t} k v, R s t → may k v → R (db.put s k v) (spec.put t k v)

/-- A store with values at keys of its own stands for one with values at addresses. -/
structure Stands {K V κ κ' : Type} (key : K → κ') (addr : K → κ) (ok : V → Prop) (s : Store κ' V)
    (t : Store κ V) : Prop where
  same : ∀ k, s (key k) = t (addr k)
  values : ∀ k v, s (key k) = some v → ok v

/-- A backend that stores the values in `ok` at the keys of its own that it makes of the keys it is
given, where they differ exactly when the addresses do. -/
theorem Backend.implements_exact {K V σ κ κ' : Type} [DecidableEq κ] [DecidableEq κ'] {addr : K → κ}
    {key : K → κ'} {ok : V → Prop} {db : Backend K V σ} {contents : σ → Store κ' V}
    (differ : ∀ k k', key k = key k' ↔ addr k = addr k')
    (get : ∀ s k, (∀ v, contents s (key k) = some v → ok v) → db.get s k = contents s (key k))
    (put : ∀ s k v, ok v → contents (db.put s k v) = (contents s).put (key k) v) :
    db.Implements (.exact V addr) (fun _ v => ok v) fun s t =>
      Stands key addr ok (contents s) t where
  get k related := by
    rw [get _ k (related.values k), related.same k]
    rfl
  put k v related allowed := by
    rw [put _ k v allowed]
    constructor
    · intro k'
      simp only [Backend.exact, Store.put_apply, differ, related.same k']
    · intro k' v' stored
      rw [Store.put_apply] at stored
      split at stored
      · exact Option.some.inj stored ▸ allowed
      · exact related.values k' v' stored

/-- The logic of what a program may write, whatever it reads. -/
def Logic.writing {K V : Type} (may : K → V → Prop) : Logic K V Unit where
  onGet _ _ P s := ∀ v, P v s
  onPut k v P s := may k v ∧ P s
  mayStick := True
  onGet_mono h hPR v := hPR _ _ (h v)
  onPut_mono h hPR := ⟨h.1, hPR _ h.2⟩

/-- A program that makes no other writes than those in `may`. -/
def Prog.Writes {K V α : Type} (may : K → V → Prop) (p : Prog K V α) : Prop :=
  p.wp (.writing may) (fun _ _ => True) ()

theorem Prog.writes_all {K V α : Type} {may : K → V → Prop} (all : ∀ k v, may k v)
    (p : Prog K V α) : p.Writes may := by
  induction p with
  | done a => trivial
  | get k n next ih => exact ih
  | put k v next ih => exact ⟨all k v, ih⟩
  | stuck => trivial

section Programs

variable {K V σ τ α : Type} {db : Backend K V σ} {spec : Backend K V τ} {may : K → V → Prop}
  {R : σ → τ → Prop}

/-- A program that returns on one of the backends returns the same on the other. -/
theorem Backend.Implements.returns_iff (h : db.Implements spec may R) {p : Prog K V α}
    (writes : p.Writes may) {s : σ} {t : τ} {a : α} (related : R s t) :
    (∃ s', (p.exec db s).2 = some (a, s')) ↔ ∃ t', (p.exec spec t).2 = some (a, t') := by
  induction p generalizing s t with
  | done b => simp [Prog.exec]
  | get k n next ih =>
    simp only [Prog.exec, h.get k related]
    exact ih _ (writes _) related
  | put k v next ih => exact ih writes.2 (h.put k v related writes.1)
  | stuck => simp [Prog.exec]

/-- It leaves states that are related. -/
theorem Backend.Implements.related (h : db.Implements spec may R) {p : Prog K V α}
    (writes : p.Writes may) {s s' : σ} {t t' : τ} {a b : α} (related : R s t)
    (returns : (p.exec db s).2 = some (a, s')) (returns' : (p.exec spec t).2 = some (b, t')) :
    R s' t' := by
  induction p generalizing s t with
  | done c =>
    obtain ⟨-, rfl⟩ := Prod.mk.inj (Option.some.inj returns)
    obtain ⟨-, rfl⟩ := Prod.mk.inj (Option.some.inj returns')
    exact related
  | get k n next ih =>
    simp only [Prog.exec, h.get k related] at returns returns'
    exact ih _ (writes _) related returns returns'
  | put k v next ih => exact ih writes.2 (h.put k v related writes.1) returns returns'
  | stuck => simp [Prog.exec] at returns

/-- The next access of a program is the same on both backends. -/
theorem Backend.Implements.access (h : db.Implements spec may R) {p p' : Prog K V α}
    (writes : p.Writes may) {s s' : σ} {t : τ} {e : Event K V} (related : R s t)
    (access : p.access db s = some (e, p', s')) :
    ∃ t', p.access spec t = some (e, p', t') ∧ R s' t' ∧ p'.Writes may := by
  cases p with
  | done a => simp [Prog.access] at access
  | stuck => simp [Prog.access] at access
  | get k n next =>
    simp only [Prog.access, Option.some.injEq, Prod.mk.injEq] at access
    obtain ⟨rfl, rfl, rfl⟩ := access
    exact ⟨t, by rw [Prog.access, h.get k related], related, writes _⟩
  | put k v next =>
    simp only [Prog.access, Option.some.injEq, Prod.mk.injEq] at access
    obtain ⟨rfl, rfl, rfl⟩ := access
    exact ⟨_, rfl, h.put k v related writes.1, writes.2⟩

end Programs

section Clients

variable {ι J K V σ τ α : Type} [DecidableEq ι] {db : Backend K V σ} {spec : Backend K V τ}
  {may : K → V → Prop} {R : σ → τ → Prop} {isProgram : J → Prog K V α → Prop}

/-- Clients that are at the same places in their programs, over stores that are related. -/
structure Clients.Related (may : K → V → Prop) (R : σ → τ → Prop) (c : Clients ι J K V α σ)
    (c' : Clients ι J K V α τ) : Prop where
  store : R c.store c'.store
  running : c'.running = c.running
  writes : ∀ i job p, c.running i = some (job, p) → p.Writes may

/-- One client goes on, in both. -/
theorem Clients.Related.set {c : Clients ι J K V α σ} {c' : Clients ι J K V α τ}
    (h : Clients.Related may R c c') {i : ι} {s : σ} {t : τ} {rest : Option (J × Prog K V α)}
    (related : R s t) (writes : ∀ job p, rest = some (job, p) → p.Writes may) :
    Clients.Related may R (c.set i s rest) (c'.set i t rest) := by
  constructor
  · exact related
  · rw [Clients.set, Clients.set, h.running]
  · intro j job p running
    by_cases own : j = i
    · subst own
      rw [Clients.running_set] at running
      exact writes job p running
    · rw [Clients.running_set_of_ne own] at running
      exact h.writes j job p running

/-- A move of a client over one backend is a move over the other. -/
theorem Clients.Related.step (h : db.Implements spec may R)
    (programs : ∀ job p, isProgram job p → p.Writes may) {c c₁ : Clients ι J K V α σ}
    {c' : Clients ι J K V α τ} {move : Move ι J K V α} (related : Clients.Related may R c c')
    (step : Clients.Step db isProgram c move c₁) :
    ∃ c₁', Clients.Step spec isProgram c' move c₁' ∧ Clients.Related may R c₁ c₁' := by
  cases step with
  | @start i job p isIdle program =>
    have idle' : c'.running i = none := by rw [related.running, isIdle]
    refine ⟨_, .start idle' program, related.set related.store ?_⟩
    rintro job' p' ⟨⟩
    exact programs job p program
  | @access i job p p' e s running access =>
    have running' : c'.running i = some (job, p) := by rw [related.running, running]
    obtain ⟨t, same, next, writes⟩ := h.access (related.writes i job p running) related.store access
    refine ⟨_, .access running' same, related.set next ?_⟩
    rintro job' q ⟨⟩
    exact writes
  | @finish i job a running =>
    have running' : c'.running i = some (job, .done a) := by rw [related.running, running]
    exact ⟨_, .finish running', related.set related.store (by simp)⟩

/-- Every interleaving of clients over a backend that implements another one is an interleaving over
that one, with the same moves. -/
theorem Run.simulates (h : db.Implements spec may R)
    (programs : ∀ job p, isProgram job p → p.Writes may) {init : Clients ι J K V α σ → Prop}
    {init' : Clients ι J K V α τ → Prop}
    (first : ∀ c, init c → ∃ c', init' c' ∧ Clients.Related may R c c')
    {l : List (Move ι J K V α)} {c : Clients ι J K V α σ}
    (run : Run init (Clients.Step db isProgram) l c) :
    ∃ c', Run init' (Clients.Step spec isProgram) l c' ∧ Clients.Related may R c c' := by
  induction run with
  | start isFirst =>
    obtain ⟨c', isFirst', related⟩ := first _ isFirst
    exact ⟨c', .start isFirst', related⟩
  | next _ step ih =>
    obtain ⟨c', run, related⟩ := ih
    obtain ⟨c₁', step', related'⟩ := related.step h programs step
    exact ⟨c₁', .next run step', related'⟩

end Clients

end KvProgram
