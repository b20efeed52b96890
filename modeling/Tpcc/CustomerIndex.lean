import Tpcc.LoadedTables

/-! The customer index.  `MakeCustomerIndexKey` builds its key in a new buffer and returns the
address of the buffer, which nothing frees: two calls never return the same key, whatever their
arguments, and no call that is made after the load returns the key of an entry. -/

namespace Tpcc

open KvProgram Layout

/-! ### Calls of a thread -/

/-- What `operator new` does: a buffer is live once it has been returned, nothing ends its life, and
it is at an address of no live allocation, as long as there is one. -/
structure Allocates {ρ : Type} (env : Env ρ) (live : ρ → Set UInt64) : Prop where
  nextBits : ∀ bits r, live r ⊆ live (env.nextBits bits r).2
  seeded : ∀ seed r, live r ⊆ live (env.seeded seed r)
  memory : ∀ n r, live r ⊆ live (env.memory n r).2
  allocate : ∀ words r, insert (env.allocate words r).1 (live r) ⊆ live (env.allocate words r).2
  fresh : ∀ words r, live r ≠ Set.univ → (env.allocate words r).1 ∉ live r

/-- A call of `MakeCustomerIndexKey` that has returned. -/
structure IndexCall where
  wId : Int
  dId : Int
  last : List UInt8
  first : List UInt8
  key : UInt64

def IndexCall.args (call : IndexCall) : Int × Int × List UInt8 × List UInt8 :=
  (call.wId, call.dId, call.last, call.first)

/-- The steps of a thread: `operator new` does not return when every address is live. -/
inductive ThreadStep {ρ : Type} (env : Env ρ) (live : ρ → Set UInt64) :
    Thread ρ → Option IndexCall → Thread ρ → Prop
  | next (bits : Nat) (t : Thread ρ) :
      ThreadStep env live t none { t with rng := (env.nextBits bits t.rng).2 }
  | seeded (seed : Nat) (t : Thread ρ) :
      ThreadStep env live t none { t with rng := env.seeded seed t.rng }
  | memory (n : Nat) (t : Thread ρ) :
      ThreadStep env live t none { t with rng := (env.memory n t.rng).2 }
  | clock (t : Thread ρ) : ThreadStep env live t none { t with tlHack := t.tlHack + 1 }
  | call {t t' : Thread ρ} {call : IndexCall} (room : live t.rng ≠ Set.univ)
      (made : (makeCustomerIndexKey env call.wId call.dId call.last call.first t :
        Prog Key Unit (UInt64 × Thread ρ)) = .done (call.key, t')) :
      ThreadStep env live t (some call) t'

section Calls

variable {ρ : Type} {env : Env ρ} {live : ρ → Set UInt64} {t t0 t' : Thread ρ}
  {ops : List (Option IndexCall)} {op : Option IndexCall} {call : IndexCall}

/-- The buffer that a call has made is live after it. -/
theorem makeCustomerIndexKey_live {K V : Type} {w d : Int} {last first : List UInt8}
    {address : UInt64} (allocates : Allocates env live)
    (made : (makeCustomerIndexKey env w d last first t : Prog K V _) = .done (address, t')) :
    address ∈ live t'.rng ∧ live t.rng ⊆ live t'.rng ∧
      (live t.rng ≠ Set.univ → address ∉ live t.rng) := by
  simp only [makeCustomerIndexKey, Act.own, Prog.done.injEq, Prod.mk.injEq] at made
  obtain ⟨rfl, rfl⟩ := made
  exact ⟨allocates.allocate _ t.rng (Set.mem_insert ..),
    (Set.subset_insert ..).trans (allocates.allocate _ t.rng), allocates.fresh _ t.rng⟩

theorem ThreadStep.live_subset (allocates : Allocates env live)
    (step : ThreadStep env live t op t') : live t.rng ⊆ live t'.rng := by
  cases step with
  | next bits => exact allocates.nextBits bits t.rng
  | seeded seed => exact allocates.seeded seed t.rng
  | memory n => exact allocates.memory n t.rng
  | clock => exact subset_rfl
  | call _ made => exact (makeCustomerIndexKey_live allocates made).2.1

theorem ThreadStep.key_fresh (allocates : Allocates env live)
    (step : ThreadStep env live t (some call) t') :
    call.key ∉ live t.rng ∧ call.key ∈ live t'.rng := by
  cases step with
  | call room made =>
    obtain ⟨here, _, fresh⟩ := makeCustomerIndexKey_live allocates made
    exact ⟨fresh room, here⟩

/-- The keys of a run were not live when it started, are live at its end, and are all different. -/
theorem run_keys (allocates : Allocates env live)
    (run : Run (· = t0) (ThreadStep env live) ops t) :
    live t0.rng ⊆ live t.rng ∧
    (∀ call, some call ∈ ops → call.key ∉ live t0.rng ∧ call.key ∈ live t.rng) ∧
    ops.Pairwise fun later earlier =>
      ∀ x, earlier = some x → ∀ y, later = some y → y.key ≠ x.key := by
  induction run with
  | start same =>
    subst same
    exact ⟨subset_rfl, by simp, .nil⟩
  | next _ step ih =>
    obtain ⟨grown, keys, distinct⟩ := ih
    have more := step.live_subset allocates
    refine ⟨grown.trans more, fun call mem => ?_, .cons (fun earlier mem x hx y hy => ?_) distinct⟩
    · rcases List.mem_cons.mp mem with rfl | mem
      · obtain ⟨fresh, here⟩ := step.key_fresh allocates
        exact ⟨fun old => fresh (grown old), here⟩
      · exact ⟨(keys call mem).1, more (keys call mem).2⟩
    · subst hx hy
      intro same
      exact (step.key_fresh allocates).1 (same ▸ (keys x mem).2)

end Calls

/-! ### What the load keeps -/

/-- The steps of a thread keep a property, other than the calls of `MakeCustomerIndexKey`. -/
def DrawsKeep {ρ S : Type} (env : Env ρ) (live : ρ → Set UInt64) (I : Thread ρ → S → Prop) : Prop :=
  ∀ t s t', I t s → ThreadStep env live t none t' → I t' s

section Draws

variable {ρ K V κ : Type} [DecidableEq κ] {env : Env ρ} {live : ρ → Set UInt64} {addr : K → κ}
  {I : Thread ρ → Store κ V → Prop} (draws : DrawsKeep env live I)

include draws

theorem keeps_next {bits : Nat} : Act.Keeps addr I (next env bits) :=
  Act.keeps_own fun t s h => draws t s _ h (.next bits t)

theorem keeps_nextLong : Act.Keeps addr I (nextLong env) :=
  Act.keeps_bind (keeps_next draws) fun _ => Act.keeps_bind (keeps_next draws) fun _ =>
    Act.keeps_pure

theorem keeps_nextUniform : Act.Keeps addr I (nextUniform env) :=
  Act.keeps_bind (keeps_next draws) fun _ => Act.keeps_bind (keeps_next draws) fun _ =>
    Act.keeps_pure

theorem keeps_seeded {seed : Nat} : Act.Keeps addr I (seeded env seed) :=
  Act.keeps_own fun t s h => draws t s _ h (.seeded seed t)

theorem keeps_memory {n : Nat} : Act.Keeps addr I (memory env n) :=
  Act.keeps_own fun t s h => draws t s _ h (.memory n t)

theorem keeps_getCurrentTimeMillis : Act.Keeps addr I getCurrentTimeMillis :=
  Act.keeps_own fun t s h => draws t s _ h (.clock t)

omit draws in
theorem keeps_checkBetweenInclusive {v lower upper : Int} :
    Act.Keeps addr I (checkBetweenInclusive v lower upper) :=
  Act.keeps_bind Act.keeps_assert fun _ => Act.keeps_bind Act.keeps_assert fun _ => Act.keeps_pure

theorem keeps_randomNumber {min max : Int} : Act.Keeps addr I (randomNumber env min max) :=
  Act.keeps_bind (keeps_nextUniform draws) fun _ => keeps_checkBetweenInclusive

theorem keeps_getNonUniformCustomerLastNameLoad :
    Act.Keeps addr I (getNonUniformCustomerLastNameLoad env) := by
  refine Act.keeps_bind (Act.keeps_bind (keeps_randomNumber draws) fun a => ?_) fun _ =>
    Act.keeps_pure
  exact Act.keeps_bind (keeps_randomNumber draws) fun b => Act.keeps_pure

theorem keeps_randomStr {len : Nat} : Act.Keeps addr I (randomStr env len) := by
  refine Act.keeps_loop fun buf => Act.keeps_ite (fun _ => ?_) fun _ => Act.keeps_pure
  refine Act.keeps_bind (Act.keeps_bind (keeps_next draws) fun _ => Act.keeps_pure) fun c => ?_
  exact Act.keeps_ite (fun _ => Act.keeps_pure) fun _ => Act.keeps_pure

theorem keeps_randomNStr {len : Nat} : Act.Keeps addr I (randomNStr env len) :=
  Act.keeps_forRange fun _ _ _ _ => Act.keeps_bind (keeps_nextLong draws) fun _ => Act.keeps_pure

/-- A string of a random length. -/
theorem keeps_randomStrIn {min max : Int} : Act.Keeps addr I (do
    let len ← randomNumber env min max
    randomStr env len.toNat) :=
  Act.keeps_bind (keeps_randomNumber draws) fun _ => keeps_randomStr draws

theorem keeps_randomZip : Act.Keeps addr I (randomZip env) :=
  Act.keeps_bind (keeps_randomNStr draws) fun _ => Act.keeps_pure

theorem keeps_customerLast {c : Nat} : Act.Keeps addr I (customerLast env c) :=
  Act.keeps_ite (fun _ => Act.keeps_pure) fun _ => keeps_getNonUniformCustomerLastNameLoad draws

end Draws

section Records

variable {ρ F κ : Type} [DecidableEq κ] {env : Env ρ} {live : ρ → Set UInt64} {addr : Key → κ}
  {I : Thread ρ → Store κ (Value F) → Prop}

theorem keeps_uninit {α : Type} {layout : Codec (Cell F) α} (draws : DrawsKeep env live I) :
    Act.Keeps addr I (uninit env layout) :=
  Act.keeps_bind (keeps_memory draws) fun _ => Act.keeps_pure

theorem keeps_getRecord {α : Type} {layout : Codec (Cell F) α} {key : Key} {old : α}
    (draws : DrawsKeep env live I) : Act.Keeps addr I (getRecord env layout key old) := by
  refine Act.keeps_bind Act.keeps_get fun stored => ?_
  cases stored with
  | none => exact Act.keeps_pure
  | some value => exact Act.keeps_bind (keeps_memory draws) fun _ => Act.keeps_pure

theorem keeps_putRecord {α : Type} {layout : Codec (Cell F) α} {key : Key} {v : α}
    (h : ∀ t s, I t s → I t (s.put (addr key) (layout.encode v))) :
    Act.Keeps addr I (putRecord layout key v) :=
  Act.keeps_bind (Act.keeps_put h) fun _ => Act.keeps_pure

theorem keeps_count {totals : Totals} {status : Int} : Act.Keeps addr I (totals.count status) :=
  Act.keeps_bind Act.keeps_assert fun _ => Act.keeps_bind Act.keeps_assert fun _ => Act.keeps_pure

variable [FloatRep F] [DecidableEq F] [Amount F]

/-- The rows are filled by copies of strings that have been drawn. -/
theorem keeps_customerRow {c : Nat} (draws : DrawsKeep env live I) :
    Act.Keeps addr I (customerRow env c) := by
  have copy {n : Nat} {a : CharArray n} {src : List UInt8} : Act.Keeps addr I (strcpy a src) :=
    Act.keeps_ofOption
  have street : Act.Keeps addr I (randomStreet env) := keeps_randomStrIn draws
  have city : Act.Keeps addr I (randomCity env) := keeps_randomStrIn draws
  unfold customerRow
  refine Act.keeps_bind (keeps_uninit draws) fun val => ?_
  refine Act.keeps_bind (keeps_randomNumber draws) fun discount => ?_
  refine Act.keeps_bind (keeps_randomNumber draws) fun bad => Act.keeps_bind copy fun _ => ?_
  refine Act.keeps_bind (keeps_customerLast draws) fun last => Act.keeps_bind copy fun _ => ?_
  refine Act.keeps_bind (keeps_randomNumber draws) fun len => ?_
  refine Act.keeps_bind (keeps_randomStr draws) fun first => Act.keeps_bind copy fun _ => ?_
  refine Act.keeps_bind street fun _ => Act.keeps_bind copy fun _ => ?_
  refine Act.keeps_bind street fun _ => Act.keeps_bind copy fun _ => ?_
  refine Act.keeps_bind city fun _ => Act.keeps_bind copy fun _ => ?_
  refine Act.keeps_bind (keeps_randomStr draws) fun state => Act.keeps_bind copy fun _ => ?_
  refine Act.keeps_bind (keeps_randomZip draws) fun zip => Act.keeps_bind copy fun _ => ?_
  refine Act.keeps_bind (keeps_randomNStr draws) fun phone => Act.keeps_bind copy fun _ => ?_
  refine Act.keeps_bind (keeps_getCurrentTimeMillis draws) fun _ => Act.keeps_bind copy fun _ => ?_
  refine Act.keeps_bind (keeps_randomNumber draws) fun len => ?_
  exact Act.keeps_bind (keeps_randomStr draws) fun data => Act.keeps_bind copy fun _ =>
    Act.keeps_pure

theorem keeps_historyRow (draws : DrawsKeep env live I) :
    Act.Keeps addr I (historyRow (F := F) env) := by
  refine Act.keeps_bind (keeps_uninit draws) fun val => ?_
  refine Act.keeps_bind (keeps_getCurrentTimeMillis draws) fun _ => ?_
  refine Act.keeps_bind (keeps_randomNumber draws) fun len => ?_
  exact Act.keeps_bind (keeps_randomStr draws) fun data =>
    Act.keeps_bind Act.keeps_ofOption fun _ => Act.keeps_pure

end Records

/-! ### The load -/

/-- A value at an index key is of a buffer that is live. -/
def EntryLive {ρ V κ : Type} (addr : Key → κ) (live : ρ → Set UInt64) (a : UInt64) (t : Thread ρ)
    (s : Store κ V) : Prop :=
  s (addr (customerIndexKey a)) ≠ none → a ∈ live t.rng

/-- An address that has no value before the customers of `W` warehouses are loaded, and at which
the load puts no row of a customer and no row of the history. -/
structure Vacant {V κ : Type} (addr : Key → κ) (W : Nat) (s : Store κ V) (a : UInt64) : Prop where
  before : s (addr (customerIndexKey a)) = none
  rows : ∀ w d c : Nat, 1 ≤ w ∧ w ≤ W ∧ 1 ≤ d ∧ d ≤ 10 ∧ 1 ≤ c ∧ c ≤ 3000 →
    addr (customerKey w d c) ≠ addr (customerIndexKey a) ∧
      addr (historyKey w d w d c) ≠ addr (customerIndexKey a)

/-- Every address is vacant in an empty store that keeps each table as its own map. -/
theorem vacant_id {V : Type} {W : Nat} {a : UInt64} :
    Vacant id W (fun _ => none : Store Key V) a where
  before := rfl
  rows w d c _ := ⟨Key.ne_of_table (by simp [customerIndexKey]),
    Key.ne_of_table (by simp [customerIndexKey])⟩

section Load

variable {ρ F κ : Type} [DecidableEq κ] {env : Env ρ} {live : ρ → Set UInt64} {addr : Key → κ}
  {a address : UInt64} {W seed : Nat} {t t' : Thread ρ} {s s' : Store κ (Value F)}

omit [DecidableEq κ] in
theorem DrawsKeep.and_live {I : Thread ρ → Store κ (Value F) → Prop} (draws : DrawsKeep env live I)
    (allocates : Allocates env live) (address : UInt64) :
    DrawsKeep env live fun t s => I t s ∧ address ∈ live t.rng :=
  fun t s t' h step => ⟨draws t s t' h.1 step, step.live_subset allocates h.2⟩

omit [DecidableEq κ] in
theorem drawsKeep_entryLive (allocates : Allocates env live) :
    DrawsKeep env live (EntryLive (V := Value F) addr live a) :=
  fun _ _ _ entry step row => step.live_subset allocates (entry row)

theorem EntryLive.put_of_ne {k : Key} {v : Value F} (entry : EntryLive addr live a t s)
    (ne : addr k ≠ addr (customerIndexKey a)) : EntryLive addr live a t (s.put (addr k) v) := by
  intro row
  rw [Store.put_of_ne ne.symm] at row
  exact entry row

/-- An entry is written at the address of a buffer that has been made. -/
theorem EntryLive.put {v : Value F} (apart : Function.Injective fun a => addr (customerIndexKey a))
    (entry : EntryLive addr live a t s) (here : address ∈ live t.rng) :
    EntryLive addr live a t (s.put (addr (customerIndexKey address)) v) := by
  by_cases same : address = a
  · exact fun _ => same ▸ here
  · exact entry.put_of_ne fun collide => same (apart collide)

variable [FloatRep F]

theorem keeps_populateCustomerIndex {cId : Int64} {totals : Totals} (allocates : Allocates env live)
    (apart : Function.Injective fun a => addr (customerIndexKey a)) :
    Act.Keeps addr (fun t (s : Store κ (Value F)) => EntryLive addr live a t s ∧
      address ∈ live t.rng) (populateCustomerIndex env address cId totals) := by
  have entry : DrawsKeep env live (EntryLive (V := Value F) addr live a) :=
    drawsKeep_entryLive allocates
  have draws := entry.and_live allocates address
  unfold populateCustomerIndex
  refine Act.keeps_bind (keeps_uninit draws) fun val => ?_
  refine Act.keeps_bind (keeps_getRecord draws) fun found => ?_
  refine Act.keeps_ite (fun _ => ?_) fun _ => Act.keeps_pure
  exact Act.keeps_bind (keeps_putRecord fun t s h => ⟨h.1.put apart h.2, h.2⟩) fun _ => keeps_count

omit [FloatRep F] in
/-- What is done with a new key may rely on its buffer. -/
theorem keeps_makeCustomerIndexKey {α : Type} {I : Thread ρ → Store κ (Value F) → Prop}
    {w d : Int} {last first : List UInt8} {f : UInt64 → Act (Thread ρ) Key (Value F) α}
    (allocates : Allocates env live)
    (made : ∀ t s t', I t s → live t.rng ⊆ live t'.rng → I t' s)
    (h : ∀ address, Act.Keeps addr (fun t s => I t s ∧ address ∈ live t.rng) (f address)) :
    Act.Keeps addr I (makeCustomerIndexKey env w d last first >>= f) where
  wp t s hI := by
    obtain ⟨address, t', done⟩ : ∃ address t',
        (makeCustomerIndexKey env w d last first t : Prog Key (Value F) _) = .done (address, t') :=
      ⟨_, _, rfl⟩
    obtain ⟨here, grown, _⟩ := makeCustomerIndexKey_live allocates done
    rw [Act.wp_bind]
    apply Act.wp_of_result (congrArg Prog.result done)
    exact Act.wp_mono ((h address).wp t' s ⟨made t s t' hI grown, here⟩) fun _ _ _ kept => kept.1

variable [DecidableEq F] [Amount F]

theorem keeps_populateCustomer {w d c : Nat} {totals : CustomerTotals}
    (allocates : Allocates env live) (apart : Function.Injective fun a => addr (customerIndexKey a))
    (rows : addr (customerKey w d c) ≠ addr (customerIndexKey a) ∧
      addr (historyKey w d w d c) ≠ addr (customerIndexKey a)) :
    Act.Keeps addr (EntryLive (V := Value F) addr live a) (populateCustomer env w d c totals) := by
  have draws : DrawsKeep env live (EntryLive (V := Value F) addr live a) :=
    drawsKeep_entryLive allocates
  unfold populateCustomer
  refine Act.keeps_bind (keeps_customerRow draws) fun (val, last, first) => ?_
  refine Act.keeps_bind (keeps_putRecord fun _ _ h => h.put_of_ne rows.1) fun _ => ?_
  refine Act.keeps_bind keeps_count fun customer => ?_
  refine keeps_makeCustomerIndexKey allocates (fun t s t' h grown row => grown (h row))
    fun address => ?_
  refine Act.keeps_bind (keeps_populateCustomerIndex allocates apart) fun index => ?_
  refine Act.keeps_bind (keeps_historyRow (draws.and_live allocates address)) fun val => ?_
  refine Act.keeps_bind (keeps_putRecord fun _ _ h => ⟨h.1.put_of_ne rows.2, h.2⟩) fun _ => ?_
  exact Act.keeps_bind keeps_count fun history => Act.keeps_pure

theorem keeps_populateCustomerAndHistoryTable {s0 : Store κ (Value F)}
    (allocates : Allocates env live) (apart : Function.Injective fun a => addr (customerIndexKey a))
    (vacant : Vacant addr W s0 a) :
    Act.Keeps addr (EntryLive (V := Value F) addr live a)
      (populateCustomerAndHistoryTable env W seed) := by
  refine Act.keeps_bind (keeps_seeded (drawsKeep_entryLive allocates)) fun _ => ?_
  refine Act.keeps_bind (Act.keeps_forRange fun w _ low high => ?_) fun _ => Act.keeps_pure
  refine Act.keeps_forRange fun d _ dLow (dHigh : d < 1 + 10) => ?_
  refine Act.keeps_forRange fun c _ first (last : c < 1 + 3000) => ?_
  exact keeps_populateCustomer allocates apart (vacant.rows w d c (by omega))

/-- No call of `MakeCustomerIndexKey` after the load returns the key of an entry. -/
theorem lookup_none {s0 : Store κ (Value F)} {t0 : Thread ρ} {ops : List (Option IndexCall)}
    {call : IndexCall} (allocates : Allocates env live)
    (apart : Function.Injective fun a => addr (customerIndexKey a))
    (returns : Act.Returns addr (populateCustomerAndHistoryTable env W seed) t0 s0 () t s)
    (run : Run (· = t) (ThreadStep env live) ops t') (called : some call ∈ ops)
    (vacant : Vacant addr W s0 call.key) : s (addr (customerIndexKey call.key)) = none := by
  have entry : EntryLive addr live call.key t s :=
    (keeps_populateCustomerAndHistoryTable allocates apart vacant).returns
      (fun row => absurd vacant.before row) returns
  by_contra row
  exact ((run_keys allocates run).2.1 call called).1 (entry row)

end Load

/-! ### An allocator -/

/-- Surroundings whose `operator new` takes buffers of 40 bytes one after another, from the number
of the bytes that have been taken. -/
def Env.bump {ρ : Type} (env : Env ρ) : Env (ρ × Nat) where
  nextBits bits r := ((env.nextBits bits r.1).1, (env.nextBits bits r.1).2, r.2)
  nextBits_lt bits r := env.nextBits_lt bits r.1
  seeded seed r := (env.seeded seed r.1, r.2)
  memory n r := ((env.memory n r.1).1, (env.memory n r.1).2, r.2)
  allocate _ r := (UInt64.ofNat r.2, r.1, r.2 + 40)
  attempts := env.attempts

/-- The addresses of the bytes that have been taken. -/
def taken {ρ : Type} (r : ρ × Nat) : Set UInt64 := {a | a.toNat < r.2}

theorem bump_allocates {ρ : Type} (env : Env ρ) : Allocates env.bump taken where
  nextBits _ _ := subset_rfl
  seeded _ _ := subset_rfl
  memory _ _ := subset_rfl
  allocate _ r := by
    have start : (UInt64.ofNat r.2).toNat ≤ r.2 := by
      rw [UInt64.toNat_ofNat']
      exact Nat.mod_le ..
    rintro a (rfl | old)
    · exact Nat.lt_of_le_of_lt start (Nat.lt_add_of_pos_right (by norm_num))
    · exact Nat.lt_add_right 40 old
  fresh _ r room := by
    obtain ⟨a, free⟩ := (Set.ne_univ_iff_exists_notMem _).mp room
    have above : r.2 ≤ a.toNat := Nat.le_of_not_lt free
    have fits : (UInt64.ofNat r.2).toNat = r.2 :=
      UInt64.toNat_ofNat_of_lt' (Nat.lt_of_le_of_lt above a.toNat_lt)
    exact fun here => absurd fits (Nat.ne_of_lt here)

theorem bump_after {ρ : Type} (env : Env ρ) (r : ρ × Nat) (i : Nat) :
    env.bump.after r i = (env.after r.1 i, r.2) := by
  induction i with
  | zero => rfl
  | succ i ih =>
    rw [Env.after_succ, Env.after_succ, ih]
    rfl

theorem bump_accepting {ρ : Type} {env : Env ρ} (accepting : env.Accepting) :
    env.bump.Accepting where
  letter r := accepting.letter r.1
  distinct r i j hij hj := by
    rw [bump_after, bump_after]
    exact accepting.distinct r.1 i j hij hj
  attempts := accepting.attempts

section Bump

variable {ρ F κ : Type} [FloatRep F] [DecidableEq F] [Amount F] [DecidableEq κ] {env : Env ρ}
  {addr : Key → κ} {n W seed : Nat} {t t' : Thread (ρ × Nat)} {s s' : Store κ (Value F)}

omit [FloatRep F] [DecidableEq F] [Amount F] [DecidableEq κ] in
theorem drawsKeep_taken :
    DrawsKeep env.bump taken fun t (_ : Store κ (Value F)) => t.rng.2 = n := by
  intro t s t' h step
  cases step with
  | _ => exact h

/-- A customer that is loaded takes one buffer. -/
theorem wp_populateCustomer_taken {w d c : Nat} {totals : CustomerTotals} (h : t.rng.2 = n) :
    Act.wp (Contract.partly (Value F) addr).logic (populateCustomer env.bump w d c totals)
      (fun _ t _ => t.rng.2 = n + 40) t s := by
  have draws (n : Nat) : DrawsKeep env.bump taken fun t (_ : Store κ (Value F)) => t.rng.2 = n :=
    drawsKeep_taken
  have putRow {α : Type} {n : Nat} {layout : Codec (Cell F) α} {k : Key} {v : α} :
      Act.Keeps addr (fun (t : Thread (ρ × Nat)) (_ : Store κ (Value F)) => t.rng.2 = n)
        (putRecord layout k v) :=
    keeps_putRecord fun _ _ h => h
  refine Act.wp_bind_of ((keeps_customerRow (draws n)).wp t s h) fun (val, last, first) t s h => ?_
  refine Act.wp_bind_of (putRow.wp t s h) fun _ t s h => ?_
  refine Act.wp_bind_of ((keeps_count (I := fun t _ => t.rng.2 = n)).wp t s h)
    fun customer t s h => ?_
  refine Act.wp_bind_of (R := fun _ t _ => t.rng.2 = n + 40) (congrArg (· + 40) h) fun address => ?_
  refine (Act.keeps_bind ?_ fun index => ?_).wp
  · refine Act.keeps_bind (keeps_uninit (draws _)) fun val => ?_
    refine Act.keeps_bind (keeps_getRecord (draws _)) fun found => ?_
    exact Act.keeps_ite (fun _ => Act.keeps_bind putRow fun _ => keeps_count) fun _ =>
      Act.keeps_pure
  · refine Act.keeps_bind (keeps_historyRow (draws _)) fun val => Act.keeps_bind putRow fun _ => ?_
    exact Act.keeps_bind keeps_count fun history => Act.keeps_pure

/-- The load of the customers takes a buffer of 40 bytes for each, and frees none. -/
theorem load_taken (returns : Act.Returns addr
    (populateCustomerAndHistoryTable env.bump W seed) t s () t' s') :
    t'.rng.2 = t.rng.2 + 1200000 * W := by
  have load : Act.wp (Contract.partly (Value F) addr).logic
      (populateCustomerAndHistoryTable env.bump W seed)
      (fun _ t' _ => t'.rng.2 = t.rng.2 + 1200000 * W) t s := by
    refine Act.wp_bind_of ((keeps_seeded drawsKeep_taken).wp t s rfl) fun _ t1 s h => ?_
    refine Act.wp_bind_of (Act.wp_forRange
      (fun w _ t' _ => t'.rng.2 = t.rng.2 + 1200000 * (w - 1)) ?_ ?_) fun _ t' _ done => ?_
    · intro w totals t1 s low high h
      refine Act.wp_mono (Act.wp_forRange
        (fun d _ t' _ => t'.rng.2 = t.rng.2 + 1200000 * (w - 1) + 120000 * (d - 1)) ?_ h) ?_
      · intro d totals t1 s low high h
        refine Act.wp_mono (Act.wp_forRange (fun c _ t' _ => t'.rng.2 =
          t.rng.2 + 1200000 * (w - 1) + 120000 * (d - 1) + 40 * (c - 1)) ?_ h) ?_
        · intro c totals t1 s low high h
          refine Act.wp_mono (wp_populateCustomer_taken h) fun _ _ _ h => ?_
          omega
        · intro _ _ _ h
          have : numCustomerPerDistrict = 3000 := rfl
          omega
      · intro _ _ _ h
        have : numDistrictPerWarehouse = 10 := rfl
        omega
    · exact h
    · show t'.rng.2 = _
      omega
  exact Act.wp_returns (C := Contract.partly (Value F) addr) load returns

end Bump

/-- A load with a generator that counts returns, and has written the rows of the customers. -/
theorem bump_load_returns {W : Nat} (small : W * 100000 < 2 ^ 31) (seed : Nat)
    (t : Thread (Nat × Nat)) : ∃ (t' : Thread (Nat × Nat)) (s : Store Key (Value ℚ)),
      Act.Returns id (populateCustomerAndHistoryTable Env.counting.bump W seed) t (fun _ => none) ()
        t' s ∧
      ∀ w d c : Nat, 1 ≤ w → w ≤ W → 1 ≤ d → d ≤ 10 → 1 ≤ c → c ≤ 3000 →
        s (customerKey w d c) ≠ none := by
  have finishes : Env.counting.bump.Finishes ℚ W :=
    ⟨bump_accepting counting_accepting, (counting_finishes small).prices, small⟩
  have load : Act.wp (Contract.totally (Value ℚ) id).logic
      (populateCustomerAndHistoryTable Env.counting.bump W seed) _ t (fun _ => none) :=
    wp_populateCustomerAndHistoryTable (.inr finishes)
      ⟨fun _ _ _ _ => trivial, fun _ _ _ _ => trivial⟩
  obtain ⟨_, t', s, returns, _, rows⟩ := Act.returns_of_wp load id
  refine ⟨t', s, returns, fun w d c low high dLow dHigh first last => ?_⟩
  exact (rows w d c low high dLow dHigh first last).1

theorem bump_call {ρ : Type} (env : Env ρ) {t : Thread (ρ × Nat)} (room : t.rng.2 < 2 ^ 64)
    (w d : Int) (last first : List UInt8) :
    ThreadStep env.bump taken t (some ⟨w, d, last, first, UInt64.ofNat t.rng.2⟩)
      { t with rng := (t.rng.1, t.rng.2 + 40) } := by
  refine .call ((Set.ne_univ_iff_exists_notMem _).mpr ⟨UInt64.ofNat t.rng.2, ?_⟩) rfl
  have fits : (UInt64.ofNat t.rng.2).toNat = t.rng.2 := UInt64.toNat_ofNat_of_lt' room
  exact fun here => absurd fits (Nat.ne_of_lt here)

/-! ### Lookups -/

theorem returns_getRecord_none {ρ F κ α : Type} [DecidableEq κ] {env : Env ρ} {addr : Key → κ}
    {layout : Codec (Cell F) α} {key : Key} {old : α} {t : Thread ρ} {s : Store κ (Value F)}
    (empty : s (addr key) = none) :
    Act.Returns addr (getRecord env layout key old) t s (-1, old) t s := by
  have found : Act.Returns addr (.get key layout.size) t s (s (addr key)) t s := rfl
  refine Act.returns_bind.mpr ⟨none, t, s, empty ▸ found, ?_⟩
  exact Act.returns_pure.mpr ⟨rfl, rfl, rfl⟩

/-- Of two calls of a run, the keys are equal exactly when the arguments are, if and only if the
arguments differ, and `GetRecord` finds nothing at the key of a call that is made after the load. -/
theorem customerIndex_iff {ρ F κ : Type} [FloatRep F] [DecidableEq F] [Amount F] [DecidableEq κ]
    {env : Env ρ} {live : ρ → Set UInt64} {addr : Key → κ} (allocates : Allocates env live)
    (apart : Function.Injective fun a => addr (customerIndexKey a)) :
    (∀ t0 ops t, Run (· = t0) (ThreadStep env live) ops t → ops.Pairwise fun later earlier =>
      ∀ x, earlier = some x → ∀ y, later = some y →
        ((y.key = x.key ↔ y.args = x.args) ↔ y.args ≠ x.args)) ∧
    ∀ (W seed : Nat) (t0 t : Thread ρ) (s0 s : Store κ (Value F)),
      Act.Returns addr (populateCustomerAndHistoryTable env W seed) t0 s0 () t s →
      ∀ ops t', Run (· = t) (ThreadStep env live) ops t' → ∀ call, some call ∈ ops →
      Vacant addr W s0 call.key → ∀ old,
        Act.Returns addr (getRecord env customerIndexVal (customerIndexKey call.key) old) t' s
          (-1, old) t' s := by
  constructor
  · intro t0 ops t run
    refine (run_keys allocates run).2.2.imp fun {later earlier} distinct x hx y hy => ?_
    have ne := distinct x hx y hy
    exact ⟨fun same args => ne (same.mpr args), fun differ =>
      ⟨fun same => absurd same ne, fun args => absurd args differ⟩⟩
  · intro W seed t0 t s0 s returns ops t' run call called vacant old
    exact returns_getRecord_none (lookup_none allocates apart returns run called vacant)

/-- A call for the last name of the first customer of a district. -/
def firstCall (key : UInt64) : IndexCall :=
  ⟨1, 1, getCustomerLastName 0, "AAAAAAAA".toUTF8.data.toList, key⟩

/-- Two calls with the same arguments return different keys. -/
theorem same_name_other_key : ∃ (x y : IndexCall) (t : Thread (Nat × Nat)),
    Run (· = ⟨(0, 4096), 0⟩) (ThreadStep Env.counting.bump taken) [some y, some x] t ∧
      ¬(y.key = x.key ↔ y.args = x.args) := by
  have first : ThreadStep Env.counting.bump taken ⟨(0, 4096), 0⟩ (some (firstCall 4096))
    ⟨(0, 4136), 0⟩ := bump_call _ (by norm_num) 1 1 _ _
  have second : ThreadStep Env.counting.bump taken ⟨(0, 4136), 0⟩ (some (firstCall 4136))
    ⟨(0, 4176), 0⟩ := bump_call _ (by norm_num) 1 1 _ _
  refine ⟨_, _, _, .next (.next (.start rfl) first) second, fun same => ?_⟩
  have ne : (4136 : UInt64) ≠ 4096 := by decide
  exact ne (same.mpr rfl)

theorem customerIndex_iff_one :
    (∃ (x y : IndexCall) (t : Thread (Nat × Nat)),
      Run (· = ⟨(0, 4096), 0⟩) (ThreadStep Env.counting.bump taken) [some y, some x] t ∧
        ((y.key = x.key ↔ y.args = x.args) ↔ y.args ≠ x.args)) ∧
    ∃ (t t' : Thread (Nat × Nat)) (s : Store Key (Value ℚ)) (call : IndexCall),
      Act.Returns id (populateCustomerAndHistoryTable Env.counting.bump 1 923587856425)
        ⟨(0, 4096), 0⟩ (fun _ => none) () t s ∧ s (customerKey 1 1 1) ≠ none ∧
      Run (· = t) (ThreadStep Env.counting.bump taken) [some call] t' ∧
      ∀ old, Act.Returns id
        (getRecord Env.counting.bump customerIndexVal (customerIndexKey call.key) old) t' s
        (-1, old) t' s := by
  have apart : Function.Injective fun a => id (customerIndexKey a) :=
    fun a b same => congrArg Key.itemKey same
  obtain ⟨differ, never⟩ := customerIndex_iff (F := ℚ) (bump_allocates Env.counting) apart
  constructor
  · obtain ⟨x, y, t, run, _⟩ := same_name_other_key
    exact ⟨x, y, t, run, (List.pairwise_pair.mp (differ _ _ t run)) x rfl y rfl⟩
  · obtain ⟨t, s, returns, rows⟩ := bump_load_returns (W := 1) (by norm_num) 923587856425
      ⟨(0, 4096), 0⟩
    have room : t.rng.2 < 2 ^ 64 := by
      rw [load_taken returns]
      norm_num
    have call := bump_call Env.counting room 1 1 (getCustomerLastName 0) []
    have start : Run (· = t) (ThreadStep Env.counting.bump taken) [] t := .start rfl
    have run := start.next call
    have row := rows 1 1 1 le_rfl le_rfl le_rfl (by norm_num) le_rfl (by norm_num)
    exact ⟨t, _, s, _, returns, row, run,
      never 1 _ _ t _ s returns _ _ run _ List.mem_cons_self vacant_id⟩

end Tpcc
