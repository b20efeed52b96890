import Mathlib.Data.Int.ConditionallyCompleteOrder
import Tpcc.Lib.Congruential
import Tpcc.Random

/-! What `FastRandom` draws.  Its step is a linear congruential generator with 48 bits whose states
are a single cycle: a draw of one step can leave the generator in any state, and draws of two steps
in any state of one parity.  So every number of a range that is not too wide can be drawn, and which
numbers can be drawn is decided by the top bits of a state. -/

namespace Tpcc

open KvProgram Function

namespace FastRandom

/-- The step of the generator. -/
abbrev step : Nat → Nat := Congruential.step 0x5DEECE66D 0xB 48

/-- `Next(n)` from a state. -/
def bits (n seed : Nat) : Nat := step seed >>> (48 - n) % 2 ^ n

/-- `Next()` from a state. -/
def long (seed : Nat) : Nat := (bits 32 seed <<< 32) + bits 32 (step seed)

/-- The numerator of `NextUniform()` from a state. -/
def fraction (seed : Nat) : Nat := (bits 26 seed <<< 27) + bits 27 (step seed)

theorem next_eq (n : Nat) (r : FastRandom) : r.next n = (bits n r.seed, ⟨step r.seed⟩) := rfl

/-- The bits that are drawn are the top bits of the state that the draw reaches. -/
theorem bits_of_step {n y seed : Nat} (reached : step seed = y) :
    bits n seed = y / 2 ^ (48 - n) % 2 ^ n := by
  rw [bits, reached, Nat.shiftRight_eq_div_pow]

theorem bits_lt (n seed : Nat) : bits n seed < 2 ^ n := Nat.mod_lt _ (Nat.two_pow_pos n)

theorem fraction_lt (seed : Nat) : fraction seed < 2 ^ 53 := by
  have high := bits_lt 26 seed
  have low := bits_lt 27 (step seed)
  rw [fraction, Nat.shiftLeft_eq]
  omega

/-- Every state is left by the draw from some state. -/
theorem exists_step {y : Nat} (hy : y < 2 ^ 48) : ∃ x < 2 ^ 48, step x = y :=
  Congruential.exists_step rfl rfl hy

end FastRandom

/-- The thread after `n` steps of its generator. -/
def Thread.advance (n : Nat) (t : Thread FastRandom) : Thread FastRandom :=
  { t with rng := ⟨FastRandom.step^[n] t.rng.seed⟩ }

theorem advance_one (t : Thread FastRandom) :
    t.advance 1 = { t with rng := ⟨FastRandom.step t.rng.seed⟩ } := by
  rw [Thread.advance, iterate_one]

theorem advance_advance (m n : Nat) (t : Thread FastRandom) :
    (t.advance m).advance n = t.advance (n + m) := by
  simp only [Thread.advance, iterate_add_apply]

theorem iterate_advance (j n : Nat) (t : Thread FastRandom) :
    (Thread.advance j)^[n] t = t.advance (j * n) := by
  induction n generalizing t with
  | zero => rfl
  | succ n ih => rw [iterate_succ_apply, ih, advance_advance, Nat.mul_succ]

/-- Draws of one step lead to every state. -/
theorem exists_advance_one {y : Nat} (hy : y < 2 ^ 48) (t : Thread FastRandom) :
    ∃ n < 2 ^ 48, FastRandom.step ((Thread.advance 1)^[n] t).rng.seed = y := by
  obtain ⟨n, small, reached⟩ :=
    Congruential.exists_iterate_succ (a := 0x5DEECE66D) (c := 0xB) rfl rfl
    t.rng.seed hy
  refine ⟨n, small, ?_⟩
  rw [iterate_succ_apply'] at reached
  rwa [iterate_advance, Nat.one_mul]

/-- Draws of two steps lead to every state of the parity that the first of their steps reaches. -/
theorem exists_advance_two {y : Nat} (hy : y < 2 ^ 48) (t : Thread FastRandom)
    (parity : y % 2 = (t.rng.seed + 1) % 2) :
    ∃ n < 2 ^ 47, FastRandom.step ((Thread.advance 2)^[n] t).rng.seed = y := by
  obtain ⟨n, small, reached⟩ :=
    Congruential.exists_iterate_odd (a := 0x5DEECE66D) (c := 0xB) rfl rfl
    (by decide) hy parity
  refine ⟨n, by omega, ?_⟩
  rw [iterate_succ_apply'] at reached
  rwa [iterate_advance]

/-! ### The draws of a thread -/

section Draws

variable {K V S : Type} {L : Logic K V S} {memory : Nat → List UInt8}
  {allocate : List UInt64 → UInt64} {attempts : Nat} {t : Thread FastRandom} {s : S}

theorem wp_fast_next {n : Nat} {Q : Nat → Thread FastRandom → S → Prop}
    (h : Q (FastRandom.bits n t.rng.seed) (t.advance 1) s) :
    Act.wp L (next (FastRandom.env memory allocate attempts) n) Q t s := by
  rw [advance_one] at h
  simp only [next, Act.wp_own, FastRandom.env, FastRandom.next_eq]
  exact h

/-- Two draws of one step. -/
theorem wp_fast_twice {n m : Nat} {Q : Nat → Nat → Thread FastRandom → S → Prop}
    (h : Q (FastRandom.bits n t.rng.seed) (FastRandom.bits m (FastRandom.step t.rng.seed))
      (t.advance 2) s) :
    Act.wp L (next (FastRandom.env memory allocate attempts) n) (fun high => Act.wp L
      (next (FastRandom.env memory allocate attempts) m) (Q high)) t s := by
  refine wp_fast_next (wp_fast_next ?_)
  rw [advance_advance]
  simp only [advance_one]
  exact h

theorem wp_fast_nextLong {Q : Nat → Thread FastRandom → S → Prop}
    (h : Q (FastRandom.long t.rng.seed) (t.advance 2) s) :
    Act.wp L (nextLong (FastRandom.env memory allocate attempts)) Q t s := by
  unfold nextLong
  simp only [Act.wp_bind, Act.wp_pure]
  exact wp_fast_twice h

theorem wp_fast_nextUniform {Q : Nat → Thread FastRandom → S → Prop}
    (h : Q (FastRandom.fraction t.rng.seed) (t.advance 2) s) :
    Act.wp L (nextUniform (FastRandom.env memory allocate attempts)) Q t s := by
  unfold nextUniform
  simp only [Act.wp_bind, Act.wp_pure]
  exact wp_fast_twice h

/-- The number that `RandomNumber` draws from a state. -/
def FastRandom.number (min max : Int) (seed : Nat) : Int :=
  (fraction seed * (max - min + 1) + min * 2 ^ 53).tdiv (2 ^ 53)

variable {min max : Int}

theorem FastRandom.number_mem (h0 : 0 ≤ min) (h : min ≤ max) (seed : Nat) :
    min ≤ FastRandom.number min max seed ∧ FastRandom.number min max seed ≤ max :=
  scaled_mem (FastRandom.fraction_lt seed) h0 h

theorem wp_fast_randomNumber {Q : Int → Thread FastRandom → S → Prop} (range : 0 ≤ min ∧ min ≤ max)
    (h : Q (FastRandom.number min max t.rng.seed) (t.advance 2) s) :
    Act.wp L (randomNumber (FastRandom.env memory allocate attempts) min max) Q t s := by
  unfold randomNumber
  rw [Act.wp_bind]
  refine wp_fast_nextUniform (wp_checkBetweenInclusive (.inr ?_) fun _ _ => h)
  exact FastRandom.number_mem range.1 range.2 t.rng.seed

end Draws

/-! ### The numbers of a range -/

namespace FastRandom

variable {min max v : Int}

/-- The numbers of a range split the fractions evenly. -/
theorem le_number_iff (h0 : 0 ≤ min) (h : min ≤ max) {seed : Nat} :
    v ≤ number min max seed ↔ (v - min) * 2 ^ 53 ≤ fraction seed * (max - min + 1) := by
  have wide : (0 : Int) ≤ fraction seed * (max - min + 1) := mul_nonneg (by omega) (by omega)
  rw [number, Int.tdiv_eq_ediv_of_nonneg (by omega)]
  omega

/-- A state with given top bits. -/
theorem exists_bits {h : Nat} (small : h < 2 ^ 26) : ∃ seed < 2 ^ 48, bits 26 seed = h := by
  obtain ⟨seed, bound, reached⟩ := exists_step (y := h * 2 ^ 22) (by omega)
  refine ⟨seed, bound, ?_⟩
  rw [bits_of_step reached]
  omega

/-- Every number of a range is drawn from some state: its fractions contain all those with some top
26 bits, as they span `2 ^ 28` of the `2 ^ 53` fractions or more. -/
theorem exists_number (h0 : 0 ≤ min) (narrow : max - min + 1 ≤ 2 ^ 25) (hv : min ≤ v ∧ v ≤ max) :
    ∃ seed < 2 ^ 48, number min max seed = v := by
  obtain ⟨n, hn⟩ : ∃ n, n = max - min + 1 := ⟨_, rfl⟩
  -- The least top bits whose fractions all reach `v`.
  let h := ((v - min) * 2 ^ 26 + n - 1) / n
  have below : h * n ≤ (v - min) * 2 ^ 26 + n - 1 := Int.ediv_mul_le _ (by omega)
  have above : (v - min) * 2 ^ 26 + n - 1 < (h + 1) * n := Int.lt_ediv_add_one_mul_self _ (by omega)
  have nonneg : 0 ≤ h := Int.ediv_nonneg (by omega) (by omega)
  have small : h < 2 ^ 26 := by
    by_contra large
    have := mul_le_mul_of_nonneg_right (not_lt.mp large) (show 0 ≤ n by omega)
    omega
  obtain ⟨seed, bound, top⟩ := exists_bits (h := h.toNat) (by omega)
  have low := bits_lt 27 (step seed)
  have fraction : (fraction seed : Int) = h * 2 ^ 27 + bits 27 (step seed) := by
    rw [fraction, top, Nat.shiftLeft_eq]
    omega
  have reached : v ≤ number min max seed := by
    rw [le_number_iff h0 (by omega), fraction, ← hn]
    have := mul_nonneg (show (0 : Int) ≤ bits 27 (step seed) by omega) (show 0 ≤ n by omega)
    linarith
  have passed : ¬v + 1 ≤ number min max seed := by
    rw [le_number_iff h0 (by omega), fraction, ← hn]
    have := mul_le_mul_of_nonneg_right (show (bits 27 (step seed) : Int) ≤ 2 ^ 27 - 1 by omega)
      (show 0 ≤ n by omega)
    linarith
  exact ⟨seed, bound, by omega⟩

end FastRandom

section Numbers

variable {K V κ : Type} [DecidableEq κ] (addr : K → κ) (memory : Nat → List UInt8)
  (allocate : List UInt64 → UInt64) (attempts : Nat) (s : Store κ V)

/-- An action of a generator that returns a number of a range from every state. -/
def DrawsIn (m : Act (Thread FastRandom) K V Int) (min max : Int) : Prop :=
  ∀ t : Thread FastRandom, ∃ v t', Act.Returns addr m t s v t' s ∧ min ≤ v ∧ v ≤ max

/-- The numbers that an action of a generator returns, over all states of 48 bits. -/
def drawn (m : Act (Thread FastRandom) K V Int) : Set Int :=
  {v | ∃ t t' : Thread FastRandom, t.rng.seed < 2 ^ 48 ∧ Act.Returns addr m t s v t' s}

variable {min max : Int}

/-- `RandomNumber` returns from every state, and the numbers that it returns are those of its range;
`NonUniformRandom` returns from every state a number of its range. -/
theorem randomNumber_range (h0 : 0 ≤ min) (h : min ≤ max) (narrow : max - min + 1 ≤ 2 ^ 25) :
    DrawsIn addr s (randomNumber (FastRandom.env memory allocate attempts) min max) min max ∧
    drawn addr s (randomNumber (FastRandom.env memory allocate attempts) min max) =
      Set.Icc min max ∧
    ∀ A C : Int, 0 ≤ A → 0 ≤ C → DrawsIn addr s
      (nonUniformRandom (FastRandom.env memory allocate attempts) A C min max) min max := by
  have draws : DrawsIn addr s (randomNumber (FastRandom.env memory allocate attempts) min max)
      min max := fun t => Act.returns_of_frame
    (wp_randomNumber (.inr ⟨h0, h⟩) fun v t lower upper => ⟨rfl, lower, upper⟩)
  refine ⟨draws, Set.ext fun v => ⟨?_, fun hv => ?_⟩, fun A C hA hC t => ?_⟩
  · rintro ⟨t, t', _, returns⟩
    obtain ⟨w, t'', returns', range⟩ := draws t
    have same := Option.some.inj (returns.symm.trans returns')
    rwa [show v = w from congrArg (·.1.1) same]
  · obtain ⟨seed, bound, number⟩ := FastRandom.exists_number h0 narrow hv
    have draw : Act.wp (Contract.totally V addr).logic
        (randomNumber (FastRandom.env memory allocate attempts) min max)
        (fun a _ s' => s' = s ∧ a = v) ⟨⟨seed⟩, 0⟩ s :=
      wp_fast_randomNumber ⟨h0, h⟩ ⟨rfl, number⟩
    obtain ⟨_, t', returns, rfl⟩ := Act.returns_of_frame draw
    exact ⟨⟨⟨seed⟩, 0⟩, t', bound, returns⟩
  · exact Act.returns_of_frame
      (wp_nonUniformRandom (.inr ⟨hA, h0, h⟩) fun v t range => ⟨rfl, range hC h⟩)

/-- The numbers from 1 to 100, and the non-uniform ones of `GetCustomerId`. -/
theorem randomNumber_range_percent :
    DrawsIn (V := Unit) id (fun _ : Nat => none)
      (randomNumber (FastRandom.env (List.replicate · 0) (fun _ => 0) 0) 1 100) 1 100 ∧
    drawn (V := Unit) id (fun _ : Nat => none)
      (randomNumber (FastRandom.env (List.replicate · 0) (fun _ => 0) 0) 1 100) = Set.Icc 1 100 ∧
    ∀ A C : Int, 0 ≤ A → 0 ≤ C → DrawsIn (V := Unit) id (fun _ : Nat => none)
      (nonUniformRandom (FastRandom.env (List.replicate · 0) (fun _ => 0) 0) A C 1 100) 1 100 :=
  randomNumber_range _ _ _ _ _ (by decide) (by decide) (by decide)

/-! ### The home warehouse -/

/-- The home warehouses that the transactions draw are those that have been loaded. -/
def HomesLoaded (W : Nat) : Prop :=
  DrawsIn addr s (pickWarehouseId (FastRandom.env memory allocate attempts) 1 W) 1 W ∧
  ∀ w : Int, 1 ≤ w → w ≤ W →
    w ∈ drawn addr s (pickWarehouseId (FastRandom.env memory allocate attempts) 1 W)

variable {addr memory allocate attempts s} {W : Nat} {v : Int} {t t' : Thread FastRandom}

/-- The last warehouse is not the home of any transaction. -/
theorem home_lt (returns : Act.Returns addr
    (pickWarehouseId (FastRandom.env memory allocate attempts) 1 W) t s v t' s) :
      1 ≤ v ∧ v < W := by
  have partly : Act.wp (Contract.partly V addr).logic
      (pickWarehouseId (FastRandom.env memory allocate attempts) 1 W)
      (fun v _ _ => 1 ≤ v ∧ v < W) t s :=
    wp_pickWarehouseId (.inl trivial) fun v _ lower upper => ⟨lower, upper⟩
  exact Act.wp_returns partly returns

variable (addr memory allocate attempts s) in
/-- With any number of warehouses, the last one is loaded and is not drawn; with one, the assertion
fails. -/
theorem homes_not_loaded (one : 1 ≤ W) : ¬HomesLoaded addr memory allocate attempts s W := by
  rintro ⟨-, reached⟩
  obtain ⟨t, t', _, returns⟩ := reached W (by omega) le_rfl
  exact absurd (home_lt returns).2 (lt_irrefl _)

theorem homes_not_loaded_single :
    ¬HomesLoaded (V := Unit) id (List.replicate · 0) (fun _ => 0) 0 (fun _ : Nat => none) 1 :=
  homes_not_loaded _ _ _ _ _ le_rfl

/-- With two warehouses, no state of the generator draws the second one. -/
theorem second_home_not_drawn : ¬∀ W : Nat, 1 ≤ W →
    HomesLoaded (V := Unit) id (List.replicate · 0) (fun _ => 0) 0 (fun _ : Nat => none) W := by
  intro loaded
  obtain ⟨t, t', _, returns⟩ := (loaded 2 (by decide)).2 2 (by decide) le_rfl
  exact absurd (home_lt returns).2 (lt_irrefl _)

end Numbers

end Tpcc
