import Mathlib.Data.Finset.Card
import Mathlib.Data.Int.ModEq
import Mathlib.Data.Nat.Count
import Mathlib.Logic.Function.Iterate
import Mathlib.Tactic.Ring

/-! Linear congruential generators whose modulus is a power of two: each step replaces the state `x`
with `a * x + c`, modulo `2 ^ k`.  When `a` leaves 1 modulo 4 and `c` is odd, the states are a
single cycle, and steps alternate between its even and its odd states.  Over the integers, `2 ^ k`
steps then move every state by an odd multiple of `2 ^ k`, so that the steps which decide the low
`k` bits can be repeated once to decide the next bit. -/

namespace Congruential

open Function

/-! ### Affine maps of the integers -/

/-- A step without the modulus. -/
def affine (a c x : ℤ) : ℤ := a * x + c

section Affine

variable {a c : ℤ}

theorem iterate_affine_sub (n : ℕ) (x y : ℤ) :
    (affine a c)^[n] y - (affine a c)^[n] x = a ^ n * (y - x) := by
  induction n generalizing x y with
  | zero => simp
  | succ n ih =>
    rw [iterate_succ_apply, iterate_succ_apply, ih, affine, affine]
    ring

theorem pow_emod_four (ha : a % 4 = 1) (n : ℕ) : a ^ n % 4 = 1 := by
  have power : a ^ n ≡ 1 ^ n [ZMOD 4] := Int.ModEq.pow n ha
  rwa [one_pow] at power

/-- `2 ^ k` steps move a state by an odd multiple of `2 ^ k`. -/
theorem iterate_affine_two_pow (ha : a % 4 = 1) (hc : c % 2 = 1) (k : ℕ) (x : ℤ) :
    ∃ m, (affine a c)^[2 ^ k] x = x + 2 ^ k * (2 * m + 1) := by
  induction k with
  | zero =>
    refine ⟨2 * (a / 4) * x + c / 2, ?_⟩
    have multiplier : a = 4 * (a / 4) + 1 := by omega
    have increment : c = 2 * (c / 2) + 1 := by omega
    calc
      affine a c x = (4 * (a / 4) + 1) * x + (2 * (c / 2) + 1) := by
        rw [← multiplier, ← increment, affine]
      _ = x + 2 ^ 0 * (2 * (2 * (a / 4) * x + c / 2) + 1) := by ring
  | succ k ih =>
    obtain ⟨m, once⟩ := ih
    have twice := iterate_affine_sub (a := a) (c := c) (2 ^ k) x ((affine a c)^[2 ^ k] x)
    rw [← iterate_add_apply, ← two_mul, ← pow_succ', once] at twice
    have power := pow_emod_four ha (2 ^ k)
    generalize a ^ 2 ^ k = b at twice power
    obtain ⟨t, rfl⟩ : ∃ t, b = 4 * t + 1 := ⟨b / 4, by omega⟩
    refine ⟨2 * t * m + t + m, ?_⟩
    rw [sub_eq_iff_eq_add.mp twice]
    ring

/-- Some number of steps below `2 ^ k` leads to a state with given low `k` bits. -/
theorem exists_iterate_affine (ha : a % 4 = 1) (hc : c % 2 = 1) (k : ℕ) (x y : ℤ) :
    ∃ n < 2 ^ k, (affine a c)^[n] x ≡ y [ZMOD 2 ^ k] := by
  induction k with
  | zero => exact ⟨0, by simp, Int.modEq_one⟩
  | succ k ih =>
    obtain ⟨n, small, low⟩ := ih
    obtain ⟨q, gap⟩ := low.dvd
    rcases Int.even_or_odd' q with ⟨p, rfl | rfl⟩
    · refine ⟨n, by omega, Int.modEq_iff_dvd.mpr ⟨p, ?_⟩⟩
      rw [gap]
      ring
    · -- The next bit is wrong: `2 ^ k` more steps complement it.
      obtain ⟨m, moved⟩ := iterate_affine_two_pow ha hc k ((affine a c)^[n] x)
      refine ⟨2 ^ k + n, by omega, Int.modEq_iff_dvd.mpr ⟨p - m, ?_⟩⟩
      rw [iterate_add_apply, moved, ← sub_sub, gap]
      ring

end Affine

/-! ### The generator -/

/-- A step of the generator with `k` bits of state. -/
def step (a c k x : ℕ) : ℕ := (x * a + c) % 2 ^ k

section Step

variable {a c k x y : ℕ}

theorem step_lt : step a c k x < 2 ^ k := Nat.mod_lt _ (Nat.two_pow_pos k)

theorem iterate_step_lt (hx : x < 2 ^ k) (n : ℕ) : (step a c k)^[n] x < 2 ^ k := by
  cases n with
  | zero => exact hx
  | succ n =>
    rw [iterate_succ_apply']
    exact step_lt

theorem iterate_step_modEq (n : ℕ) :
    ((step a c k)^[n] x : ℤ) ≡ (affine a c)^[n] x [ZMOD 2 ^ k] := by
  induction n with
  | zero => exact Int.ModEq.refl _
  | succ n ih =>
    rw [iterate_succ_apply', iterate_succ_apply']
    calc
      (step a c k ((step a c k)^[n] x) : ℤ) ≡ (step a c k)^[n] x * a + c [ZMOD 2 ^ k] := by
        push_cast [step]
        exact Int.mod_modEq _ _
      _ ≡ (affine a c)^[n] x * a + c [ZMOD 2 ^ k] := (ih.mul_right _).add_right _
      _ = affine a c ((affine a c)^[n] x) := by rw [affine, mul_comm]

/-- Every state leads to every other one. -/
theorem exists_iterate (ha : a % 4 = 1) (hc : c % 2 = 1) (hx : x < 2 ^ k) (hy : y < 2 ^ k) :
    ∃ n < 2 ^ k, (step a c k)^[n] x = y := by
  obtain ⟨n, small, low⟩ := exists_iterate_affine (a := a) (c := c) (by omega) (by omega) k x y
  refine ⟨n, small, ?_⟩
  have same : ((step a c k)^[n] x : ℤ) ≡ y [ZMOD (2 ^ k : ℕ)] := by
    push_cast
    exact (iterate_step_modEq n).trans low
  exact (Int.natCast_modEq_iff.mp same).eq_of_lt_of_lt (iterate_step_lt hx n) hy

/-- A step leads from any number into the cycle. -/
theorem exists_iterate_succ (ha : a % 4 = 1) (hc : c % 2 = 1) (x : ℕ) (hy : y < 2 ^ k) :
    ∃ n < 2 ^ k, (step a c k)^[n + 1] x = y :=
  exists_iterate ha hc step_lt hy

theorem exists_step (ha : a % 4 = 1) (hc : c % 2 = 1) (hy : y < 2 ^ k) :
    ∃ x < 2 ^ k, step a c k x = y := by
  obtain ⟨n, _, reached⟩ := exists_iterate_succ ha hc 0 hy
  rw [iterate_succ_apply'] at reached
  exact ⟨_, iterate_step_lt (Nat.two_pow_pos k) n, reached⟩

theorem step_parity (ha : a % 2 = 1) (hc : c % 2 = 1) (hk : k ≠ 0) (x : ℕ) :
    step a c k x % 2 = (x + 1) % 2 := by
  rw [step, Nat.mod_mod_of_dvd _ (dvd_pow_self 2 hk), Nat.add_mod, Nat.mul_mod, ha, hc]
  omega

theorem iterate_step_parity (ha : a % 2 = 1) (hc : c % 2 = 1) (hk : k ≠ 0) (x n : ℕ) :
    (step a c k)^[n] x % 2 = (x + n) % 2 := by
  induction n with
  | zero => rfl
  | succ n ih =>
    rw [iterate_succ_apply', step_parity ha hc hk]
    omega

/-- An odd number of steps leads to every state of the other parity. -/
theorem exists_iterate_odd (ha : a % 4 = 1) (hc : c % 2 = 1) (hk : k ≠ 0) (hy : y < 2 ^ k)
    (parity : y % 2 = (x + 1) % 2) : ∃ n, 2 * n < 2 ^ k ∧ (step a c k)^[2 * n + 1] x = y := by
  obtain ⟨n, small, reached⟩ := exists_iterate_succ ha hc x hy
  have steps := iterate_step_parity (a := a) (by omega) hc hk x (n + 1)
  rw [reached] at steps
  obtain ⟨half, rfl⟩ : ∃ half, n = 2 * half := ⟨n / 2, by omega⟩
  exact ⟨half, small, reached⟩

/-- In `2 ^ k` steps every state is reached once: a property holds as often of the states of a
period as it does of the numbers below `2 ^ k`. -/
theorem count_iterate (ha : a % 4 = 1) (hc : c % 2 = 1) (x : ℕ) (P : ℕ → Prop) [DecidablePred P] :
    Nat.count (fun n => P ((step a c k)^[n + 1] x)) (2 ^ k) = Nat.count P (2 ^ k) := by
  have maps : ∀ n ∈ Finset.range (2 ^ k), (step a c k)^[n + 1] x ∈ Finset.range (2 ^ k) := by
    intro n _
    rw [Finset.mem_range, iterate_succ_apply']
    exact step_lt
  have onto : Set.SurjOn (fun n => (step a c k)^[n + 1] x) (Finset.range (2 ^ k))
      (Finset.range (2 ^ k)) := by
    intro y hy
    obtain ⟨n, small, reached⟩ := exists_iterate_succ ha hc x (Finset.mem_range.mp hy)
    exact ⟨n, Finset.mem_coe.mpr (Finset.mem_range.mpr small), reached⟩
  have once := Finset.injOn_of_surjOn_of_card_le _ maps onto le_rfl
  rw [Nat.count_eq_card_filter_range, Nat.count_eq_card_filter_range]
  apply Finset.card_nbij (fun n => (step a c k)^[n + 1] x)
  · intro n hn
    obtain ⟨inside, holds⟩ := Finset.mem_filter.mp (Finset.mem_coe.mp hn)
    exact Finset.mem_coe.mpr (Finset.mem_filter.mpr ⟨maps n inside, holds⟩)
  · exact once.mono fun n hn => (Finset.mem_filter.mp hn).1
  · intro y hy
    obtain ⟨inside, holds⟩ := Finset.mem_filter.mp (Finset.mem_coe.mp hy)
    obtain ⟨n, hn, reached⟩ := onto (Finset.mem_coe.mpr inside)
    refine ⟨n, Finset.mem_coe.mpr (Finset.mem_filter.mpr ⟨hn, ?_⟩), reached⟩
    simp only at reached
    rw [reached]
    exact holds

end Step

/-! ### Counting by parts of a number -/

section Count

theorem count_congr {P Q : ℕ → Prop} [DecidablePred P] [DecidablePred Q] {n : ℕ}
    (same : ∀ i < n, P i ↔ Q i) : Nat.count P n = Nat.count Q n :=
  le_antisymm (Nat.count_mono_left fun i hi => (same i hi).mp)
    (Nat.count_mono_left fun i hi => (same i hi).mpr)

variable (P : ℕ → Prop) [DecidablePred P]

/-- A property of the high parts of the numbers below `m * b`. -/
theorem count_div (b m : ℕ) (hb : 0 < b) :
    Nat.count (fun n => P (n / b)) (m * b) = b * Nat.count P m := by
  induction m with
  | zero => simp
  | succ m ih =>
    have part : Nat.count (fun i => P ((m * b + i) / b)) b = if P m then b else 0 := by
      have high : ∀ i < b, (m * b + i) / b = m := by
        intro i hi
        rw [Nat.add_comm, Nat.add_mul_div_right _ _ hb, Nat.div_eq_of_lt hi, Nat.zero_add]
      rw [count_congr (Q := fun _ => P m) fun i hi => by rw [high i hi]]
      split
      · exact Nat.count_of_forall fun _ _ => ‹P m›
      · exact Nat.count_of_forall_not fun _ _ => ‹¬P m›
    rw [Nat.succ_mul, Nat.count_add, ih, part, Nat.count_succ, Nat.mul_add]
    split <;> simp

/-- A property of the low parts of the numbers below `q * m + r`. -/
theorem count_mod (m q r : ℕ) (hr : r ≤ m) :
    Nat.count (fun n => P (n % m)) (q * m + r) = q * Nat.count P m + Nat.count P r := by
  have block (n base : ℕ) (hn : n ≤ m) :
      Nat.count (fun i => P ((base * m + i) % m)) n = Nat.count P n := by
    apply count_congr
    intro i hi
    rw [Nat.mul_comm, Nat.mul_add_mod, Nat.mod_eq_of_lt (by omega)]
  have blocks : Nat.count (fun n => P (n % m)) (q * m) = q * Nat.count P m := by
    induction q with
    | zero => simp
    | succ q ih => rw [Nat.succ_mul, Nat.count_add, ih, block m q le_rfl, Nat.succ_mul]
  rw [Nat.count_add, blocks, block r q hr]

end Count

end Congruential
