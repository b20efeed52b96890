import Mathlib.Data.List.Perm.Subperm
import Tpcc.Generator
import Tpcc.Loaded
import Tpcc.Txn.Payment

/-! The loops that draw until a draw is accepted: the characters of a random string, a warehouse
other than a given one, and the customers of a district in the order in which they get its orders.
None of them has a bound, but with `FastRandom` each of them ends from every state: a state whose
draw is accepted is reached within the period of the generator, or within half of it where a draw
takes two steps. -/

namespace Tpcc

open KvProgram Layout

section

variable {K V S : Type} {L : Logic K V S} {memory : Nat → List UInt8}
  {allocate : List UInt64 → UInt64} {attempts : Nat} {t : Thread FastRandom} {s : S}

/-! ### Characters -/

/-- `NextChar()` from a state. -/
def FastRandom.char (seed : Nat) : UInt8 := UInt8.ofNat (bits 8 seed % 256)

/-- A letter is drawn within a period. -/
theorem exists_letter (t : Thread FastRandom) :
    ∃ n < 2 ^ 48, isAlnum (FastRandom.char ((Thread.advance 1)^[n] t).rng.seed) := by
  obtain ⟨n, small, reached⟩ := exists_advance_one (y := 0x41 * 2 ^ 40) (by norm_num) t
  refine ⟨n, small, ?_⟩
  rw [FastRandom.char, FastRandom.bits_of_step reached]
  decide

/-- A random string is drawn from every state, with the length asked for and only letters and
digits. -/
theorem wp_fast_randomStr {len : Nat} {Q : List UInt8 → Thread FastRandom → S → Prop}
    (enough : len * 2 ^ 48 < attempts)
    (h : ∀ bs t, bs.length = len → (∀ b ∈ bs, isAlnum b) → Q bs t s) :
    Act.wp L (randomStr (FastRandom.env memory allocate attempts) len) Q t s := by
  unfold randomStr
  refine Act.wp_loop_draws (fun buf => buf.length ≤ len ∧ ∀ b ∈ buf, isAlnum b)
    (fun buf => len - buf.length) (Thread.advance 1)
    (fun _ t => isAlnum (FastRandom.char t.rng.seed)) (fun _ t _ _ => exists_letter t) ?_ enough
    (by simp)
  rintro buf t ⟨short, alnum⟩
  split
  · simp only [nextChar, Act.wp_bind, Act.wp_pure]
    apply wp_fast_next
    split
    · rename_i hc
      refine ⟨by omega, rfl, rfl, ⟨by simp; omega, fun b hb => ?_⟩, fun _ => by simp; omega,
        fun rejected => absurd hc rejected⟩
      rcases List.mem_append.mp hb with hb | hb
      · exact alnum b hb
      · rw [List.mem_singleton.mp hb]
        exact hc
    · rename_i hc
      exact ⟨by omega, rfl, rfl, ⟨short, alnum⟩, fun accepted => absurd accepted hc, fun _ => rfl⟩
  · exact h buf t (by omega) alnum

/-- A string of `len` letters and digits: `strcpy` copies it and one NUL, where there is room. -/
structure IsRandomStr (len : Nat) (buf : List UInt8) : Prop where
  length : buf.length = len
  alnum : ∀ b ∈ buf, isAlnum b
  zero : 0 ∉ buf
  copied : ∀ {n : Nat} (a b : CharArray n),
    a.strcpy buf = some b ↔ len + 1 ≤ n ∧ b.bytes = buf ++ 0 :: a.bytes.drop (len + 1)

theorem isRandomStr {len : Nat} {buf : List UInt8} (length : buf.length = len)
    (alnum : ∀ b ∈ buf, isAlnum b) : IsRandomStr len buf where
  length := length
  alnum := alnum
  zero := zero_notMem_of_isAlnum alnum
  copied a b := by
    have whole := CharArray.cStr_eq_self (zero_notMem_of_isAlnum alnum)
    constructor
    · intro copied
      have bytes := CharArray.strcpy_bytes copied
      rw [whole, length] at bytes
      refine ⟨?_, bytes⟩
      have size := congrArg List.length bytes
      simp only [b.length_eq, List.length_append, List.length_cons] at size
      omega
    · rintro ⟨room, bytes⟩
      obtain ⟨c, copied⟩ :=
        Option.isSome_iff_exists.mp (CharArray.strcpy_isSome (a := a) (length ▸ room))
      have same := CharArray.strcpy_bytes copied
      rw [whole, length, ← bytes] at same
      rw [copied, Option.some.injEq]
      cases b
      cases c
      simpa using same

/-- `RandomStr` returns from every state of the generator, for every length. -/
theorem randomStr_returns {κ : Type} [DecidableEq κ] (addr : K → κ) (memory : Nat → List UInt8)
    (allocate : List UInt64 → UInt64) {attempts len : Nat} (enough : len * 2 ^ 48 < attempts)
    (t : Thread FastRandom) (s : Store κ V) : ∃ buf t', Act.Returns addr
      (randomStr (FastRandom.env memory allocate attempts) len) t s buf t' s ∧
        IsRandomStr len buf :=
  Act.returns_of_frame (wp_fast_randomStr enough fun _ _ length alnum =>
    ⟨rfl, isRandomStr length alnum⟩)

theorem randomStr_returns_street : ∃ buf t', Act.Returns (V := Unit) id
    (randomStr (FastRandom.env (List.replicate · 0) (fun _ => 0) (2 ^ 53)) 20) ⟨.setSeed0 9324, 0⟩
    (fun _ : Nat => none) buf t' (fun _ => none) ∧ IsRandomStr 20 buf :=
  randomStr_returns _ _ _ (by norm_num) _ _

/-! ### Other warehouses -/

/-- Of the states with the greatest or the least top bits, one parity of either suffices to draw a
warehouse other than a given one: the greatest is drawn after it, or the least before it. -/
theorem exists_other {W : Nat} (several : 2 ≤ W) (w : Int) {parity : Nat} (bit : parity < 2) :
    ∃ y < 2 ^ 48, y % 2 = parity ∧ ∀ seed, FastRandom.step seed = y →
      FastRandom.number 1 W seed ≠ w := by
  by_cases early : 2 * w ≤ W
  · refine ⟨(2 ^ 26 - 1) * 2 ^ 22 + parity, by omega, by omega, fun seed reached => ?_⟩
    have top : FastRandom.bits 26 seed = 2 ^ 26 - 1 := by
      rw [FastRandom.bits_of_step reached]
      omega
    have fraction : 2 ^ 53 - 2 ^ 27 ≤ FastRandom.fraction seed := by
      rw [FastRandom.fraction, top, Nat.shiftLeft_eq]
      omega
    have after : w + 1 ≤ FastRandom.number 1 W seed := by
      rw [FastRandom.le_number_iff (by omega) (by omega)]
      have := mul_le_mul_of_nonneg_right (show (2 ^ 53 - 2 ^ 27 : Int) ≤ FastRandom.fraction seed by
        omega) (show (0 : Int) ≤ W by omega)
      linarith
    omega
  · refine ⟨parity, by omega, by omega, fun seed reached => ?_⟩
    have top : FastRandom.bits 26 seed = 0 := by
      rw [FastRandom.bits_of_step reached]
      omega
    have fraction : FastRandom.fraction seed < 2 ^ 27 := by
      have low := FastRandom.bits_lt 27 (FastRandom.step seed)
      rw [FastRandom.fraction, top, Nat.shiftLeft_eq]
      omega
    have before : ¬w ≤ FastRandom.number 1 W seed := by
      rw [FastRandom.le_number_iff (by omega) (by omega)]
      have := mul_le_mul_of_nonneg_right (show (FastRandom.fraction seed : Int) ≤ 2 ^ 27 by omega)
        (show (0 : Int) ≤ W by omega)
      linarith
    omega

/-- Another warehouse is drawn from every state. -/
theorem wp_fast_otherWarehouse {W : Nat} {w : Int} {Q : Int → Thread FastRandom → S → Prop}
    (several : 2 ≤ W) (enough : 2 ^ 47 < attempts)
    (h : ∀ (v : Int) t, 1 ≤ v → v ≤ W → v ≠ w → Q v t s) :
    Act.wp L (otherWarehouse (FastRandom.env memory allocate attempts) W w) Q t s := by
  unfold otherWarehouse
  refine Act.wp_loop_draws (fun _ => True) (fun _ => 1) (Thread.advance 2)
    (fun _ t => FastRandom.number 1 W t.rng.seed ≠ w) (fun _ t _ _ => ?_) ?_
    ((Nat.one_mul _).trans_lt enough) trivial
  · obtain ⟨y, small, parity, other⟩ := exists_other several w (Nat.mod_lt (t.rng.seed + 1) two_pos)
    obtain ⟨n, soon, reached⟩ := exists_advance_two small t parity
    exact ⟨n, soon, other _ reached⟩
  · intro _ t _
    rw [Act.wp_bind]
    refine wp_fast_randomNumber ⟨by omega, by omega⟩ ?_
    split
    · rename_i same
      exact ⟨one_ne_zero, rfl, rfl, trivial, fun other => absurd same other, fun _ => rfl⟩
    · rename_i other
      have range : 1 ≤ FastRandom.number 1 W t.rng.seed ∧ FastRandom.number 1 W t.rng.seed ≤ W :=
        FastRandom.number_mem (by omega) (by omega) _
      exact h _ _ range.1 range.2 other

/-- The loops of `NewOrder` and `Payment` that draw another warehouse return from every state of the
generator. -/
theorem otherWarehouse_returns {κ : Type} [DecidableEq κ] (addr : K → κ) (memory : Nat → List UInt8)
    (allocate : List UInt64 → UInt64) {attempts W : Nat} (enough : 2 ^ 47 < attempts)
    (several : 2 ≤ W) (w : Int) (t : Thread FastRandom) (s : Store κ V) : ∃ v t', Act.Returns addr
      (otherWarehouse (FastRandom.env memory allocate attempts) W w) t s v t' s ∧
      1 ≤ v ∧ v ≤ W ∧ v ≠ w :=
  Act.returns_of_frame (wp_fast_otherWarehouse several enough
    fun _ _ lower upper other => ⟨rfl, lower, upper, other⟩)

theorem otherWarehouse_returns_first : ∃ v t', Act.Returns (V := Unit) id
    (otherWarehouse (FastRandom.env (List.replicate · 0) (fun _ => 0) (2 ^ 48)) 2 1)
      ⟨.setSeed0 6, 0⟩
    (fun _ : Nat => none) v t' (fun _ => none) ∧ 1 ≤ v ∧ v ≤ (2 : Nat) ∧ v ≠ 1 :=
  otherWarehouse_returns _ _ _ (by norm_num) le_rfl _ _ _

/-! ### Customers -/

theorem long_eq {y seed : Nat} (reached : FastRandom.step seed = y) :
    FastRandom.long seed = y / 2 ^ 16 % 2 ^ 32 * 2 ^ 32 +
      (y * 0x5DEECE66D + 0xB) % 2 ^ 48 / 2 ^ 16 % 2 ^ 32 := by
  have second : FastRandom.step y = (y * 0x5DEECE66D + 0xB) % 2 ^ 48 := rfl
  rw [FastRandom.long, reached, FastRandom.bits_of_step reached, FastRandom.bits_of_step second,
    Nat.shiftLeft_eq]

/-- Every residue modulo 3000 is that of a draw of 64 bits from a state of either parity.  As
`20279 * 0x5DEECE66D` is `74859` modulo `2 ^ 32`, the draws that leave the states
`20279 * i * 2 ^ 16 + parity` are linear in `i`, with a coefficient that is coprime to 3000. -/
theorem exists_long {x parity : Nat} (hx : x < 3000) (bit : parity < 2) : ∃ y < 2 ^ 48,
    y % 2 = parity ∧ ∀ seed, FastRandom.step seed = y → FastRandom.long seed % 3000 = x := by
  obtain ⟨i, small, solves⟩ : ∃ i < 3000, (443 * i + 748 * parity) % 3000 = x :=
    ⟨1307 * (x + 2252 * parity) % 3000, by omega, by omega⟩
  refine ⟨20279 * i * 2 ^ 16 + parity, by omega, by omega, fun seed reached => ?_⟩
  have value := long_eq reached
  have high : (20279 * i * 2 ^ 16 + parity) / 2 ^ 16 % 2 ^ 32 = 20279 * i := by omega
  have second : ((20279 * i * 2 ^ 16 + parity) * 0x5DEECE66D + 0xB) % 2 ^ 48 =
      74859 * i * 2 ^ 16 + parity * 0x5DEECE66D + 0xB := by omega
  generalize ((20279 * i * 2 ^ 16 + parity) * 0x5DEECE66D + 0xB) % 2 ^ 48 = z at value second
  have low : z / 2 ^ 16 % 2 ^ 32 = 74859 * i + 384748 * parity := by
    obtain rfl | rfl : parity = 0 ∨ parity = 1 := by omega
    · omega
    · omega
  rw [value, high, low]
  omega

/-- Customers that have been drawn for the orders of a district. -/
structure DrawnCustomers (ids : List Nat) : Prop where
  nodup : ids.Nodup
  range : ids ⊆ List.range' 1 3000

namespace DrawnCustomers

variable {ids : List Nat}

theorem length_le (h : DrawnCustomers ids) : ids.length ≤ 3000 := by
  have length := (List.subperm_of_subset h.nodup h.range).length_le
  rwa [List.length_range'] at length

theorem snoc {x : Nat} (h : DrawnCustomers ids) (new : x % 3000 + 1 ∉ ids) :
    DrawnCustomers (ids ++ [x % 3000 + 1]) where
  nodup := by
    refine List.nodup_append.mpr ⟨h.nodup, List.nodup_singleton _, fun c hc b hb same => ?_⟩
    rw [same, List.mem_singleton.mp hb] at hc
    exact new hc
  range := by
    refine List.append_subset.mpr ⟨h.range, fun c hc => ?_⟩
    rw [List.mem_singleton.mp hc, List.mem_range'_1]
    have := Nat.mod_lt x (show 0 < 3000 by decide)
    omega

/-- When no customer is left, every one has been drawn once. -/
theorem perm (h : DrawnCustomers ids) (full : ids.length = 3000) :
    ids.Perm (List.range' 1 3000) := by
  apply (List.subperm_of_subset h.nodup h.range).perm_of_length_le
  rw [List.length_range', full]

/-- When one is left, one has not been drawn. -/
theorem exists_new (short : ids.length < 3000) : ∃ c ∈ List.range' 1 3000, c ∉ ids := by
  by_contra none
  push Not at none
  have length := (List.subperm_of_subset List.nodup_range' none).length_le
  rw [List.length_range'] at length
  omega

end DrawnCustomers

/-- A customer that has not been drawn is drawn within half a period. -/
theorem exists_customer {ids : List Nat} (short : ids.length < 3000) (t : Thread FastRandom) :
    ∃ n < 2 ^ 47, FastRandom.long ((Thread.advance 2)^[n] t).rng.seed % 3000 + 1 ∉ ids := by
  obtain ⟨c, hc, new⟩ := DrawnCustomers.exists_new short
  rw [List.mem_range'_1] at hc
  obtain ⟨y, small, parity, residue⟩ := exists_long (x := c - 1) (by omega)
    (Nat.mod_lt (t.rng.seed + 1) two_pos)
  obtain ⟨n, soon, reached⟩ := exists_advance_two small t parity
  refine ⟨n, soon, ?_⟩
  rwa [residue _ reached, show c - 1 + 1 = c by omega]

/-- The customers of a district are drawn from every state, each of them once. -/
theorem wp_fast_shuffleCustomers {Q : List Nat → Thread FastRandom → S → Prop}
    (enough : 3000 * 2 ^ 47 < attempts)
    (h : ∀ ids t, ids.Perm (List.range' 1 3000) → Q ids t s) :
    Act.wp L (shuffleCustomers (FastRandom.env memory allocate attempts)) Q t s := by
  unfold shuffleCustomers
  refine Act.wp_loop_draws DrawnCustomers (fun ids => 3000 - ids.length) (Thread.advance 2)
    (fun ids t => FastRandom.long t.rng.seed % 3000 + 1 ∉ ids)
    (fun ids t _ more => exists_customer (by omega) t) ?_ enough ⟨List.nodup_nil, by simp⟩
  intro ids t drawn
  split
  · rename_i more
    have more : ids.length < 3000 := lt_of_le_of_ne drawn.length_le more
    rw [Act.wp_bind]
    apply wp_fast_nextLong
    split
    · rename_i old
      exact ⟨by omega, rfl, rfl, drawn, fun new => absurd old new, fun _ => rfl⟩
    · rename_i new
      refine ⟨by omega, rfl, rfl, drawn.snoc new, fun _ => ?_, fun old => absurd new old⟩
      rw [List.length_append, List.length_singleton]
      omega
  · rename_i done
    exact h ids t (drawn.perm (not_not.mp done))

end

end Tpcc
