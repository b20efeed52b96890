import Mathlib.Data.Nat.Bitwise
import Mathlib.Tactic.Linarith
import Tpcc.Lib.Program

/-! What a client draws on besides the store: the random generator, the contents of memory that has
not been written, the addresses that `operator new` returns, and the thread's own clock.  An `Env`
gives them for an arbitrary type of generator states, so that a result for every `Env` holds for
any draws; `FastRandom` is the generator of the source.  The helper functions of `TPCCTable` that
draw random numbers and strings are actions of a thread over an `Env`. -/

namespace Tpcc

open KvProgram

/-- The surroundings of a client.  `nextBits bits` is `FastRandom::Next(bits)`, `seeded` builds a
generator from a seed, `memory n` reads `n` bytes that have not been written, `allocate` returns
the address of a new buffer with the given words, and `attempts` bounds the iterations of a loop
that draws until a draw is accepted. -/
structure Env (ρ : Type) where
  nextBits : Nat → ρ → Nat × ρ
  nextBits_lt : ∀ bits r, (nextBits bits r).1 < 2 ^ bits
  seeded : Nat → ρ → ρ
  memory : Nat → ρ → List UInt8 × ρ
  allocate : List UInt64 → ρ → UInt64 × ρ
  attempts : Nat

/-- The state of a thread: its generator, and the counter `tl_hack` that stands for its clock. -/
structure Thread (ρ : Type) where
  rng : ρ
  tlHack : UInt32

/-! ### FastRandom -/

/-- `FastRandom`, with the 48 bits of its `seed`. -/
structure FastRandom where
  seed : Nat
  deriving DecidableEq

namespace FastRandom

def setSeed0 (sed : Nat) : FastRandom := ⟨(sed ^^^ 0x5DEECE66D) % 2 ^ 48⟩

/-- `Next(bits)`: one step of the linear congruential generator, and its top bits. -/
def next (bits : Nat) (r : FastRandom) : Nat × FastRandom :=
  let seed := (r.seed * 0x5DEECE66D + 0xB) % 2 ^ 48
  (seed >>> (48 - bits) % 2 ^ bits, ⟨seed⟩)

/-- The surroundings of a client whose generator is `FastRandom`. -/
def env (memory : Nat → List UInt8) (allocate : List UInt64 → UInt64) (attempts : Nat) :
    Env FastRandom where
  nextBits := next
  nextBits_lt _ _ := Nat.mod_lt _ (Nat.two_pow_pos _)
  seeded sed _ := setSeed0 sed
  memory n r := (memory n, r)
  allocate words r := (allocate words, r)
  attempts := attempts

end FastRandom

section Draws

variable {ρ K V κ : Type} (env : Env ρ)

/-- `Next(bits)`. -/
def next (bits : Nat) : Act (Thread ρ) K V Nat :=
  .own fun t => ((env.nextBits bits t.rng).1, { t with rng := (env.nextBits bits t.rng).2 })

/-- `Next()`: 64 bits, from two draws of 32. -/
def nextLong : Act (Thread ρ) K V Nat := do
  let high ← next env 32
  let low ← next env 32
  return (high <<< 32) + low

/-- `NextUniform()`, as the numerator of a fraction over `2^53`. -/
def nextUniform : Act (Thread ρ) K V Nat := do
  let high ← next env 26
  let low ← next env 27
  return (high <<< 27) + low

def nextChar : Act (Thread ρ) K V UInt8 := do
  let c ← next env 8
  return UInt8.ofNat (c % 256)

/-- A generator built from a seed. -/
def seeded (seed : Nat) : Act (Thread ρ) K V Unit :=
  .own fun t => ((), { t with rng := env.seeded seed t.rng })

/-- Memory that has not been written. -/
def memory (n : Nat) : Act (Thread ρ) K V (List UInt8) :=
  .own fun t => ((env.memory n t.rng).1, { t with rng := (env.memory n t.rng).2 })

def getCurrentTimeMillis : Act (Thread ρ) K V UInt32 :=
  .own fun t => (t.tlHack + 1, { t with tlHack := t.tlHack + 1 })

def checkBetweenInclusive (v lower upper : Int) : Act ρ K V Int := do
  .assert (lower ≤ v)
  .assert (v ≤ upper)
  return v

/-- The conversion to `int` drops the fractional part. -/
def randomNumber (min max : Int) : Act (Thread ρ) K V Int := do
  let u ← nextUniform env
  checkBetweenInclusive ((u * (max - min + 1) + min * 2 ^ 53).tdiv (2 ^ 53)) min max

def nonUniformRandom (A C min max : Int) : Act (Thread ρ) K V Int := do
  let a ← randomNumber env 0 A
  let b ← randomNumber env min max
  return ((a.toNat ||| b.toNat : Nat) + C).tmod (max - min + 1) + min

/-- `GetItemId`, with `g_uniform_item_dist = 0`. -/
def getItemId (numItem : Int) : Act (Thread ρ) K V Int := do
  let v ← nonUniformRandom env 8191 7911 1 numItem
  checkBetweenInclusive v 1 numItem

def getCustomerId (numCustomerPerDistrict : Int) : Act (Thread ρ) K V Int := do
  let v ← nonUniformRandom env 1023 259 1 numCustomerPerDistrict
  checkBetweenInclusive v 1 numCustomerPerDistrict

/-- A number in `[start, end)`. -/
def pickWarehouseId (start stop : Nat) : Act (Thread ρ) K V Int := do
  .assert (start < stop)
  if stop - start = 1 then
    return start
  else
    let x ← nextLong env
    return ((x % (stop - start) + start : Nat) : Int)

def nameTokens : List (List UInt8) :=
  ["BAR", "OUGHT", "ABLE", "PRI", "PRES", "ESE", "ANTI", "CALLY", "ATION", "EING"].map
    (·.toUTF8.data.toList)

def getCustomerLastName (num : Nat) : List UInt8 :=
  nameTokens.getD (num / 100) [] ++ nameTokens.getD (num / 10 % 10) [] ++
    nameTokens.getD (num % 10) []

def getNonUniformCustomerLastNameLoad : Act (Thread ρ) K V (List UInt8) := do
  let num ← nonUniformRandom env 255 157 0 999
  return getCustomerLastName num.toNat

/-- `isalnum` in the C locale. -/
def isAlnum (c : UInt8) : Bool :=
  (0x30 ≤ c && c ≤ 0x39) || (0x41 ≤ c && c ≤ 0x5A) || (0x61 ≤ c && c ≤ 0x7A)

/-- Characters are drawn until `len` of them are letters or digits. -/
def randomStr (len : Nat) : Act (Thread ρ) K V (List UInt8) :=
  .loop (fun buf => do
    if buf.length < len then
      let c ← nextChar env
      if isAlnum c then return .inl (buf ++ [c]) else return .inl buf
    else
      return .inr buf) env.attempts []

def randomNStr (len : Nat) : Act (Thread ρ) K V (List UInt8) :=
  .forRange (fun _ buf => do
    let x ← nextLong env
    return buf ++ [0x30 + UInt8.ofNat (x % 10)]) 0 len []

end Draws

/-! ### Draws that are accepted -/

/-- `Next()` from a state of the generator. -/
def Env.long {ρ : Type} (env : Env ρ) (r : ρ) : Nat × ρ :=
  let high := env.nextBits 32 r
  let low := env.nextBits 32 high.2
  ((high.1 <<< 32) + low.1, low.2)

/-- The state of the generator after `n` draws of 64 bits. -/
def Env.after {ρ : Type} (env : Env ρ) (r : ρ) (n : Nat) : ρ := (fun r => (env.long r).2)^[n] r

theorem Env.after_succ {ρ : Type} {env : Env ρ} {r : ρ} {n : Nat} :
    env.after r (n + 1) = (env.long (env.after r n)).2 := Function.iterate_succ_apply' ..

/-- Surroundings in which the loops that draw characters and customers reject no draw. -/
structure Env.Accepting {ρ : Type} (env : Env ρ) : Prop where
  letter : ∀ r, isAlnum (UInt8.ofNat ((env.nextBits 8 r).1 % 256))
  distinct : ∀ r i j, i < j → j < 3000 →
    (env.long (env.after r i)).1 % 3000 ≠ (env.long (env.after r j)).1 % 3000
  attempts : 3000 < env.attempts

/-- The generator of `Env.counting`: the letter A, numbers that count up, and zeros. -/
def countingBits (bits n : Nat) : Nat × Nat :=
  if bits = 8 then (65, n) else if bits = 32 then (n / 2 % 3000, n + 1) else (0, n)

/-- Surroundings whose generator counts its draws of 32 bits. -/
def Env.counting : Env Nat where
  nextBits := countingBits
  nextBits_lt bits n := by
    unfold countingBits
    split
    · subst bits; norm_num
    · split
      · subst bits
        have := Nat.mod_lt (n / 2) (show 0 < 3000 by norm_num)
        norm_num
        omega
      · exact Nat.two_pow_pos bits
  seeded seed _ := seed
  memory n r := (List.replicate n 0, r)
  allocate _ r := (0, r)
  attempts := 3001

theorem counting_after (n i : Nat) : Env.counting.after n i = n + 2 * i := by
  induction i with
  | zero => rfl
  | succ i ih =>
    rw [Env.after_succ, ih]
    simp [Env.long, Env.counting, countingBits]
    omega

/-- A draw of 64 bits, modulo 3000, is linear in the number of draws before it, with a coefficient
that is coprime to 3000. -/
theorem counting_long (n i : Nat) : (Env.counting.long (Env.counting.after n i)).1 % 3000 =
    (2297 * i + (2296 * (n / 2) + (n + 1) / 2)) % 3000 := by
  have high : (n + 2 * i) / 2 = n / 2 + i := by omega
  have low : (n + 2 * i + 1) / 2 = (n + 1) / 2 + i := by omega
  rw [counting_after]
  simp only [Env.long, Env.counting, countingBits, Nat.shiftLeft_eq, Nat.reduceEqDiff, if_false,
    if_true, high, low]
  omega

theorem counting_accepting : Env.counting.Accepting where
  letter r := by simp [Env.counting, countingBits]; decide
  distinct n i j hij hj := by
    rw [counting_long, counting_long]
    intro same
    have : 2297 * (j - i) % 3000 = 0 := by omega
    omega
  attempts := by simp [Env.counting]

/-! ### What the draws can be -/

section Rules

variable {ρ K V S : Type} {env : Env ρ} {L : Logic K V S} {t : Thread ρ} {s : S}

theorem wp_next {bits : Nat} {Q : Nat → Thread ρ → S → Prop}
    (h : ∀ x t, x < 2 ^ bits → Q x t s) : Act.wp L (next env bits) Q t s :=
  h _ _ (env.nextBits_lt bits t.rng)

theorem wp_nextLong {Q : Nat → Thread ρ → S → Prop} (h : ∀ x t, Q x t s) :
    Act.wp L (nextLong env) Q t s := by
  unfold nextLong
  simp only [Act.wp_bind, Act.wp_pure]
  exact wp_next fun _ _ _ => wp_next fun _ _ _ => h _ _

theorem wp_nextUniform {Q : Nat → Thread ρ → S → Prop}
    (h : ∀ x t, x < 2 ^ 53 → Q x t s) : Act.wp L (nextUniform env) Q t s := by
  unfold nextUniform
  simp only [Act.wp_bind, Act.wp_pure]
  refine wp_next fun high _ hh => wp_next fun low _ hl => h _ _ ?_
  rw [Nat.shiftLeft_eq]
  omega

theorem wp_seeded {seed : Nat} {Q : Unit → Thread ρ → S → Prop} (h : ∀ t, Q () t s) :
    Act.wp L (seeded env seed) Q t s := h _

theorem wp_memory {n : Nat} {Q : List UInt8 → Thread ρ → S → Prop}
    (h : ∀ bs t, Q bs t s) : Act.wp L (memory env n) Q t s := h _ _

theorem wp_getCurrentTimeMillis {Q : UInt32 → Thread ρ → S → Prop}
    (h : ∀ x t, Q x t s) : Act.wp L getCurrentTimeMillis Q t s := h _ _

theorem wp_checkBetweenInclusive {r : ρ} {v lower upper : Int} {Q : Int → ρ → S → Prop}
    (ok : L.mayStick ∨ lower ≤ v ∧ v ≤ upper) (h : lower ≤ v → v ≤ upper → Q v r s) :
    Act.wp L (checkBetweenInclusive v lower upper) Q r s := by
  unfold checkBetweenInclusive
  simp only [Act.wp_bind, Act.wp_pure]
  refine Act.wp_assert (fun hl => Act.wp_assert (fun hu => h hl hu) ?_) ?_
  · exact ok.imp_right And.right
  · exact ok.imp_right And.left

/-- A uniform fraction below 1, scaled to a range and rounded down, is in the range. -/
theorem scaled_mem {u : Nat} {min max : Int} (hu : u < 2 ^ 53) (h0 : 0 ≤ min) (h : min ≤ max) :
    min ≤ (u * (max - min + 1) + min * 2 ^ 53).tdiv (2 ^ 53) ∧
      (u * (max - min + 1) + min * 2 ^ 53).tdiv (2 ^ 53) ≤ max := by
  have wide : (0 : Int) ≤ u * (max - min + 1) := mul_nonneg (by omega) (by omega)
  have below : (u : Int) * (max - min + 1) ≤ (2 ^ 53 - 1) * (max - min + 1) :=
    mul_le_mul_of_nonneg_right (by omega) (by omega)
  rw [Int.tdiv_eq_ediv_of_nonneg (by omega)]
  constructor
  · rw [Int.le_ediv_iff_mul_le (by norm_num)]
    omega
  · rw [Int.ediv_le_iff_le_mul (by norm_num)]
    linarith

theorem wp_randomNumber {min max : Int} {Q : Int → Thread ρ → S → Prop}
    (ok : L.mayStick ∨ 0 ≤ min ∧ min ≤ max) (h : ∀ v t, min ≤ v → v ≤ max → Q v t s) :
    Act.wp L (randomNumber env min max) Q t s := by
  unfold randomNumber
  rw [Act.wp_bind]
  refine wp_nextUniform fun u _ hu => wp_checkBetweenInclusive ?_ (h _ _)
  exact ok.imp_right fun hr => scaled_mem hu hr.1 hr.2

theorem wp_nonUniformRandom {A C min max : Int} {Q : Int → Thread ρ → S → Prop}
    (ok : L.mayStick ∨ 0 ≤ A ∧ 0 ≤ min ∧ min ≤ max)
    (h : ∀ v t, (0 ≤ C → min ≤ max → min ≤ v ∧ v ≤ max) → Q v t s) :
    Act.wp L (nonUniformRandom env A C min max) Q t s := by
  unfold nonUniformRandom
  simp only [Act.wp_bind, Act.wp_pure]
  refine wp_randomNumber (ok.imp_right fun hr => ⟨by omega, hr.1⟩) fun a _ _ _ =>
    wp_randomNumber (ok.imp_right fun hr => hr.2) fun b _ _ _ => h _ _ fun hC hle => ?_
  rw [Int.tmod_eq_emod_of_nonneg (by omega)]
  have := Int.emod_nonneg ((a.toNat ||| b.toNat : Nat) + C) (b := max - min + 1) (by omega)
  have := Int.emod_lt_of_pos ((a.toNat ||| b.toNat : Nat) + C) (b := max - min + 1) (by omega)
  omega

theorem wp_getItemId {n : Int} {Q : Int → Thread ρ → S → Prop}
    (ok : L.mayStick ∨ 1 ≤ n) (h : ∀ v t, 1 ≤ v → v ≤ n → Q v t s) :
    Act.wp L (getItemId env n) Q t s := by
  unfold getItemId
  rw [Act.wp_bind]
  refine wp_nonUniformRandom (ok.imp_right fun hn => by omega) fun v _ hv =>
    wp_checkBetweenInclusive (ok.imp_right fun hn => hv (by omega) hn) (h _ _)

theorem wp_getCustomerId {n : Int} {Q : Int → Thread ρ → S → Prop}
    (ok : L.mayStick ∨ 1 ≤ n) (h : ∀ v t, 1 ≤ v → v ≤ n → Q v t s) :
    Act.wp L (getCustomerId env n) Q t s := by
  unfold getCustomerId
  rw [Act.wp_bind]
  refine wp_nonUniformRandom (ok.imp_right fun hn => by omega) fun v _ hv =>
    wp_checkBetweenInclusive (ok.imp_right fun hn => hv (by omega) hn) (h _ _)

theorem wp_pickWarehouseId {start stop : Nat} {Q : Int → Thread ρ → S → Prop}
    (ok : L.mayStick ∨ start < stop)
    (h : ∀ (v : Int) t, start ≤ v → v < stop → Q v t s) :
    Act.wp L (pickWarehouseId env start stop) Q t s := by
  unfold pickWarehouseId
  rw [Act.wp_bind]
  refine Act.wp_assert (fun hlt => ?_) ok
  split
  · exact h _ _ (by omega) (by omega)
  · rw [Act.wp_bind]
    refine wp_nextLong fun x _ => h _ _ (by omega) ?_
    have := Nat.mod_lt x (show 0 < stop - start by omega)
    omega

theorem wp_getNonUniformCustomerLastNameLoad {Q : List UInt8 → Thread ρ → S → Prop}
    (h : ∀ num t, num < 1000 → Q (getCustomerLastName num) t s) :
    Act.wp L (getNonUniformCustomerLastNameLoad env) Q t s := by
  unfold getNonUniformCustomerLastNameLoad
  rw [Act.wp_bind]
  refine wp_nonUniformRandom (.inr (by omega)) fun v _ hv => h _ _ ?_
  have := hv (by omega) (by omega)
  omega

/-- A string that has been drawn has the length asked for, and only letters and digits. -/
theorem wp_randomStr {len : Nat} {Q : List UInt8 → Thread ρ → S → Prop}
    (ok : L.mayStick ∨ env.Accepting ∧ len ≤ 3000)
    (h : ∀ bs t, bs.length = len → (∀ b ∈ bs, isAlnum b) → Q bs t s) :
    Act.wp L (randomStr env len) Q t s := by
  unfold randomStr
  refine Act.wp_loop (fun n buf _ s' => s' = s ∧ buf.length ≤ len ∧ (∀ b ∈ buf, isAlnum b) ∧
    (env.Accepting → buf.length = n)) (ok.imp_right fun hr buf _ _ hI => ?_) ?_
    ⟨rfl, by simp, by simp, by simp⟩
  · have := hr.1.attempts
    have := hI.2.2.2 hr.1
    omega
  rintro n buf t _ ⟨rfl, short, alnum, count⟩
  split
  · simp only [Act.wp_bind, nextChar, next, Act.wp_own, Act.wp_pure]
    split
    · rename_i hc
      refine ⟨rfl, by simp; omega, fun b hb => ?_, fun accepting => by simp [count accepting]⟩
      rcases List.mem_append.mp hb with hb | hb
      · exact alnum b hb
      · rw [List.mem_singleton.mp hb]; exact hc
    · rename_i hc
      exact ⟨rfl, short, alnum, fun accepting => absurd (accepting.letter t.rng) hc⟩
  · exact h buf t (by omega) alnum

theorem wp_randomNStr {len : Nat} {Q : List UInt8 → Thread ρ → S → Prop}
    (h : ∀ bs t, bs.length = len → Q bs t s) : Act.wp L (randomNStr env len) Q t s := by
  unfold randomNStr
  refine Act.wp_mono (Act.wp_forRange (fun i buf _ s' => s' = s ∧ buf.length = i) ?_ ⟨rfl, rfl⟩)
    fun bs t s' hs => ?_
  · rintro i buf t _ - - ⟨rfl, rfl⟩
    rw [Act.wp_bind]
    exact wp_nextLong fun x _ => ⟨rfl, by simp⟩
  · obtain ⟨rfl, length⟩ := hs
    exact h bs t (by omega)

end Rules

section Counting

variable {K V S : Type} {L : Logic K V S} {t : Thread Nat} {s : S}

theorem wp_counting_nextUniform {Q : Nat → Thread Nat → S → Prop} (h : Q 0 t s) :
    Act.wp L (nextUniform Env.counting) Q t s := by
  simp only [nextUniform, next, Act.wp_bind, Act.wp_own, Act.wp_pure, Env.counting, countingBits,
    Nat.reduceEqDiff, if_false, Nat.zero_shiftLeft]
  exact h

/-- A number that `Env.counting` draws in a range is the least one. -/
theorem wp_counting_randomNumber {min max : Int} {Q : Int → Thread Nat → S → Prop}
    (range : 0 ≤ min ∧ min ≤ max) (h : Q min t s) :
    Act.wp L (randomNumber Env.counting min max) Q t s := by
  have least : (((0 : Nat) : Int) * (max - min + 1) + min * 2 ^ 53).tdiv (2 ^ 53) = min := by
    rw [Int.tdiv_eq_ediv_of_nonneg (by omega)]
    omega
  unfold randomNumber
  rw [Act.wp_bind]
  apply wp_counting_nextUniform
  rw [least]
  exact wp_checkBetweenInclusive (.inr ⟨le_rfl, range.2⟩) fun _ _ => h

end Counting

end Tpcc
