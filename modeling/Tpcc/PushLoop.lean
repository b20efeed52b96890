import Mathlib.Algebra.Order.Ring.Int
import Tpcc.ThreadPool

/-! `push_loop` of the thread pool: the blocks into which it splits the indices of a loop, in the
arithmetic of their integer type.  Where the difference of the ends is a value of that type, the
blocks are in order, none is empty, and together they are the indices of the loop, so that a loop
over them in a pool handles each index once. -/

namespace Tpcc.ThreadPool

open KvProgram Monitor

/-! ### Integer types -/

/-- An integer type of at most 64 bits. -/
structure IndexType where
  bits : Nat
  signed : Bool
  pos : 0 < bits
  le : bits ≤ 64

namespace IndexType

/-- `int`. -/
def int : IndexType := ⟨32, true, by decide, by decide⟩

/-- `size_t`. -/
def size : IndexType := ⟨64, false, by decide, by decide⟩

variable (T : IndexType)

/-- The least value of the type. -/
def lo : Int := if T.signed then -2 ^ (T.bits - 1) else 0

/-- The value after the greatest one of the type. -/
def stop : Int := if T.signed then 2 ^ (T.bits - 1) else 2 ^ T.bits

/-- A value of the type. -/
def Has (x : Int) : Prop := T.lo ≤ x ∧ x < T.stop

instance (x : Int) : Decidable (T.Has x) := inferInstanceAs (Decidable (_ ∧ _))

/-- `static_cast` to the type. -/
def convert (x : Int) : Int := if T.signed then x.bmod (2 ^ T.bits) else x % 2 ^ T.bits

/-- The type in which values of the type are added and subtracted. -/
def promote : IndexType := if T.bits < 32 then int else T

/-- What arithmetic in the type gives for an exact result: signed types must hold it, unsigned ones
wrap. -/
def compute (x : Int) : Option Int :=
  if T.signed then if T.Has x then some x else none else some (T.convert x)

variable {T} {x : Int}

theorem two_pow_bits : (2 : Int) ^ T.bits = 2 * 2 ^ (T.bits - 1) := by
  rw [← pow_succ', Nat.sub_add_cancel T.pos]

theorem convert_eq (h : T.Has x) : T.convert x = x := by
  obtain ⟨low, high⟩ := h
  have power := T.two_pow_bits
  unfold lo at low
  unfold stop at high
  unfold convert
  split
  · rename_i signed
    rw [if_pos signed] at low high
    exact Int.bmod_eq_of_le_mul_two (by push_cast; omega) (by push_cast; omega)
  · rename_i unsigned
    rw [if_neg unsigned] at low high
    exact Int.emod_eq_of_lt low high

theorem compute_eq (h : T.Has x) : T.compute x = some x := by
  unfold compute
  rw [if_pos h, convert_eq h, ite_self]

/-- Promotion keeps the values of a type. -/
theorem Has.promote (h : T.Has x) : T.promote.Has x := by
  unfold IndexType.promote
  split
  · rename_i narrow
    obtain ⟨low, high⟩ := h
    have power := T.two_pow_bits
    have few : (2 : Int) ^ (T.bits - 1) ≤ 2 ^ 30 :=
      pow_le_pow_right₀ (show (1 : Int) ≤ 2 by decide) (show T.bits - 1 ≤ 30 by omega)
    have range : int.lo = -2 ^ 31 ∧ int.stop = 2 ^ 31 := by decide
    unfold lo at low
    unfold stop at high
    unfold Has
    split at low
    · rename_i signed
      rw [if_pos signed] at high
      omega
    · rename_i unsigned
      rw [if_neg unsigned] at high
      omega
  · exact h

theorem lo_nonpos : T.lo ≤ 0 := by
  unfold lo
  split
  · have power : (0 : Int) ≤ 2 ^ (T.bits - 1) := pow_nonneg (show (0 : Int) ≤ 2 by decide) _
    omega
  · exact Int.le_refl 0

/-- A natural number of an index type is a `size_t`. -/
theorem size_convert {k : Nat} (h : T.Has k) : size.convert k = k := by
  apply convert_eq
  have most : (2 : Int) ^ T.bits ≤ 2 ^ 64 := pow_le_pow_right₀ (show (1 : Int) ≤ 2 by decide) T.le
  have power := T.two_pow_bits
  have high := h.2
  have range : size.lo = 0 ∧ size.stop = 2 ^ 64 := by decide
  unfold stop at high
  unfold Has
  split at high <;> omega

end IndexType

/-! ### The blocks -/

/-- `push_loop`: the arguments of the tasks that it pushes, which are the first index of a block and
the one after its last.  A division by zero, or a signed type that does not hold a result, gives
none. -/
def pushLoop (T : IndexType) (threadCount : Nat) (firstIndex indexAfterLast : Int)
    (numBlocks : Nat) :
    Option (List (Int × Int)) := do
  let firstIndex := T.convert firstIndex
  let indexAfterLast := T.convert indexAfterLast
  let numBlocks := if numBlocks = 0 then threadCount else numBlocks
  let (firstIndex, indexAfterLast) :=
    if indexAfterLast < firstIndex then (indexAfterLast, firstIndex) else
      (firstIndex, indexAfterLast)
  let difference ← T.promote.compute (indexAfterLast - firstIndex)
  let totalSize := (IndexType.size.convert difference).toNat
  let blockSize ← if numBlocks = 0 then none else some (totalSize / numBlocks)
  let (blockSize, numBlocks) :=
    if blockSize = 0 then (1, if totalSize > 1 then totalSize else 1) else (blockSize, numBlocks)
  if totalSize > 0 then
    (List.range numBlocks).mapM fun i => do
      let offset := T.convert (IndexType.size.convert (i * blockSize : Nat))
      let start ← T.promote.compute (offset + firstIndex)
      if i = numBlocks - 1 then return (start, indexAfterLast)
      let offset := T.convert (IndexType.size.convert ((i + 1) * blockSize : Nat))
      let stop ← T.promote.compute (offset + firstIndex)
      return (start, stop)
  else return []

example : pushLoop .int 3 5 (-5) 0 = some [(-5, -2), (-2, 1), (1, 5)] := by decide

/-- The difference of these indices is not an `int8_t`. -/
example : pushLoop ⟨8, true, by decide, by decide⟩ 1 (-100) 100 4 =
    some [(-100, -50), (-50, 0), (0, -206), (-206, 100)] := by decide

/-- The indices of `for (i = a; i < b; ++i)`. -/
def indices (a b : Int) : List Int := (List.range (b - a).toNat).map fun k => a + (k : Nat)

section Indices

variable {a b c : Int}

theorem indices_append (hab : a ≤ b) (hbc : b ≤ c) : indices a b ++ indices b c = indices a c := by
  obtain ⟨m, rfl⟩ := Int.le.dest hab
  obtain ⟨k, rfl⟩ := Int.le.dest hbc
  have first : (a + m - a).toNat = m := by omega
  have second : (a + m + k - (a + m)).toNat = k := by omega
  have both : (a + m + k - a).toNat = m + k := by omega
  rw [indices, indices, indices, first, second, both, List.range_add, List.map_append, List.map_map]
  congr 1
  apply List.map_congr_left
  intro x _
  simp only [Function.comp_apply]
  omega

theorem indices_self : indices a a = [] := by simp [indices]

/-- Blocks of one size. -/
theorem indices_blocks (first : Int) (size : Nat) (n : Nat) :
    ((List.range n).map fun i => (first + (i * size : Nat), first + ((i + 1) * size : Nat))).flatMap
      (fun b : Int × Int => indices b.1 b.2) = indices first (first + (n * size : Nat)) := by
  induction n with
  | zero => simp [indices]
  | succ n ih =>
    rw [List.range_succ, List.map_append, List.flatMap_append, ih, List.map_singleton,
      List.flatMap_singleton]
    apply indices_append
    · omega
    · have := Nat.mul_le_mul_right size (Nat.le_add_right n 1)
      omega

end Indices

/-- The blocks of a loop over `total` indices from `first` on, the last of them with the
remainder. -/
def blocks (first : Int) (total size n : Nat) : List (Int × Int) :=
  (List.range n).map fun i => (first + (i * size : Nat),
    if i = n - 1 then first + total else first + ((i + 1) * size : Nat))

theorem blocks_succ (first : Int) (total size n : Nat) : blocks first total size (n + 1) =
    ((List.range n).map fun i => (first + (i * size : Nat), first + ((i + 1) * size : Nat))) ++
      [(first + (n * size : Nat), first + total)] := by
  rw [blocks, List.range_succ, List.map_append, List.map_singleton]
  congr 1
  · apply List.map_congr_left
    intro i hi
    have := List.mem_range.mp hi
    rw [if_neg (by omega)]
  · simp

/-- The blocks are the indices of the loop, in order. -/
theorem blocks_indices {first : Int} {total size n : Nat} (pos : 0 < n) (fits : n * size ≤ total) :
    (blocks first total size n).flatMap (fun b => indices b.1 b.2) =
      indices first (first + total) := by
  obtain ⟨n, rfl⟩ := Nat.exists_eq_add_of_lt pos
  rw [Nat.zero_add] at fits ⊢
  have before := Nat.mul_le_mul_right size (Nat.le_add_right n 1)
  rw [blocks_succ, List.flatMap_append, indices_blocks, List.flatMap_singleton]
  apply indices_append
  · omega
  · omega

theorem mem_blocks {first : Int} {total size n : Nat} (fits : n * size ≤ total) {b : Int × Int}
    (mem : b ∈ blocks first total size n) :
    first ≤ b.1 ∧ b.1 + size ≤ b.2 ∧ b.2 ≤ first + total := by
  obtain ⟨i, hi, rfl⟩ := List.mem_map.mp mem
  have bound := List.mem_range.mp hi
  have most := Nat.mul_le_mul_right size (show i + 1 ≤ n from bound)
  have step : (i + 1) * size = i * size + size := Nat.succ_mul i size
  simp only
  split <;> omega

section PushLoop

variable {T : IndexType} {threadCount numBlocks : Nat} {first last : Int}

theorem mapM_some {α β : Type} {f : α → Option β} {g : α → β} {l : List α}
    (h : ∀ x ∈ l, f x = some (g x)) : l.mapM f = some (l.map g) := by
  induction l with
  | nil => rfl
  | cons x l ih =>
    rw [List.mapM_cons, h x (List.mem_cons_self ..), ih fun y mem =>
      h y (List.mem_cons_of_mem x mem)]
    rfl

/-- What `push_loop` needs: a thread, and indices whose difference is a value of their type. -/
structure LoopArgs (T : IndexType) (threadCount : Nat) (first last : Int) : Prop where
  threads : 0 < threadCount
  hasFirst : T.Has first
  hasLast : T.Has last
  hasSize : T.Has (max first last - min first last)

/-- The loop of `push_loop` over its blocks. -/
theorem mapM_blocks {a : Int} {total size n : Nat} (lo : T.lo ≤ a) (hi : a + total < T.stop)
    (most : (total : Int) < T.stop) (fits : n * size ≤ total) :
    List.mapM (fun i : Nat =>
      (T.promote.compute (T.convert (IndexType.size.convert ↑(i * size)) + a)).bind fun start =>
      if i = n - 1 then pure (start, a + total)
      else (T.promote.compute (T.convert (IndexType.size.convert ↑((i + 1) * size)) + a)).bind
        fun stop => pure (start, stop)) (List.range n) = some (blocks a total size n) := by
  apply mapM_some
  intro i hi
  have next := Nat.mul_le_mul_right size (show i + 1 ≤ n from List.mem_range.mp hi)
  have step : (i + 1) * size = i * size + size := Nat.succ_mul i size
  have zero := T.lo_nonpos
  have index {k : Nat} (bound : k ≤ total) :
      T.promote.compute (T.convert (IndexType.size.convert (k : Nat)) + a) =
        some (a + (k : Nat)) := by
    have offset : T.Has k := ⟨by omega, by omega⟩
    have value : T.Has (a + k) := ⟨by omega, by omega⟩
    rw [IndexType.size_convert offset, IndexType.convert_eq offset, Int.add_comm,
      IndexType.compute_eq value.promote]
  have start := index (k := i * size) (by omega)
  have stop := index (k := (i + 1) * size) (by omega)
  simp only [start, stop, Option.bind_some]
  split <;> rfl

/-- The blocks of `push_loop`, at most as many as it is asked for. -/
theorem pushLoop_eq (numBlocks : Nat) (args : LoopArgs T threadCount first last) :
    ∃ size n, 0 < size ∧ 0 < n ∧ n ≤ (if numBlocks = 0 then threadCount else numBlocks) ∧
      (first ≠ last → n * size ≤ (max first last - min first last).toNat) ∧
      pushLoop T threadCount first last numBlocks = some (if first = last then [] else
        blocks (min first last) (max first last - min first last).toNat size n) := by
  have swap : (if last < first then (last, first) else (first, last)) =
      (min first last, max first last) := by
    split
    · rw [min_eq_right (by omega), max_eq_left (by omega)]
    · rw [min_eq_left (by omega), max_eq_right (by omega)]
  obtain ⟨total, hTotal⟩ : ∃ total : Nat, max first last - min first last = total :=
    Int.eq_ofNat_of_zero_le (by omega)
  obtain ⟨asked, hAsked⟩ : ∃ asked, (if numBlocks = 0 then threadCount else numBlocks) = asked :=
    ⟨_, rfl⟩
  have size : T.Has total := hTotal ▸ args.hasSize
  have asked_pos : 0 < asked := by
    have := args.threads
    rw [← hAsked]
    split <;> omega
  have different : first ≠ last ↔ 0 < total := by omega
  have stop : max first last = min first last + total := by omega
  have low := args.hasFirst.1
  have low' := args.hasLast.1
  have high := args.hasFirst.2
  have high' := args.hasLast.2
  unfold pushLoop
  simp only [IndexType.convert_eq args.hasFirst, IndexType.convert_eq args.hasLast, swap,
    hAsked, hTotal,
    IndexType.compute_eq size.promote, IndexType.size_convert size, Int.toNat_natCast,
    if_neg asked_pos.ne', Option.bind_eq_bind, Option.bind_some]
  have finish {k m : Nat} (k_pos : 0 < k) (m_pos : 0 < m) (m_le : m ≤ asked)
      (inside : 0 < total → m * k ≤ total) : ∃ size n, 0 < size ∧ 0 < n ∧ n ≤ asked ∧
        (first ≠ last → n * size ≤ total) ∧ (if total > 0 then List.mapM (fun i : Nat =>
          (T.promote.compute
            (T.convert (IndexType.size.convert ↑(i * k)) + min first last)).bind fun a =>
            if i = m - 1 then pure (a, max first last)
            else (T.promote.compute
              (T.convert (IndexType.size.convert ↑((i + 1) * k)) + min first last)).bind
                fun stop => pure (a, stop)) (List.range m) else pure []) =
          some (if first = last then [] else blocks (min first last) total size n) := by
    refine ⟨k, m, k_pos, m_pos, m_le, fun h => inside (different.mp h), ?_⟩
    by_cases none : first = last
    · rw [if_neg (by omega), if_pos none]
      rfl
    · have pos := different.mp none
      rw [if_pos pos, if_neg none, stop]
      exact mapM_blocks (by omega) (by omega) size.2 (inside pos)
  by_cases small : total / asked = 0
  · simp only [if_pos small]
    have less := (Nat.div_eq_zero_iff.mp small).resolve_left (by omega)
    apply finish Nat.one_pos
    · split <;> omega
    · split <;> omega
    · intro pos
      split <;> omega
  · simp only [if_neg small]
    exact finish (Nat.pos_of_ne_zero small) asked_pos le_rfl fun _ => Nat.mul_div_le total asked

/-- The blocks of `push_loop` are the indices of its loop, in order. -/
theorem pushLoop_indices (args : LoopArgs T threadCount first last) {bs : List (Int × Int)}
    (pushes : pushLoop T threadCount first last numBlocks = some bs) :
    bs.flatMap (fun b => indices b.1 b.2) = indices (min first last) (max first last) := by
  obtain ⟨size, n, -, pos, -, fits, blocks⟩ := pushLoop_eq numBlocks args
  rw [blocks] at pushes
  cases pushes
  split
  · rw [‹first = last›, min_self, max_self, indices_self, List.flatMap_nil]
  · rw [blocks_indices pos (fits ‹_›)]
    congr 1
    omega

/-- `push_loop` splits the indices of its loop into blocks, in order: none of them is empty, and
there are no more than it is asked for, or than the pool has threads. -/
theorem pushLoop_splits (args : LoopArgs T threadCount first last) :
    ∃ bs, pushLoop T threadCount first last numBlocks = some bs ∧
      bs.flatMap (fun b => indices b.1 b.2) = indices (min first last) (max first last) ∧
      (∀ b ∈ bs, min first last ≤ b.1 ∧ b.1 < b.2 ∧ b.2 ≤ max first last) ∧
      bs.length ≤ if numBlocks = 0 then threadCount else numBlocks := by
  obtain ⟨size, n, size_pos, pos, most, fits, pushes⟩ := pushLoop_eq numBlocks args
  refine ⟨_, pushes, pushLoop_indices args pushes, ?_, ?_⟩
  · intro b mem
    by_cases same : first = last
    · simp [same] at mem
    · rw [if_neg same] at mem
      have inside := mem_blocks (fits same) mem
      omega
  · split
    · simp
    · simpa [blocks] using most

/-- The loop of the example above. -/
theorem pushLoop_splits_five : ∃ bs, pushLoop .int 3 5 (-5) 0 = some bs ∧
    bs.flatMap (fun b => indices b.1 b.2) = indices (min 5 (-5)) (max 5 (-5)) ∧
      (∀ b ∈ bs, min 5 (-5) ≤ b.1 ∧ b.1 < b.2 ∧ b.2 ≤ max 5 (-5)) ∧
      bs.length ≤ if 0 = 0 then 3 else 0 :=
  pushLoop_splits (by constructor <;> decide)

end PushLoop

end Tpcc.ThreadPool
