import Mathlib.Algebra.Order.Monoid.Defs
import Mathlib.Algebra.Order.Ring.Nat
import Mathlib.Data.List.Lex
import Mathlib.Tactic.Linarith

/-! Lexicographic order and positional numbers.  Lists of digits of one length are ordered as the
numbers that they spell, the most significant digit first; a number that is cut in two is ordered as
the pair of its parts; and lists without the digit zero are ordered as they are when they are filled
up with zeros, a proper prefix being smaller. -/

namespace Lexicographic

section Append

variable {α : Type} [LT α] {xs ys xs' ys' : List α}

/-- Lists that are cut in two at one place. -/
theorem append_lt_append_iff (irrefl : ∀ a : α, ¬a < a) (length : xs.length = ys.length) :
    xs ++ xs' < ys ++ ys' ↔ xs < ys ∨ xs = ys ∧ xs' < ys' := by
  induction xs generalizing ys with
  | nil =>
    obtain rfl := List.length_eq_zero_iff.mp length.symm
    simp
  | cons x xs ih =>
    cases ys with
    | nil => simp at length
    | cons y ys =>
      rw [List.cons_append, List.cons_append, List.cons_lt_cons_iff, List.cons_lt_cons_iff,
        ih (by simpa using length), List.cons.injEq]
      have := irrefl x
      tauto

end Append

/-- Digits in base `b`: their values are below `b`, and ordered as the digits are. -/
structure Digits (α : Type) [LT α] (b : ℕ) where
  val : α → ℕ
  val_lt : ∀ a, val a < b
  lt_iff : ∀ x y, x < y ↔ val x < val y
  injective : Function.Injective val

namespace Digits

variable {α : Type} [LT α] {b : ℕ} (D : Digits α b)

/-- The number that digits spell, the most significant one first. -/
def number : List α → ℕ
  | [] => 0
  | a :: as => D.val a * b ^ as.length + number as

theorem number_lt (as : List α) : D.number as < b ^ as.length := by
  induction as with
  | nil => simp [number]
  | cons a as ih =>
    have digit := Nat.mul_le_mul_right (b ^ as.length) (Nat.succ_le_of_lt (D.val_lt a))
    rw [number, List.length_cons, pow_succ']
    rw [Nat.succ_mul] at digit
    omega

include D in
theorem irrefl (a : α) : ¬a < a := fun h => lt_irrefl _ ((D.lt_iff a a).mp h)

variable {xs ys : List α}

/-- Numbers of one length are compared from the most significant digit on. -/
theorem number_lt_iff (length : xs.length = ys.length) : D.number xs < D.number ys ↔ xs < ys := by
  induction xs generalizing ys with
  | nil =>
    obtain rfl := List.length_eq_zero_iff.mp length.symm
    simp [number]
  | cons x xs ih =>
    cases ys with
    | nil => simp at length
    | cons y ys =>
      have length : xs.length = ys.length := by simpa using length
      have left := D.number_lt xs
      have right := D.number_lt ys
      rw [List.cons_lt_cons_iff, D.lt_iff, ← ih length, number, number, length]
      rw [length] at left
      rcases lt_trichotomy (D.val x) (D.val y) with smaller | same | greater
      · have := Nat.mul_le_mul_right (b ^ ys.length) (Nat.succ_le_of_lt smaller)
        rw [Nat.succ_mul] at this
        exact iff_of_true (by omega) (.inl smaller)
      · rw [same, Nat.add_lt_add_iff_left]
        simp [D.injective same]
      · have := Nat.mul_le_mul_right (b ^ ys.length) (Nat.succ_le_of_lt greater)
        rw [Nat.succ_mul] at this
        apply iff_of_false (by omega)
        rintro (smaller | ⟨rfl, -⟩)
        · omega
        · exact lt_irrefl _ greater

/-- Different lists of one length spell different numbers. -/
theorem number_inj (length : xs.length = ys.length) : D.number xs = D.number ys ↔ xs = ys := by
  refine ⟨fun same => ?_, fun same => by rw [same]⟩
  induction xs generalizing ys with
  | nil => exact (List.length_eq_zero_iff.mp length.symm).symm
  | cons x xs ih =>
    cases ys with
    | nil => simp at length
    | cons y ys =>
      have length : xs.length = ys.length := by simpa using length
      have left := D.number_lt xs
      have right := D.number_lt ys
      rw [number, number, length] at same
      rw [length] at left
      have positive : 0 < b ^ ys.length := by omega
      have digit : D.val x = D.val y := by
        have := congrArg (· / b ^ ys.length) same
        simpa [Nat.mul_comm _ (b ^ _), Nat.mul_add_div positive, Nat.div_eq_of_lt, left, right]
          using this
      rw [digit, Nat.add_left_cancel_iff] at same
      rw [D.injective digit, ih length same]

end Digits

/-! ### Filling up -/

/-- A list, filled up to `n` elements with `z`. -/
def pad {α : Type} (z : α) (n : ℕ) (s : List α) : List α := s ++ List.replicate (n - s.length) z

section Pad

variable {α : Type} {z : α} {s t : List α} {n : ℕ}

theorem length_pad (hs : s.length ≤ n) : (pad z n s).length = n := by
  rw [pad, List.length_append, List.length_replicate]
  omega

theorem pad_nil_succ : pad z (n + 1) [] = z :: pad z n [] := by simp [pad, List.replicate_succ]

theorem pad_cons_succ {a : α} : pad z (n + 1) (a :: s) = a :: pad z n s := by simp [pad]

theorem append_replicate_inj {a b : ℕ} (zs : z ∉ s) (zt : z ∉ t)
    (same : s ++ List.replicate a z = t ++ List.replicate b z) : s = t := by
  induction s generalizing t with
  | nil =>
    cases t with
    | nil => rfl
    | cons y t =>
      have mem : y ∈ List.replicate a z := by simp [show List.replicate a z = _ from same]
      exact absurd (List.eq_of_mem_replicate mem) fun same => zt (by simp [same])
  | cons x s ih =>
    cases t with
    | nil =>
      have mem : x ∈ List.replicate b z := by simp [show List.replicate b z = _ from same.symm]
      exact absurd (List.eq_of_mem_replicate mem) fun same => zs (by simp [same])
    | cons y t =>
      obtain ⟨rfl, rest⟩ := List.cons.inj same
      rw [ih (fun mem => zs (by simp [mem])) (fun mem => zt (by simp [mem])) rest]

/-- Lists without `z` are told apart when they are filled up with it. -/
theorem pad_inj (zs : z ∉ s) (zt : z ∉ t) : pad z n s = pad z n t ↔ s = t :=
  ⟨append_replicate_inj zs zt, fun same => by rw [same]⟩

variable [LT α]

/-- Lists without the least element are ordered as they are when they are filled up with it. -/
theorem pad_lt_pad_iff (least : ∀ a, a ≠ z → z < a ∧ ¬a < z) (irrefl : ¬z < z) (hs : s.length ≤ n)
    (ht : t.length ≤ n) (zs : z ∉ s) (zt : z ∉ t) : pad z n s < pad z n t ↔ s < t := by
  have self (n : ℕ) : ¬pad z n [] < pad z n [] := by
    induction n with
    | zero => simp [pad]
    | succ n ih =>
      rw [pad_nil_succ, List.cons_lt_cons_iff]
      tauto
  induction n generalizing s t with
  | zero =>
    obtain rfl := List.length_eq_zero_iff.mp (Nat.le_zero.mp hs)
    obtain rfl := List.length_eq_zero_iff.mp (Nat.le_zero.mp ht)
    simp [pad]
  | succ n ih =>
    cases s with
    | nil =>
      cases t with
      | nil => exact iff_of_false (self (n + 1)) (by simp)
      | cons y t =>
        have smaller := (least y fun same => zt (by simp [same])).1
        rw [pad_nil_succ, pad_cons_succ, List.cons_lt_cons_iff]
        exact iff_of_true (.inl smaller) (by simp)
    | cons x s =>
      have nonzero : x ≠ z := fun same => zs (by simp [same])
      cases t with
      | nil =>
        rw [pad_nil_succ, pad_cons_succ, List.cons_lt_cons_iff]
        have greater := (least x nonzero).2
        exact iff_of_false (by tauto) (by simp)
      | cons y t =>
        have rest := ih (by simpa using hs) (by simpa using ht) (fun mem => zs (by simp [mem]))
          fun mem => zt (by simp [mem])
        rw [pad_cons_succ, pad_cons_succ, List.cons_lt_cons_iff, List.cons_lt_cons_iff]
        exact or_congr Iff.rfl (and_congr Iff.rfl rest)

end Pad

end Lexicographic
