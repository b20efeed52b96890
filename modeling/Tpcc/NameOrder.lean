import Mathlib.Data.Prod.Lex
import Tpcc.Lib.Lexicographic
import Tpcc.Load

/-! The words of a name in a customer index key.  `ConvertString` writes each half of a name
backwards, so that a little-endian read of it has the first character in its most significant byte:
the words are ordered as the names are. -/

namespace Tpcc

open KvProgram Layout Lexicographic

/-- The bytes as digits. -/
def byteDigits : Digits UInt8 256 where
  val := UInt8.toNat
  val_lt := UInt8.toNat_lt
  lt_iff _ _ := UInt8.lt_iff_toNat_lt
  injective _ _ := UInt8.toNat_inj.mp

theorem ofLeBytes_append (xs ys : List UInt8) :
    ofLeBytes (xs ++ ys) = ofLeBytes xs + 256 ^ xs.length * ofLeBytes ys := by
  induction xs with
  | nil => simp [ofLeBytes]
  | cons x xs ih =>
    rw [List.cons_append, ofLeBytes, ofLeBytes, ih, List.length_cons, pow_succ']
    ring

/-- Bytes that are read backwards are read with the most significant one first. -/
theorem ofLeBytes_reverse (xs : List UInt8) : ofLeBytes xs.reverse = byteDigits.number xs := by
  induction xs with
  | nil => rfl
  | cons x xs ih =>
    rw [List.reverse_cons, ofLeBytes_append, ih, List.length_reverse, Digits.number]
    simp only [ofLeBytes, byteDigits]
    ring

/-- A little-endian word of bytes that have been written backwards. -/
theorem toNat_word {xs : List UInt8} (length : xs.length = 8) :
    (UInt64.ofNat (ofLeBytes xs.reverse)).toNat = byteDigits.number xs := by
  have bound := byteDigits.number_lt xs
  rw [length] at bound
  rw [ofLeBytes_reverse, UInt64.toNat_ofNat_of_lt']
  exact bound

/-- The characters of a name, with zeros where it has ended. -/
theorem pad_eq_map {name : List UInt8} (short : name.length ≤ 16) :
    pad 0 16 name = (List.range 16).map (name.getD · 0) := by
  refine List.ext_getElem ?_ fun i hi hi' => ?_
  · rw [length_pad short, List.length_map, List.length_range]
  · rw [List.getElem_map, List.getElem_range]
    by_cases inside : i < name.length
    · rw [List.getD_eq_getElem _ _ inside]
      exact List.getElem_append_left inside
    · rw [List.getD_eq_default _ _ (not_lt.mp inside)]
      simp only [pad]
      rw [List.getElem_append_right (not_lt.mp inside), List.getElem_replicate]

section Halves

variable {name : List UInt8} (short : name.length ≤ 16)
include short

theorem length_take_pad : ((pad 0 16 name).take 8).length = 8 := by
  rw [List.length_take, length_pad short]
  rfl

theorem length_drop_pad : ((pad 0 16 name).drop 8).length = 8 := by
  rw [List.length_drop, length_pad short]

theorem take_convertString : (convertString name).take 8 = ((pad 0 16 name).take 8).reverse := by
  rw [pad_eq_map short]
  rfl

theorem drop_convertString : (convertString name).drop 8 = ((pad 0 16 name).drop 8).reverse := by
  rw [pad_eq_map short]
  rfl

theorem indexWords_fst :
    (indexWords name).1.toNat = byteDigits.number ((pad 0 16 name).take 8) := by
  rw [indexWords, take_convertString short, toNat_word (length_take_pad short)]

theorem indexWords_snd :
    (indexWords name).2.toNat = byteDigits.number ((pad 0 16 name).drop 8) := by
  rw [indexWords, drop_convertString short, toNat_word (length_drop_pad short)]

end Halves

variable {s t : List UInt8}

theorem indexWords_lt_iff (hs : s.length ≤ 16) (ht : t.length ≤ 16) (ends : 0 ∉ s) (ends' : 0 ∉ t) :
    toLex (indexWords s) < toLex (indexWords t) ↔ s < t := by
  have least (a : UInt8) (nonzero : a ≠ 0) : 0 < a ∧ ¬a < 0 :=
    ⟨UInt8.pos_iff_ne_zero.mpr nonzero, UInt8.not_lt_zero⟩
  have upper := (length_take_pad hs).trans (length_take_pad ht).symm
  have lower := (length_drop_pad hs).trans (length_drop_pad ht).symm
  calc
    toLex (indexWords s) < toLex (indexWords t) ↔
        (pad 0 16 s).take 8 < (pad 0 16 t).take 8 ∨
          (pad 0 16 s).take 8 = (pad 0 16 t).take 8 ∧
            (pad 0 16 s).drop 8 < (pad 0 16 t).drop 8 := by
      rw [Prod.Lex.toLex_lt_toLex, UInt64.lt_iff_toNat_lt, UInt64.lt_iff_toNat_lt,
        ← UInt64.toNat_inj,
        indexWords_fst hs, indexWords_fst ht, indexWords_snd hs, indexWords_snd ht,
        byteDigits.number_lt_iff upper, byteDigits.number_inj upper, byteDigits.number_lt_iff lower]
    _ ↔ pad 0 16 s < pad 0 16 t := by
      rw [← append_lt_append_iff byteDigits.irrefl upper, List.take_append_drop,
        List.take_append_drop]
    _ ↔ s < t := pad_lt_pad_iff least (byteDigits.irrefl 0) hs ht ends ends'

theorem indexWords_inj (hs : s.length ≤ 16) (ht : t.length ≤ 16) (ends : 0 ∉ s) (ends' : 0 ∉ t) :
    indexWords s = indexWords t ↔ s = t := by
  refine ⟨fun same => ?_, fun same => by rw [same]⟩
  have upper := (length_take_pad hs).trans (length_take_pad ht).symm
  have lower := (length_drop_pad hs).trans (length_drop_pad ht).symm
  have first := indexWords_fst hs
  have second := indexWords_snd hs
  rw [same, indexWords_fst ht, eq_comm, byteDigits.number_inj upper] at first
  rw [same, indexWords_snd ht, eq_comm, byteDigits.number_inj lower] at second
  apply (pad_inj (n := 16) ends ends').mp
  rw [← List.take_append_drop 8 (pad 0 16 s), first, second, List.take_append_drop]

/-- The words of names without NUL of at most 16 characters are smaller than, equal to or larger
than one another as the names are. -/
theorem convertString_order (hs : s.length ≤ 16) (ht : t.length ≤ 16) (ends : 0 ∉ s)
    (ends' : 0 ∉ t) :
    (toLex (indexWords s) < toLex (indexWords t) ↔ s < t) ∧
    (indexWords s = indexWords t ↔ s = t) ∧
    (toLex (indexWords t) < toLex (indexWords s) ↔ t < s) :=
  ⟨indexWords_lt_iff hs ht ends ends', indexWords_inj hs ht ends ends',
    indexWords_lt_iff ht hs ends' ends⟩

/-- BAROUGHT is a proper prefix of BAROUGHTABLE, which goes on in the second word. -/
theorem convertString_order_bar :
    let s := "BAROUGHT".toUTF8.data.toList
    let t := "BAROUGHTABLE".toUTF8.data.toList
    (toLex (indexWords s) < toLex (indexWords t) ↔ s < t) ∧
    (indexWords s = indexWords t ↔ s = t) ∧
    (toLex (indexWords t) < toLex (indexWords s) ↔ t < s) :=
  convertString_order (by decide) (by decide) (by decide) (by decide)

end Tpcc
