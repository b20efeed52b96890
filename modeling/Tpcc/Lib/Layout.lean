import Mathlib.Data.Nat.Digits.Defs
import Mathlib.Tactic.Ring

/-! Binary layouts of records.  A record is stored as a list of cells, one for each byte of its
memory image.  A `Codec` writes a value as a fixed number of cells and reads it back, also when
more cells follow, so that the layout of a structure is the sequence of the layouts of its fields.
The bytes of a floating-point number are not computed: its four cells carry the number itself, and
`FloatRep` gives the bits that another type's layout would read from them. -/

namespace Layout

/-- The bits of a 32-bit floating-point number, and the number with given bits. -/
class FloatRep (F : Type) where
  bits : F → UInt32
  ofBits : UInt32 → F

/-- A byte of memory: a plain byte, or byte `i` of the four bytes of the number `x`. -/
inductive Cell (F : Type) where
  | byte (b : UInt8)
  | part (x : F) (i : Fin 4)
  deriving DecidableEq

/-- A layout of `size` cells for the values of `α`. -/
structure Codec (β α : Type) where
  size : Nat
  encode : α → List β
  decode : List β → α
  length_encode : ∀ a, (encode a).length = size
  decode_encode : ∀ a rest, decode (encode a ++ rest) = a

namespace Codec

variable {β α γ : Type}

attribute [simp] length_encode decode_encode

@[simp] theorem decode_encode_self (c : Codec β α) (a : α) : c.decode (c.encode a) = a := by
  simpa using c.decode_encode a []

theorem encode_injective (c : Codec β α) : Function.Injective c.encode := fun a b h => by
  rw [← c.decode_encode_self a, h, decode_encode_self]

/-- One layout after another. -/
def seq (c : Codec β α) (d : Codec β γ) : Codec β (α × γ) where
  size := c.size + d.size
  encode x := c.encode x.1 ++ d.encode x.2
  decode l := (c.decode l, d.decode (l.drop c.size))
  length_encode x := by simp
  decode_encode x rest := by simp [List.append_assoc]

/-- The layout of a structure, from that of the tuple of its fields. -/
def iso (c : Codec β α) (make : α → γ) (fields : γ → α) (h : ∀ x, make (fields x) = x) :
    Codec β γ where
  size := c.size
  encode x := c.encode (fields x)
  decode l := make (c.decode l)
  length_encode x := by simp
  decode_encode x rest := by simp [h]

@[simp] theorem size_seq (c : Codec β α) (d : Codec β γ) : (c.seq d).size = c.size + d.size := rfl

@[simp] theorem size_iso (c : Codec β α) (make : α → γ) (fields : γ → α)
    (h : ∀ x, make (fields x) = x) : (c.iso make fields h).size = c.size := rfl

end Codec

/-! ### Little-endian words -/

/-- The `n` low bytes of `v`, lowest first. -/
def leBytes : Nat → Nat → List UInt8
  | 0, _ => []
  | n + 1, v => UInt8.ofNat v :: leBytes n (v / 256)

/-- The number that the bytes spell, lowest byte first. -/
def ofLeBytes : List UInt8 → Nat
  | [] => 0
  | b :: bs => b.toNat + 256 * ofLeBytes bs

@[simp] theorem length_leBytes (n v : Nat) : (leBytes n v).length = n := by
  induction n generalizing v with
  | zero => rfl
  | succ n ih => simp [leBytes, ih]

theorem ofLeBytes_leBytes (n v : Nat) : ofLeBytes (leBytes n v) = v % 256 ^ n := by
  induction n generalizing v with
  | zero => simp [leBytes, ofLeBytes, Nat.mod_one]
  | succ n ih =>
    have byte : (UInt8.ofNat v).toNat = v % 256 := by simp
    rw [leBytes, ofLeBytes, ih, byte, Nat.pow_succ, Nat.mul_comm (256 ^ n) 256, Nat.mod_mul]

section Cells

variable {F : Type} [FloatRep F]

/-- The byte that a layout of integers or characters reads from a cell. -/
def Cell.toByte : Cell F → UInt8
  | .byte b => b
  | .part x i => (FloatRep.bits x >>> (8 * i.val).toUInt32).toUInt8

@[simp] theorem map_toByte_map_byte (bs : List UInt8) :
    (bs.map (Cell.byte (F := F))).map Cell.toByte = bs := by
  simp [Function.comp_def, Cell.toByte]

/-- The layout of a word of `n` bytes, as the number it holds. -/
def leWord (n : Nat) (make : Nat → α) (value : α → Nat) (h : ∀ x, make (value x % 256 ^ n) = x) :
    Codec (Cell F) α where
  size := n
  encode x := (leBytes n (value x)).map .byte
  decode l := make (ofLeBytes ((l.take n).map Cell.toByte))
  length_encode x := by simp
  decode_encode x rest := by
    have taken : ((leBytes n (value x)).map (Cell.byte (F := F)) ++ rest).take n =
        (leBytes n (value x)).map .byte := by simp
    rw [taken, map_toByte_map_byte, ofLeBytes_leBytes, h]

/-- `uint32_t`. -/
def uint32 : Codec (Cell F) UInt32 :=
  leWord 4 UInt32.ofNat UInt32.toNat fun x => by
    rw [Nat.mod_eq_of_lt (by simpa using x.toNat_lt), UInt32.ofNat_toNat]

/-- `int32_t`. -/
def int32 : Codec (Cell F) Int32 :=
  uint32.iso UInt32.toInt32 Int32.toUInt32 fun x => by simp

/-- `uint64_t`. -/
def uint64 : Codec (Cell F) UInt64 :=
  leWord 8 UInt64.ofNat UInt64.toNat fun x => by
    rw [Nat.mod_eq_of_lt (by simpa using x.toNat_lt), UInt64.ofNat_toNat]

/-- `int64_t`. -/
def int64 : Codec (Cell F) Int64 :=
  uint64.iso UInt64.toInt64 Int64.toUInt64 fun x => by simp

/-- `float`.  Four cells that are not the parts of one number are read as the number with their
bits. -/
def float [DecidableEq F] : Codec (Cell F) F where
  size := 4
  encode x := [.part x 0, .part x 1, .part x 2, .part x 3]
  decode
    | .part x i :: rest =>
      if (.part x i :: rest).take 4 = [.part x 0, .part x 1, .part x 2, .part x 3] then x
      else FloatRep.ofBits (UInt32.ofNat (ofLeBytes (((.part x i :: rest).take 4).map Cell.toByte)))
    | l => FloatRep.ofBits (UInt32.ofNat (ofLeBytes ((l.take 4).map Cell.toByte)))
  length_encode _ := rfl
  decode_encode x rest := by simp

@[simp] theorem size_uint32 : (uint32 (F := F)).size = 4 := rfl
@[simp] theorem size_int32 : (int32 (F := F)).size = 4 := rfl
@[simp] theorem size_uint64 : (uint64 (F := F)).size = 8 := rfl
@[simp] theorem size_int64 : (int64 (F := F)).size = 8 := rfl
@[simp] theorem size_float [DecidableEq F] : (float (F := F)).size = 4 := rfl

end Cells

/-! ### Character arrays -/

/-- A `char[n]`. -/
structure CharArray (n : Nat) where
  bytes : List UInt8
  length_eq : bytes.length = n
  deriving DecidableEq

namespace CharArray

variable {n : Nat}

/-- The first `n` of the bytes, with zeros for those that are missing. -/
def ofBytes (n : Nat) (bs : List UInt8) : CharArray n :=
  ⟨bs.take n ++ List.replicate (n - bs.length) 0, by
    simp only [List.length_append, List.length_take, List.length_replicate]; omega⟩

theorem ofBytes_bytes (a : CharArray n) : ofBytes n a.bytes = a := by
  obtain ⟨bs, h⟩ := a
  simp [ofBytes, List.take_of_length_le h.le, h]

/-- The characters before the first NUL of a string: the string that a C function sees. -/
def cStr (bs : List UInt8) : List UInt8 := bs.takeWhile (· ≠ 0)

/-- `strcpy` of `src`: its characters, then a NUL, over the start of the array.  `none` when they
do not fit. -/
def strcpy (a : CharArray n) (src : List UInt8) : Option (CharArray n) :=
  if h : (cStr src).length + 1 ≤ n then
    some ⟨cStr src ++ 0 :: a.bytes.drop ((cStr src).length + 1), by
      have := a.length_eq
      simp only [List.length_append, List.length_cons, List.length_drop]; omega⟩
  else none

/-- The bytes of `src` over those of the array from `start` on: `memcpy`, and `memmove` of bytes
that have been read before.  `none` when they do not fit. -/
def blit (a : CharArray n) (start : Nat) (src : List UInt8) : Option (CharArray n) :=
  if h : start + src.length ≤ n then
    some ⟨a.bytes.take start ++ src ++ a.bytes.drop (start + src.length), by
      have := a.length_eq
      simp only [List.length_append, List.length_take, List.length_drop]; omega⟩
  else none

theorem cStr_length_le (bs : List UInt8) : (cStr bs).length ≤ bs.length :=
  (List.takeWhile_sublist _).length_le

theorem cStr_eq_self {bs : List UInt8} (h : 0 ∉ bs) : cStr bs = bs := by
  induction bs with
  | nil => rfl
  | cons b bs ih =>
    have nonzero : b ≠ 0 := fun hb => h (by simp [hb])
    have rest : cStr bs = bs := ih fun hb => h (by simp [hb])
    rw [show cStr (b :: bs) = b :: cStr bs by simp [cStr, nonzero], rest]

theorem strcpy_isSome {a : CharArray n} {src : List UInt8} (h : src.length < n) :
    (a.strcpy src).isSome := by
  have := cStr_length_le src
  simp [strcpy, show (cStr src).length + 1 ≤ n by omega]

theorem strcpy_bytes {a b : CharArray n} {src : List UInt8} (h : a.strcpy src = some b) :
    b.bytes = cStr src ++ 0 :: a.bytes.drop ((cStr src).length + 1) := by
  unfold strcpy at h
  split at h
  · rw [← Option.some.inj h]
  · exact absurd h (by simp)

theorem zero_notMem_cStr (bs : List UInt8) : 0 ∉ cStr bs := fun h => by
  simpa using List.all_eq_true.mp List.all_takeWhile 0 h

theorem cStr_append_zero {bs rest : List UInt8} (h : 0 ∉ bs) : cStr (bs ++ 0 :: rest) = bs := by
  rw [cStr, List.takeWhile_append_of_pos, List.takeWhile_cons_of_neg (by simp), List.append_nil]
  intro b hb
  have : b ≠ 0 := fun same => h (same ▸ hb)
  simpa using this

theorem cStr_isPrefixOf (bs : List UInt8) : cStr bs <+: bs := List.takeWhile_prefix _

/-- A string that is ended has room for its NUL. -/
theorem cStr_length_lt {bs : List UInt8} (h : 0 ∈ bs) : (cStr bs).length < bs.length := by
  refine lt_of_le_of_ne (cStr_length_le bs) fun same => zero_notMem_cStr bs ?_
  rwa [(cStr_isPrefixOf bs).eq_of_length same]

/-- Bytes that fit are copied. -/
theorem blit_of_le (a : CharArray n) (start : Nat) (src : List UInt8) (h : start + src.length ≤ n) :
    ∃ b, a.blit start src = some b ∧
      b.bytes = a.bytes.take start ++ src ++ a.bytes.drop (start + src.length) :=
  ⟨_, dif_pos h, rfl⟩

/-- What has been copied into an array is there. -/
theorem mem_blit {a b : CharArray n} {start : Nat} {src : List UInt8} {x : UInt8}
    (h : a.blit start src = some b) (mem : x ∈ src) : x ∈ b.bytes := by
  unfold blit at h
  split at h
  · rw [← Option.some.inj h]
    simp [mem]
  · contradiction

/-- A copied string is what a C function sees in the array. -/
theorem cStr_strcpy {a b : CharArray n} {src : List UInt8} (h : a.strcpy src = some b) :
    cStr b.bytes = cStr src := by
  rw [strcpy_bytes h, cStr_append_zero (zero_notMem_cStr src)]

/-- The array holds a string of at most `most` characters. -/
def IsStr (a : CharArray n) (most : Nat) : Prop := 0 ∈ a.bytes ∧ (cStr a.bytes).length ≤ most

theorem strcpy_isStr {a b : CharArray n} {src : List UInt8} {most : Nat}
    (h : a.strcpy src = some b) (short : src.length ≤ most) : b.IsStr most := by
  constructor
  · rw [strcpy_bytes h]
    exact List.mem_append_right _ (List.mem_cons_self ..)
  · rw [cStr_strcpy h]
    exact (cStr_length_le src).trans short

/-- A string that is followed by other bytes. -/
theorem cStr_append {bs rest : List UInt8} (h : 0 ∈ bs) : cStr (bs ++ rest) = cStr bs := by
  induction bs with
  | nil => exact absurd h (List.not_mem_nil)
  | cons b bs ih =>
    by_cases zero : b = 0
    · simp [cStr, zero]
    · have later : 0 ∈ bs := (List.mem_cons.mp h).resolve_left fun same => zero same.symm
      have := ih later
      simp only [cStr] at this ⊢
      rw [List.cons_append, List.takeWhile_cons_of_pos (by simpa using zero),
        List.takeWhile_cons_of_pos (by simpa using zero), this]

theorem IsStr.append {a : CharArray n} {most : Nat} (h : a.IsStr most) (rest : List UInt8) :
    0 ∈ a.bytes ++ rest ∧ (cStr (a.bytes ++ rest)).length ≤ most := by
  rw [cStr_append h.1]
  exact ⟨List.mem_append_left rest h.1, h.2⟩

end CharArray

/-- `char[n]`. -/
def chars {F : Type} [FloatRep F] (n : Nat) : Codec (Cell F) (CharArray n) where
  size := n
  encode a := a.bytes.map .byte
  decode l := .ofBytes n ((l.take n).map Cell.toByte)
  length_encode a := by simp [a.length_eq]
  decode_encode a rest := by
    have taken : (a.bytes.map (Cell.byte (F := F)) ++ rest).take n = a.bytes.map .byte := by
      simp [a.length_eq]
    rw [taken, map_toByte_map_byte, CharArray.ofBytes_bytes]

@[simp] theorem size_chars {F : Type} [FloatRep F] (n : Nat) : (chars (F := F) n).size = n := rfl

end Layout
