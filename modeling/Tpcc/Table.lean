import Mathlib.Data.Rat.Floor
import Tpcc.Keys
import Tpcc.Random
import Tpcc.Schemas

/-! The store of the tables: `MemoryDBImpl`, and `PutRecord` and `GetRecord`, which copy records to
and from the strings that a backend stores.  `GetRecord` copies as many bytes as the record has,
whatever the length of the stored string; what it copies from beyond the string is arbitrary.
All tables share one backend, addressed by the `item_key` of a key; `Key.itemKey` and `id` are the
addresses of the shared store and of a store that keeps each table as its own map. -/

namespace Tpcc

open KvProgram Layout

/-- The arithmetic of the amounts, `float` in the source. -/
class Amount (F : Type) extends Add F, Sub F, Mul F where
  quotient : Int → Nat → F
  le : F → F → Bool
  /-- The characters that `%.2f` prints. -/
  fixed2 : F → List UInt8

def Amount.ofInt {F : Type} [Amount F] (n : Int) : F := Amount.quotient n 1

/-- The decimal digits of an integer: what `%d` prints. -/
def decimal (n : Int) : List UInt8 := (toString n).toUTF8.data.toList

/-- Exact amounts. -/
instance : Amount ℚ where
  quotient n d := n / d
  le a b := decide (a ≤ b)
  fixed2 a :=
    let cents := ⌊|a| * 100 + 1 / 2⌋
    (if a < 0 then "-".toUTF8.data.toList else []) ++ decimal (cents / 100) ++
      ".".toUTF8.data.toList ++
      decimal (cents / 10 % 10) ++ decimal (cents % 10)

/-- An exact amount has no bits: a layout of integers that reads one reads zeros. -/
instance : FloatRep ℚ := ⟨fun _ => 0, fun _ => 0⟩

/-- A row of zeros. -/
def zeroRow {α : Type} (layout : Codec (Cell ℚ) α) : α := layout.decode []

/-- `int32_t` addition, which must not overflow. -/
def addInt32 (x : Int32) (n : Int) : Option Int32 :=
  if -2 ^ 31 ≤ x.toInt + n ∧ x.toInt + n < 2 ^ 31 then some (Int32.ofInt (x.toInt + n)) else none

theorem addInt32_toInt {x y : Int32} {n : Int} (h : addInt32 x n = some y) :
    y.toInt = x.toInt + n := by
  unfold addInt32 at h
  split at h
  · rename_i bounds
    rw [← Option.some.inj h, Int32.toInt_ofInt_of_le bounds.1 bounds.2]
  · exact absurd h (by simp)

section Strings

variable {ρ K V : Type} {n : Nat}

def strcpy (a : CharArray n) (src : List UInt8) : Act ρ K V (CharArray n) :=
  .ofOption (a.strcpy src)

def strcat (a : CharArray n) (src : List UInt8) : Act ρ K V (CharArray n) :=
  strcpy a (CharArray.cStr a.bytes ++ src)

/-- The string that starts at a field, given the bytes of a structure from the field on. -/
def cString (bytes : List UInt8) : Act ρ K V (List UInt8) := do
  .assert (0 ∈ bytes)
  return CharArray.cStr bytes

variable {S : Type} {L : Logic K V S} {r : ρ} {s : S}

theorem wp_strcpy {a : CharArray n} {src : List UInt8} {Q : CharArray n → ρ → S → Prop}
    (ok : L.mayStick ∨ src.length < n) (h : ∀ b, a.strcpy src = some b → Q b r s) :
    Act.wp L (strcpy a src) Q r s :=
  Act.wp_ofOption h (ok.imp_right CharArray.strcpy_isSome)

end Strings

/-- The string that a backend stores for a record: its memory image. -/
abbrev Value (F : Type) := List (Cell F)

namespace MemoryDBImpl

variable {F : Type} [FloatRep F]

def put (memoryDb : Store UInt64 (Value F)) (key : UInt64) (value : Value F) :
    Store UInt64 (Value F) :=
  memoryDb.put key value

/-- `value = res->second.data()` assigns the string that starts there, up to its first NUL. -/
def get (memoryDb : Store UInt64 (Value F)) (key : UInt64) : Option (Value F) :=
  (memoryDb key).map fun stored => stored.takeWhile (·.toByte ≠ 0)

/-- The in-memory backend of a `TPCCTable`. -/
def backend : Backend Key (Value F) (Store UInt64 (Value F)) where
  get db key := get db key.itemKey
  put db key value := put db key.itemKey value

end MemoryDBImpl

section Records

variable {ρ F α : Type} (env : Env ρ)

/-- A local variable that has not been initialized. -/
def uninit (layout : Codec (Cell F) α) : Act (Thread ρ) Key (Value F) α := do
  let bytes ← memory env layout.size
  return layout.decode (bytes.map .byte)

/-- `PutRecord`.  The backends return 1. -/
def putRecord (layout : Codec (Cell F) α) (key : Key) (v : α) :
    Act (Thread ρ) Key (Value F) Int := do
  .put key (layout.encode v)
  return 1

/-- `GetRecord` into a variable that holds `old`: its status, and the variable afterwards. -/
def getRecord (layout : Codec (Cell F) α) (key : Key) (old : α) :
    Act (Thread ρ) Key (Value F) (Int × α) := do
  match ← .get key layout.size with
  | none => return (-1, old)
  | some value =>
    -- A string is followed by a NUL; what comes after that is not the string's.
    let beyond ← memory env (layout.size - value.length - 1)
    return (1, layout.decode (value ++ .byte 0 :: beyond.map .byte))

/-- What `GetRecord` can return for a stored string. -/
def Reads (layout : Codec (Cell F) α) (stored : Option (Value F)) (old : α) (status : Int)
    (v : α) : Prop :=
  match stored with
  | none => status = -1 ∧ v = old
  | some value => status = 1 ∧ ∃ beyond, v = layout.decode (value ++ beyond)

@[simp] theorem reads_none {layout : Codec (Cell F) α} {old v : α} {status : Int} :
    Reads layout none old status v ↔ status = -1 ∧ v = old := Iff.rfl

@[simp] theorem reads_encode {layout : Codec (Cell F) α} {x old v : α} {status : Int} :
    Reads layout (some (layout.encode x)) old status v ↔ status = 1 ∧ v = x := by
  simp [Reads]

variable {env} {S : Type} {L : Logic Key (Value F) S} {t : Thread ρ} {s : S}
  {layout : Codec (Cell F) α} {key : Key}

theorem wp_uninit {Q : α → Thread ρ → S → Prop} (h : ∀ v t, Q v t s) :
    Act.wp L (uninit env layout) Q t s := h _ _

@[simp] theorem wp_putRecord {v : α} {Q : Int → Thread ρ → S → Prop} :
    Act.wp L (putRecord layout key v) Q = fun t => L.onPut key (layout.encode v) (Q 1 t) := by
  unfold putRecord
  simp

theorem wp_getRecord {old : α} {Q : Int × α → Thread ρ → S → Prop}
    (h : L.onGet key layout.size
      (fun stored s => ∀ status v t, Reads layout stored old status v → Q (status, v) t s) s) :
    Act.wp L (getRecord env layout key old) Q t s := by
  unfold getRecord
  simp only [Act.wp_bind, Act.wp_get]
  refine L.onGet_mono h fun stored s' hQ => ?_
  cases stored with
  | none => exact hQ _ _ _ ⟨rfl, rfl⟩
  | some value =>
    simp only [Act.wp_bind, Act.wp_pure]
    exact wp_memory fun bs _ => hQ _ _ _ ⟨rfl, _, rfl⟩

/-- A record that is read back from its own image. -/
theorem wp_getRecord_row {κ : Type} [DecidableEq κ] {C : Contract Key (Value F) κ}
    {s : Store κ (Value F)} {old x : α} {Q : Int × α → Thread ρ → Store κ (Value F) → Prop}
    (row : s (C.addr key) = some (layout.encode x))
    (may : C.mayGet key layout.size (some (layout.encode x))) (h : ∀ t, Q (1, x) t s) :
    Act.wp C.logic (getRecord env layout key old) Q t s := by
  refine wp_getRecord ⟨by rwa [row], fun status v t reads => ?_⟩
  rw [row, reads_encode] at reads
  obtain ⟨rfl, rfl⟩ := reads
  exact h t

end Records

end Tpcc
