import Mathlib.Data.List.TakeWhile
import Tpcc.Table

/-! Records through `MemoryDBImpl`.  A record is put as it is, but `Get` assigns the string that
starts at its first byte, and so hands back the part before the first NUL. -/

namespace Tpcc

open KvProgram Layout

variable {F : Type} [FloatRep F]

/-- A call of `PutRecord`. -/
structure RecordPut (F : Type) where
  α : Type
  layout : Codec (Cell F) α
  key : Key
  value : α

/-- The calls, one after another. -/
def putRecords {ρ : Type} : List (RecordPut F) → Act (Thread ρ) Key (Value F) Unit
  | [] => pure ()
  | p :: puts => do
    let _ ← putRecord p.layout p.key p.value
    putRecords puts

/-- The strings that `MemoryDBImpl` stores for the calls. -/
def RecordPut.writes (puts : List (RecordPut F)) : List (Key × Value F) :=
  puts.map fun p => (p.key, p.layout.encode p.value)

/-- The contents of a `MemoryDBImpl` after the calls. -/
def contents (puts : List (RecordPut F)) : Store UInt64 (Value F) :=
  Store.puts Key.itemKey (fun _ => none) (RecordPut.writes puts)

theorem exec_putRecords {ρ : Type} (puts : List (RecordPut F)) (t : Thread ρ)
    (db : Store UInt64 (Value F)) :
    ((putRecords puts t).exec MemoryDBImpl.backend db).2 =
      some (((), t), db.puts Key.itemKey (RecordPut.writes puts)) := by
  induction puts generalizing db with
  | nil => rfl
  | cons p puts ih => exact ih (MemoryDBImpl.put db p.key.itemKey (p.layout.encode p.value))

/-- The calls leave the contents in an empty `MemoryDBImpl`. -/
theorem exec_putRecords_empty {ρ : Type} (puts : List (RecordPut F)) (t : Thread ρ) :
    ((putRecords puts t).exec MemoryDBImpl.backend fun _ => none).2 =
      some (((), t), contents puts) :=
  exec_putRecords puts t _

/-- A `GetRecord` alone on a `MemoryDBImpl`: its status, and the variable afterwards. -/
def getRecordFrom {ρ α : Type} (db : Store UInt64 (Value F)) (env : Env ρ) (t : Thread ρ)
    (layout : Codec (Cell F) α) (key : Key) (old : α) : Option (Int × α) :=
  ((getRecord env layout key old t).exec MemoryDBImpl.backend db).2.map fun x => x.1.1

section GetRecord

variable {ρ α : Type} {db : Store UInt64 (Value F)} {env : Env ρ} {t : Thread ρ}
  {layout : Codec (Cell F) α} {key : Key} {old : α}

/-- `GetRecord`, after what `Get` has handed back. -/
theorem getRecordFrom_eq {found : Option (Value F)}
    (read : MemoryDBImpl.get db key.itemKey = found) :
    getRecordFrom db env t layout key old = found.elim (some (-1, old)) fun value =>
      some (1, layout.decode (value ++ .byte 0 ::
        (env.memory (layout.size - value.length - 1) t.rng).1.map .byte)) := by
  obtain ⟨next, program, absent, present⟩ : ∃ next,
      getRecord env layout key old t = .get key layout.size next ∧
      next none = .done ((-1, old), t) ∧
      ∀ value, ∃ t', next (some value) = .done ((1, layout.decode (value ++ .byte 0 ::
        (env.memory (layout.size - value.length - 1) t.rng).1.map .byte)), t') :=
    ⟨_, rfl, rfl, fun value => ⟨_, rfl⟩⟩
  have get : MemoryDBImpl.backend.get db key = found := read
  rw [getRecordFrom, program, Prog.exec, get]
  cases found with
  | none => rw [absent]; rfl
  | some value =>
    obtain ⟨t', returns⟩ := present value
    rw [returns]
    rfl

theorem getRecordFrom_status :
    (getRecordFrom db env t layout key old).map Prod.fst = some 1 ↔ db key.itemKey ≠ none := by
  rw [getRecordFrom_eq rfl, MemoryDBImpl.get]
  cases db key.itemKey <;> simp

end GetRecord

/-- The call is the last one at a key. -/
def LastPut (puts : List (RecordPut F)) (key : Key) (p : RecordPut F) : Prop :=
  ∃ before after, puts = before ++ p :: after ∧ p.key.itemKey = key.itemKey ∧
    ∀ q ∈ after, q.key.itemKey ≠ key.itemKey

/-- What was put at a key can be got back: `GetRecord` finds it exactly when there was a put, and
then `Get` hands back as many bytes as the record has, and `GetRecord` the record itself. -/
structure RoundTrips (db : Store UInt64 (Value F)) (puts : List (RecordPut F)) (key : Key) :
    Prop where
  found : ∀ (ρ α : Type) (env : Env ρ) (t : Thread ρ) (layout : Codec (Cell F) α) (old : α),
    (getRecordFrom db env t layout key old).map Prod.fst = some 1 ↔
      ∃ p ∈ puts, p.key.itemKey = key.itemKey
  size : ∀ p, LastPut puts key p →
    (MemoryDBImpl.get db key.itemKey).map List.length = some p.layout.size
  record : ∀ p, LastPut puts key p → ∀ (ρ : Type) (env : Env ρ) (t : Thread ρ) (old : p.α),
    getRecordFrom db env t p.layout key old = some (1, p.value)

omit [FloatRep F] in
theorem contents_ne_none_iff {puts : List (RecordPut F)} {key : Key} :
    contents puts key.itemKey ≠ none ↔ ∃ p ∈ puts, p.key.itemKey = key.itemKey := by
  constructor
  · intro value
    by_contra absent
    refine value (Store.puts_of_ne fun w hw same => absent ?_)
    obtain ⟨p, hp, rfl⟩ := List.mem_map.mp hw
    exact ⟨p, hp, same⟩
  · rintro ⟨p, hp, same⟩
    rw [← same]
    exact Store.puts_mem_ne_none Key.itemKey (List.mem_map_of_mem (List.mem_map_of_mem hp))

omit [FloatRep F] in
theorem contents_last {puts : List (RecordPut F)} {key : Key} {p : RecordPut F}
    (last : LastPut puts key p) :
    contents puts key.itemKey = some (p.layout.encode p.value) := by
  obtain ⟨before, after, rfl, same, later⟩ := last
  rw [contents, RecordPut.writes, List.map_append, List.map_cons, ← same]
  refine Store.puts_last _ fun w hw => ?_
  obtain ⟨q, hq, rfl⟩ := List.mem_map.mp hw
  rw [same]
  exact later q hq

/-- A string whose part before the first NUL is as long as it is has no NUL. -/
theorem forall_ne_zero_of_length {value : Value F}
    (length : (value.takeWhile (·.toByte ≠ 0)).length = value.length) :
    ∀ cell ∈ value, cell.toByte ≠ 0 := by
  have whole := (List.takeWhile_prefix (p := (·.toByte ≠ 0)) (l := value)).eq_of_length length
  rw [List.takeWhile_eq_self_iff] at whole
  exact fun cell hcell => of_decide_eq_true (whole cell hcell)

theorem roundTrips_contents (puts : List (RecordPut F)) (key : Key) :
    RoundTrips (contents puts) puts key ↔
      ∀ p, LastPut puts key p → ∀ cell ∈ p.layout.encode p.value, cell.toByte ≠ 0 := by
  constructor
  · intro h p last
    have size := h.size p last
    rw [MemoryDBImpl.get, contents_last last, Option.map_some, Option.map_some,
      Option.some.injEq, ← p.layout.length_encode p.value] at size
    exact forall_ne_zero_of_length size
  · intro noZero
    have whole (p : RecordPut F) (last : LastPut puts key p) :
        MemoryDBImpl.get (contents puts) key.itemKey = some (p.layout.encode p.value) := by
      rw [MemoryDBImpl.get, contents_last last, Option.map_some, Option.some.injEq,
        List.takeWhile_eq_self_iff]
      exact fun cell hcell => decide_eq_true (noZero p last cell hcell)
    constructor
    · intro ρ α env t layout old
      rw [getRecordFrom_status, contents_ne_none_iff]
    · intro p last
      rw [whole p last, Option.map_some, p.layout.length_encode]
    · intro p last ρ env t old
      rw [getRecordFrom_eq (whole p last)]
      simp

/-- After calls on an empty `MemoryDBImpl`, a record comes back exactly when no byte of its image
is zero. -/
theorem roundTrips_iff {ρ : Type} (puts : List (RecordPut F)) (key : Key) (t : Thread ρ) :
    ∃ db, ((putRecords puts t).exec MemoryDBImpl.backend fun _ => none).2 = some (((), t), db) ∧
      (RoundTrips db puts key ↔
        ∀ p, LastPut puts key p → ∀ cell ∈ p.layout.encode p.value, cell.toByte ≠ 0) :=
  ⟨contents puts, exec_putRecords_empty puts t, roundTrips_contents puts key⟩

/-- The row of an order that has not been delivered: of its 20 bytes, one comes back. -/
theorem order_row_cut : ¬∀ (puts : List (RecordPut ℚ)) (key : Key) (t : Thread Nat)
    (db : Store UInt64 (Value ℚ)),
    ((putRecords puts t).exec MemoryDBImpl.backend fun _ => none).2 = some (((), t), db) →
      RoundTrips db puts key := by
  intro claim
  let row : OrderVal := ⟨1, 0, 5, 1, 1⟩
  let put : RecordPut ℚ := ⟨OrderVal, orderVal, orderKey 1 1 1, row⟩
  have last : LastPut [put] (orderKey 1 1 1) put := ⟨[], [], rfl, rfl, by simp⟩
  have size := (claim [put] (orderKey 1 1 1) ⟨0, 0⟩ _ (exec_putRecords_empty ..)).size put last
  rw [MemoryDBImpl.get, contents_last last] at size
  exact absurd size (by decide)

end Tpcc
