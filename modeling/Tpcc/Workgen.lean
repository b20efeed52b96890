import Mathlib.Data.List.Count
import Tpcc.Client

/-! `CreateWorkgenArray`: the array of a hundred transaction types from which clients draw.  Five
loops share the cursors `i` and `j`; what they write is kept beside them, so that a write past the
end of the array can be seen. -/

namespace Tpcc

/-- The `FREQUENCY_*` flags. -/
structure Frequencies where
  newOrder : Int32
  payment : Int32
  orderStatus : Int32
  delivery : Int32
  stockLevel : Int32

namespace Frequencies

/-- The frequency of a transaction type. -/
def of (f : Frequencies) : TxType → Int
  | .newOrder => f.newOrder.toInt
  | .payment => f.payment.toInt
  | .orderStatus => f.orderStatus.toInt
  | .delivery => f.delivery.toInt
  | .stockLevel => f.stockLevel.toInt

/-- The values that `j` takes. -/
def sums (f : Frequencies) : List Int :=
  let first := f.newOrder.toInt
  let second := first + f.payment.toInt
  let third := second + f.orderStatus.toInt
  let fourth := third + f.delivery.toInt
  [first, second, third, fourth, fourth + f.stockLevel.toInt]

/-- The last of them. -/
def total (f : Frequencies) : Int := f.newOrder.toInt + f.payment.toInt + f.orderStatus.toInt +
  f.delivery.toInt + f.stockLevel.toInt

end Frequencies

/-- The cursors of `CreateWorkgenArray`, and the writes to `workgen_arr`, the first one first. -/
structure Workgen where
  i : Int
  j : Int
  writes : List (Int × TxType)

namespace Workgen

/-- `n` iterations of `for (; i < j; i++) workgen_arr[i] = type`. -/
def fill (type : TxType) : Nat → Workgen → Workgen
  | 0, x => x
  | n + 1, x => fill type n { x with i := x.i + 1, writes := x.writes ++ [(x.i, type)] }

/-- `j += flag`, undefined where it overflows, and the loop after it. -/
def next (x : Workgen) (type : TxType) (flag : Int32) : Option Workgen :=
  let j := x.j + flag.toInt
  if -2 ^ 31 ≤ j ∧ j < 2 ^ 31 then some (fill type (j - x.i).toNat { x with j }) else none

/-- `assert(i == 100 && j == 100)`. -/
def Passes (x : Workgen) : Prop := x.i = 100 ∧ x.j = 100

/-- `workgen_arr`, whose elements are `kNewOrder` before they are written. -/
def array (x : Workgen) : List TxType :=
  x.writes.foldl (fun arr w => arr.set w.1.toNat w.2) (List.replicate 100 .newOrder)

end Workgen

/-- The state in which `CreateWorkgenArray` comes to its assertion. -/
def createWorkgenArray (f : Frequencies) : Option Workgen := do
  let x : Workgen := ⟨0, 0, []⟩
  let x ← x.next .newOrder f.newOrder
  let x ← x.next .payment f.payment
  let x ← x.next .orderStatus f.orderStatus
  let x ← x.next .delivery f.delivery
  x.next .stockLevel f.stockLevel

/-- Every write is in the array, and an array that passes the assertion has each transaction type as
often as its flag says. -/
def WorkgenCorrect (f : Frequencies) : Prop :=
  ∃ x, createWorkgenArray f = some x ∧ (∀ w ∈ x.writes, 0 ≤ w.1 ∧ w.1 < 100) ∧
    (x.Passes → ∀ type, (x.array.count type : Int) = f.of type)

/-! ### What the loops write -/

/-- The state after the types of a list have been written, one after another. -/
def Workgen.written (types : List TxType) (j : Int) : Workgen :=
  ⟨types.length, j, types.zipIdx.map fun w => ((w.2 : Int), w.1)⟩

theorem fill_written {types : List TxType} {j : Int} (type : TxType) (n : Nat) :
    (Workgen.written types j).fill type n = .written (types ++ List.replicate n type) j := by
  induction n generalizing types with
  | zero => rw [List.replicate_zero, List.append_nil, Workgen.fill]
  | succ n ih =>
    have step : (Workgen.written types j).fill type (n + 1) =
        (Workgen.written (types ++ [type]) j).fill type n := by
      simp [Workgen.fill, Workgen.written, List.zipIdx_append]
    rw [step, ih, List.append_assoc, List.singleton_append, ← List.replicate_succ]

/-- `j` takes a new value, and the loop writes up to there. -/
theorem next_written (types : List TxType) (j : Int) (type : TxType) (flag : Int32) :
    (Workgen.written types j).next type flag =
      if -2 ^ 31 ≤ j + flag.toInt ∧ j + flag.toInt < 2 ^ 31 then
        some (.written (types ++ List.replicate (j + flag.toInt - types.length).toNat type)
          (j + flag.toInt))
      else none := by
  rw [← fill_written]
  rfl

/-- The transaction types with their flags, in the order in which their loops run. -/
def Frequencies.steps (f : Frequencies) : List (TxType × Int32) :=
  [(.newOrder, f.newOrder), (.payment, f.payment), (.orderStatus, f.orderStatus),
    (.delivery, f.delivery), (.stockLevel, f.stockLevel)]

/-- Some of the loops. -/
def Workgen.nexts (x : Workgen) : List (TxType × Int32) → Option Workgen
  | [] => some x
  | (type, flag) :: steps => (x.next type flag).bind fun x => x.nexts steps

theorem createWorkgenArray_eq (f : Frequencies) :
    createWorkgenArray f = (Workgen.written [] 0).nexts f.steps := by
  simp only [createWorkgenArray, Frequencies.steps, Workgen.nexts, Option.bind_eq_bind,
    Option.bind_fun_some]
  rfl

/-- The values that `j` takes in some loops. -/
def sumsFrom (j : Int) : List (TxType × Int32) → List Int
  | [] => []
  | (_, flag) :: steps => (j + flag.toInt) :: sumsFrom (j + flag.toInt) steps

/-- The types that have been written after some loops. -/
def writtenAfter (types : List TxType) (j : Int) : List (TxType × Int32) → List TxType
  | [] => types
  | (type, flag) :: steps =>
    writtenAfter (types ++ List.replicate (j + flag.toInt - types.length).toNat type)
      (j + flag.toInt) steps

/-- The value of `j` after some loops. -/
def lastFrom (j : Int) : List (TxType × Int32) → Int
  | [] => j
  | (_, flag) :: steps => lastFrom (j + flag.toInt) steps

section Steps

variable {types : List TxType} {j : Int} {steps : List (TxType × Int32)}

theorem nexts_eq_some {x : Workgen} : (Workgen.written types j).nexts steps = some x ↔
    (∀ sum ∈ sumsFrom j steps, -2 ^ 31 ≤ sum ∧ sum < 2 ^ 31) ∧
      .written (writtenAfter types j steps) (lastFrom j steps) = x := by
  induction steps generalizing types j with
  | nil => simp [Workgen.nexts, sumsFrom, writtenAfter, lastFrom]
  | cons step steps ih =>
    obtain ⟨type, flag⟩ := step
    rw [Workgen.nexts, next_written, sumsFrom, List.forall_mem_cons, writtenAfter, lastFrom]
    split
    · rename_i fits
      rw [Option.bind_some, ih]
      simp only [fits, and_self, true_and]
    · rename_i overflows
      simp only [overflows, Option.bind_none, reduceCtorEq, false_and]

/-- The loops write up to the largest value of `j`. -/
theorem length_writtenAfter_le {n : Nat} : (writtenAfter types j steps).length ≤ n ↔
    types.length ≤ n ∧ ∀ sum ∈ sumsFrom j steps, sum ≤ n := by
  induction steps generalizing types j with
  | nil => simp [writtenAfter, sumsFrom]
  | cons step steps ih =>
    obtain ⟨type, flag⟩ := step
    rw [writtenAfter, ih, sumsFrom, List.forall_mem_cons, List.length_append, List.length_replicate,
      ← and_assoc]
    refine and_congr_left fun _ => ?_
    omega

/-- `i` is not behind `j`. -/
theorem lastFrom_le (behind : j ≤ types.length) :
    lastFrom j steps ≤ (writtenAfter types j steps).length := by
  induction steps generalizing types j with
  | nil => exact behind
  | cons step steps ih =>
    obtain ⟨type, flag⟩ := step
    apply ih
    rw [List.length_append, List.length_replicate]
    omega

/-- Where no flag is negative, every loop writes its type as often as its flag says. -/
theorem count_writtenAfter (positive : ∀ step ∈ steps, 0 ≤ step.2.toInt) (level : types.length = j)
    (type : TxType) : ((writtenAfter types j steps).count type : Int) =
      types.count type + ((steps.filter (·.1 = type)).map (·.2.toInt)).sum := by
  induction steps generalizing types j with
  | nil => simp [writtenAfter]
  | cons step steps ih =>
    obtain ⟨written, flag⟩ := step
    have first : 0 ≤ flag.toInt := positive _ List.mem_cons_self
    have filled : (j + flag.toInt - types.length).toNat = flag.toInt.toNat := by omega
    rw [writtenAfter, filled, ih (fun step mem => positive step (List.mem_cons_of_mem _ mem)),
      List.count_append, List.count_replicate, List.filter_cons]
    · by_cases same : written = type
      · simp only [same, BEq.rfl, decide_true, if_true, List.map_cons, List.sum_cons]
        omega
      · simp [same]
    · rw [List.length_append, List.length_replicate]
      omega

end Steps

/-- Writes one after another from the start of an array. -/
theorem foldl_set_zipIdx {α : Type} (types pre rest : List α) (room : types.length ≤ rest.length) :
    (types.zipIdx pre.length).foldl (fun arr w => arr.set w.2 w.1) (pre ++ rest) =
      pre ++ types ++ rest.drop types.length := by
  induction types generalizing pre rest with
  | nil => simp
  | cons type types ih =>
    cases rest with
    | nil => simp at room
    | cons old rest =>
      have first : (pre ++ old :: rest).set pre.length type = (pre ++ [type]) ++ rest := by simp
      have next := ih (pre ++ [type]) rest (by simpa using room)
      rw [List.length_append, List.length_singleton] at next
      rw [List.zipIdx_cons, List.foldl_cons, first, next, List.length_cons, List.drop_succ_cons,
        List.append_assoc pre, List.singleton_append]

/-! ### The array -/

section Array

variable {f : Frequencies} {types : List TxType} {j : Int}

theorem array_written (full : types.length = 100) : (Workgen.written types j).array = types := by
  have writes := foldl_set_zipIdx types [] (List.replicate 100 TxType.newOrder) (by simp [full])
  rw [List.nil_append, List.nil_append, List.drop_of_length_le (by simp [full]), List.append_nil]
    at writes
  rw [Workgen.array, Workgen.written, List.foldl_map]
  exact writes

/-- The indices that are written are those below the length. -/
theorem writes_inside : (∀ w ∈ (Workgen.written types j).writes, 0 ≤ w.1 ∧ w.1 < 100) ↔
    types.length ≤ 100 := by
  constructor
  · intro inside
    by_contra long
    have last : (types[100], 100) ∈ types.zipIdx :=
      List.mem_zipIdx_iff_getElem?.mpr (List.getElem?_eq_getElem (by omega))
    exact absurd (inside _ (List.mem_map_of_mem last)).2 (lt_irrefl _)
  · intro short w hw
    obtain ⟨x, hx, rfl⟩ := List.mem_map.mp hw
    have := List.snd_lt_of_mem_zipIdx hx
    simp only
    omega

theorem of_eq_sum (type : TxType) :
    ((f.steps.filter (·.1 = type)).map (·.2.toInt)).sum = f.of type := by
  cases type <;> simp [Frequencies.steps, Frequencies.of]

theorem sums_eq : sumsFrom 0 f.steps = f.sums := by
  simp [sumsFrom, Frequencies.steps, Frequencies.sums]

theorem total_eq : lastFrom 0 f.steps = f.total := by
  simp [lastFrom, Frequencies.steps, Frequencies.total]

end Array

/-- The flags for which `CreateWorkgenArray` is correct: `j` stays in the array, and no flag is
negative where they add up to 100. -/
def Frequencies.Fit (f : Frequencies) : Prop :=
  (∀ sum ∈ f.sums, -2 ^ 31 ≤ sum ∧ sum ≤ 100) ∧ (f.total = 100 → ∀ type, 0 ≤ f.of type)

namespace Frequencies

variable {f : Frequencies}

/-- The types that the loops write, one after another. -/
def types (f : Frequencies) : List TxType := writtenAfter [] 0 f.steps

theorem createWorkgenArray_eq_some {x : Workgen} : createWorkgenArray f = some x ↔
    (∀ sum ∈ f.sums, -2 ^ 31 ≤ sum ∧ sum < 2 ^ 31) ∧ .written f.types f.total = x := by
  rw [createWorkgenArray_eq, nexts_eq_some, sums_eq, total_eq]
  rfl

theorem length_types_le {n : Nat} : f.types.length ≤ n ↔ ∀ sum ∈ f.sums, sum ≤ n := by
  rw [types, length_writtenAfter_le, sums_eq]
  simp

theorem total_le : f.total ≤ f.types.length := by
  rw [← total_eq]
  exact lastFrom_le le_rfl

theorem count_types (positive : ∀ type, 0 ≤ f.of type) (type : TxType) :
    (f.types.count type : Int) = f.of type := by
  have flags : ∀ step ∈ f.steps, 0 ≤ step.2.toInt := by
    simp only [steps, List.forall_mem_cons]
    exact ⟨positive .newOrder, positive .payment, positive .orderStatus, positive .delivery,
      positive .stockLevel, by simp⟩
  have level : ((([] : List TxType).length : Nat) : Int) = 0 := rfl
  rw [types, count_writtenAfter flags level, of_eq_sum]
  simp

/-- Flags that are counted add up to 100 only when none of them is negative. -/
theorem fit_of_correct (correct : WorkgenCorrect f) : f.Fit := by
  obtain ⟨x, run, inside, counts⟩ := correct
  rw [createWorkgenArray_eq_some] at run
  obtain ⟨room, rfl⟩ := run
  rw [writes_inside] at inside
  have sums := length_types_le.mp inside
  refine ⟨fun sum mem => ⟨(room sum mem).1, sums sum mem⟩, fun total type => ?_⟩
  have behind := f.total_le
  have length : f.types.length = 100 := by omega
  have passes : (Workgen.written f.types f.total).Passes := ⟨congrArg Nat.cast length, total⟩
  rw [← counts passes type]
  exact Int.natCast_nonneg _

/-- Flags that fit are written inside the array, each type as often as its flag says. -/
theorem Fit.correct (fit : f.Fit) : WorkgenCorrect f := by
  obtain ⟨sums, positive⟩ := fit
  refine ⟨.written f.types f.total, ?_, ?_, fun ⟨full, total⟩ type => ?_⟩
  · rw [createWorkgenArray_eq_some]
    refine ⟨fun sum mem => ⟨(sums sum mem).1, ?_⟩, rfl⟩
    have := (sums sum mem).2
    omega
  · rw [writes_inside, length_types_le]
    exact fun sum mem => (sums sum mem).2
  · rw [array_written (Int.ofNat_inj.mp full)]
    exact count_types (positive total) type

end Frequencies

/-- `CreateWorkgenArray` is correct exactly for the flags that fit. -/
theorem workgen_iff (f : Frequencies) : WorkgenCorrect f ↔ f.Fit :=
  ⟨Frequencies.fit_of_correct, Frequencies.Fit.correct⟩

/-- With 101 percent of new orders, a write is past the end of the array. -/
theorem workgen_overruns : ¬∀ f : Frequencies, WorkgenCorrect f := by
  intro correct
  have last := ((Frequencies.fit_of_correct (correct ⟨101, 0, 0, 0, 0⟩)).1 101 (by decide)).2
  omega

end Tpcc
