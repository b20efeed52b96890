import Tpcc.Backends
import Tpcc.Lib.Congruential
import Tpcc.LoadedTables
import Tpcc.Workgen

/-! `main` of the benchmark: the tables are loaded into `RocksDBImpl`, and `RunTPCC` runs
transactions whose types it draws from the array of `CreateWorkgenArray` with `FastRand`.  A `main`
that returns is a run of a client from the loaded tables, so that what holds of all such runs holds
of it; and the generator gives every transaction type its share of a period. -/

namespace Tpcc

open KvProgram Layout

/-- `FastRand`: the number drawn, and the seed after it. -/
def fastRand (seed : UInt64) : UInt32 × UInt64 :=
  let seed := seed * 1103515245 + 12345
  ((seed >>> 32).toUInt32, seed)

/-- The seed after `n` draws. -/
def seedAfter (seed : UInt64) (n : Nat) : UInt64 := (fun seed => (fastRand seed).2)^[n] seed

/-- The index into the array that draw `n`, from 0, gives. -/
def drawnIndex (seed : UInt64) (n : Nat) : Nat := (fastRand (seedAfter seed n)).1.toNat % 100

theorem seedAfter_succ (seed : UInt64) (n : Nat) :
    seedAfter seed (n + 1) = (fastRand (seedAfter seed n)).2 := Function.iterate_succ_apply' ..

/-- The type of a transaction that has returned. -/
def Outcome.txType {F : Type} : Outcome F → TxType
  | .newOrder _ => .newOrder
  | .payment _ => .payment
  | .delivery _ => .delivery
  | .orderStatus _ => .orderStatus
  | .stockLevel _ => .stockLevel

section Main

variable {ρ F : Type} [FloatRep F] [DecidableEq F] [Amount F] (env : Env ρ)

/-- One iteration of the loop of `RunTPCC`, whose counter is an `int`. -/
def runTxn (W : Nat) (workgenArr : List TxType) (i : Nat) (x : UInt64 × List (Outcome F)) :
    Act (Thread ρ) Key (Value F) (UInt64 × List (Outcome F)) := do
  let drawn := fastRand x.1
  let txType ← .ofOption workgenArr[drawn.1.toNat % 100]?
  let outcome ← transaction env W txType
  .assert (i + 1 < 2 ^ 31)
  return (drawn.2, x.2 ++ [outcome])

/-- `RunTPCC`, called for the first time in a thread whose identifier has the given hash. -/
def runTPCC (W : Nat) (workgenArr : List TxType) (txnCount : UInt32) (hash : UInt64) :
    Act (Thread ρ) Key (Value F) (List (Outcome F)) := do
  let seed := 0xdeadbeef + hash
  seeded env seed.toNat
  let x ← .forRange (runTxn env W workgenArr) 0 txnCount.toNat (seed, [])
  return x.2

instance Workgen.decidablePasses (x : Workgen) : Decidable x.Passes :=
  inferInstanceAs (Decidable (x.i = 100 ∧ x.j = 100))

/-- `main`, after it has read the flags. -/
def main (W : Nat) (flags : Frequencies) (hash : UInt64) :
    Act (Thread ρ) Key (Value F) (List (Outcome F)) := do
  let workgen ← .ofOption (createWorkgenArray flags)
  .assert (∀ w ∈ workgen.writes, 0 ≤ w.1 ∧ w.1 < 100)
  .assert workgen.Passes
  loadTables env W
  runTPCC env W workgen.array 100000 hash

end Main

/-! ### What a run of the benchmark is -/

section Reached

variable {ρ F κ : Type} [FloatRep F] [DecidableEq F] [Amount F] [DecidableEq κ] {env : Env ρ}
  {addr : Key → κ} {W : Nat} {t t' : Thread ρ} {s s' : Store κ (Value F)}

theorem transaction_txType {type : TxType} {outcome : Outcome F}
    (returns : Act.Returns addr (transaction env W type) t s outcome t' s') :
    outcome.txType = type := by
  cases type <;> obtain ⟨res, t1, s1, _, rest⟩ := Act.returns_bind.mp returns <;>
    obtain ⟨rfl, _⟩ := Act.returns_pure.mp rest <;> rfl

/-- What the loop of `RunTPCC` keeps: the seed, and a run of transactions of the types drawn. -/
structure RunSoFar (addr : Key → κ) (W : Nat) (workgenArr : List TxType) (seed : UInt64)
    (s : Store κ (Value F)) (i : Nat) (x : UInt64 × List (Outcome F)) (s' : Store κ (Value F)) :
    Prop where
  types : x.2.map (some ·.txType) = (List.range i).map fun k => workgenArr[drawnIndex seed k]?
  seed : x.1 = seedAfter seed i
  run : Run (· = s) (Step addr W) x.2.reverse s'

theorem RunSoFar.step {workgenArr : List TxType} {seed : UInt64} {i : Nat}
    {x y : UInt64 × List (Outcome F)} {s1 s2 : Store κ (Value F)}
    (h : RunSoFar addr W workgenArr seed s i x s1)
    (returns : Act.Returns addr (runTxn env W workgenArr i x) t s1 y t' s2) :
    RunSoFar addr W workgenArr seed s (i + 1) y s2 := by
  obtain ⟨type, t1, s3, draws, rest⟩ := Act.returns_bind.mp returns
  obtain ⟨drawn, rfl, rfl⟩ := Act.returns_ofOption.mp draws
  obtain ⟨outcome, t2, s3, first, rest⟩ := Act.returns_bind.mp rest
  obtain ⟨⟨⟩, t3, s4, holds, rest⟩ := Act.returns_bind.mp rest
  obtain ⟨-, rfl, rfl⟩ := Act.returns_assert.mp holds
  obtain ⟨rfl, rfl, rfl⟩ := Act.returns_pure.mp rest
  rw [h.seed] at drawn
  have index : workgenArr[drawnIndex seed i]? = some outcome.txType := by
    rw [transaction_txType first]
    exact drawn
  constructor
  · rw [List.map_append, h.types, List.range_succ, List.map_append, List.map_singleton,
      List.map_singleton, index]
  · rw [seedAfter_succ, h.seed]
  · rw [List.reverse_append]
    exact h.run.next ⟨ρ, env, type, t, t2, first⟩

/-- A `RunTPCC` that returns is a run of as many transactions, of the types drawn. -/
theorem runTPCC_run {workgenArr : List TxType} {txnCount : UInt32} {hash : UInt64}
    {outcomes : List (Outcome F)}
    (returns : Act.Returns addr (runTPCC env W workgenArr txnCount hash) t s outcomes t' s') :
    ∃ x, x.2 = outcomes ∧
      RunSoFar addr W workgenArr (0xdeadbeef + hash) s txnCount.toNat x s' := by
  refine Act.wp_returns (C := Contract.partly (Value F) addr) (Q := fun outcomes _ s' => ∃ x,
    x.2 = outcomes ∧ RunSoFar addr W workgenArr (0xdeadbeef + hash) s txnCount.toNat x s')
      ?_ returns
  simp only [runTPCC, Act.wp_bind, Act.wp_pure]
  apply wp_seeded
  intro t
  have loop : Act.wp (Contract.partly (Value F) addr).logic
      (.forRange (runTxn env W workgenArr) 0 txnCount.toNat (0xdeadbeef + hash, []))
      (fun x _ s' => RunSoFar addr W workgenArr (0xdeadbeef + hash) s
        (0 + txnCount.toNat) x s') t s :=
    Act.wp_forRange (fun i x _ s' => RunSoFar addr W workgenArr (0xdeadbeef + hash) s i x s')
      (fun i x t s1 _ _ h => Act.wp_of_returns fun y t' s2 returns => h.step returns)
      ⟨rfl, rfl, .start rfl⟩
  rw [Nat.zero_add] at loop
  exact Act.wp_mono loop fun x t s' h => ⟨x, rfl, h⟩

/-- What a `main` that returns has done: the loaded tables, and on them as many transactions as the
benchmark has, of the types drawn. -/
structure MainRun (addr : Key → κ) (W : Nat) (flags : Frequencies) (hash : UInt64)
    (outcomes : List (Outcome F)) (s' : Store κ (Value F)) : Prop where
  count : outcomes.length = 100000
  types : ∃ workgen, createWorkgenArray flags = some workgen ∧ workgen.Passes ∧
    ∀ i < 100000, outcomes[i]?.map Outcome.txType =
      workgen.array[drawnIndex (0xdeadbeef + hash) i]?
  reached : Reached addr W outcomes.reverse s'

theorem main_run {flags : Frequencies} {hash : UInt64} {outcomes : List (Outcome F)}
    (returns : Act.Returns addr (main env W flags hash) t (fun _ => none) outcomes t' s') :
    MainRun addr W flags hash outcomes s' := by
  obtain ⟨workgen, t1, s1, creates, rest⟩ := Act.returns_bind.mp returns
  obtain ⟨array, rfl, rfl⟩ := Act.returns_ofOption.mp creates
  obtain ⟨⟨⟩, t1, s1, inside, rest⟩ := Act.returns_bind.mp rest
  obtain ⟨-, rfl, rfl⟩ := Act.returns_assert.mp inside
  obtain ⟨⟨⟩, t1, s1, asserts, rest⟩ := Act.returns_bind.mp rest
  obtain ⟨passes, rfl, rfl⟩ := Act.returns_assert.mp asserts
  obtain ⟨⟨⟩, t1, s1, loads, rest⟩ := Act.returns_bind.mp rest
  obtain ⟨x, rfl, all⟩ := runTPCC_run rest
  have count : x.2.length = 100000 := by
    have := congrArg List.length all.types
    simpa using this
  refine ⟨count, ⟨workgen, array, passes, fun i hi => ?_⟩, ?_⟩
  · have types := congrArg (·[i]?) all.types
    have inside : i < (100000 : UInt32).toNat := hi
    simp only [List.getElem?_map, List.getElem?_range inside, Option.map_some] at types
    cases outcome : x.2[i]? with
    | none => simp [outcome] at types
    | some o => simpa [outcome] using types
  · have loaded : Reached addr W [] s1 := .start ⟨ρ, env, t, t1, loads⟩
    simpa using loaded.trans all.run

end Reached

/-! ### The benchmark over RocksDBImpl -/

section RocksDb

variable {ρ F σ : Type} [FloatRep F] [DecidableEq F] [Amount F] {env : Env ρ} {W : Nat}
  {t t' : Thread ρ} {db : RocksDb F σ} {contents : σ → Store String (Value F)} {s s' : σ}

/-- A `main` returns over an empty database exactly when it returns over the store that is exact on
item keys. -/
theorem main_rocksDb_iff (works : db.Works contents) (empty : contents s = fun _ => none)
    {flags : Frequencies} {hash : UInt64} {outcomes : List (Outcome F)} :
    (∃ s', ((main env W flags hash t).exec (rocksDBImpl db).backend s).2 =
        some ((outcomes, t'), s')) ↔
      ∃ s', Act.Returns Key.itemKey (main env W flags hash) t (fun _ => none) outcomes t' s' := by
  rw [works.implements.returns_iff (Prog.writes_all (fun _ _ => trivial) _) (stands_contents _),
    itemStore_empty empty]
  rfl

/-- A `main` that returns over an empty database has loaded the tables and run its transactions as
if each value were stored at its item key. -/
theorem main_rocksDb (works : db.Works contents) (empty : contents s = fun _ => none)
    {flags : Frequencies} {hash : UInt64} {outcomes : List (Outcome F)}
    (returns : ((main env W flags hash t).exec (rocksDBImpl db).backend s).2 =
      some ((outcomes, t'), s')) :
    MainRun Key.itemKey W flags hash outcomes (itemStore (contents s')) := by
  obtain ⟨s₁, exact'⟩ := (main_rocksDb_iff works empty).mp ⟨s', returns⟩
  have start := exact'
  rw [← itemStore_empty empty] at start
  have related := works.implements.related (Prog.writes_all (fun _ _ => trivial) _)
    (stands_contents _) returns start
  rw [← eq_itemStore related]
  exact main_run exact'

end RocksDb

/-! ### The mix of transactions -/

section Mix

theorem fastRand_seed (seed : UInt64) :
    (fastRand seed).2.toNat = Congruential.step 1103515245 12345 64 seed.toNat := by
  simp [fastRand, Congruential.step]

theorem seedAfter_toNat (seed : UInt64) (n : Nat) :
    (seedAfter seed n).toNat = (Congruential.step 1103515245 12345 64)^[n] seed.toNat := by
  induction n with
  | zero => rfl
  | succ n ih => rw [seedAfter_succ, fastRand_seed, ih, Function.iterate_succ_apply']

/-- The number drawn is the high half of the seed. -/
theorem drawnIndex_eq (seed : UInt64) (n : Nat) : drawnIndex seed n =
    (Congruential.step 1103515245 12345 64)^[n + 1] seed.toNat / 2 ^ 32 % 100 := by
  have high : (fastRand (seedAfter seed n)).1.toNat = (seedAfter seed (n + 1)).toNat / 2 ^ 32 := by
    have small := (seedAfter seed (n + 1)).toNat_lt
    rw [seedAfter_succ] at small ⊢
    simp only [fastRand, UInt64.toNat_toUInt32, UInt64.toNat_shiftRight] at small ⊢
    rw [Nat.shiftRight_eq_div_pow]
    simp only [UInt64.toNat_ofNat]
    norm_num at small ⊢
    omega
  rw [drawnIndex, high, seedAfter_toNat]

/-- The elements of a list that are `a`, by their indices. -/
theorem count_getElem? {α : Type} [DecidableEq α] (l : List α) (a : α) (n : Nat) :
    Nat.count (fun i => l[i]? = some a) n = (l.take n).count a := by
  induction n with
  | zero => simp
  | succ n ih =>
    rw [Nat.count_succ, ih, List.take_add_one, List.count_append]
    cases l[n]? with
    | none => simp
    | some b => by_cases same : b = a <;> simp [same]

/-- How often a period of the generator gives a transaction type. -/
theorem count_drawn {workgenArr : List TxType} (full : workgenArr.length = 100) (seed : UInt64)
    (type : TxType) : Nat.count (fun n => workgenArr[drawnIndex seed n]? = some type) (2 ^ 64) =
      2 ^ 32 * (42949672 * workgenArr.count type + (workgenArr.take 96).count type) := by
  have period := Congruential.count_iterate (a := 1103515245) (c := 12345) (k := 64) (by norm_num)
    (by norm_num) seed.toNat fun x => workgenArr[x / 2 ^ 32 % 100]? = some type
  have high := Congruential.count_div (fun x => workgenArr[x % 100]? = some type) (2 ^ 32) (2 ^ 32)
    (by norm_num)
  have low := Congruential.count_mod (fun i => workgenArr[i]? = some type) 100 42949672 96
    (by norm_num)
  rw [count_getElem?, count_getElem?, List.take_of_length_le full.le] at low
  simp only [drawnIndex_eq]
  rw [period, show (2 : Nat) ^ 64 = 2 ^ 32 * 2 ^ 32 by norm_num, high,
    show (2 : Nat) ^ 32 = 42949672 * 100 + 96 by norm_num, low]

/-- The flags share a period of the generator out: what a type gets for each of its percents differs
by at most one of `2^32` parts. -/
theorem period_shared {flags : Frequencies} (fit : flags.Fit) (total : flags.total = 100) :
    ∃ workgen, createWorkgenArray flags = some workgen ∧ workgen.Passes ∧ ∀ seed type,
      let drawn := Nat.count (fun n => workgen.array[drawnIndex seed n]? = some type) (2 ^ 64)
      (drawn : Int) = 2 ^ 32 * (42949672 * flags.of type + (workgen.array.take 96).count type) ∧
        2 ^ 32 * 42949672 * flags.of type ≤ drawn ∧ drawn ≤ 2 ^ 32 * 42949673 * flags.of type := by
  have positive := fit.2 total
  have full : flags.types.length = 100 := by
    have most : flags.types.length ≤ 100 :=
      Frequencies.length_types_le.mpr fun sum mem => (fit.1 sum mem).2
    have least := flags.total_le
    omega
  refine ⟨.written flags.types flags.total, ?_, ⟨by rw [← Nat.cast_ofNat, ← full]; rfl, total⟩, ?_⟩
  · rw [Frequencies.createWorkgenArray_eq_some]
    refine ⟨fun sum mem => ⟨(fit.1 sum mem).1, ?_⟩, rfl⟩
    have := (fit.1 sum mem).2
    omega
  · intro seed type drawn
    have share := count_drawn full seed type
    have flag := Frequencies.count_types positive type
    have part : ((flags.types.take 96).count type : Int) ≤ flags.of type := by
      rw [← flag]
      exact Int.ofNat_le.mpr ((List.take_sublist 96 flags.types).count_le type)
    rw [← array_written (j := flags.total) full] at share part flag
    rw [show drawn = _ from share]
    push_cast
    rw [flag]
    refine ⟨rfl, ?_, ?_⟩ <;> nlinarith

end Mix

/-! ### Benchmarks that return -/

section Sample

/-- The flags of the source. -/
def defaultFlags : Frequencies := ⟨45, 43, 4, 4, 4⟩

theorem period_shared_default : ∃ workgen, createWorkgenArray defaultFlags = some workgen ∧
    workgen.Passes ∧ ∀ seed type,
      let drawn := Nat.count (fun n => workgen.array[drawnIndex seed n]? = some type) (2 ^ 64)
      (drawn : Int) =
          2 ^ 32 * (42949672 * defaultFlags.of type + (workgen.array.take 96).count type) ∧
        2 ^ 32 * 42949672 * defaultFlags.of type ≤ drawn ∧
          drawn ≤ 2 ^ 32 * 42949673 * defaultFlags.of type := by
  have positive : ∀ type, 0 ≤ defaultFlags.of type := by
    intro type
    cases type <;> decide
  exact period_shared ⟨by decide, fun _ => positive⟩ (by decide)

/-- The flags of a benchmark that only asks for the status of orders. -/
def statusFlags : Frequencies := ⟨0, 0, 100, 0, 0⟩

variable {ρ F κ : Type} [FloatRep F] [DecidableEq F] [Amount F] [DecidableEq κ] {env : Env ρ}
  {addr : Key → κ} {W : Nat} {t : Thread ρ} {s : Store κ (Value F)}

omit [Amount F] in
/-- `OrderStatus` returns from every store. -/
theorem wp_orderStatus_totally (two : 2 ≤ W)
    {Q : OrderStatusResult F → Thread ρ → Store κ (Value F) → Prop} (h : ∀ res t, Q res t s) :
    Act.wp (Contract.totally (Value F) addr).logic (orderStatus env W) Q t s := by
  simp only [orderStatus, Act.wp_bind, Act.wp_pure]
  refine wp_randomNumber (.inr (by norm_num)) fun y t _ _ => ?_
  refine wp_pickWarehouseId (.inr (by omega)) fun w t _ _ => ?_
  refine wp_randomNumber (.inr (by norm_num)) fun d t _ _ => wp_statusCustomer fun c t _ _ => ?_
  refine wp_uninit fun cust t => wp_getRecord ⟨trivial, fun _ cust t _ => ?_⟩
  refine wp_randomNumber (.inr (by norm_num)) fun o t _ _ => ?_
  refine wp_uninit fun order t => wp_getRecord ⟨trivial, fun _ order t _ => ?_⟩
  refine Act.wp_mono (Act.wp_forRange (fun _ _ _ s' => s' = s) ?_ rfl) ?_
  · rintro i lines t _ - - rfl
    simp only [statusLine, Act.wp_bind, Act.wp_pure]
    exact wp_uninit fun line t => wp_getRecord ⟨trivial, fun _ line t _ => rfl⟩
  · rintro lines t _ rfl
    exact h _ t

theorem runTPCC_status_returns (two : 2 ≤ W) {txnCount : UInt32} {hash : UInt64}
    (counts : txnCount.toNat < 2 ^ 31) :
    ∃ outcomes t', Act.Returns addr
      (runTPCC env W (List.replicate 100 .orderStatus) txnCount hash) t s outcomes t' s := by
  have total : Act.wp (Contract.totally (Value F) addr).logic
      (runTPCC env W (List.replicate 100 .orderStatus) txnCount hash)
      (fun (_ : List (Outcome F)) _ s' => s' = s ∧ True) t s := by
    simp only [runTPCC, Act.wp_bind, Act.wp_pure]
    apply wp_seeded
    intro t
    refine Act.wp_mono (Act.wp_forRange (fun _ _ _ s' => s' = s) ?_ rfl) fun _ _ _ h => ⟨h, trivial⟩
    rintro i x t _ - small rfl
    have type : (List.replicate 100 TxType.orderStatus)[(fastRand x.1).1.toNat % 100]? =
        some .orderStatus := by
      rw [List.getElem?_replicate, if_pos (Nat.mod_lt _ (by norm_num))]
    simp only [runTxn, Act.wp_bind]
    refine Act.wp_ofOption (fun txType drawn => ?_) (.inr (by rw [type]; rfl))
    obtain rfl := Option.some.inj (type.symm.trans drawn)
    simp only [transaction, Act.wp_bind, Act.wp_pure]
    exact wp_orderStatus_totally two fun res t => Act.wp_assert (fun _ => rfl) (.inr (by omega))
  obtain ⟨outcomes, t', returns, -⟩ := Act.returns_of_frame total
  exact ⟨outcomes, t', returns⟩

theorem main_status_returns (addr : Key → κ) : ∃ (outcomes : List (Outcome ℚ)) (t' : Thread Nat)
    (s' : Store κ (Value ℚ)), Act.Returns addr (main Env.counting 2 statusFlags 0) ⟨0, 0⟩
      (fun _ => none) outcomes t' s' := by
  obtain ⟨t₁, s₁, loads⟩ := counting_returns addr (W := 2) (by norm_num)
  obtain ⟨outcomes, t', runs⟩ : ∃ outcomes t', Act.Returns addr (runTPCC (F := ℚ) Env.counting 2
      (List.replicate 100 .orderStatus) 100000 0) t₁ s₁ outcomes t' s₁ :=
    runTPCC_status_returns le_rfl (by decide)
  have types : statusFlags.types = List.replicate 100 .orderStatus := by decide +kernel
  have full : statusFlags.types.length = 100 := by rw [types, List.length_replicate]
  have created : createWorkgenArray statusFlags = some (.written statusFlags.types 100) := by
    rw [Frequencies.createWorkgenArray_eq_some]
    exact ⟨by decide, rfl⟩
  have passes : (Workgen.written statusFlags.types 100).Passes := ⟨congrArg Nat.cast full, rfl⟩
  rw [← types, ← array_written (j := 100) full] at runs
  simp only [main, Act.returns_bind, Act.returns_ofOption]
  exact ⟨outcomes, t', s₁, _, _, _, ⟨created, rfl, rfl⟩, (), _, _,
    Act.returns_assert.mpr ⟨writes_inside.mpr full.le, rfl, rfl⟩, (), _, _,
    Act.returns_assert.mpr ⟨passes, rfl, rfl⟩, (), _, _, loads, runs⟩

/-- A benchmark over an empty `RocksDBImpl`. -/
theorem main_rocksDb_status : ∃ (outcomes : List (Outcome ℚ)) (s' : Store String (Value ℚ)),
    MainRun Key.itemKey 2 statusFlags 0 outcomes (itemStore s') := by
  obtain ⟨outcomes, t', s₁, exact'⟩ := main_status_returns Key.itemKey
  obtain ⟨s', returns⟩ := (main_rocksDb_iff mapDb_works rfl).mpr ⟨s₁, exact'⟩
  exact ⟨outcomes, s', main_rocksDb mapDb_works rfl returns⟩

end Sample

end Tpcc
