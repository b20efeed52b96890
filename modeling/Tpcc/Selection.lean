import Tpcc.NewOrderRows

/-! The loop of `NewOrder` that selects the items.  Its counter goes back where a stock has been
chosen before, and `all_local` is cleared before the loop knows whether the remote stock is kept:
it is discarded only where the same stock is already one of the remote ones, since the keys of
stocks of different warehouses are different. -/

namespace Tpcc

open KvProgram

/-- `MAX_OL_CNT`, the size of the buffers. -/
abbrev maxOlCnt : Nat := 15

variable {W : Nat} {wId n : Int} {x x' : Selection}

namespace Selection

/-- The buffers before and after an iteration: it writes nothing, or one entry of the local or of
the remote ones, at an index within them. -/
def InBounds (x x' : Selection) : Prop :=
  (x'.locals = x.locals ∧ x'.remotes = x.remotes) ∨
  (∃ stock, x'.locals = x.locals ++ [stock] ∧ x'.remotes = x.remotes ∧
    x.locals.length < maxOlCnt) ∨
  ∃ stock, x'.locals = x.locals ∧ x'.remotes = x.remotes ++ [stock] ∧ x.remotes.length < maxOlCnt

/-- An iteration that goes on, by what it has drawn: an item, and a supplier where the stock is
remote. -/
inductive Next (W : Nat) (wId n : Int) (x : Selection) : Selection → Prop
  | own {item : Int} (more : x.i < n) (hi : 1 ≤ item ∧ item ≤ numItem) :
      Next W wId n x (localStock wId item x)
  | other {item supplier : Int} (more : x.i < n) (hi : 1 ≤ item ∧ item ≤ numItem)
      (remote : 1 ≤ supplier ∧ supplier ≤ W ∧ supplier ≠ wId) :
      Next W wId n x (remoteStock supplier item x)

/-- The keys of the stocks that have been chosen. -/
def keys (x : Selection) : List Int64 := (x.locals ++ x.remotes).map (·.sKey)

/-- The set has the keys of the stocks chosen, which are different, and `all_local` says whether
all of them are local. -/
structure Marked (x : Selection) : Prop where
  seen : ∀ key, key ∈ x.stockSet ↔ key ∈ x.keys
  nodup : x.keys.Nodup
  flag : x.allLocal = if x.remotes = [] then 1 else 0

/-- What the loop keeps true. -/
structure Chosen (W : Nat) (wId n : Int) (x : Selection) : Prop extends Marked x where
  valid : x.Valid W wId
  few : x.i ≤ n

/-- A remote stock is discarded only where there are remote stocks already. -/
theorem Chosen.remotes_ne_nil (h : x.Chosen W wId n) (small : W ≤ 21474) (hw : 1 ≤ wId ∧ wId ≤ W)
    {item supplier : Int} (hi : 1 ≤ item ∧ item ≤ numItem)
    (remote : 1 ≤ supplier ∧ supplier ≤ W ∧ supplier ≠ wId)
    (old : makeStockKey supplier item ∈ x.stockSet) : x.remotes ≠ [] := by
  intro none
  obtain ⟨stock, mem, same⟩ := List.mem_map.mp ((h.seen _).mp old)
  rw [stock.sKey_eq] at same
  have range := h.valid.items stock mem
  rw [none, List.append_nil] at mem
  have own := h.valid.supplies stock mem
  obtain ⟨supply, _⟩ := makeStockKey_inj (by omega) range (by omega) hi same
  omega

theorem Chosen.local_step (h : x.Chosen W wId n) (more : x.i < n) {item : Int}
    (hi : 1 ≤ item ∧ item ≤ numItem) : (localStock wId item x).Chosen W wId n := by
  obtain ⟨valid, few⟩ := localStock_valid h.valid more hi.1 hi.2
  refine ⟨?_, valid, few⟩
  simp only [localStock]
  split
  · exact ⟨h.seen, h.nodup, h.flag⟩
  · rename_i new
    let choice := ChosenStock.of wId item
    have keys : List.Perm (((x.locals ++ [choice]) ++ x.remotes).map (·.sKey))
        (choice.sKey :: x.keys) := by
      rw [List.append_assoc, List.singleton_append]
      exact List.perm_middle.map _
    refine ⟨fun key => ?_, keys.nodup_iff.mpr (List.nodup_cons.mpr ⟨?_, h.nodup⟩), h.flag⟩
    · rw [List.mem_cons, h.seen, ← List.mem_cons]
      exact keys.mem_iff.symm
    · rwa [← h.seen]

theorem Chosen.remote_step (h : x.Chosen W wId n) (small : W ≤ 21474) (hw : 1 ≤ wId ∧ wId ≤ W)
    (more : x.i < n) {item supplier : Int} (hi : 1 ≤ item ∧ item ≤ numItem)
    (remote : 1 ≤ supplier ∧ supplier ≤ W ∧ supplier ≠ wId) :
    (remoteStock supplier item x).Chosen W wId n := by
  obtain ⟨valid, few⟩ := remoteStock_valid h.valid more hi.1 hi.2 remote
  refine ⟨?_, valid, few⟩
  simp only [remoteStock]
  split
  · rename_i old
    exact ⟨h.seen, h.nodup, (if_neg (h.remotes_ne_nil small hw hi remote old)).symm⟩
  · rename_i new
    let choice := ChosenStock.of supplier item
    have keys : List.Perm ((x.locals ++ (x.remotes ++ [choice])).map (·.sKey))
        (choice.sKey :: x.keys) := by
      rw [← List.append_assoc, List.map_append]
      exact List.perm_append_singleton ..
    refine ⟨fun key => ?_, keys.nodup_iff.mpr (List.nodup_cons.mpr ⟨?_, h.nodup⟩), by simp⟩
    · rw [List.mem_cons, h.seen, ← List.mem_cons]
      exact keys.mem_iff.symm
    · rwa [← h.seen]

theorem Chosen.next (h : x.Chosen W wId n) (small : W ≤ 21474) (hw : 1 ≤ wId ∧ wId ≤ W)
    (next : Next W wId n x x') : x'.Chosen W wId n := by
  cases next with
  | own more hi => exact h.local_step more hi
  | other more hi remote => exact h.remote_step small hw more hi remote

/-- An iteration starts while fewer than `n` stocks have been chosen, so that there is room for one
more. -/
theorem Chosen.inBounds (h : x.Chosen W wId n) (most : n ≤ maxOlCnt) (next : Next W wId n x x') :
    x.InBounds x' := by
  have count := h.valid.count
  cases next with
  | own more hi =>
    simp only [localStock]
    split
    · exact .inl ⟨rfl, rfl⟩
    · exact .inr (.inl ⟨_, rfl, rfl, by omega⟩)
  | other more hi remote =>
    simp only [remoteStock]
    split
    · exact .inl ⟨rfl, rfl⟩
    · exact .inr (.inr ⟨_, rfl, rfl, by omega⟩)

end Selection

/-! ### The loop -/

section Loop

variable {ρ K V κ : Type} [DecidableEq κ] {env : Env ρ} {addr : K → κ} {t t' : Thread ρ}
  {s s' : Store κ V}

/-- What an iteration returns: a next selection, or the one that has all its items. -/
theorem selectItem_returns {next : Selection ⊕ Selection}
    (returns : Act.Returns addr (selectItem env W wId n x) t s next t' s') :
    (∃ x', next = .inl x' ∧ x.Next W wId n x') ∨ next = .inr x ∧ n ≤ x.i := by
  refine Act.wp_returns (C := Contract.partly V addr) (Q := fun next _ _ =>
    (∃ x', next = .inl x' ∧ x.Next W wId n x') ∨ next = .inr x ∧ n ≤ x.i) ?_ returns
  unfold selectItem
  split
  · rename_i more
    rw [Act.wp_bind]
    refine wp_getItemId (.inl trivial) fun item t low high => ?_
    rw [Act.wp_bind]
    refine wp_drawsLocal trivial fun isLocal t => ?_
    split
    · exact .inl ⟨_, rfl, .own more ⟨low, high⟩⟩
    · rw [Act.wp_bind]
      refine wp_otherWarehouse trivial fun supplier t lower upper other => ?_
      exact .inl ⟨_, rfl, .other more ⟨low, high⟩ ⟨lower, upper, other⟩⟩
  · rename_i all
    exact .inr ⟨rfl, not_lt.mp all⟩

theorem Selection.Chosen.iterates {c c' : Selection × Thread ρ × Store κ V}
    {pair : Selection × Selection} (h : c.1.Chosen W wId n) (small : W ≤ 21474)
    (hw : 1 ≤ wId ∧ wId ≤ W) (most : n ≤ maxOlCnt)
    (step : Act.Iterates addr (selectItem env W wId n) c pair c') :
    c'.1.Chosen W wId n ∧ pair.1.InBounds pair.2 := by
  obtain ⟨rfl, returns⟩ := step
  rcases selectItem_returns returns with ⟨x', same, next⟩ | ⟨same, _⟩
  · obtain rfl := Sum.inl.inj same
    exact ⟨h.next small hw next, h.inBounds most next⟩
  · cases same

/-- What the loop has selected when it ends: as many stocks as the order has items, all different,
the local ones from the own warehouse and the remote ones from others, and a flag that says whether
there are remote ones.  Every iteration has written within the buffers. -/
theorem selectItems_correct (small : (W + 1) * 100000 < 2 ^ 31) (hw : 1 ≤ wId ∧ wId ≤ W)
    (items : 5 ≤ n ∧ n ≤ 15)
    (returns : Act.Returns addr (selectItems env W wId n) t s x t' s') :
    (∃ pairs t1 s1, Run (· = (⟨0, 1, [], [], []⟩, t, s))
      (Act.Iterates addr (selectItem env W wId n)) pairs (x, t1, s1) ∧
      ∀ pair ∈ pairs, pair.1.InBounds pair.2) ∧
    x.locals.length + x.remotes.length = n ∧ x.keys.Nodup ∧
    (∀ stock ∈ x.locals ++ x.remotes, stock.sKey = makeStockKey stock.supply stock.itemId) ∧
    (∀ stock ∈ x.locals, stock.supply = wId) ∧
    (∀ stock ∈ x.remotes, 1 ≤ stock.supply ∧ stock.supply ≤ W ∧ stock.supply ≠ wId) ∧
    (x.allLocal = 1 ↔ x.remotes.length = 0) := by
  obtain ⟨pairs, last, t1, s1, run, ends⟩ := Act.returns_loop returns
  obtain ⟨rfl, all⟩ : x = last ∧ n ≤ last.i := by
    rcases selectItem_returns ends with ⟨_, same, _⟩ | ⟨same, all⟩
    · cases same
    · exact ⟨Sum.inr.inj same, all⟩
  have kept := Run.invariant (I := fun pairs c => c.1.Chosen W wId n ∧
    ∀ pair ∈ pairs, pair.1.InBounds pair.2) ?_ ?_ run
  · obtain ⟨chosen, inBounds⟩ : x.Chosen W wId n ∧ ∀ pair ∈ pairs, pair.1.InBounds pair.2 := kept
    have count := chosen.valid.count
    have few := chosen.few
    refine ⟨⟨pairs, t1, s1, run, inBounds⟩, by omega, chosen.nodup, fun stock _ => stock.sKey_eq,
      chosen.valid.supplies, chosen.valid.others, ?_⟩
    rw [chosen.flag, List.length_eq_zero_iff]
    split <;> simp [*]
  · rintro _ rfl
    have valid : Selection.Valid W wId ⟨0, 1, [], [], []⟩ := ⟨by simp, by simp, by simp, by simp⟩
    exact ⟨⟨⟨by simp [Selection.keys], List.nodup_nil, rfl⟩, valid, by simp only; omega⟩, by simp⟩
  · intro pairs c pair c' ⟨chosen, inBounds⟩ step
    obtain ⟨next, write⟩ := chosen.iterates (by omega) hw items.2 step
    exact ⟨next, List.forall_mem_cons.mpr ⟨write, inBounds⟩⟩

end Loop

/-- The sample generator selects five items, with two warehouses. -/
theorem selectItems_correct_five : ∃ x t', Act.Returns id
    (selectItems sampleEnv 2 1 5 : Act _ Key (Value ℚ) _) sampleThread (fun _ => none) x t'
      (fun _ => none) ∧ x.locals.length + x.remotes.length = 5 ∧ x.keys.Nodup := by
  have drawn : ((selectItems sampleEnv 2 1 5 sampleThread : Prog Key (Value ℚ) _).result.isSome) =
      true := by
    decide +kernel
  obtain ⟨⟨x, t'⟩, result⟩ := Option.isSome_iff_exists.mp drawn
  have returns : Act.Returns id (selectItems sampleEnv 2 1 5 : Act _ Key (Value ℚ) _) sampleThread
      (fun _ => none) x t' (fun _ => none) := by
    rw [Act.Returns, Prog.eq_done result]
    rfl
  obtain ⟨_, count, nodup, _⟩ := selectItems_correct (by decide) (by decide) (by decide) returns
  exact ⟨x, t', returns, by exact_mod_cast count, nodup⟩

end Tpcc
