import Mathlib.Data.Set.Card
import Tpcc.Txn.StockLevel

/-! What `StockLevel` counts: the items of the last 20 orders of a district whose stock is below a
threshold, each once.  The items are collected line by line with repetitions, sorted, and counted
where they differ from the one before. -/

namespace Tpcc

open KvProgram Layout

/-! ### The count of the sorted items -/

theorem int32_le_trans {i j k : Int32} (h : i ≤ j) (h' : j ≤ k) : i ≤ k := by
  rw [Int32.le_iff_toInt_le] at *
  exact h.trans h'

theorem int32_le_antisymm {i j : Int32} (h : i ≤ j) (h' : j ≤ i) : i = j := by
  rw [Int32.le_iff_toInt_le] at *
  exact Int32.toInt_inj.mp (le_antisymm h h')

/-- After an item that is not above the others of a sorted list, the count is that of the items of
the list that are different from it. -/
theorem countDistinct_sorted {last : Int32} {is : List Int32}
    (sorted : (last :: is).Pairwise (· ≤ ·)) :
    countDistinct last is = (is.toFinset.erase last).card := by
  induction is generalizing last with
  | nil => rfl
  | cons i is ih =>
    obtain ⟨least, rest⟩ := List.pairwise_cons.mp sorted
    have first := least i List.mem_cons_self
    rw [countDistinct, List.toFinset_cons]
    split
    · rename_i other
      have notLast : last ∉ insert i is.toFinset := by
        rw [Finset.mem_insert, List.mem_toFinset]
        rintro (same | mem)
        · exact other same.symm
        · exact other (int32_le_antisymm ((List.pairwise_cons.mp rest).1 last mem) first)
      rw [ih rest, Finset.erase_eq_of_notMem notLast, ← Finset.erase_insert_eq_erase,
        Finset.card_erase_add_one (Finset.mem_insert_self ..)]
    · rename_i same
      obtain rfl : i = last := not_not.mp same
      rw [ih rest, Finset.erase_insert_eq_erase]

/-- The number of different items, when -1 is not one of them. -/
theorem numDistinct_eq_card {is : List Int32} (valid : ∀ i ∈ is, 1 ≤ i.toInt) :
    numDistinct is = is.toFinset.card := by
  let sorted := is.mergeSort fun i j => decide (i ≤ j)
  have perm : sorted.Perm is := List.mergeSort_perm ..
  have ascending : sorted.Pairwise (· ≤ ·) := by
    have decided : sorted.Pairwise fun i j => decide (i ≤ j) = true := by
      refine List.pairwise_mergeSort (fun i j k h h' => ?_) (fun i j => ?_) is
      · rw [decide_eq_true_eq] at *
        exact int32_le_trans h h'
      · rw [Bool.or_eq_true, decide_eq_true_eq, decide_eq_true_eq, Int32.le_iff_toInt_le,
          Int32.le_iff_toInt_le]
        exact le_total _ _
    simpa using decided
  have above : ∀ i ∈ sorted, (-1 : Int32) ≤ i := fun i hi => by
    have := valid i (perm.mem_iff.mp hi)
    rw [Int32.le_iff_toInt_le]
    have : (-1 : Int32).toInt = -1 := by decide
    omega
  have absent : (-1 : Int32) ∉ sorted.toFinset := fun mem => by
    have := valid _ (perm.mem_iff.mp (List.mem_toFinset.mp mem))
    exact absurd this (by decide)
  calc numDistinct is = (sorted.toFinset.erase (-1)).card :=
        countDistinct_sorted (List.pairwise_cons.mpr ⟨above, ascending⟩)
    _ = is.toFinset.card := by
        rw [Finset.erase_eq_of_notMem absent, List.toFinset_eq_of_perm _ _ perm]

/-! ### The items of an order -/

section Scan

variable {ρ F κ : Type} [FloatRep F] [DecidableEq F] {env : Env ρ} {addr : Key → κ} {t : Thread ρ}
  {s : Store κ (Value F)} {threshold w d o : Int} {m : Nat} {ids : List Int32}

/-- Line `l` of order `o` is for an item `i` of which the warehouse has fewer than the threshold. -/
def LowLine (addr : Key → κ) (s : Store κ (Value F)) (threshold w d o l : Int) (i : Int32) : Prop :=
  ∃ (line : OrderLineVal F) (stock : StockVal),
    s (addr (orderLineKey w d o l)) = some (orderLineVal.encode line) ∧ line.olIId = i ∧
    s (addr (stockKey w i.toInt)) = some (stockVal.encode stock) ∧
    stock.sQuantity.toInt < threshold

/-- The lines of an order are numbered from 1 to `m`, and each is for an item that has a stock. -/
structure LinesStocked (addr : Key → κ) (s : Store κ (Value F)) (w d o : Int) (m : Nat) : Prop where
  few : m ≤ 15
  lines : ∀ l : Int, 1 ≤ l → l ≤ m → ∃ (line : OrderLineVal F) (stock : StockVal),
    s (addr (orderLineKey w d o l)) = some (orderLineVal.encode line) ∧
    (1 ≤ line.olIId.toInt ∧ line.olIId.toInt ≤ 100000) ∧
    s (addr (stockKey w line.olIId.toInt)) = some (stockVal.encode stock)
  noMore : ∀ l : Int, m < l → l ≤ 15 → s (addr (orderLineKey w d o l)) = none

theorem lowLine_iff {l : Int} {line : OrderLineVal F} {stock : StockVal} {i : Int32}
    (hline : s (addr (orderLineKey w d o l)) = some (orderLineVal.encode line))
    (hstock : s (addr (stockKey w line.olIId.toInt)) = some (stockVal.encode stock)) :
    LowLine addr s threshold w d o l i ↔ i = line.olIId ∧ stock.sQuantity.toInt < threshold := by
  constructor
  · rintro ⟨line', stock', hline', rfl, hstock', less⟩
    obtain rfl : line' = line :=
      orderLineVal.encode_injective (Option.some.inj (hline'.symm.trans hline))
    obtain rfl : stock' = stock :=
      stockVal.encode_injective (Option.some.inj (hstock'.symm.trans hstock))
    exact ⟨rfl, less⟩
  · rintro ⟨rfl, less⟩
    exact ⟨line, stock, hline, rfl, hstock, less⟩

/-- A line that is low is one of those that the order has. -/
theorem LinesStocked.of_low (h : LinesStocked addr s w d o m) {l : Int} {i : Int32} (low : 1 ≤ l)
    (high : l ≤ 15) (lowLine : LowLine addr s threshold w d o l i) : l ≤ m ∧ 1 ≤ i.toInt := by
  obtain ⟨line, stock, hline, rfl, -⟩ := lowLine
  have le : l ≤ m := by
    by_contra beyond
    rw [h.noMore l (by omega) high] at hline
    cases hline
  obtain ⟨line', _, hline', range, _⟩ := h.lines l low le
  obtain rfl : line' = line :=
    orderLineVal.encode_injective (Option.some.inj (hline'.symm.trans hline))
  exact ⟨le, range.1⟩

/-- The items of the low lines up to `k` have been collected. -/
def Collected (addr : Key → κ) (s : Store κ (Value F)) (threshold w d o : Int) (ids : List Int32)
    (k : Nat) (found : List Int32) : Prop :=
  ∀ i, i ∈ found ↔ i ∈ ids ∨ ∃ l : Int, (1 ≤ l ∧ l ≤ k) ∧ LowLine addr s threshold w d o l i

theorem Collected.line {k : Nat} {found : List Int32} {line : OrderLineVal F} {stock : StockVal}
    (collected : Collected addr s threshold w d o ids k found)
    (hline : s (addr (orderLineKey w d o (k + 1 : Nat))) = some (orderLineVal.encode line))
    (hstock : s (addr (stockKey w line.olIId.toInt)) = some (stockVal.encode stock)) :
    Collected addr s threshold w d o ids (k + 1)
      (if stock.sQuantity.toInt < threshold then found ++ [line.olIId] else found) := by
  intro i
  have last : LowLine addr s threshold w d o (k + 1 : Nat) i ↔
      i = line.olIId ∧ stock.sQuantity.toInt < threshold := lowLine_iff hline hstock
  have lines : (∃ l : Int, (1 ≤ l ∧ l ≤ (k + 1 : Nat)) ∧ LowLine addr s threshold w d o l i) ↔
      (∃ l : Int, (1 ≤ l ∧ l ≤ k) ∧ LowLine addr s threshold w d o l i) ∨
        LowLine addr s threshold w d o (k + 1 : Nat) i := by
    constructor
    · rintro ⟨l, range, low⟩
      by_cases earlier : l ≤ k
      · exact .inl ⟨l, ⟨range.1, earlier⟩, low⟩
      · obtain rfl : l = (k + 1 : Nat) := by omega
        exact .inr low
    · rintro (⟨l, range, low⟩ | low)
      · exact ⟨l, by omega, low⟩
      · exact ⟨_, by omega, low⟩
  rw [lines, last, ← or_assoc, ← collected i]
  split <;> simp [*]

theorem wp_levelOrder [DecidableEq κ] (h : LinesStocked addr s w d o m)
    {Q : List Int32 → Thread ρ → Store κ (Value F) → Prop}
    (hQ : ∀ found t, Collected addr s threshold w d o ids 15 found → Q found t s) :
    Act.wp (Contract.totally (Value F) addr).logic (levelOrder env threshold w d o ids) Q t s := by
  have few := h.few
  unfold levelOrder
  refine Act.wp_loop (fun k x _ s' => s' = s ∧ x.1 = k + 1 ∧ k ≤ m ∧
    Collected addr s threshold w d o ids k x.2) (.inr fun x _ _ hI => ?_) ?_
    ⟨rfl, rfl, Nat.zero_le m, fun i => by simp; omega⟩
  · have := hI.2.2.1
    omega
  rintro k x t s ⟨rfl, number, le, collected⟩
  have ends (last : k = m) : Collected addr s threshold w d o ids 15 x.2 := by
    intro i
    rw [collected i]
    refine or_congr_right (exists_congr fun l => ⟨fun ⟨range, low⟩ => ⟨by omega, low⟩, ?_⟩)
    rintro ⟨range, low⟩
    have := (h.of_low range.1 range.2 low).1
    exact ⟨by omega, low⟩
  unfold levelLine
  rw [number]
  split
  · rename_i inside
    simp only [Act.wp_bind]
    refine wp_uninit fun line t => ?_
    by_cases more : k + 1 ≤ m
    · obtain ⟨line, stock, hline, range, hstock⟩ := h.lines (k + 1 : Nat) (by omega) (by omega)
      refine wp_getRecord_row hline trivial fun t => ?_
      rw [if_neg (show ¬(1 : Int) = -1 by decide), Act.wp_bind]
      refine wp_uninit fun old t => ?_
      rw [Act.wp_bind]
      refine wp_getRecord_row hstock trivial fun t => ?_
      have next := collected.line hline hstock
      split
      · rename_i less
        rw [if_pos less] at next
        exact ⟨rfl, rfl, more, next⟩
      · rename_i enough
        rw [if_neg enough] at next
        exact ⟨rfl, rfl, more, next⟩
    · refine wp_getRecord ⟨trivial, fun status line t reads => ?_⟩
      rw [Contract.totally, h.noMore (k + 1 : Nat) (by omega) (by omega), reads_none] at reads
      rw [if_pos reads.1]
      exact hQ x.2 t (ends (by omega))
  · exact hQ x.2 t (ends (by omega))

end Scan

/-! ### The count -/

section Count

variable {ρ F κ : Type} [FloatRep F] [DecidableEq F] {addr : Key → κ} {s : Store κ (Value F)}
  {threshold w d n : Int} {t : Thread ρ}

/-- `COUNT(DISTINCT OL_I_ID)` counts these: the items of the lines of orders from `n - 20` to
`n - 1` whose stock in the warehouse is below the threshold. -/
def lowItems (addr : Key → κ) (s : Store κ (Value F)) (threshold w d n : Int) : Set Int :=
  {i | ∃ o l : Int, (n - 20 ≤ o ∧ o < n) ∧ (1 ≤ l ∧ l ≤ 15) ∧
    ∃ (line : OrderLineVal F) (stock : StockVal),
      s (addr (orderLineKey w d o l)) = some (orderLineVal.encode line) ∧ line.olIId.toInt = i ∧
      s (addr (stockKey w i)) = some (stockVal.encode stock) ∧ stock.sQuantity.toInt < threshold}

theorem mem_lowItems {i : Int} : i ∈ lowItems addr s threshold w d n ↔
    ∃ o l : Int, (n - 20 ≤ o ∧ o < n) ∧ (1 ≤ l ∧ l ≤ 15) ∧
      ∃ item : Int32, item.toInt = i ∧ LowLine addr s threshold w d o l item := by
  refine exists_congr fun o => exists_congr fun l => and_congr_right fun _ =>
    and_congr_right fun _ => ?_
  constructor
  · rintro ⟨line, stock, hline, rfl, hstock, less⟩
    exact ⟨line.olIId, rfl, line, stock, hline, rfl, hstock, less⟩
  · rintro ⟨_, rfl, line, stock, hline, rfl, hstock, less⟩
    exact ⟨line, stock, hline, rfl, hstock, less⟩

/-- The items that the scan of the orders collects are the low ones. -/
theorem numDistinct_lowItems {first : Int} {found : List Int32} (start : first = n - 20)
    (orders : ∀ o, n - 20 ≤ o → o < n → ∃ m, LinesStocked addr s w d o m)
    (collected : ∀ i, i ∈ found ↔ ∃ k : Nat, k < 20 ∧
      ∃ l : Int, (1 ≤ l ∧ l ≤ 15) ∧ LowLine addr s threshold w d (first + k) l i) :
    numDistinct found = (lowItems addr s threshold w d n).ncard := by
  have valid : ∀ i ∈ found, 1 ≤ i.toInt := fun i mem => by
    obtain ⟨k, hk, l, range, low⟩ := (collected i).mp mem
    obtain ⟨m, lines⟩ := orders (first + k) (by omega) (by omega)
    exact (lines.of_low range.1 range.2 low).2
  have items : lowItems addr s threshold w d n = ↑(found.toFinset.image Int32.toInt) := by
    ext i
    rw [mem_lowItems, Finset.mem_coe, Finset.mem_image]
    constructor
    · rintro ⟨o, l, horder, hl, item, same, low⟩
      refine ⟨item, List.mem_toFinset.mpr ((collected item).mpr ⟨(o - first).toNat, by omega, l, hl,
        ?_⟩), same⟩
      rwa [show first + ((o - first).toNat : Int) = o by omega]
    · rintro ⟨item, mem, same⟩
      obtain ⟨k, hk, l, hl, low⟩ := (collected item).mp (List.mem_toFinset.mp mem)
      exact ⟨first + k, l, by omega, hl, item, same, low⟩
  rw [numDistinct_eq_card valid, items, Set.ncard_coe_finset,
    Finset.card_image_of_injective _ fun _ _ => Int32.toInt_inj.mp]

variable [DecidableEq κ] {env : Env ρ} {W : Nat} {dist : DistrictVal F}

/-- `StockLevel` of a district returns, and counts the items that the query selects: each once,
whatever lines and orders they are in. -/
theorem stockLevelOf_counts (env : Env ρ) (threshold : Int) (t : Thread ρ)
    (row : s (addr (districtKey w d)) = some (districtVal.encode dist))
    (number : 21 ≤ dist.dNextOId.toInt ∧ dist.dNextOId.toInt ≤ 10000000)
    (orders : ∀ o, dist.dNextOId.toInt - 20 ≤ o → o < dist.dNextOId.toInt →
      ∃ m, LinesStocked addr s w d o m) :
    ∃ res t', Act.Returns addr (stockLevelOf env threshold w d) t s res t' s ∧
      (res.threshold = threshold ∧ res.warehouseId = w ∧ res.districtId = d) ∧
      res.numDistinct = (lowItems addr s threshold w d dist.dNextOId.toInt).ncard := by
  have run : Act.wp (Contract.totally (Value F) addr).logic (stockLevelOf env threshold w d)
      (fun res _ s' => s' = s ∧
        (res.threshold = threshold ∧ res.warehouseId = w ∧ res.districtId = d) ∧
        res.numDistinct = (lowItems addr s threshold w d dist.dNextOId.toInt).ncard) t s := by
    simp only [stockLevelOf, Act.wp_bind, Act.wp_pure]
    refine wp_uninit fun old t => wp_getRecord_row row trivial fun t => ?_
    refine Act.wp_ofOption (fun first more => ?_) (.inr ?_)
    · have start : first.toInt = dist.dNextOId.toInt + -20 := addInt32_toInt more
      refine Act.wp_mono (Act.wp_forRange (fun k found _ s' => s' = s ∧ ∀ i, i ∈ found ↔
        ∃ j : Nat, j < k ∧ ∃ l : Int, (1 ≤ l ∧ l ≤ 15) ∧
          LowLine addr s threshold w d (first.toInt + j) l i) ?_ ⟨rfl, by simp⟩) ?_
      · rintro k found t s' _ (last : k < 0 + 20) ⟨rfl, collected⟩
        obtain ⟨m, lines⟩ := orders (first.toInt + k) (by omega) (by omega)
        refine wp_levelOrder lines fun found' t next => ⟨rfl, fun i => ?_⟩
        rw [next i, collected i]
        exact Nat.exists_lt_succ_right.symm
      · rintro found t s' ⟨rfl, collected⟩
        exact ⟨rfl, ⟨trivial, trivial, trivial⟩, numDistinct_lowItems (by omega) orders collected⟩
    · have room : -2 ^ 31 ≤ dist.dNextOId.toInt + -20 ∧
          dist.dNextOId.toInt + -20 < 2 ^ 31 := by omega
      rw [addInt32, if_pos room]
      rfl
  obtain ⟨res, t', s', returns, rfl, drawn, count⟩ := Act.returns_of_wp run id
  exact ⟨res, t', returns, drawn, count⟩

/-- `StockLevel` that draws a threshold, a warehouse and a district returns, leaves the store, and
counts the items that the query selects for them. -/
theorem stockLevel_counts {t₁ t₂ t₃ : Thread ρ}
    (drawsThreshold : Act.Returns addr (randomNumber env 10 20) t s threshold t₁ s)
    (drawsWarehouse : Act.Returns addr (pickWarehouseId env 1 W) t₁ s w t₂ s)
    (drawsDistrict :
      Act.Returns addr (randomNumber env 1 numDistrictPerWarehouse) t₂ s d t₃ s)
    (row : s (addr (districtKey w d)) = some (districtVal.encode dist))
    (number : 21 ≤ dist.dNextOId.toInt ∧ dist.dNextOId.toInt ≤ 10000000)
    (orders : ∀ o, dist.dNextOId.toInt - 20 ≤ o → o < dist.dNextOId.toInt →
      ∃ m, LinesStocked addr s w d o m) :
    ∃ res t', Act.Returns addr (stockLevel env W) t s res t' s ∧
      (res.threshold = threshold ∧ res.warehouseId = w ∧ res.districtId = d) ∧
      res.numDistinct = (lowItems addr s threshold w d dist.dNextOId.toInt).ncard := by
  obtain ⟨res, t', returns, drawn, count⟩ :=
    stockLevelOf_counts env threshold t₃ row number orders
  refine ⟨res, t', ?_, drawn, count⟩
  unfold stockLevel
  rw [Act.returns_bind]
  refine ⟨threshold, t₁, s, drawsThreshold, Act.returns_bind.mpr ?_⟩
  exact ⟨w, t₂, s, drawsWarehouse, Act.returns_bind.mpr ⟨d, t₃, s, drawsDistrict, returns⟩⟩

end Count

/-! ### Orders of one item -/

def smallDistrict : DistrictVal ℚ := { zeroRow districtVal with dNextOId := 21 }

def oneItemLine : OrderLineVal ℚ := { zeroRow orderLineVal with olIId := 7 }

/-- A store whose orders have 15 lines each, all of them for the item 7. -/
def oneItemStore : Store Key (Value ℚ) := fun k =>
  match k.table with
  | .district => some (districtVal.encode smallDistrict)
  | .orderLine => some (orderLineVal.encode oneItemLine)
  | .stock => some (stockVal.encode (zeroRow stockVal))
  | _ => none

theorem oneItemStore_lines (w d o : Int) : LinesStocked id oneItemStore w d o 15 where
  few := le_rfl
  lines _ _ _ := ⟨oneItemLine, zeroRow stockVal, rfl, by decide, rfl⟩
  noMore _ _ _ := by omega

theorem oneItemStore_lowItems : lowItems id oneItemStore 10 1 1 21 = {7} := by
  ext i
  rw [mem_lowItems, Set.mem_singleton_iff]
  have low (o l : Int) (item : Int32) : LowLine id oneItemStore 10 1 1 o l item ↔
      item = oneItemLine.olIId ∧ (zeroRow stockVal : StockVal).sQuantity.toInt < 10 := by
    have line : oneItemStore (orderLineKey 1 1 o l) = some (orderLineVal.encode oneItemLine) := rfl
    exact lowLine_iff line rfl
  constructor
  · rintro ⟨o, l, _, _, item, rfl, lowLine⟩
    rw [((low o l item).mp lowLine).1]
    rfl
  · rintro rfl
    exact ⟨1, 1, by decide, by decide, 7, by decide, (low 1 1 7).mpr ⟨rfl, by decide⟩⟩

theorem stockLevel_counts_one : ∃ res t',
    Act.Returns id (stockLevel Env.counting 2) ⟨0, 0⟩ oneItemStore res t' oneItemStore ∧
      res.numDistinct = 1 := by
  have threshold : Act.Returns id (randomNumber Env.counting 10 20) ⟨0, 0⟩ oneItemStore 10 ⟨0, 0⟩
      oneItemStore := rfl
  have warehouse : Act.Returns id (pickWarehouseId Env.counting 1 2) ⟨0, 0⟩ oneItemStore 1 ⟨0, 0⟩
      oneItemStore := rfl
  have district : Act.Returns id (randomNumber Env.counting 1 numDistrictPerWarehouse) ⟨0, 0⟩
      oneItemStore 1 ⟨0, 0⟩ oneItemStore := rfl
  have row : oneItemStore (districtKey 1 1) = some (districtVal.encode smallDistrict) := rfl
  obtain ⟨res, t', returns, _, count⟩ := stockLevel_counts threshold warehouse district row
    (by decide) fun o _ _ => ⟨15, oneItemStore_lines 1 1 o⟩
  refine ⟨res, t', returns, count.trans ?_⟩
  rw [show smallDistrict.dNextOId.toInt = 21 from rfl, oneItemStore_lowItems, Set.ncard_singleton]

end Tpcc
