import Tpcc.Consistency.OrderIds

/-! The counters of a stock against the lines that orders have placed on it.  The update of a stock
adds to `s_ytd` and to `s_remote_cnt`, so that these have the total of the quantities and the number
of the remote lines; it never adds to `s_order_cnt`, which stays as the loader has entered it. -/

namespace Tpcc

open KvProgram Layout

/-- The stock is that of the item `i` at the warehouse `w`. -/
def ChosenStock.At (stock : ChosenStock) (w i : Int) : Prop := stock.supply = w ∧ stock.itemId = i

instance {stock : ChosenStock} {w i : Int} : Decidable (stock.At w i) :=
  inferInstanceAs (Decidable (_ ∧ _))

/-- The lines of an order from the warehouse `home` that are for the item `i` of the warehouse `w`,
the latest first: the quantity of each, and whether it is remote. -/
def linesOn (w i home : Int) (lines : List (ChosenStock × UInt32)) : List (UInt32 × Bool) :=
  ((lines.filter (·.1.At w i)).map fun line => (line.2, decide (home ≠ w))).reverse

/-- The lines that a transaction has placed on the item `i` of the warehouse `w`. -/
def Outcome.linesOn {F : Type} (w i : Int) : Outcome F → List (UInt32 × Bool)
  | .newOrder res => Tpcc.linesOn w i res.warehouseId res.lines
  | _ => []

/-- All lines that a run has placed on the item `i` of the warehouse `w`, the latest first. -/
def placedOn {F : Type} (w i : Int) (run : List (Outcome F)) : List (UInt32 × Bool) :=
  run.flatMap (·.linesOn w i)

def totalQuantity (lines : List (UInt32 × Bool)) : Nat := (lines.map (·.1.toNat)).sum

def numRemote (lines : List (UInt32 × Bool)) : Nat := lines.countP (·.2)

/-- The counters of a stock row are those of the lines placed on it. -/
structure StockCounted (lines : List (UInt32 × Bool)) (row : StockVal) : Prop where
  ytd : row.sYtd.toInt = totalQuantity lines
  orders : row.sOrderCnt.toInt = lines.length
  remotes : row.sRemoteCnt.toInt = numRemote lines

/-! ### The updates of one row -/

/-- The counters that the loader enters. -/
def StockVal.Unused (stock : StockVal) : Prop :=
  stock.sYtd = 0 ∧ stock.sOrderCnt = 0 ∧ stock.sRemoteCnt = 0

/-- What the updates of a stock row count: not the lines. -/
structure Updates (lines : List (UInt32 × Bool)) (row : StockVal) : Prop where
  ytd : row.sYtd.toUInt32.toNat = totalQuantity lines % 2 ^ 32
  orders : row.sOrderCnt = 0
  remotes : row.sRemoteCnt.toInt = numRemote lines

theorem Updates.step {lines : List (UInt32 × Bool)} {stock row : StockVal} {line : UInt32 × Bool}
    (h : Updates lines stock) (step : StockStep stock line row) : Updates (line :: lines) row := by
  obtain ⟨_, _, _, more, rfl⟩ := updateStock_iff.mp step.2
  constructor
  · simp only [UInt32.toUInt32_toInt32, UInt32.toNat_add, h.ytd, totalQuantity, List.map_cons,
      List.sum_cons]
    omega
  · exact h.orders
  · simp only [addInt32_toInt more, h.remotes, numRemote, List.countP_cons]
    split <;> simp_all

theorem updates_of_run {lines : List (UInt32 × Bool)} {first row : StockVal} (unused : first.Unused)
    (run : Run (· = first) StockStep lines row) : Updates lines row := by
  obtain ⟨ytd, orders, remotes⟩ := unused
  refine Run.invariant (I := Updates) ?_ (fun _ _ _ _ h step => h.step step) run
  rintro _ rfl
  exact ⟨by rw [ytd]; rfl, orders, by rw [remotes]; rfl⟩

/-- The counter of the orders is right only where there are none. -/
theorem Updates.counted_iff {lines : List (UInt32 × Bool)} {row : StockVal} (h : Updates lines row)
    (small : totalQuantity lines < 2 ^ 31) : row.sYtd.toInt = totalQuantity lines ∧
      row.sRemoteCnt.toInt = numRemote lines ∧ (StockCounted lines row ↔ lines = []) := by
  have total : row.sYtd.toUInt32.toNat = totalQuantity lines := by
    rw [h.ytd, Nat.mod_eq_of_lt (by omega)]
  have ytd : row.sYtd.toInt = totalQuantity lines := by
    have value : row.sYtd.toUInt32.toInt32.toInt = row.sYtd.toUInt32.toNat :=
      toInt_toInt32 (by omega)
    rwa [total] at value
  have orders : row.sOrderCnt.toInt = 0 := by rw [h.orders]; rfl
  refine ⟨ytd, h.remotes, fun counted => ?_, fun none => ⟨ytd, ?_, h.remotes⟩⟩
  · have length := counted.orders
    rw [orders] at length
    exact List.length_eq_zero_iff.mp (by omega)
  · rw [orders, none]
    rfl

/-! ### The updates of an order -/

section Order

variable {F : Type} [FloatRep F] [DecidableEq F] [Amount F] {W : Nat} {w i : Int}
  {first : StockVal} {lines : List (ChosenStock × UInt32)} {s s' : Store Key (Value F)}

theorem linesOn_snoc {home : Int} {stock : ChosenStock} {quantity : UInt32} :
    linesOn w i home (lines ++ [(stock, quantity)]) =
      if stock.At w i then (quantity, decide (home ≠ w)) :: linesOn w i home lines
      else linesOn w i home lines := by
  split <;> simp [linesOn, *]

/-- The row of a stock after some lines of an order from the warehouse `home`. -/
def StockUpdated (w i home : Int) (first : StockVal) (lines : List (ChosenStock × UInt32))
    (s : Store Key (Value F)) : Prop :=
  ∃ row, s (stockKey w i) = some (stockVal.encode row) ∧
    Run (· = first) StockStep (linesOn w i home lines) row

omit [DecidableEq F] [Amount F] in
theorem StockUpdated.put_other {home : Int} {k : Key} {v : Value F}
    (h : StockUpdated w i home first lines s) (other : k.table ≠ .stock) :
    StockUpdated w i home first lines (s.put k v) := by
  obtain ⟨row, hrow, run⟩ := h
  exact ⟨row, (sameOn_put other _ rfl).trans hrow, run⟩

section Wp

variable {ρ : Type} {env : Env ρ} {t : Thread ρ} {wId dId : Int} {oId : Int32}

/-- The stocks that an order may choose. -/
def ChosenStock.InRange (stock : ChosenStock) (W : Nat) : Prop :=
  (1 ≤ stock.supply ∧ stock.supply ≤ W) ∧ 1 ≤ stock.itemId ∧ stock.itemId ≤ 100000

theorem wp_newOrderLine_stock {stock : ChosenStock}
    {Q : OrderLineVal F × UInt32 → Thread ρ → Store Key (Value F) → Prop} (small : W ≤ 21474)
    (hw : 1 ≤ w ∧ w ≤ W) (hi : 1 ≤ i ∧ i ≤ 100000) (range : stock.InRange W)
    (updated : StockUpdated w i wId first lines s)
    (h : ∀ line quantity t s', StockUpdated w i wId first (lines ++ [(stock, quantity)]) s' →
      Q (line, quantity) t s') :
    Act.wp (Contract.partly (Value F) id).logic (newOrderLine env wId stock) Q t s := by
  obtain ⟨before, hbefore, run⟩ := updated
  simp only [newOrderLine, Act.wp_bind, Act.wp_pure, wp_putRecord]
  refine wp_randomNumber (.inl trivial) fun q t low high => ?_
  have quantity : 1 ≤ (UInt32.ofInt q).toNat ∧ (UInt32.ofInt q).toNat ≤ 10 := by
    interval_cases q <;> decide
  refine wp_uninit fun item t => wp_getRecord ⟨trivial, fun _ item t _ => ?_⟩
  refine wp_uninit fun old t => wp_getRecord ⟨trivial, fun status val t reads => ?_⟩
  refine Act.wp_ofOption (fun row update => ⟨trivial, ?_⟩) (.inl trivial)
  refine wp_uninit fun line t => h _ _ t _ ?_
  unfold StockUpdated
  rw [linesOn_snoc]
  have key : stock.key = stockKey stock.supply stock.itemId := stock.key_eq
  by_cases own : stock.At w i
  · obtain ⟨rfl, rfl⟩ := own
    have reads : Reads stockVal (s (stockKey stock.supply stock.itemId)) old status val :=
      key ▸ reads
    rw [hbefore, reads_encode] at reads
    obtain ⟨_, rfl⟩ := reads
    rw [if_pos ⟨rfl, rfl⟩]
    refine ⟨row, ?_, .next run ⟨quantity, ?_⟩⟩
    · rw [← key]
      exact Store.put_self
    · simpa only [ne_comm] using update
  · rw [if_neg own]
    refine ⟨before, (Store.put_of_ne ?_).trans hbefore, run⟩
    intro (same : stockKey w i = stock.key)
    obtain ⟨⟨sLow, sHigh⟩, item⟩ := range
    obtain ⟨rfl, rfl⟩ := stockKey_inj (by omega) hi (by omega) item (same.trans key)
    exact own ⟨rfl, rfl⟩

/-- A loop that places lines and puts their rows at keys of other tables. -/
theorem wp_orderLines_stock {stocks : List ChosenStock}
    {Q : List (ChosenStock × UInt32) → Thread ρ → Store Key (Value F) → Prop} (key : Nat → Key)
    (other : ∀ i, (key i).table ≠ .stock) (small : W ≤ 21474) (hw : 1 ≤ w ∧ w ≤ W)
    (hi : 1 ≤ i ∧ i ≤ 100000) (range : ∀ stock ∈ stocks, stock.InRange W)
    (updated : StockUpdated w i wId first lines s)
    (h : ∀ lines t s', StockUpdated w i wId first lines s' → Q lines t s') :
    Act.wp (Contract.partly (Value F) id).logic (.forEach (fun number stock lines => do
      let (line, quantity) ← newOrderLine env wId stock
      let _ ← putRecord orderLineVal (key number) line
      return lines ++ [(stock, quantity)]) 1 stocks lines) Q t s := by
  refine Act.wp_mono (Act.wp_forEach (fun _ lines _ s => StockUpdated w i wId first lines s) ?_
    updated) h
  intro seen stock lines t s chosen updated
  have mem : stock ∈ stocks := chosen.subset (by simp)
  simp only [Act.wp_bind, Act.wp_pure, wp_putRecord]
  refine wp_newOrderLine_stock small hw hi (range stock mem) updated
    fun line quantity t s updated =>
    ⟨trivial, updated.put_other (other _)⟩

/-- An order updates the row of a stock once for each of its lines on it. -/
theorem newOrder_stock {t' : Thread ρ} {res : NewOrderResult} (small : W ≤ 21474)
    (hw : 1 ≤ w ∧ w ≤ W) (hi : 1 ≤ i ∧ i ≤ 100000)
    (row : s (stockKey w i) = some (stockVal.encode first))
    (returns : Act.Returns id (newOrder env W) t s res t' s') :
    StockUpdated w i res.warehouseId first res.lines s' := by
  refine Act.wp_returns (C := Contract.partly (Value F) id)
    (Q := fun res _ s' => StockUpdated w i res.warehouseId first res.lines s') ?_ returns
  refine wp_newOrder_draws trivial fun home d c n x t range _ _ _ valid _ => ?_
  have locals : ∀ stock ∈ x.locals, stock.InRange W := fun stock mem => by
    have own := valid.supplies stock mem
    exact ⟨by omega, valid.items stock (List.mem_append_left _ mem)⟩
  have remotes : ∀ stock ∈ x.remotes, stock.InRange W := fun stock mem => by
    have other := valid.others stock mem
    exact ⟨by omega, valid.items stock (List.mem_append_right _ mem)⟩
  refine wp_insertOrder fun _ _ dist next norder _ t _ _ => ?_
  refine wp_orderLines_stock (fun _ => orderKey home d _) (by simp) small hw hi locals
    ⟨first, ?_, .start rfl⟩ fun lines t s1 updated => ?_
  · refine (Store.puts_of_ne ?_).trans row
    intro write mem
    apply Key.ne_of_table
    simp only [List.mem_cons, List.not_mem_nil, or_false] at mem
    rcases mem with rfl | rfl | rfl | rfl <;> simp
  · exact wp_orderLines_stock (fun number => orderLineKey home d _ (x.locals.length + number))
      (by simp) small hw hi remotes updated fun lines t s2 updated => updated

end Wp

/-- A transaction updates the row of a stock once for each of the lines that it places on it. -/
theorem Step.stockRow {outcome : Outcome F} (small : W ≤ 21474) (hw : 1 ≤ w ∧ w ≤ W)
    (hi : 1 ≤ i ∧ i ≤ 100000) (row : s (stockKey w i) = some (stockVal.encode first))
    (step : Step id W s outcome s') : ∃ after, s' (stockKey w i) = some (stockVal.encode after) ∧
      Run (· = first) StockStep (outcome.linesOn w i) after := by
  cases outcome with
  | newOrder res =>
    obtain ⟨ρ, env, t, t', returns⟩ := step.newOrder_returns
    exact newOrder_stock small hw hi row returns
  | _ =>
    have same : SameOn .stock s s' := step.sameOn (by simp [Outcome.tables])
    exact ⟨first, (same _ rfl).trans row, .start rfl⟩

end Order

/-! ### The loaded stocks -/

section Reached

variable {F : Type} [FloatRep F] [DecidableEq F] [Amount F] {W : Nat} {w i : Int}
  {s : Store Key (Value F)} {run : List (Outcome F)}

theorem LoadRow.stock_row {k : Key} {v : Value F} (h : LoadRow W k v) (table : k.table = .stock) :
    ∃ row : StockVal, v = stockVal.encode row ∧ row.InStock ∧ row.Unused := by
  cases h <;> simp at table
  case stock row range quantity counters => exact ⟨row, rfl, quantity, counters⟩

theorem TablesLoaded.stock (h : TablesLoaded W s) (hw : 1 ≤ w ∧ w ≤ W)
    (hi : 1 ≤ i ∧ i ≤ 100000) : ∃ row : StockVal,
      s (stockKey w i) = some (stockVal.encode row) ∧ row.InStock ∧ row.Unused := by
  lift w to Nat using by omega
  lift i to Nat using by omega
  obtain ⟨v, hv, typed⟩ := h.typed_of_ne_none
    (h.rows.stock w i (by omega) (by omega) (by omega) (by omega))
  obtain ⟨row, rfl, facts⟩ := typed.stock_row (by simp)
  exact ⟨row, hv, facts⟩

/-- The row of a stock after a run: updated once for each line that was placed on it. -/
structure StockReached (W : Nat) (w i : Int) (run : List (Outcome F)) (s : Store Key (Value F))
    (first row : StockVal) : Prop where
  small : W ≤ 21474
  loaded : first.InStock ∧ first.Unused
  stored : s (stockKey w i) = some (stockVal.encode row)
  updates : Run (· = first) StockStep (placedOn w i run) row

theorem reached_stock (reached : Reached id W run s) (hw : 1 ≤ w ∧ w ≤ W)
    (hi : 1 ≤ i ∧ i ≤ 100000) : ∃ first row, StockReached W w i run s first row := by
  refine Run.invariant (I := fun run s => ∃ first row, StockReached W w i run s first row)
    (fun s loaded => ?_) (fun run s outcome s' ⟨first, row, h⟩ step => ?_) reached
  · obtain ⟨row, hrow, facts⟩ := loaded.tables.stock hw hi
    exact ⟨row, row, loaded.tables.small, facts, hrow, .start rfl⟩
  · obtain ⟨after, hafter, updates⟩ := step.stockRow h.small hw hi h.stored
    exact ⟨first, after, h.small, h.loaded, hafter, h.updates.trans updates⟩

/-- The quantity of every stock stays from 10 to 100. -/
theorem reached_inStock (reached : Reached id W run s) (hw : 1 ≤ w ∧ w ≤ W)
    (hi : 1 ≤ i ∧ i ≤ 100000) : ∃ row : StockVal,
      s (stockKey w i) = some (stockVal.encode row) ∧ row.InStock := by
  obtain ⟨first, row, h⟩ := reached_stock reached hw hi
  exact ⟨row, h.stored, Run.inStock h.loaded.1 h.updates⟩

/-- After any run in which the total of a stock does not overflow, its total and its number of
remote lines are those of the lines placed on it; all three counters are only where there are no
such lines. -/
theorem stockCounted_iff (reached : Reached id W run s) (hw : 1 ≤ w ∧ w ≤ W)
    (hi : 1 ≤ i ∧ i ≤ 100000) (small : totalQuantity (placedOn w i run) < 2 ^ 31) :
    ∃ row : StockVal, s (stockKey w i) = some (stockVal.encode row) ∧
      row.sYtd.toInt = totalQuantity (placedOn w i run) ∧
      row.sRemoteCnt.toInt = numRemote (placedOn w i run) ∧
      (StockCounted (placedOn w i run) row ↔ placedOn w i run = []) := by
  obtain ⟨first, row, h⟩ := reached_stock reached hw hi
  exact ⟨row, h.stored, (updates_of_run h.loaded.2 h.updates).counted_iff small⟩

end Reached

/-! ### An order -/

theorem totalQuantity_le {lines : List (UInt32 × Bool)} {first row : StockVal}
    (run : Run (· = first) StockStep lines row) : totalQuantity lines ≤ 10 * lines.length := by
  induction run with
  | start => simp [totalQuantity]
  | next _ step ih =>
    have quantity := step.1.2
    simp only [totalQuantity, List.map_cons, List.sum_cons, List.length_cons] at ih ⊢
    omega

/-- An order that has been placed from the loaded tables, and a stock that one of its lines is
on. -/
theorem exists_order_on : ∃ (w i : Int) (run : List (Outcome ℚ)) (s : Store Key (Value ℚ)),
    (1 ≤ w ∧ w ≤ (2 : Nat)) ∧ (1 ≤ i ∧ i ≤ 100000) ∧ Reached id 2 run s ∧
      totalQuantity (placedOn w i run) < 2 ^ 31 ∧ placedOn w i run ≠ [] := by
  obtain ⟨first, loaded⟩ := exists_loaded id (W := 2) (by norm_num)
  obtain ⟨dist, row, _, next, _⟩ := loaded.tables.district (w := 1) (d := 8) ⟨by decide, by decide⟩
  obtain ⟨res, t', s, returns, _⟩ := sample_order_returns row (by rw [next]; decide)
  have step : Step id 2 first (.newOrder res) s :=
    ⟨FastRandom, sampleEnv, .newOrder, sampleThread, t', Act.returns_bind.mpr
      ⟨res, t', s, returns, Act.returns_pure.mpr ⟨rfl, rfl, rfl⟩⟩⟩
  have effect := step.newOrder
  have chosen := effect.lines
  have many := congrArg List.length chosen
  have count := effect.selection.count
  have selected := effect.selected
  have items := effect.numItems
  simp only [List.length_map, List.length_append] at many
  obtain ⟨stock, quantity, rest, lines⟩ :
      ∃ stock quantity rest, res.lines = (stock, quantity) :: rest := by
    match lines : res.lines with
    | [] => simp [lines] at many; omega
    | (stock, quantity) :: rest => exact ⟨stock, quantity, rest, rfl⟩
  have mem : stock ∈ res.selection.locals ++ res.selection.remotes := by
    rw [← chosen, lines]
    simp
  have hi := effect.selection.items stock mem
  have hw : 1 ≤ stock.supply ∧ stock.supply ≤ (2 : Nat) := by
    have home := effect.warehouse
    rcases List.mem_append.mp mem with own | other
    · have := effect.selection.supplies stock own
      omega
    · exact ⟨(effect.selection.others stock other).1, (effect.selection.others stock other).2.1⟩
  have reached : Reached id 2 [.newOrder res] s := .next (.start loaded) step
  obtain ⟨_, _, h⟩ := reached_stock reached hw hi
  refine ⟨stock.supply, stock.itemId, _, s, hw, hi, reached, ?_, ?_⟩
  · have few := totalQuantity_le h.updates
    have length :
        (placedOn stock.supply stock.itemId [Outcome.newOrder (F := ℚ) res]).length ≤ 15 := by
      have :=
        List.length_filter_le (fun line => decide (line.1.At stock.supply stock.itemId)) res.lines
      simp only [placedOn, Outcome.linesOn, linesOn, List.flatMap_cons, List.flatMap_nil,
        List.append_nil, List.length_reverse, List.length_map]
      omega
    omega
  · have own : stock.At stock.supply stock.itemId := ⟨rfl, rfl⟩
    simp [placedOn, Outcome.linesOn, linesOn, lines, own]

theorem stockCounted_iff_order : ∃ (w i : Int) (run : List (Outcome ℚ)) (s : Store Key (Value ℚ))
    (row : StockVal), placedOn w i run ≠ [] ∧ s (stockKey w i) = some (stockVal.encode row) ∧
      row.sYtd.toInt = totalQuantity (placedOn w i run) ∧ ¬StockCounted (placedOn w i run) row := by
  obtain ⟨w, i, run, s, hw, hi, reached, small, placed⟩ := exists_order_on
  obtain ⟨row, hrow, ytd, _, counted⟩ := stockCounted_iff reached hw hi small
  exact ⟨w, i, run, s, row, placed, hrow, ytd, mt counted.mp placed⟩

theorem order_not_counted : ¬∀ (W : Nat) (w i : Int) (run : List (Outcome ℚ))
    (s : Store Key (Value ℚ)), 1 ≤ w ∧ w ≤ W → 1 ≤ i ∧ i ≤ 100000 → Reached id W run s →
      totalQuantity (placedOn w i run) < 2 ^ 31 → ∃ row : StockVal,
        s (stockKey w i) = some (stockVal.encode row) ∧ StockCounted (placedOn w i run) row := by
  intro claim
  obtain ⟨w, i, run, s, hw, hi, reached, small, placed⟩ := exists_order_on
  obtain ⟨row, hrow, counted⟩ := claim 2 w i run s hw hi reached small
  obtain ⟨first, row', h⟩ := reached_stock reached hw hi
  obtain rfl : row' = row :=
    stockVal.encode_injective (Option.some.inj (h.stored.symm.trans hrow))
  exact placed (((updates_of_run h.loaded.2 h.updates).counted_iff small).2.2.mp counted)

end Tpcc
