import Tpcc.Txn.NewOrder

/-! What a `NewOrder` leaves in the one store that all tables share.  Each row that it writes is
there afterwards unless a later write of the same order hits its item key.  The line of a local
stock always does: it is put at the key of the order. -/

namespace Tpcc

open KvProgram Layout

variable {F : Type} [FloatRep F] [DecidableEq F] [Amount F] {W : Nat}
  {s s' : Store UInt64 (Value F)} {res : NewOrderResult}

/-- The rows of an order are in the store: the district counts on, and the order and its lines can
be read. -/
structure NewOrderResult.RowsPlaced (res : NewOrderResult) (dist : DistrictVal F)
    (s : Store UInt64 (Value F)) : Prop where
  district : ∃ row : DistrictVal F,
    s (districtKey res.warehouseId res.districtId).itemKey = some (districtVal.encode row) ∧
      row.dNextOId.toInt = dist.dNextOId.toInt + 1
  order : ∃ row : OrderVal, res.IsOrder row ∧
    s (orderKey res.warehouseId res.districtId dist.dNextOId.toInt).itemKey =
      some (orderVal.encode row)
  lines : ∀ i stock quantity, res.lines[i]? = some (stock, quantity) →
    ∃ line : OrderLineVal F, IsLine stock quantity line ∧
      s (orderLineKey res.warehouseId res.districtId dist.dNextOId.toInt (i + 1 : Nat)).itemKey =
        some (orderLineVal.encode line)

/-- The keys that are written after the row of the order. -/
def NewOrderResult.keysAfterOrder (res : NewOrderResult) : List Key :=
  orderIndexKey res.warehouseId res.districtId res.customerId res.myNextOId.toInt ::
    res.lines.zipIdx.flatMap fun x => [x.1.1.key, res.lineKey x.2]

/-- No write of the order hits a row that it has written before. -/
structure NewOrderResult.KeysApart (res : NewOrderResult) : Prop where
  district : ∀ k ∈ newOrderKey res.warehouseId res.districtId res.myNextOId.toInt ::
    orderKey res.warehouseId res.districtId res.myNextOId.toInt :: res.keysAfterOrder,
    k.itemKey ≠ (districtKey res.warehouseId res.districtId).itemKey
  order : ∀ k ∈ res.keysAfterOrder,
    k.itemKey ≠ (orderKey res.warehouseId res.districtId res.myNextOId.toInt).itemKey
  lines : ∀ i j stock quantity, i < j → res.lines[j]? = some (stock, quantity) →
    stock.key.itemKey ≠ (res.lineKey i).itemKey

section Values

variable {key : Nat → Key} {lines : List (ChosenStock × UInt32)} {writes : List (Key × Value F)}

omit [Amount F] in
theorem IsLineWrite.length {i : Nat} {stock : ChosenStock} {quantity : UInt32}
    {w : Key × Value F} (h : IsLineWrite key i stock quantity w) :
    w.2.length = 328 ∨ w.2.length = 56 := by
  rcases h with ⟨row, rfl⟩ | ⟨line, _, rfl⟩
  · exact .inl (by simp)
  · exact .inr (by simp)

omit [Amount F] in
theorem LineWrites.length (h : LineWrites key lines writes) :
    ∀ w ∈ writes, w.2.length = 328 ∨ w.2.length = 56 := by
  intro w hw
  obtain ⟨i, stock, quantity, _, write⟩ := h.mem hw
  exact write.length

omit [Amount F] in
/-- The keys of the writes of the lines. -/
theorem LineWrites.keys (h : LineWrites key lines writes) :
    writes.map Prod.fst = lines.zipIdx.flatMap fun x => [x.1.1.key, key x.2] := by
  induction h with
  | nil => rfl
  | @snoc lines writes stock quantity line row _ _ ih =>
    rw [List.map_append, ih, List.zipIdx_append, List.flatMap_append]
    simp

omit [FloatRep F] [DecidableEq F] [Amount F] in
/-- A value of one length is at an address only if no later write, all of other lengths, hits it. -/
theorem not_hit (before rest : List (Key × Value F)) {k : Key} {v : Value F}
    (value : s.puts Key.itemKey (before ++ rest) k.itemKey = some v)
    (others : ∀ w ∈ rest, w.1.itemKey = k.itemKey → w.2.length ≠ v.length) :
    ∀ k' ∈ rest.map Prod.fst, k'.itemKey ≠ k.itemKey := by
  intro k' hk' same
  rw [Store.puts_append] at value
  obtain ⟨w, hw, rfl⟩ := List.mem_map.mp hk'
  obtain ⟨x, hx, hit, last⟩ := Store.puts_hit (s := s.puts Key.itemKey before) ⟨w, hw, same⟩
  rw [value] at last
  exact others x hx hit (by rw [← Option.some.inj last])

end Values

/-! ### Orders whose writes are known -/

section Written

variable {dist : DistrictVal F} {vd vn vo vi : Value F} {writes : List (Key × Value F)}

/-- The writes of an order, with the values of the rows before its lines. -/
def NewOrderResult.allWrites (res : NewOrderResult) (vd vn vo vi : Value F)
    (writes : List (Key × Value F)) : List (Key × Value F) :=
  (districtKey res.warehouseId res.districtId, vd) ::
    (newOrderKey res.warehouseId res.districtId res.myNextOId.toInt, vn) ::
    (orderKey res.warehouseId res.districtId res.myNextOId.toInt, vo) ::
    (orderIndexKey res.warehouseId res.districtId res.customerId res.myNextOId.toInt, vi) :: writes

omit [Amount F] in
/-- The keys of the writes after the row of the order. -/
theorem LineWrites.keysAfterOrder (h : LineWrites res.lineKey res.lines writes) :
    res.keysAfterOrder =
      orderIndexKey res.warehouseId res.districtId res.customerId res.myNextOId.toInt ::
        writes.map Prod.fst := by
  rw [NewOrderResult.keysAfterOrder, h.keys]

theorem NewOrderResult.lineKey_remote (remote : res.selection.locals = []) (i : Nat) :
    res.lineKey i =
      orderLineKey res.warehouseId res.districtId res.myNextOId.toInt (i + 1 : Nat) := by
  rw [NewOrderResult.lineKey, if_neg (by simp [remote])]

/-- The lines of an order are put at different keys. -/
theorem NewOrderResult.lineKey_ne (remote : res.selection.locals = []) {i j : Nat} (h : i < j)
    (small : j < 15) : (res.lineKey j).itemKey ≠ (res.lineKey i).itemKey := by
  rw [lineKey_remote remote, lineKey_remote remote]
  intro same
  have := orderLineKey_number (by omega) (by omega) same
  omega

omit [Amount F] in
/-- An order that has its row has no local line. -/
theorem NewOrderResult.RowsPlaced.remote (number : res.myNextOId = dist.dNextOId)
    (chosen : res.selection.locals.length ≤ res.lines.length)
    (lines : LineWrites res.lineKey res.lines writes)
    (placed : res.RowsPlaced dist (s.puts Key.itemKey (res.allWrites vd vn vo vi writes))) :
    res.selection.locals = [] := by
  by_contra isLocal
  have more : 0 < res.selection.locals.length := List.length_pos_iff.mpr isLocal
  obtain ⟨row, _, hrow⟩ := placed.order
  rw [← number] at hrow
  have free := not_hit (res.allWrites vd vn vo vi []) writes hrow fun w hw _ => by
    rcases lines.length w hw with length | length <;> simp [length]
  have at_0 : res.lines[0]? = some res.lines[0] := List.getElem?_eq_getElem (by omega)
  obtain ⟨before, line, rest, _, split, _⟩ := lines.split at_0
  have first : res.lineKey 0 ∈ writes.map Prod.fst := by simp [split]
  have key : res.lineKey 0 = orderKey res.warehouseId res.districtId res.myNextOId.toInt := by
    rw [NewOrderResult.lineKey, if_pos more]
  exact free _ first (by rw [key])

omit [Amount F] in
/-- The writes of an order that has its rows have not hit them. -/
theorem NewOrderResult.RowsPlaced.apart (number : res.myNextOId = dist.dNextOId)
    (few : res.lines.length ≤ 15) (hn : vn.length = 24) (ho : vo.length = 20) (hi : vi.length = 16)
    (remote : res.selection.locals = []) (lines : LineWrites res.lineKey res.lines writes)
    (placed : res.RowsPlaced dist (s.puts Key.itemKey (res.allWrites vd vn vo vi writes))) :
    res.KeysApart := by
  have lengths := lines.length
  constructor
  · obtain ⟨row, hrow, _⟩ := placed.district
    rw [lines.keysAfterOrder]
    refine not_hit [(districtKey res.warehouseId res.districtId, vd)]
      (_ :: _ :: _ :: writes) hrow fun w hw _ => ?_
    simp only [List.mem_cons] at hw
    rcases hw with rfl | rfl | rfl | hw
    · simp [hn]
    · simp [ho]
    · simp [hi]
    · rcases lengths w hw with length | length <;> simp [length]
  · obtain ⟨row, _, hrow⟩ := placed.order
    rw [← number] at hrow
    rw [lines.keysAfterOrder]
    refine not_hit [(districtKey res.warehouseId res.districtId, vd),
      (newOrderKey res.warehouseId res.districtId res.myNextOId.toInt, vn),
      (orderKey res.warehouseId res.districtId res.myNextOId.toInt, vo)] (_ :: writes) hrow
      fun w hw _ => ?_
    rcases List.mem_cons.mp hw with rfl | hw
    · simp [hi]
    · rcases lengths w hw with length | length <;> simp [length]
  · intro i j stock quantity before at_j
    have hj := (List.getElem?_eq_some_iff.mp at_j).1
    have at_i : res.lines[i]? = some res.lines[i] := List.getElem?_eq_getElem (by omega)
    obtain ⟨line, _, hline⟩ := placed.lines i _ _ at_i
    obtain ⟨first, line', rest, _, split, later, covered⟩ := lines.split at_i
    rw [← number, ← NewOrderResult.lineKey_remote remote, split] at hline
    obtain ⟨w, hw, same⟩ := covered j stock quantity before at_j
    rw [← same]
    have value : s.puts Key.itemKey (res.allWrites vd vn vo vi
        (first ++ [(res.lineKey i, orderLineVal.encode line')]) ++ rest) (res.lineKey i).itemKey =
          some (orderLineVal.encode line) := by
      rw [← hline]
      simp [NewOrderResult.allWrites]
    refine not_hit _ rest value ?_ _ (List.mem_map_of_mem hw)
    intro x hx hit
    obtain ⟨j', stock', quantity', after, at_j', write⟩ := later x hx
    have hj' := (List.getElem?_eq_some_iff.mp at_j').1
    rcases write with ⟨row, rfl⟩ | ⟨line'', _, rfl⟩
    · simp
    · exact absurd hit (NewOrderResult.lineKey_ne remote after (by omega))

omit [Amount F] in
/-- The rows of an order are there when no later write has hit them. -/
theorem NewOrderResult.KeysApart.placed {next : Int32} {order : OrderVal}
    (h : res.KeysApart) (number : res.myNextOId = dist.dNextOId)
    (few : res.lines.length ≤ 15) (remote : res.selection.locals = [])
    (more : addInt32 dist.dNextOId 1 = some next) (isOrder : res.IsOrder order)
    (lines : LineWrites res.lineKey res.lines writes) :
    res.RowsPlaced dist (s.puts Key.itemKey (res.allWrites
      (districtVal.encode { dist with dNextOId := next }) vn (orderVal.encode order) vi
      writes)) := by
  have after := lines.keysAfterOrder
  constructor
  · refine ⟨{ dist with dNextOId := next }, ?_, addInt32_toInt more⟩
    have last : ∀ w ∈ (res.allWrites (districtVal.encode { dist with dNextOId := next }) vn
        (orderVal.encode order) vi writes).tail,
        w.1.itemKey ≠ (districtKey res.warehouseId res.districtId).itemKey := by
      intro w hw
      apply h.district w.1
      rw [after]
      exact List.mem_map_of_mem hw
    exact Store.puts_last [] last
  · refine ⟨order, isOrder, ?_⟩
    rw [← number]
    have last : ∀ w ∈ (orderIndexKey res.warehouseId res.districtId res.customerId
        res.myNextOId.toInt, vi) :: writes, w.1.itemKey ≠
          (orderKey res.warehouseId res.districtId res.myNextOId.toInt).itemKey := by
      intro w hw
      apply h.order w.1
      rw [after]
      exact List.mem_map_of_mem hw
    exact Store.puts_last [_, _] last
  · intro i stock quantity at_i
    obtain ⟨first, line, rest, isLine, split, later, _⟩ := lines.split at_i
    refine ⟨line, isLine, ?_⟩
    rw [← number, ← NewOrderResult.lineKey_remote remote, split]
    have last : ∀ w ∈ rest, w.1.itemKey ≠ (res.lineKey i).itemKey := by
      intro w hw
      obtain ⟨j, stock', quantity', before, at_j, write⟩ := later w hw
      have hj := (List.getElem?_eq_some_iff.mp at_j).1
      rcases write with ⟨row, rfl⟩ | ⟨line', _, rfl⟩
      · exact h.lines i j stock' quantity' before at_j
      · exact NewOrderResult.lineKey_ne remote before (by omega)
    exact Store.puts_last (res.allWrites _ _ _ _ first) last

end Written

section Few

omit [Amount F] in
/-- The stock of a line is that of an item in a warehouse. -/
theorem NewOrderResult.Effect.stock_mem (h : res.Effect Key.itemKey W s s') {i : Nat}
    {stock : ChosenStock} {quantity : UInt32} (at_i : res.lines[i]? = some (stock, quantity)) :
    (1 ≤ stock.supply ∧ stock.supply ≤ W) ∧ 1 ≤ stock.itemId ∧ stock.itemId ≤ 100000 := by
  have mem : stock ∈ res.selection.locals ++ res.selection.remotes := by
    rw [← h.lines]
    exact List.mem_map_of_mem (List.mem_of_getElem? at_i)
  have hw := h.warehouse
  refine ⟨?_, h.selection.items stock mem⟩
  rcases List.mem_append.mp mem with isLocal | remote
  · have := h.selection.supplies stock isLocal
    omega
  · have := h.selection.others stock remote
    omega

omit [Amount F] in
/-- With at most 10000 warehouses, the item key of a stock is below those of order lines. -/
theorem NewOrderResult.Effect.stock_toNat (h : res.Effect Key.itemKey W s s') (few : W ≤ 10000)
    {i : Nat} {stock : ChosenStock} {quantity : UInt32}
    (at_i : res.lines[i]? = some (stock, quantity)) :
    100000 < (stock.key.itemKey.toNat : Int) ∧ (stock.key.itemKey.toNat : Int) ≤ 1000100000 := by
  obtain ⟨hs, hi⟩ := h.stock_mem at_i
  rw [stock.key_eq, stockKey_toNat (by omega) (by omega)]
  omega

omit [Amount F] in
theorem NewOrderResult.Effect.line_toNat (h : res.Effect Key.itemKey W s s') (few : W ≤ 10000)
    (number : 0 ≤ res.myNextOId.toInt) (remote : res.selection.locals = []) {i : Nat}
    (hi : i < 15) : ((res.lineKey i).itemKey.toNat : Int) =
      ((10 * res.warehouseId + res.districtId) * 10000000 + res.myNextOId.toInt) * 15 +
        (i + 1) := by
  have hw := h.warehouse
  have hd := h.district
  have ho := res.myNextOId.toInt_lt
  rw [NewOrderResult.lineKey_remote remote]
  exact orderLineKey_toNat (by omega) (by omega) number ho (by omega) (by omega)

omit [Amount F] in
/-- The writes after the row of an order without local lines hit neither that row nor the
district. -/
theorem NewOrderResult.Effect.afterOrder_ne (h : res.Effect Key.itemKey W s s') (few : W ≤ 10000)
    (number : 0 ≤ res.myNextOId.toInt) (remote : res.selection.locals = []) {k : Key}
    (hk : k ∈ res.keysAfterOrder) :
    k.itemKey ≠ (districtKey res.warehouseId res.districtId).itemKey ∧
      k.itemKey ≠ (orderKey res.warehouseId res.districtId res.myNextOId.toInt).itemKey := by
  have hw := h.warehouse
  have hd := h.district
  have hc := h.customer
  have ho := res.myNextOId.toInt_lt
  have count := h.lines_le
  have district := districtKey_toNat (w := res.warehouseId) (d := res.districtId) (by omega)
    (by omega)
  have order := orderKey_toNat (w := res.warehouseId) (d := res.districtId) (by omega) (by omega)
    number ho
  rcases List.mem_cons.mp hk with rfl | hk
  · have index := orderIndexKey_toNat (w := res.warehouseId) (d := res.districtId)
      (c := res.customerId) (by omega) (by omega) number ho
    constructor <;> (intro same; rw [same] at index; omega)
  · obtain ⟨⟨⟨chosen, quantity⟩, i⟩, mem, hk⟩ := List.mem_flatMap.mp hk
    have at_i := List.mem_zipIdx_iff_getElem?.mp mem
    have hi := (List.getElem?_eq_some_iff.mp at_i).1
    rcases List.mem_pair.mp hk with rfl | rfl
    · have stock := h.stock_toNat few at_i
      constructor <;> (intro same; rw [same] at stock; omega)
    · have line := h.line_toNat few number remote (i := i) (by omega)
      constructor <;> (intro same; rw [same] at line; omega)

omit [Amount F] in
/-- With at most 10000 warehouses, no write of an order without local lines hits a row that it has
written before. -/
theorem NewOrderResult.Effect.keysApart (h : res.Effect Key.itemKey W s s') (few : W ≤ 10000)
    (number : 0 ≤ res.myNextOId.toInt) (remote : res.selection.locals = []) : res.KeysApart := by
  have hw := h.warehouse
  have hd := h.district
  have ho := res.myNextOId.toInt_lt
  have order_ne : (orderKey res.warehouseId res.districtId res.myNextOId.toInt).itemKey ≠
      (districtKey res.warehouseId res.districtId).itemKey := by
    have district := districtKey_toNat (w := res.warehouseId) (d := res.districtId) (by omega)
      (by omega)
    have order := orderKey_toNat (w := res.warehouseId) (d := res.districtId) (by omega) (by omega)
      number ho
    intro same
    rw [same] at order
    omega
  constructor
  · intro k hk
    rcases List.mem_cons.mp hk with rfl | hk
    · exact order_ne
    rcases List.mem_cons.mp hk with rfl | hk
    · exact order_ne
    · exact (h.afterOrder_ne few number remote hk).1
  · exact fun k hk => (h.afterOrder_ne few number remote hk).2
  · intro i j chosen quantity before at_j same
    have hj := (List.getElem?_eq_some_iff.mp at_j).1
    have count := h.lines_le
    have line := h.line_toNat few number remote (i := i) (by omega)
    have stock := h.stock_toNat few at_j
    rw [same, line] at stock
    omega

end Few

section Returned

variable {dist : DistrictVal F}

omit [Amount F] in
/-- The rows of an order are there exactly when it has no local line and none of its writes hits a
row that it has written before. -/
theorem NewOrderResult.Effect.rowsPlaced_iff (h : res.Effect Key.itemKey W s s')
    (row : s (districtKey res.warehouseId res.districtId).itemKey =
      some (districtVal.encode dist)) :
    res.myNextOId = dist.dNextOId ∧
      (res.RowsPlaced dist s' ↔ res.selection.locals = [] ∧ res.KeysApart) := by
  obtain ⟨old, status, read, next, norder, order, writes, reads, number, more, isOrder,
      lines, rfl⟩ :=
    h.writes
  rw [row, reads_encode] at reads
  obtain ⟨_, rfl⟩ := reads
  have chosen : res.selection.locals.length ≤ res.lines.length := by
    have stocks := congrArg List.length h.lines
    simp only [List.length_map, List.length_append] at stocks
    omega
  refine ⟨number, ?_, ?_⟩
  · intro placed
    have remote := placed.remote number chosen lines
    exact ⟨remote, placed.apart number h.lines_le.2 (newOrderVal.length_encode norder)
      (orderVal.length_encode order) (orderIndexVal.length_encode res.index) remote lines⟩
  · rintro ⟨remote, apart⟩
    exact apart.placed number h.lines_le.2 remote more isOrder lines

omit [Amount F] in
/-- With at most 10000 warehouses, only local lines are put over a row of their order. -/
theorem NewOrderResult.Effect.rowsPlaced_iff_remote (h : res.Effect Key.itemKey W s s')
    (row : s (districtKey res.warehouseId res.districtId).itemKey = some (districtVal.encode dist))
    (few : W ≤ 10000) (next : 0 ≤ dist.dNextOId.toInt) :
    res.RowsPlaced dist s' ↔ res.selection.locals = [] := by
  obtain ⟨number, iff⟩ := h.rowsPlaced_iff row
  rw [iff, and_iff_left_iff_imp]
  exact h.keysApart few (by rwa [number])

/-- A `NewOrder` leaves the district, the order row and the lines that it should leave exactly when
it has no local line and none of its writes hits a row that it has written before. -/
theorem newOrder_rows_iff {ρ : Type} {env : Env ρ} {t t' : Thread ρ}
    (returns : Act.Returns Key.itemKey (newOrder env W) t s res t' s')
    (row : s (districtKey res.warehouseId res.districtId).itemKey =
      some (districtVal.encode dist)) :
    res.myNextOId = dist.dNextOId ∧ (res.lines.length : Int) = res.numItems ∧
      res.lines.map Prod.fst = res.selection.locals ++ res.selection.remotes ∧
      (res.RowsPlaced dist s' ↔ res.selection.locals = [] ∧ res.KeysApart) := by
  have effect := newOrder_effect returns
  obtain ⟨number, iff⟩ := effect.rowsPlaced_iff row
  exact ⟨number, effect.lines_le.1, effect.lines, iff⟩

end Returned

/-! ### An order with local lines -/

/-- The rows that an order reads are in the store. -/
structure NewOrderResult.RowsExist (res : NewOrderResult) (dist : DistrictVal F)
    (s : Store UInt64 (Value F)) : Prop where
  warehouse : ∃ row : WarehouseVal F,
    s (warehouseKey res.warehouseId).itemKey = some (warehouseVal.encode row)
  customer : ∃ row : CustomerVal F, s (customerKey res.warehouseId res.districtId
    res.customerId).itemKey = some (customerVal.encode row)
  district : s (districtKey res.warehouseId res.districtId).itemKey = some (districtVal.encode dist)
  items : ∀ stock ∈ res.selection.locals ++ res.selection.remotes,
    ∃ row : ItemVal F, s (itemKey stock.itemId).itemKey = some (itemVal.encode row)
  stocks : ∀ stock ∈ res.selection.locals ++ res.selection.remotes,
    ∃ row : StockVal, s stock.key.itemKey = some (stockVal.encode row)

def sampleDistrict : DistrictVal ℚ := { zeroRow districtVal with dNextOId := 3001 }

/-- The rows of two warehouses, but for the item rows at whose item keys there are others. -/
def sampleStore : Store UInt64 (Value ℚ) := fun a =>
  if a.toNat = 1 then some (warehouseVal.encode (zeroRow warehouseVal))
  else if a.toNat ≤ 20 then some (districtVal.encode sampleDistrict)
  else if a.toNat ≤ 100000 then some (itemVal.encode (zeroRow itemVal))
  else if a.toNat ≤ 300000 then some (stockVal.encode (zeroRow stockVal))
  else some (customerVal.encode (zeroRow customerVal))

def sampleEnv : Env FastRandom := FastRandom.env (List.replicate · 0) (fun _ => 0) 100

def sampleThread : Thread FastRandom := ⟨.setSeed0 6, 0⟩

theorem sample_returns : ∃ res t' s',
    Act.Returns Key.itemKey (newOrder sampleEnv 2) sampleThread sampleStore res t' s' ∧
      res.selection.locals ≠ [] ∧
        ∀ stock ∈ res.selection.locals ++ res.selection.remotes, 20 < stock.itemId := by
  have run : (((newOrder sampleEnv 2 sampleThread).exec (.exact (Value ℚ) Key.itemKey)
      sampleStore).2.any fun x => x.1.1.selection.locals ≠ [] ∧
        ∀ stock ∈ x.1.1.selection.locals ++ x.1.1.selection.remotes, 20 < stock.itemId) = true := by
    decide +kernel
  obtain ⟨⟨⟨res, t'⟩, s'⟩, returns, isLocal⟩ := (Option.any_eq_true ..).mp run
  exact ⟨res, t', s', returns, of_decide_eq_true isLocal⟩

/-- The sample store has the rows that an order of the first warehouse reads, when the item keys of
its items are not those of a warehouse or a district. -/
theorem sample_rowsExist {s' : Store UInt64 (Value ℚ)} {res : NewOrderResult}
    (effect : res.Effect Key.itemKey 2 sampleStore s')
    (large : ∀ stock ∈ res.selection.locals ++ res.selection.remotes, 20 < stock.itemId) :
    res.RowsExist sampleDistrict sampleStore := by
  have hw := effect.warehouse
  have hd := effect.district
  have hc := effect.customer
  have item (stock : ChosenStock) (mem : stock ∈ res.selection.locals ++ res.selection.remotes) :
      20 < stock.itemId ∧ stock.itemId ≤ 100000 :=
        ⟨large stock mem, (effect.selection.items stock mem).2⟩
  constructor
  · have number := warehouseKey_toNat (w := res.warehouseId) (by omega) (by omega)
    exact ⟨_, if_pos (by omega)⟩
  · have number := customerKey_toNat (w := res.warehouseId) (d := res.districtId)
      (c := res.customerId) (by omega) (by omega) (by omega) (by omega)
    refine ⟨zeroRow customerVal, ?_⟩
    rw [sampleStore, if_neg (by omega), if_neg (by omega), if_neg (by omega), if_neg (by omega)]
  · have number := districtKey_toNat (w := res.warehouseId) (d := res.districtId) (by omega)
      (by omega)
    rw [sampleStore, if_neg (by omega), if_pos (by omega)]
  · intro stock mem
    have := item stock mem
    have number := itemKey_toNat (i := stock.itemId) (by omega) (by omega)
    refine ⟨zeroRow itemVal, ?_⟩
    rw [sampleStore, if_neg (by omega), if_neg (by omega), if_pos (by omega)]
  · intro stock mem
    have := item stock mem
    have supply : 1 ≤ stock.supply ∧ stock.supply ≤ 2 := by
      rcases List.mem_append.mp mem with isLocal | remote
      · have := effect.selection.supplies stock isLocal
        omega
      · have := effect.selection.others stock remote
        omega
    have number := stockKey_toNat (w := stock.supply) (i := stock.itemId) (by omega) (by omega)
    refine ⟨zeroRow stockVal, ?_⟩
    rw [stock.key_eq, sampleStore, if_neg (by omega), if_neg (by omega), if_neg (by omega),
      if_pos (by omega)]

theorem newOrder_rows_iff_sample : ∃ res t' s',
    Act.Returns Key.itemKey (newOrder sampleEnv 2) sampleThread sampleStore res t' s' ∧
      ¬res.RowsPlaced sampleDistrict s' := by
  obtain ⟨res, t', s', returns, isLocal, large⟩ := sample_returns
  have exist := sample_rowsExist (newOrder_effect returns) large
  have iff := (newOrder_rows_iff returns exist.district).2.2.2
  exact ⟨res, t', s', returns, fun placed => isLocal (iff.mp placed).1⟩

/-- An order with local lines, whose rows it reads exist, loses its order row to its last local
line. -/
theorem local_lines_over_order : ¬∀ (ρ : Type) (env : Env ρ) (W : Nat) (t t' : Thread ρ)
    (s s' : Store UInt64 (Value ℚ)) (res : NewOrderResult) (dist : DistrictVal ℚ),
    Act.Returns Key.itemKey (newOrder env W) t s res t' s' → res.RowsExist dist s →
      res.RowsPlaced dist s' := by
  intro claim
  obtain ⟨res, t', s', returns, isLocal, large⟩ := sample_returns
  have effect := newOrder_effect returns
  have exist := sample_rowsExist effect large
  have placed := claim _ _ _ _ _ _ _ _ _ returns exist
  exact isLocal ((effect.rowsPlaced_iff exist.district).2.mp placed).1

end Tpcc
