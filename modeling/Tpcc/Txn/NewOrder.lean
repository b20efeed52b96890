import Mathlib.Tactic.IntervalCases
import Tpcc.Load

/-! `TPCCTxn::NewOrder`. -/

namespace Tpcc

open KvProgram Layout

/-- A stock that an order takes an item from, with its key. -/
structure ChosenStock where
  supply : Int
  itemId : Int
  sKey : Int64
  sKey_eq : sKey = makeStockKey supply itemId
  deriving DecidableEq

def ChosenStock.of (supply itemId : Int) : ChosenStock :=
  ⟨supply, itemId, makeStockKey supply itemId, rfl⟩

def ChosenStock.key (stock : ChosenStock) : Key := ⟨.stock, stock.sKey.toUInt64⟩

theorem ChosenStock.key_eq (stock : ChosenStock) :
    stock.key = stockKey stock.supply stock.itemId := by
  rw [ChosenStock.key, stock.sKey_eq, stockKey]

/-- The state of the loop that selects the items: its counter, `all_local`, the keys seen, and the
local and remote buffers. -/
structure Selection where
  i : Int
  allLocal : Int32
  stockSet : List Int64
  locals : List ChosenStock
  remotes : List ChosenStock

/-- The local variables of `NewOrder` that describe the order it has placed; `lines` are the
stocks of its lines with the quantities drawn, the local ones first. -/
structure NewOrderResult where
  warehouseId : Int
  districtId : Int
  customerId : Int
  numItems : Int
  selection : Selection
  myNextOId : Int32
  lines : List (ChosenStock × UInt32)

/-- The update of a stock row by an order line.  The test and the first branch compute in
`uint32_t`. -/
def updateStock (stock : StockVal) (quantity : UInt32) (remote : Bool) : Option StockVal := do
  let sQuantity ←
    if stock.sQuantity.toUInt32 - quantity ≥ 10 then
      some (stock.sQuantity.toUInt32 - quantity).toInt32
    else
      addInt32 stock.sQuantity (-quantity.toInt32.toInt + 91)
  let sRemoteCnt ← addInt32 stock.sRemoteCnt (if remote then 1 else 0)
  return { stock with
    sQuantity, sYtd := (stock.sYtd.toUInt32 + quantity).toInt32, sRemoteCnt }

section

variable {ρ F : Type} [FloatRep F] [DecidableEq F] [Amount F] (env : Env ρ)

/-- A warehouse other than `wId`, drawn until it is another one. -/
def otherWarehouse {K V : Type} (W : Nat) (wId : Int) : Act (Thread ρ) K V Int :=
  .loop (fun _ => do
    let supplier ← randomNumber env 1 W
    if supplier = wId then return .inl () else return .inr supplier) env.attempts ()

/-- A stock is chosen unless it has been chosen before, and then discarded. -/
def localStock (wId itemId : Int) (x : Selection) : Selection :=
  let choice := ChosenStock.of wId itemId
  if choice.sKey ∈ x.stockSet then x
  else { x with
    i := x.i + 1, stockSet := choice.sKey :: x.stockSet, locals := x.locals ++ [choice] }

def remoteStock (supplier itemId : Int) (x : Selection) : Selection :=
  let choice := ChosenStock.of supplier itemId
  if choice.sKey ∈ x.stockSet then { x with allLocal := 0 }
  else { x with
    i := x.i + 1, allLocal := 0, stockSet := choice.sKey :: x.stockSet
    remotes := x.remotes ++ [choice] }

def drawsLocal {K V : Type} (W : Nat) : Act (Thread ρ) K V Bool :=
  if W = 1 then pure true else do
    let remote ← randomNumber env 1 100
    return decide (remote > 1)

/-- One iteration of the loop that selects the items: `i--` undoes the `i++` of the loop where a
stock is discarded. -/
def selectItem {K V : Type} (W : Nat) (wId numItems : Int) (x : Selection) :
    Act (Thread ρ) K V (Selection ⊕ Selection) := do
  if x.i < numItems then
    let itemId ← getItemId env numItem
    let isLocal ← drawsLocal env W
    if isLocal then
      return .inl (localStock wId itemId x)
    else
      let supplier ← otherWarehouse env W wId
      return .inl (remoteStock supplier itemId x)
  else
    return .inr x

def selectItems {K V : Type} (W : Nat) (wId numItems : Int) : Act (Thread ρ) K V Selection :=
  .loop (selectItem env W wId numItems) env.attempts ⟨0, 1, [], [], []⟩

/-- An order line up to its insertion: the quantity is drawn, and the stock updated. -/
def newOrderLine (wId : Int) (stock : ChosenStock) :
    Act (Thread ρ) Key (Value F) (OrderLineVal F × UInt32) := do
  let quantity ← randomNumber env 1 10
  let olQuantity := UInt32.ofInt quantity
  let item ← uninit env itemVal
  let (_, item) ← getRecord env itemVal (itemKey stock.itemId) item
  let val ← uninit env stockVal
  let (_, val) ← getRecord env stockVal stock.key val
  let val ← .ofOption (updateStock val olQuantity (stock.supply ≠ wId))
  let _ ← putRecord stockVal stock.key val
  let line ← uninit env orderLineVal
  return ({ line with
    olIId := Int32.ofInt stock.itemId, olDeliveryD := 0
    olAmount := Amount.ofInt quantity * item.iPrice, olSupplyWId := Int32.ofInt stock.supply
    olQuantity := olQuantity.toUInt8.toInt8.toInt32, debugMagic := tpccAddMagic }, olQuantity)

/-- The line of a local stock is put at the key of the order. -/
def localLine (wId dId : Int) (oId : Int32) (_olNumber : Nat) (stock : ChosenStock)
    (lines : List (ChosenStock × UInt32)) :
    Act (Thread ρ) Key (Value F) (List (ChosenStock × UInt32)) := do
  let (line, quantity) ← newOrderLine env wId stock
  let _ ← putRecord orderLineVal (orderKey wId dId oId.toInt) line
  return lines ++ [(stock, quantity)]

def remoteLine (wId dId : Int) (oId : Int32) (numLocal olNumber : Nat) (stock : ChosenStock)
    (lines : List (ChosenStock × UInt32)) :
    Act (Thread ρ) Key (Value F) (List (ChosenStock × UInt32)) := do
  let (line, quantity) ← newOrderLine env wId stock
  let _ ← putRecord orderLineVal (orderLineKey wId dId oId.toInt (numLocal + olNumber)) line
  return lines ++ [(stock, quantity)]

/-- The order identifier is taken from the district, and the rows of the order are inserted. -/
def insertOrder (wId dId cId numItems : Int) (allLocal : Int32) :
    Act (Thread ρ) Key (Value F) Int32 := do
  let ware ← uninit env warehouseVal
  let _ ← getRecord env warehouseVal (warehouseKey wId) ware
  let cust ← uninit env customerVal
  let _ ← getRecord env customerVal (customerKey wId dId cId) cust
  let dist ← uninit env districtVal
  let (_, dist) ← getRecord env districtVal (districtKey wId dId) dist
  let oId := dist.dNextOId
  let dNextOId ← .ofOption (addInt32 dist.dNextOId 1)
  let _ ← putRecord districtVal (districtKey wId dId) { dist with dNextOId }
  let norder ← uninit env newOrderVal
  let _ ← putRecord newOrderVal (newOrderKey wId dId oId.toInt)
    { norder with debugMagic := tpccAddMagic }
  let oEntryD ← getCurrentTimeMillis
  let _ ← putRecord orderVal (orderKey wId dId oId.toInt) {
    oCId := Int32.ofInt cId, oCarrierId := 0, oOlCnt := Int32.ofInt numItems
    oAllLocal := allLocal, oEntryD }
  let _ ← putRecord orderIndexVal (orderIndexKey wId dId cId oId.toInt) {
    oId := (makeOrderKey wId dId oId.toInt).toUInt64, debugMagic := tpccAddMagic }
  return oId

def newOrder (W : Nat) : Act (Thread ρ) Key (Value F) NewOrderResult := do
  let warehouseId ← pickWarehouseId env 1 W
  let districtId ← randomNumber env 1 numDistrictPerWarehouse
  let customerId ← getCustomerId env numCustomerPerDistrict
  let numItems ← randomNumber env 5 15
  let selection ← selectItems env W warehouseId numItems
  let myNextOId ← insertOrder env warehouseId districtId customerId numItems selection.allLocal
  let lines ← .forEach (localLine env warehouseId districtId myNextOId) 1 selection.locals []
  let lines ← .forEach
    (remoteLine env warehouseId districtId myNextOId selection.locals.length) 1 selection.remotes
    lines
  return { warehouseId, districtId, customerId, numItems, selection, myNextOId, lines }

end

/-! ### What an order writes -/

section Writes

variable {F : Type} [FloatRep F] [DecidableEq F]

/-- A line that is for a quantity of a stock, and not delivered. -/
structure IsLine (stock : ChosenStock) (quantity : UInt32) (line : OrderLineVal F) : Prop where
  item : line.olIId = Int32.ofInt stock.itemId
  supply : line.olSupplyWId = Int32.ofInt stock.supply
  quantity : line.olQuantity.toInt = quantity.toNat
  delivery : line.olDeliveryD = 0

/-- The writes of order lines, when line `i`, from 0, is put at `key i`. -/
inductive LineWrites (key : Nat → Key) :
    List (ChosenStock × UInt32) → List (Key × Value F) → Prop
  | nil : LineWrites key [] []
  | snoc {lines writes stock quantity line} (row : StockVal) : LineWrites key lines writes →
      IsLine stock quantity line →
      LineWrites key (lines ++ [(stock, quantity)]) (writes ++
        [(stock.key, stockVal.encode row), (key lines.length, orderLineVal.encode line)])

/-- A write for line `i`, with its stock and quantity: that of the stock row, or of the line. -/
def IsLineWrite (key : Nat → Key) (i : Nat) (stock : ChosenStock) (quantity : UInt32)
    (w : Key × Value F) : Prop :=
  (∃ row : StockVal, w = (stock.key, stockVal.encode row)) ∨
    ∃ line : OrderLineVal F, IsLine stock quantity line ∧ w = (key i, orderLineVal.encode line)

theorem getElem?_snoc {α : Type} {l : List α} {a b : α} {i : Nat} :
    (l ++ [a])[i]? = some b ↔ l[i]? = some b ∨ i = l.length ∧ b = a := by
  by_cases earlier : i < l.length
  · rw [List.getElem?_append_left earlier]
    exact ⟨.inl, fun h => h.resolve_right fun last => absurd last.1 earlier.ne⟩
  · rw [List.getElem?_append_right (by omega), List.getElem?_singleton,
      List.getElem?_eq_none (by omega)]
    split
    · rename_i last
      have : i = l.length := by omega
      simp [this, eq_comm]
    · rename_i later
      have : i ≠ l.length := by omega
      simp [this]

section LineWrites

variable {key : Nat → Key} {lines : List (ChosenStock × UInt32)} {writes : List (Key × Value F)}
  {i : Nat} {stock : ChosenStock} {quantity : UInt32}

/-- Every write is one for a line. -/
theorem LineWrites.mem (h : LineWrites key lines writes) {w : Key × Value F} (hw : w ∈ writes) :
    ∃ i stock quantity, lines[i]? = some (stock, quantity) ∧
      IsLineWrite key i stock quantity w := by
  induction h with
  | nil => exact absurd hw (by simp)
  | @snoc lines writes stock quantity line row _ isLine ih =>
    rcases List.mem_append.mp hw with old | new
    · obtain ⟨i, stock', quantity', at_i, write⟩ := ih old
      exact ⟨i, stock', quantity', getElem?_snoc.mpr (.inl at_i), write⟩
    · refine ⟨lines.length, stock, quantity, getElem?_snoc.mpr (.inr ⟨rfl, rfl⟩), ?_⟩
      rcases List.mem_pair.mp new with rfl | rfl
      · exact .inl ⟨row, rfl⟩
      · exact .inr ⟨line, isLine, rfl⟩

/-- Every line is written, and after it the lines that come after it. -/
theorem LineWrites.split (h : LineWrites key lines writes)
    (at_i : lines[i]? = some (stock, quantity)) :
    ∃ before line rest, IsLine stock quantity line ∧
      writes = before ++ (key i, orderLineVal.encode line) :: rest ∧
      (∀ w ∈ rest, ∃ j stock quantity, i < j ∧ lines[j]? = some (stock, quantity) ∧
        IsLineWrite key j stock quantity w) ∧
      ∀ j stock quantity, i < j → lines[j]? = some (stock, quantity) →
        ∃ w ∈ rest, w.1 = stock.key := by
  induction h with
  | nil => simp at at_i
  | @snoc lines writes last number line row _ isLine ih =>
    rcases getElem?_snoc.mp at_i with old | ⟨rfl, new⟩
    · obtain ⟨before, line', rest, isLine', rfl, later, covered⟩ := ih old
      have earlier := (List.getElem?_eq_some_iff.mp old).1
      refine ⟨before, line', rest ++ _,
        isLine', by rw [List.append_assoc, List.cons_append], ?_, ?_⟩
      · intro w hw
        rcases List.mem_append.mp hw with old | added
        · obtain ⟨j, stock', quantity', after, at_j, write⟩ := later w old
          exact ⟨j, stock', quantity', after, getElem?_snoc.mpr (.inl at_j), write⟩
        · refine ⟨lines.length, last, number, earlier, getElem?_snoc.mpr (.inr ⟨rfl, rfl⟩), ?_⟩
          rcases List.mem_pair.mp added with rfl | rfl
          · exact .inl ⟨row, rfl⟩
          · exact .inr ⟨line, isLine, rfl⟩
      · intro j stock' quantity' after at_j
        rcases getElem?_snoc.mp at_j with old | ⟨rfl, new⟩
        · obtain ⟨w, hw, same⟩ := covered j stock' quantity' after old
          exact ⟨w, List.mem_append_left _ hw, same⟩
        · obtain ⟨rfl, rfl⟩ := Prod.mk.inj new
          exact ⟨_, List.mem_append_right _ (List.mem_pair.mpr (.inl rfl)), rfl⟩
    · obtain ⟨rfl, rfl⟩ := Prod.mk.inj new
      refine ⟨writes ++ [(stock.key, stockVal.encode row)], line, [], isLine, by simp, by simp, ?_⟩
      intro j stock' quantity' after at_j
      rcases getElem?_snoc.mp at_j with old | ⟨rfl, _⟩
      · have := (List.getElem?_eq_some_iff.mp old).1
        omega
      · exact absurd after (lt_irrefl _)

end LineWrites

/-- What the loop that selects the items keeps true. -/
structure Selection.Valid (W : Nat) (wId : Int) (x : Selection) : Prop where
  count : x.i = x.locals.length + x.remotes.length
  items : ∀ stock ∈ x.locals ++ x.remotes, 1 ≤ stock.itemId ∧ stock.itemId ≤ numItem
  supplies : ∀ stock ∈ x.locals, stock.supply = wId
  others : ∀ stock ∈ x.remotes, 1 ≤ stock.supply ∧ stock.supply ≤ W ∧ stock.supply ≠ wId

namespace NewOrderResult

variable (res : NewOrderResult)

/-- The key at which line `i`, from 0, is put. -/
def lineKey (i : Nat) : Key :=
  if i < res.selection.locals.length then
    orderKey res.warehouseId res.districtId res.myNextOId.toInt
  else
    orderLineKey res.warehouseId res.districtId res.myNextOId.toInt (i + 1 : Nat)

/-- The order row that is written. -/
structure IsOrder (order : OrderVal) : Prop where
  customer : order.oCId = Int32.ofInt res.customerId
  carrier : order.oCarrierId = 0
  count : order.oOlCnt = Int32.ofInt res.numItems

def index : OrderIndexVal where
  oId := (makeOrderKey res.warehouseId res.districtId res.myNextOId.toInt).toUInt64
  debugMagic := tpccAddMagic

/-- The writes of the rows before the lines. -/
def rowWrites (dist : DistrictVal F) (norder : NewOrderVal) (order : OrderVal) :
    List (Key × Value F) :=
  [(districtKey res.warehouseId res.districtId, districtVal.encode dist),
    (newOrderKey res.warehouseId res.districtId res.myNextOId.toInt, newOrderVal.encode norder),
    (orderKey res.warehouseId res.districtId res.myNextOId.toInt, orderVal.encode order),
    (orderIndexKey res.warehouseId res.districtId res.customerId res.myNextOId.toInt,
      orderIndexVal.encode res.index)]

/-- What a `NewOrder` that returns has drawn, read and written. -/
structure Effect {κ : Type} [DecidableEq κ] (addr : Key → κ) (W : Nat)
    (s s' : Store κ (Value F)) : Prop where
  warehouse : 1 ≤ res.warehouseId ∧ res.warehouseId < W
  district : 1 ≤ res.districtId ∧ res.districtId ≤ 10
  customer : 1 ≤ res.customerId ∧ res.customerId ≤ 3000
  numItems : 5 ≤ res.numItems ∧ res.numItems ≤ 15
  selection : res.selection.Valid W res.warehouseId
  selected : res.selection.i = res.numItems
  lines : res.lines.map Prod.fst = res.selection.locals ++ res.selection.remotes
  writes : ∃ old status dist next norder order lineWrites,
    Reads districtVal (s (addr (districtKey res.warehouseId res.districtId))) old status dist ∧
    res.myNextOId = dist.dNextOId ∧ addInt32 dist.dNextOId 1 = some next ∧ res.IsOrder order ∧
    LineWrites res.lineKey res.lines lineWrites ∧
    s' = s.puts addr
      (res.rowWrites { dist with dNextOId := next } norder order ++ lineWrites)

variable {res} in
theorem Effect.lines_le {κ : Type} [DecidableEq κ] {addr : Key → κ} {W : Nat}
    {s s' : Store κ (Value F)} (h : res.Effect addr W s s') :
    (res.lines.length : Int) = res.numItems ∧ res.lines.length ≤ 15 := by
  have stocks := congrArg List.length h.lines
  have count := h.selection.count
  have selected := h.selected
  have items := h.numItems
  simp only [List.length_map, List.length_append] at stocks
  omega

end NewOrderResult

end Writes

section Rules

variable {ρ F κ : Type} [FloatRep F] [DecidableEq F] [Amount F] [DecidableEq κ] {env : Env ρ}
  {addr : Key → κ} {W : Nat} {t : Thread ρ}

section Selection

variable {K V S : Type} {L : Logic K V S} {wId : Int} {s : S}

/-- Any warehouse but the given one can be drawn. -/
theorem wp_otherWarehouse {Q : Int → Thread ρ → S → Prop} (stick : L.mayStick)
    (h : ∀ (v : Int) t, 1 ≤ v → v ≤ W → v ≠ wId → Q v t s) :
    Act.wp L (otherWarehouse env W wId) Q t s := by
  unfold otherWarehouse
  refine Act.wp_loop (fun _ _ _ s' => s' = s) (.inl stick) ?_ rfl
  rintro _ _ t _ rfl
  rw [Act.wp_bind]
  refine wp_randomNumber (.inl stick) fun v t lower upper => ?_
  split
  · exact rfl
  · rename_i other
    exact h v t lower upper other

theorem localStock_valid {x : Selection} {n i : Int} (valid : x.Valid W wId) (more : x.i < n)
    (lower : 1 ≤ i) (upper : i ≤ numItem) :
    (localStock wId i x).Valid W wId ∧ (localStock wId i x).i ≤ n := by
  simp only [localStock]
  split
  · exact ⟨valid, by omega⟩
  refine ⟨⟨?_, ?_, ?_, valid.others⟩, by simp only; omega⟩
  · simp [valid.count]
    omega
  · intro stock mem
    have : stock ∈ x.locals ++ x.remotes ∨ stock = ChosenStock.of wId i := by
      simp only [List.mem_append, List.mem_singleton] at mem ⊢
      tauto
    rcases this with old | rfl
    · exact valid.items stock old
    · exact ⟨lower, upper⟩
  · intro stock mem
    rcases List.mem_append.mp mem with old | new
    · exact valid.supplies stock old
    · rw [List.mem_singleton.mp new]; rfl

theorem remoteStock_valid {x : Selection} {n v i : Int} (valid : x.Valid W wId) (more : x.i < n)
    (lower : 1 ≤ i) (upper : i ≤ numItem) (other : 1 ≤ v ∧ v ≤ W ∧ v ≠ wId) :
    (remoteStock v i x).Valid W wId ∧ (remoteStock v i x).i ≤ n := by
  simp only [remoteStock]
  split
  · exact ⟨⟨valid.count, valid.items, valid.supplies, valid.others⟩, by simp only; omega⟩
  refine ⟨⟨?_, ?_, valid.supplies, ?_⟩, by simp only; omega⟩
  · simp [valid.count]
    omega
  · intro stock mem
    have : stock ∈ x.locals ++ x.remotes ∨ stock = ChosenStock.of v i := by
      simpa only [List.mem_append, List.mem_singleton, or_assoc] using mem
    rcases this with old | rfl
    · exact valid.items stock old
    · exact ⟨lower, upper⟩
  · intro stock mem
    rcases List.mem_append.mp mem with old | new
    · exact valid.others stock old
    · rw [List.mem_singleton.mp new]; exact other

theorem wp_drawsLocal {Q : Bool → Thread ρ → S → Prop} (stick : L.mayStick)
    (h : ∀ v t, Q v t s) : Act.wp L (drawsLocal env W) Q t s := by
  unfold drawsLocal
  split
  · exact h true t
  · rw [Act.wp_bind]
    exact wp_randomNumber (.inl stick) fun v t _ _ => h _ t

theorem wp_selectItem {numItems : Int} {x : Selection} (stick : L.mayStick)
    (valid : x.Valid W wId) (le : x.i ≤ numItems) {Q : Selection ⊕ Selection → Thread ρ → S → Prop}
    (again : ∀ (x : Selection) t, x.Valid W wId → x.i ≤ numItems → Q (.inl x) t s)
    (stop : x.i = numItems → ∀ t, Q (.inr x) t s) :
    Act.wp L (selectItem env W wId numItems x) Q t s := by
  unfold selectItem
  split
  · rename_i more
    rw [Act.wp_bind]
    refine wp_getItemId (.inl stick) fun i t lower upper => ?_
    rw [Act.wp_bind]
    refine wp_drawsLocal stick fun isLocal t => ?_
    split
    · obtain ⟨valid, le⟩ := localStock_valid valid more lower upper
      exact again _ t valid le
    · rw [Act.wp_bind]
      refine wp_otherWarehouse stick fun v t low high other => ?_
      obtain ⟨valid, le⟩ := remoteStock_valid valid more lower upper ⟨low, high, other⟩
      exact again _ t valid le
  · exact stop (by omega) t

theorem wp_selectItems {numItems : Int} {Q : Selection → Thread ρ → S → Prop} (stick : L.mayStick)
    (n : 0 ≤ numItems) (h : ∀ (x : Selection) t, x.Valid W wId → x.i = numItems → Q x t s) :
    Act.wp L (selectItems env W wId numItems) Q t s := by
  unfold selectItems
  refine Act.wp_loop (fun _ x _ s' => s' = s ∧ x.Valid W wId ∧ x.i ≤ numItems) (.inl stick) ?_
    ⟨rfl, ⟨by simp, by simp, by simp, by simp⟩, n⟩
  rintro _ x t _ ⟨rfl, valid, le⟩
  refine wp_selectItem stick valid le (fun x t valid le => ⟨rfl, valid, le⟩) fun i t => ?_
  exact h x t valid i

end Selection

section Lines

variable {s : Store κ (Value F)} {wId dId : Int} {stock : ChosenStock}

theorem quantity_toInt {q : Int} (lower : 1 ≤ q) (upper : q ≤ 10) :
    ((UInt32.ofInt q).toUInt8.toInt8.toInt32).toInt = (UInt32.ofInt q).toNat := by
  interval_cases q <;> decide

theorem wp_newOrderLine {Q : OrderLineVal F × UInt32 → Thread ρ → Store κ (Value F) → Prop}
    (h : ∀ row line quantity t, IsLine stock quantity line →
      Q (line, quantity) t (s.put (addr stock.key) (stockVal.encode row))) :
    Act.wp (Contract.partly (Value F) addr).logic (newOrderLine env wId stock) Q t s := by
  simp only [newOrderLine, Act.wp_bind, Act.wp_pure, wp_putRecord]
  refine wp_randomNumber (.inl trivial) fun q t lower upper => ?_
  refine wp_uninit fun item t => wp_getRecord ⟨trivial, fun _ item t _ => ?_⟩
  refine wp_uninit fun val t => wp_getRecord ⟨trivial, fun _ val t _ => ?_⟩
  refine Act.wp_ofOption (fun row _ => ⟨trivial, ?_⟩) (.inl trivial)
  exact wp_uninit fun line t => h row _ _ t ⟨rfl, rfl, quantity_toInt lower upper, rfl⟩

/-- The lines put one after another by a loop, from a store that a number of them have led to. -/
def LinesPut (addr : Key → κ) (key : Nat → Key) (s : Store κ (Value F))
    (stocks : List ChosenStock) (lines : List (ChosenStock × UInt32)) (s' : Store κ (Value F)) :
    Prop :=
  lines.map Prod.fst = stocks ∧
    ∃ writes, LineWrites key lines writes ∧ s' = s.puts addr writes

omit [Amount F] in
/-- A line more, after its stock has been updated. -/
theorem LinesPut.snoc {key : Nat → Key} {s' : Store κ (Value F)} {stocks : List ChosenStock}
    {lines : List (ChosenStock × UInt32)} {line : OrderLineVal F} {quantity : UInt32}
    (h : LinesPut addr key s stocks lines s') (row : StockVal)
    (isLine : IsLine stock quantity line) :
    LinesPut addr key s (stocks ++ [stock]) (lines ++ [(stock, quantity)])
      ((s'.put (addr stock.key) (stockVal.encode row)).put (addr (key stocks.length))
        (orderLineVal.encode line)) := by
  obtain ⟨rfl, writes, lineWrites, rfl⟩ := h
  refine ⟨by simp, _, .snoc row lineWrites isLine, ?_⟩
  rw [Store.puts_append, List.length_map]
  rfl

theorem wp_localLines (key : Nat → Key) {oId : Int32} {stocks : List ChosenStock}
    {Q : List (ChosenStock × UInt32) → Thread ρ → Store κ (Value F) → Prop}
    (keys : ∀ i < stocks.length, key i = orderKey wId dId oId.toInt)
    (h : ∀ lines t s', LinesPut addr key s stocks lines s' → Q lines t s') :
    Act.wp (Contract.partly (Value F) addr).logic
      (.forEach (localLine env wId dId oId) 1 stocks []) Q t s := by
  refine Act.wp_mono (Act.wp_forEach (fun seen lines _ s' => LinesPut addr key s seen lines s') ?_
    ⟨rfl, [], .nil, rfl⟩) h
  rintro seen stock lines t s' ⟨rest, rfl⟩ hI
  simp only [localLine, Act.wp_bind, Act.wp_pure, wp_putRecord]
  refine wp_newOrderLine fun row line quantity t isLine => ⟨trivial, ?_⟩
  have next := hI.snoc row isLine
  rwa [keys seen.length (by simp)] at next

theorem wp_remoteLines (key : Nat → Key) {oId : Int32} {before stocks : List ChosenStock}
    {lines : List (ChosenStock × UInt32)} {s' : Store κ (Value F)}
    {Q : List (ChosenStock × UInt32) → Thread ρ → Store κ (Value F) → Prop}
    (keys : ∀ i < stocks.length, key (before.length + i) =
      orderLineKey wId dId oId.toInt (before.length + (1 + i) : Nat))
    (put : LinesPut addr key s before lines s')
    (h : ∀ lines t s', LinesPut addr key s (before ++ stocks) lines s' → Q lines t s') :
    Act.wp (Contract.partly (Value F) addr).logic
      (.forEach (remoteLine env wId dId oId before.length) 1 stocks lines) Q t s' := by
  refine Act.wp_mono (Act.wp_forEach
    (fun seen lines _ s' => LinesPut addr key s (before ++ seen) lines s') ?_ (by simpa)) h
  rintro seen stock lines t s' ⟨rest, rfl⟩ hI
  simp only [remoteLine, Act.wp_bind, Act.wp_pure, wp_putRecord]
  refine wp_newOrderLine fun row line quantity t isLine => ⟨trivial, ?_⟩
  have next := hI.snoc row isLine
  rw [List.length_append, keys seen.length (by simp), List.append_assoc] at next
  exact_mod_cast next

omit [Amount F] in
theorem wp_insertOrder {cId numItems : Int} {allLocal : Int32}
    {Q : Int32 → Thread ρ → Store κ (Value F) → Prop}
    (h : ∀ old status dist next norder oEntryD t,
      Reads districtVal (s (addr (districtKey wId dId))) old status dist →
      addInt32 dist.dNextOId 1 = some next →
      Q dist.dNextOId t (s.puts addr
        [(districtKey wId dId, districtVal.encode { dist with dNextOId := next }),
          (newOrderKey wId dId dist.dNextOId.toInt, newOrderVal.encode norder),
          (orderKey wId dId dist.dNextOId.toInt, orderVal.encode {
            oCId := Int32.ofInt cId, oCarrierId := 0, oOlCnt := Int32.ofInt numItems
            oAllLocal := allLocal, oEntryD }),
          (orderIndexKey wId dId cId dist.dNextOId.toInt, orderIndexVal.encode {
            oId := (makeOrderKey wId dId dist.dNextOId.toInt).toUInt64
            debugMagic := tpccAddMagic })])) :
    Act.wp (Contract.partly (Value F) addr).logic
      (insertOrder env wId dId cId numItems allLocal) Q t s := by
  simp only [insertOrder, Act.wp_bind, Act.wp_pure, wp_putRecord]
  refine wp_uninit fun ware t => wp_getRecord ⟨trivial, fun _ ware t _ => ?_⟩
  refine wp_uninit fun cust t => wp_getRecord ⟨trivial, fun _ cust t _ => ?_⟩
  refine wp_uninit fun old t => wp_getRecord ⟨trivial, fun status dist t reads => ?_⟩
  refine Act.wp_ofOption (fun next hnext => ⟨trivial, ?_⟩) (.inl trivial)
  refine wp_uninit fun norder t => ⟨trivial, ?_⟩
  refine wp_getCurrentTimeMillis fun oEntryD t => ⟨trivial, trivial, ?_⟩
  exact h old status dist next _ oEntryD t reads hnext

end Lines

/-- What an order draws, before it reads and writes. -/
theorem wp_newOrder_draws {S : Type} {L : Logic Key (Value F) S} {s : S}
    {Q : NewOrderResult → Thread ρ → S → Prop} (stick : L.mayStick)
    (h : ∀ (w d c n : Int) (x : Selection) t, 1 ≤ w ∧ w < W → 1 ≤ d ∧ d ≤ 10 →
      1 ≤ c ∧ c ≤ 3000 → 5 ≤ n ∧ n ≤ 15 → x.Valid W w → x.i = n →
      Act.wp L (insertOrder env w d c n x.allLocal) (fun oId =>
        Act.wp L (.forEach (localLine env w d oId) 1 x.locals []) fun lines =>
          Act.wp L (.forEach (remoteLine env w d oId x.locals.length) 1 x.remotes lines)
            fun lines =>
            Q ⟨w, d, c, n, x, oId, lines⟩) t s) :
    Act.wp L (newOrder env W) Q t s := by
  simp only [newOrder, Act.wp_bind, Act.wp_pure]
  refine wp_pickWarehouseId (.inl stick) fun w t hw hw' => ?_
  refine wp_randomNumber (.inl stick) fun d t hd hd' => ?_
  refine wp_getCustomerId (.inl stick) fun c t hc hc' => ?_
  refine wp_randomNumber (.inl stick) fun n t hn hn' => ?_
  refine wp_selectItems stick (by omega) fun x t valid hx => ?_
  exact h w d c n x t ⟨hw, hw'⟩ ⟨hd, hd'⟩ ⟨hc, hc'⟩ ⟨hn, hn'⟩ valid hx

theorem newOrder_effect {s s' : Store κ (Value F)} {t' : Thread ρ} {res : NewOrderResult}
    (returns : Act.Returns addr (newOrder env W) t s res t' s') : res.Effect addr W s s' := by
  refine Act.wp_returns (C := Contract.partly (Value F) addr)
    (Q := fun res _ s' => res.Effect addr W s s') ?_ returns
  refine wp_newOrder_draws trivial fun w d c n x t hw hd hc hn valid hx => ?_
  refine wp_insertOrder fun old status dist next norder oEntryD t reads hnext => ?_
  let res : NewOrderResult := ⟨w, d, c, n, x, dist.dNextOId, []⟩
  refine wp_localLines res.lineKey (fun i hi => if_pos hi) fun lines t s1 put => ?_
  refine wp_remoteLines res.lineKey (fun i hi => ?_) put fun lines t s2 put => ?_
  · rw [NewOrderResult.lineKey, if_neg (by simp [res])]
    simp [res, Nat.add_comm 1 i, Nat.add_assoc]
  obtain ⟨stocks, writes, lineWrites, rfl⟩ := put
  let order : OrderVal := ⟨Int32.ofInt c, 0, Int32.ofInt n, x.allLocal, oEntryD⟩
  refine ⟨hw, hd, hc, hn, valid, hx, stocks, old, status, dist, next, norder, order, writes, reads,
    rfl, hnext, ⟨rfl, rfl, rfl⟩, lineWrites, ?_⟩
  rw [Store.puts_append]
  rfl

end Rules

end Tpcc
