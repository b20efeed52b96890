import Tpcc.Consistency.LostUpdates
import Tpcc.Consistency.StockCounters
import Tpcc.CustomerData
import Tpcc.Lib.Rows

/-! The rows of the tables under clients that interleave.  Updates can be lost, but whatever the
order of the accesses, a row stays what its loaded row can become: each column that no transaction
writes keeps its value, the numbers and the counters have moved by no more than there were moves,
and no row is removed.  So a client whose draws are accepted never fails an assertion, overflows a
counter or a buffer. -/

namespace Tpcc

open KvProgram Layout

/-! ### Rows -/

section Rows

variable {F : Type}

/-- What the row of a warehouse becomes. -/
def WarehouseVal.Later (row later : WarehouseVal F) : Prop :=
  later = { row with wYtd := later.wYtd }

/-- What the row of a district becomes in `n` moves. -/
structure DistrictVal.Later (n : Nat) (row later : DistrictVal F) : Prop where
  same : later = { row with dYtd := later.dYtd, dNextOId := later.dNextOId }
  next : row.dNextOId.toInt ≤ later.dNextOId.toInt ∧
    later.dNextOId.toInt ≤ row.dNextOId.toInt + n

/-- What the row of a customer becomes in `n` moves. -/
structure CustomerVal.Later (n : Nat) (row later : CustomerVal F) : Prop where
  same : later = { row with
    cBalance := later.cBalance, cYtdPayment := later.cYtdPayment, cPaymentCnt := later.cPaymentCnt
    cDeliveryCnt := later.cDeliveryCnt, cData := later.cData }
  payments : row.cPaymentCnt.toInt ≤ later.cPaymentCnt.toInt ∧
    later.cPaymentCnt.toInt ≤ row.cPaymentCnt.toInt + n
  deliveries : row.cDeliveryCnt.toInt ≤ later.cDeliveryCnt.toInt ∧
    later.cDeliveryCnt.toInt ≤ row.cDeliveryCnt.toInt + n
  data : later.cData.IsStr 500
  good : CharArray.cStr row.cCredit.bytes ≠ badCredit → later.cData = row.cData

/-- What the row of a stock becomes in `n` moves. -/
structure StockVal.Later (n : Nat) (row later : StockVal) : Prop where
  same : later = { row with
    sQuantity := later.sQuantity, sYtd := later.sYtd, sRemoteCnt := later.sRemoteCnt }
  inStock : later.InStock
  remote : row.sRemoteCnt.toInt ≤ later.sRemoteCnt.toInt ∧
    later.sRemoteCnt.toInt ≤ row.sRemoteCnt.toInt + n

/-- What the row of an order becomes. -/
def OrderVal.Later (row later : OrderVal) : Prop :=
  later = { row with oCarrierId := later.oCarrierId }

/-- What the row of an order line becomes. -/
def OrderLineVal.Later (row later : OrderLineVal F) : Prop :=
  later = { row with olDeliveryD := later.olDeliveryD }

/-- An order that a `NewOrder` has inserted: it has not been delivered. -/
structure OrderVal.Entered (row : OrderVal) : Prop where
  customer : 1 ≤ row.oCId.toInt ∧ row.oCId.toInt ≤ 3000
  count : 5 ≤ row.oOlCnt.toInt ∧ row.oOlCnt.toInt ≤ 15
  carrier : row.oCarrierId = 0

variable [FloatRep F] [DecidableEq F]

/-- The value at a key is a row that the row at first can become. -/
def Evolves {α : Type} (layout : Codec (Cell F) α) (Later : α → α → Prop) (first : Option (Value F))
    (v : Value F) : Prop :=
  ∃ row later, first = some (layout.encode row) ∧ v = layout.encode later ∧ Later row later

/-- What stands at a key after `n` moves of clients on a store.  The orders inserted share their
keys with their local lines; a line key has no room for order numbers past 10000000, and `Payment`
writes the rows of the history whole. -/
def RowAfter (s : Store Key (Value F)) (n : Nat) (k : Key) (v : Value F) : Prop :=
  match k.table with
  | .warehouse => Evolves warehouseVal WarehouseVal.Later (s k) v
  | .district => Evolves districtVal (DistrictVal.Later n) (s k) v
  | .customer => Evolves customerVal (CustomerVal.Later n) (s k) v
  | .stock => Evolves stockVal (StockVal.Later n) (s k) v
  | .order => Evolves orderVal OrderVal.Later (s k) v ∨ s k = none ∧
      ((∃ row : OrderVal, v = orderVal.encode row ∧ row.Entered) ∨
        ∃ line : OrderLineVal F, v = orderLineVal.encode line)
  | .newOrder => s k = some v ∨ s k = none ∧ ∃ row : NewOrderVal, v = newOrderVal.encode row
  | .orderIndex => s k = some v ∨ s k = none ∧ ∃ row : OrderIndexVal, v = orderIndexVal.encode row
  | .orderLine => (∃ line : OrderLineVal F, v = orderLineVal.encode line) ∧
      (3001 + n ≤ 10000000 → s k ≠ none → Evolves orderLineVal OrderLineVal.Later (s k) v)
  | .history => ∃ hist : HistoryVal F, v = historyVal.encode hist
  | .item | .customerIndex => s k = some v

omit [FloatRep F] [DecidableEq F] in
theorem Evolves.imp {α : Type} {layout : Codec (Cell F) α} {Later Later' : α → α → Prop}
    {first : Option (Value F)} {v : Value F} (h : Evolves layout Later first v)
    (imp : ∀ row later, Later row later → Later' row later) : Evolves layout Later' first v := by
  obtain ⟨row, later, stored, image, becomes⟩ := h
  exact ⟨row, later, stored, image, imp row later becomes⟩

theorem RowAfter.later {s : Store Key (Value F)} {n m : Nat} {k : Key} {v : Value F}
    (h : RowAfter s n k v) (le : n ≤ m) : RowAfter s m k v := by
  obtain ⟨table, itemKey⟩ := k
  cases table
  case district =>
    apply Evolves.imp h
    intro row later ⟨same, next⟩
    exact ⟨same, by omega⟩
  case customer =>
    apply Evolves.imp h
    intro row later ⟨same, payments, deliveries, data, good⟩
    exact ⟨same, by omega, by omega, data, good⟩
  case stock =>
    apply Evolves.imp h
    intro row later ⟨same, inStock, remote⟩
    exact ⟨same, inStock, by omega⟩
  case orderLine => exact ⟨h.1, fun few => h.2 (by omega)⟩
  all_goals exact h

/-- The rows that clients on a store rely on. -/
def rowsAfter (s : Store Key (Value F)) : Rows Key (Value F) where
  Row := RowAfter s
  Present k := s k ≠ none
  later h le := h.later le

variable [Amount F] {W : Nat} {s : Store Key (Value F)}

/-- A row that has been loaded is what it was loaded as. -/
theorem LoadRow.rowAfter {k : Key} {v : Value F} (row : LoadRow W k v) (stored : s k = some v) :
    RowAfter s 0 k v := by
  cases row with
  | @warehouse w row => exact ⟨row, row, stored, rfl, rfl⟩
  | @district w d row => exact ⟨row, row, stored, rfl, rfl, by omega⟩
  | @customer w d c row _ _ _ data =>
    exact ⟨row, row, stored, rfl, rfl, by omega, by omega, data, fun _ => rfl⟩
  | customerIndex => exact stored
  | @history w d c row => exact ⟨row, rfl⟩
  | @order w d o row => exact .inl ⟨row, row, stored, rfl, rfl⟩
  | orderIndex => exact .inl stored
  | newOrder => exact .inl stored
  | @orderLine w d o l row => exact ⟨⟨row, rfl⟩, fun _ _ => ⟨row, row, stored, rfl, rfl⟩⟩
  | item => exact stored
  | @stock w i row _ quantity => exact ⟨row, row, stored, rfl, rfl, quantity, by omega⟩

theorem TablesLoaded.found (loaded : TablesLoaded W s) (k : Key) :
    (rowsAfter s).Found 0 k (s k) :=
  ⟨fun v stored => (loaded.typed k v stored).rowAfter stored, id⟩

omit [Amount F] in
/-- A loaded order stays an order. -/
theorem evolves_order {w d o : Int} {first : OrderVal}
    (stored : s (orderKey w d o) = some (orderVal.encode first)) (n : Nat) (v : Value F)
    (row : RowAfter s n (orderKey w d o) v) :
    Evolves orderVal OrderVal.Later (s (orderKey w d o)) v :=
  row.resolve_right fun new => by simp [stored] at new

end Rows

/-! ### The accesses to the rows -/

section Accesses

variable {ρ F α : Type} [FloatRep F] [DecidableEq F] {env : Env ρ} {t : Thread ρ}
  {s : Store Key (Value F)} {limit n b : Nat} {mayStick : Prop} {layout : Codec (Cell F) α}
  {key : Key}

theorem wp_getRecord_rows {old : α} {Q : Int × α → Thread ρ → Nat × Nat → Prop}
    (h : ∀ m x t, n ≤ m → Q x t (m, b)) :
    Act.wp ((rowsAfter s).logic limit mayStick) (getRecord env layout key old) Q t (n, b + 1) := by
  apply wp_getRecord
  refine ⟨Nat.succ_pos b, fun m le _ stored _ status v t _ => ?_⟩
  exact h (m + 1) _ t (Nat.le_succ_of_le le)

/-- A row that is there is read, as what it can have become. -/
theorem wp_getRecord_evolves {Later : Nat → α → α → Prop} {first old : α}
    {Q : Int × α → Thread ρ → Nat × Nat → Prop} (stored : s key = some (layout.encode first))
    (evolves : ∀ m v, RowAfter s m key v → Evolves layout (Later m) (s key) v)
    (h : ∀ m row t, n ≤ m → m < limit → Later m first row → Q (1, row) t (m + 1, b)) :
    Act.wp ((rowsAfter s).logic limit mayStick) (getRecord env layout key old) Q t (n, b + 1) := by
  apply wp_getRecord
  refine ⟨Nat.succ_pos b, fun m le less value found status v t reads => ?_⟩
  obtain ⟨x, rfl⟩ := Option.ne_none_iff_exists'.mp
    (found.present (show s key ≠ none by simp [stored]))
  obtain ⟨row, later, stored', rfl, becomes⟩ := evolves m x (found.row x rfl)
  rw [reads_encode] at reads
  obtain ⟨rfl, rfl⟩ := reads
  have same : first = row := layout.encode_injective (Option.some.inj (stored.symm.trans stored'))
  exact h m v t le less (same ▸ becomes)

/-- The row of an order line is read, as what it can have become if it has been loaded. -/
theorem wp_getRecord_line {w d o l : Int} {old : OrderLineVal F}
    {Q : Int × OrderLineVal F → Thread ρ → Nat × Nat → Prop}
    (h : ∀ m x t, n ≤ m → (3001 + m ≤ 10000000 → ∀ first : OrderLineVal F,
      s (orderLineKey w d o l) = some (orderLineVal.encode first) → first.Later x.2) →
        Q x t (m + 1, b)) :
    Act.wp ((rowsAfter s).logic limit mayStick)
      (getRecord env orderLineVal (orderLineKey w d o l) old) Q t (n, b + 1) := by
  apply wp_getRecord
  refine ⟨Nat.succ_pos b, fun m le _ value found status v t reads => h m _ t le ?_⟩
  intro few first stored
  have there : s (orderLineKey w d o l) ≠ none := by simp [stored]
  obtain ⟨x, rfl⟩ := Option.ne_none_iff_exists'.mp (found.present there)
  obtain ⟨row, later, stored', rfl, becomes⟩ := (found.row x rfl).2 few there
  rw [reads_encode] at reads
  obtain ⟨rfl, rfl⟩ := reads
  have same : first = row :=
    orderLineVal.encode_injective (Option.some.inj (stored.symm.trans stored'))
  exact same ▸ becomes

theorem wp_putRecord_rows {v : α} {Q : Int → Thread ρ → Nat × Nat → Prop}
    (row : RowAfter s (n + 1) key (layout.encode v)) (h : ∀ m, n ≤ m → Q 1 t (m, b)) :
    Act.wp ((rowsAfter s).logic limit mayStick) (putRecord layout key v) Q t (n, b + 1) := by
  rw [wp_putRecord]
  refine ⟨Nat.succ_pos b, fun m le _ => ⟨row.later (Nat.succ_le_succ le), ?_⟩⟩
  exact h (m + 1) (Nat.le_succ_of_le le)

end Accesses

/-! ### The texts of the payments -/

section Texts

/-- Digits are encoded in a byte each. -/
theorem utf8_digits {l : List Char} (digits : ∀ c ∈ l, c.isDigit) :
    l.utf8Encode.data.toList = l.map fun c => c.val.toUInt8 := by
  have bytes : l.flatMap String.utf8EncodeChar = l.map fun c => c.val.toUInt8 := by
    induction l with
    | nil => rfl
    | cons c l ih =>
      have digit := digits c List.mem_cons_self
      have size : c.utf8Size = 1 := by
        have : c.val ≤ 57 := by simp [Char.isDigit] at digit; exact digit.2
        have : c.val ≤ 127 := by
          rw [UInt32.le_iff_toNat_le] at *
          simp at *
          omega
        simp [Char.utf8Size, this]
      rw [List.flatMap_cons, String.utf8EncodeChar_eq_singleton size, List.map_cons,
        ih fun c mem => digits c (List.mem_cons_of_mem _ mem)]
      rfl
  rw [← bytes]
  simp [List.utf8Encode]

/-- A natural number is printed as its digits. -/
theorem decimal_natCast (n : Nat) : decimal n = (Nat.toDigits 10 n).map fun c => c.val.toUInt8 := by
  rw [← utf8_digits fun c => Nat.isDigit_of_mem_toDigits (by decide) (by decide)]
  have same : toString (n : Int) = String.ofList (Nat.toDigits 10 n) := by
    show Int.repr n = _
    show Nat.repr n = _
    exact Nat.repr_eq_ofList_toDigits
  rw [decimal, same]
  simp

/-- What a number of few digits prints as. -/
theorem decimal_text {n : Int} {k : Nat} (low : 0 ≤ n) (high : n < 10 ^ (k + 1)) :
    0 ∉ decimal n ∧ (decimal n).length ≤ k + 1 := by
  lift n to Nat using low
  rw [decimal_natCast]
  constructor
  · intro mem
    obtain ⟨c, mem, zero⟩ := List.mem_map.mp mem
    have digit := Nat.isDigit_of_mem_toDigits (by decide) (by decide) mem
    simp only [Char.isDigit, Bool.and_eq_true, decide_eq_true_eq, ge_iff_le,
      UInt32.le_iff_toNat_le] at digit
    have small : c.val.toNat % 256 = 0 := by
      rw [← UInt32.toNat_toUInt8, zero]
      rfl
    obtain ⟨low, high⟩ := digit
    have low : 48 ≤ c.val.toNat := low
    have high : c.val.toNat ≤ 57 := high
    omega
  · rw [List.length_map, Nat.length_toDigits_le_iff (by decide) (by omega)]
    exact_mod_cast high

/-- Hundredths are printed exactly. -/
theorem fixed2_quotient {n : Int} (positive : 0 < n) :
    Amount.fixed2 (Amount.quotient n 100 : ℚ) = decimal (n / 100) ++ ".".toUTF8.data.toList ++
      decimal (n / 10 % 10) ++ decimal (n % 10) := by
  have positive : (0 : ℚ) < n := by exact_mod_cast positive
  have cents : ⌊|(n / (100 : Nat) : ℚ)| * 100 + 1 / 2⌋ = n := by
    rw [abs_of_pos (by positivity), Int.floor_eq_iff]
    push_cast
    constructor <;> linarith
  have sign : ¬(n / (100 : Nat) : ℚ) < 0 := not_lt.mpr (by positivity)
  simp only [Amount.fixed2, Amount.quotient, cents, if_neg sign, List.nil_append]

theorem fixed2_text {n : Int} (low : 100 ≤ n) (high : n ≤ 500000) :
    0 ∉ Amount.fixed2 (Amount.quotient n 100 : ℚ) ∧
      (Amount.fixed2 (Amount.quotient n 100 : ℚ)).length ≤ 7 := by
  have units := decimal_text (n := n / 100) (k := 3) (by omega) (by omega)
  have tenths := decimal_text (n := n / 10 % 10) (k := 0) (by omega) (by omega)
  have hundredths := decimal_text (n := n % 10) (k := 0) (by omega) (by omega)
  have point : 0 ∉ ".".toUTF8.data.toList ∧ ".".toUTF8.data.toList.length = 1 := by decide
  rw [fixed2_quotient (by omega)]
  simp only [List.mem_append, List.length_append]
  constructor
  · tauto
  · omega

/-- What `%.2f` prints of the amounts of payments. -/
def AmountsPrint (F : Type) [Amount F] : Prop := ∀ n : Int, 100 ≤ n → n ≤ 500000 →
  0 ∉ Amount.fixed2 (Amount.quotient n 100 : F) ∧
    (Amount.fixed2 (Amount.quotient n 100 : F)).length ≤ 7

theorem exact_amountsPrint : AmountsPrint ℚ := fun _ => fixed2_text

/-- The text of a payment has room in the data of a customer. -/
theorem isText_paymentHistory {F : Type} [Amount F] (prints : AmountsPrint F) {W : Nat}
    (small : W ≤ 21474) {w d cw cd c n : Int} (district : IsDistrict W w d)
    (home : IsDistrict W cw cd) (customer : 1 ≤ c ∧ c ≤ 3000) (amount : 100 ≤ n ∧ n ≤ 500000) :
    IsText (paymentHistory w d cw cd c (Amount.quotient n 100 : F)) := by
  obtain ⟨hw, hd⟩ := district
  obtain ⟨hcw, hcd⟩ := home
  have warehouse := decimal_text (n := w) (k := 4) (by omega) (by omega)
  have district := decimal_text (n := d) (k := 1) (by omega) (by omega)
  have homeWarehouse := decimal_text (n := cw) (k := 4) (by omega) (by omega)
  have homeDistrict := decimal_text (n := cd) (k := 1) (by omega) (by omega)
  have customer := decimal_text (n := c) (k := 3) (by omega) (by omega)
  have printed := prints n amount.1 amount.2
  have opening : 0 ∉ "(".toUTF8.data.toList ∧ "(".toUTF8.data.toList.length = 1 := by decide
  have comma : 0 ∉ ", ".toUTF8.data.toList ∧ ", ".toUTF8.data.toList.length = 2 := by decide
  have closing : 0 ∉ ")\n".toUTF8.data.toList ∧ ")\n".toUTF8.data.toList.length = 2 := by decide
  unfold IsText
  simp only [paymentHistory, List.mem_append, List.length_append]
  constructor
  · tauto
  · omega

end Texts

/-! ### The transactions -/

section Transactions

variable {ρ F : Type} [FloatRep F] [DecidableEq F] [Amount F] {env : Env ρ} {t : Thread ρ} {W : Nat}
  {s : Store Key (Value F)} {limit n b : Nat} {mayStick : Prop} {w d c : Int}

/-- An order takes a number that no loaded order has. -/
theorem wp_insertOrder_rows {numItems : Int} {allLocal : Int32}
    {Q : Int32 → Thread ρ → Nat × Nat → Prop}
    (loaded : TablesLoaded W s) (ok : mayStick ∨ limit + 3001 < 2 ^ 31) (hd : IsDistrict W w d)
    (hc : 1 ≤ c ∧ c ≤ 3000) (items : 5 ≤ numItems ∧ numItems ≤ 15)
    (h : ∀ (m : Nat) (oId : Int32) t, 3001 ≤ oId.toInt → oId.toInt ≤ 3001 + m → Q oId t (m, b)) :
    Act.wp ((rowsAfter s).logic limit mayStick) (insertOrder env w d c numItems allLocal) Q t
      (n, b + 7) := by
  obtain ⟨dist, stored, _, first, _⟩ := loaded.district hd
  have first : dist.dNextOId.toInt = 3001 := by rw [first]; rfl
  simp only [insertOrder, Act.wp_bind, Act.wp_pure]
  refine wp_uninit fun ware t => wp_getRecord_rows fun m₁ _ t le₁ => ?_
  refine wp_uninit fun cust t => wp_getRecord_rows fun m₂ _ t le₂ => ?_
  refine wp_uninit fun old t => wp_getRecord_evolves stored (fun _ _ => id)
    fun m₃ row t le₃ less later => ?_
  have low := later.next.1
  have high := later.next.2
  have isInt32 := isInt32_toInt row.dNextOId
  have noOrder : s (orderKey w d row.dNextOId.toInt) = none := by
    by_contra there
    have := loaded.order_range hd isInt32 there
    omega
  have noNewOrder : s (newOrderKey w d row.dNextOId.toInt) = none := by
    by_contra there
    have := (loaded.newOrder_iff hd isInt32).mp there
    omega
  have noIndex : s (orderIndexKey w d c row.dNextOId.toInt) = none := by
    by_contra there
    have := loaded.orderIndex_range hd hc ⟨by omega, isInt32.2⟩ there
    omega
  apply Act.wp_ofOption
  · intro next more
    have value : next.toInt = row.dNextOId.toInt + 1 := addInt32_toInt more
    have customer : (Int32.ofInt c).toInt = c := Int32.toInt_ofInt_of_le (by omega) (by omega)
    have count : (Int32.ofInt numItems).toInt = numItems :=
      Int32.toInt_ofInt_of_le (by omega) (by omega)
    refine wp_putRecord_rows ?_ fun m₄ le₄ => ?_
    · exact ⟨dist, _, stored, rfl, by rw [later.same], by simp only; omega⟩
    refine wp_uninit fun norder t => wp_putRecord_rows (.inr ⟨noNewOrder, _, rfl⟩) fun m₅ le₅ => ?_
    refine wp_getCurrentTimeMillis fun oEntryD t => wp_putRecord_rows ?_ fun m₆ le₆ => ?_
    · exact .inr ⟨noOrder, .inl ⟨_, rfl, customer.symm ▸ hc, count.symm ▸ items, rfl⟩⟩
    · refine wp_putRecord_rows (.inr ⟨noIndex, _, rfl⟩) fun m₇ le₇ => ?_
      exact h m₇ row.dNextOId t (by omega) (by omega)
  · apply ok.imp_right
    intro room
    show (addInt32 row.dNextOId 1).isSome
    rw [Option.isSome_iff_exists, addInt32_isSome]
    omega

theorem StockVal.Later.update {n m : Nat} {first row row' : StockVal} {q : Int} {remote : Bool}
    (h : StockVal.Later n first row) (low : 1 ≤ q) (high : q ≤ 10) (less : n < m)
    (updated : updateStock row (UInt32.ofInt q) remote = some row') :
    StockVal.Later m first row' := by
  have quantity : 1 ≤ (UInt32.ofInt q).toNat ∧ (UInt32.ofInt q).toNat ≤ 10 := by
    interval_cases q <;> decide
  obtain ⟨sQuantity, sRemoteCnt, _, counted, same⟩ := updateStock_iff.mp updated
  have count := addInt32_toInt counted
  have more : 0 ≤ (if remote then 1 else 0 : Int) ∧ (if remote then 1 else 0 : Int) ≤ 1 := by
    split <;> decide
  obtain ⟨lower, upper⟩ := h.remote
  constructor
  · rw [same, h.same]
  · exact (h.inStock.update quantity.1 quantity.2 updated).2
  · rw [same]
    simp only
    omega

/-- The item of a line is read, and its stock updated. -/
theorem wp_newOrderLine_rows {stock : ChosenStock}
    {Q : OrderLineVal F × UInt32 → Thread ρ → Nat × Nat → Prop}
    (loaded : TablesLoaded W s) (ok : mayStick ∨ limit + 3001 < 2 ^ 31)
    (supply : 1 ≤ stock.supply ∧ stock.supply ≤ W)
    (item : 1 ≤ stock.itemId ∧ stock.itemId ≤ 100000) (h : ∀ m x t, n ≤ m → Q x t (m, b)) :
    Act.wp ((rowsAfter s).logic limit mayStick) (newOrderLine env w stock) Q t (n, b + 3) := by
  obtain ⟨first, stored, _, _, _, unused⟩ := loaded.stock supply item
  have none : first.sRemoteCnt.toInt = 0 := by rw [unused]; rfl
  rw [← stock.key_eq] at stored
  simp only [newOrderLine, Act.wp_bind, Act.wp_pure]
  refine wp_randomNumber (.inr (by decide)) fun q t low high => ?_
  refine wp_uninit fun old t => wp_getRecord_rows fun m₁ item t le₁ => ?_
  refine wp_uninit fun old t => wp_getRecord_evolves stored (fun _ _ => id)
    fun m₂ row t le₂ less later => ?_
  apply Act.wp_ofOption
  · intro row' updated
    refine wp_putRecord_rows ?_ fun m₃ le₃ => wp_uninit fun line t => h m₃ _ t (by omega)
    exact ⟨first, row', stored, rfl, later.update low high (by omega) updated⟩
  · apply ok.imp_right
    intro room
    have quantity : 1 ≤ (UInt32.ofInt q).toNat ∧ (UInt32.ofInt q).toNat ≤ 10 := by
      interval_cases q <;> decide
    have upper := later.remote.2
    rw [Option.isSome_iff_exists]
    apply (updateStock_isSome quantity.1 quantity.2).mpr
    intro _
    show row.sRemoteCnt.toInt + 1 < 2 ^ 31
    omega

theorem newOrder_begins (loaded : TablesLoaded W s) (ok : mayStick ∨ limit + 3001 < 2 ^ 31) :
    Act.Begins ((rowsAfter s).logic limit mayStick) (newOrder env W) (fun _ _ _ => True) t
      (n, 67) := by
  unfold newOrder
  refine Act.begins_draw (wp_pickWarehouseId (.inl trivial) fun w t hw hw' => ?_)
  refine Act.begins_draw (wp_randomNumber (.inl trivial) fun d t hd hd' => ?_)
  refine Act.begins_draw (wp_getCustomerId (.inl trivial) fun c t hc hc' => ?_)
  refine Act.begins_draw (wp_randomNumber (.inl trivial) fun items t low high => ?_)
  refine Act.begins_draw (wp_selectItems trivial (by omega) fun x t valid selected => .inr ?_)
  have district : IsDistrict W w d := ⟨⟨hw, hw'.le⟩, hd, hd'⟩
  have count := valid.count
  have lines : 60 = 4 * (15 - x.locals.length - x.remotes.length) + 4 * x.remotes.length +
      4 * x.locals.length := by omega
  simp only [Act.wp_bind, Act.wp_pure]
  refine wp_insertOrder_rows (b := 60) loaded ok district ⟨hc, hc'⟩ ⟨low, high⟩
    fun m oId t number few => ?_
  have noOrder : s (orderKey w d oId.toInt) = none := by
    by_contra there
    have := loaded.order_range district (isInt32_toInt oId) there
    omega
  rw [lines]
  apply Act.wp_mono (Rows.wp_forEach ?_)
  · rintro lines t ⟨m₁, left⟩ ⟨le₁, enough⟩
    obtain ⟨b, rfl⟩ := Nat.exists_eq_add_of_le' (Nat.le_trans (Nat.le_add_left ..) enough)
    apply Act.wp_mono (Rows.wp_forEach ?_) fun _ _ _ _ => trivial
    intro stock mem i lines t m₂ b first last le₂
    obtain ⟨low, high, _⟩ := valid.others stock mem
    have item := valid.items stock (List.mem_append_right _ mem)
    simp only [remoteLine, Act.wp_bind, Act.wp_pure]
    refine wp_newOrderLine_rows loaded ok ⟨low, high⟩ item fun m₃ y t le₃ => ?_
    refine wp_putRecord_rows ⟨⟨_, rfl⟩, fun room there => ?_⟩ fun _ _ => ⟨by omega, Nat.le_refl b⟩
    have := loaded.orderLine_range district ⟨by omega, by omega⟩ ⟨by omega, by omega⟩ there
    omega
  · intro stock mem i lines t m₁ b _ _ le₁
    have supply : 1 ≤ stock.supply ∧ stock.supply ≤ W := by
      rw [valid.supplies stock mem]
      exact district.1
    have item := valid.items stock (List.mem_append_left _ mem)
    simp only [localLine, Act.wp_bind, Act.wp_pure]
    refine wp_newOrderLine_rows loaded ok supply item fun m₂ y t le₂ => ?_
    refine wp_putRecord_rows (.inr ⟨noOrder, .inr ⟨_, rfl⟩⟩) fun _ _ => ⟨by omega, Nat.le_refl b⟩

omit [DecidableEq F] [Amount F] in
/-- An insertion that ends leaves a string of at most 500 characters. -/
theorem wp_insertData_isStr {r S K V : Type} {L : Logic K V S} {x : r} {y : S}
    {cData : CharArray 501}
    {history : List UInt8} {Q : CharArray 501 → r → S → Prop} (ended : 0 ∈ cData.bytes)
    (ok : L.mayStick ∨ IsText history) (h : ∀ data : CharArray 501, data.IsStr 500 → Q data x y) :
    Act.wp L (insertData cData history) Q x y := by
  rcases ok with stick | isText
  · simp only [insertData, cString, Act.wp_bind, Act.wp_pure]
    refine Act.wp_assert (fun _ => Act.wp_assert (fun _ => ?_) (.inl stick)) (.inl stick)
    refine Act.wp_assert (fun fits => ?_) (.inl stick)
    refine Act.wp_ofOption (fun moved _ => Act.wp_ofOption (fun copied _ => ?_) (.inl stick))
      (.inl stick)
    refine Act.wp_ofOption (fun data copies => ?_) (.inl stick)
    have zero := CharArray.mem_blit copies (List.mem_singleton_self 0)
    exact Act.wp_assert (fun length => h data ⟨zero, by omega⟩) (.inl stick)
  · obtain ⟨data, zero, value, same⟩ := insertData_eq (ρ := r) (K := K) (V := V) ended isText
    rw [same]
    exact h data ⟨zero, by rw [value]; exact List.length_take_le ..⟩

theorem wp_payCustomer_rows {cw cd m : Int} {Q : Unit → Thread ρ → Nat × Nat → Prop}
    (loaded : TablesLoaded W s) (ok : mayStick ∨ limit + 3001 < 2 ^ 31 ∧ AmountsPrint F)
    (district : IsDistrict W w d) (home : IsDistrict W cw cd) (customer : 1 ≤ c ∧ c ≤ 3000)
    (amount : 100 ≤ m ∧ m ≤ 500000) (h : ∀ m t, Q () t (m, b)) :
    Act.wp ((rowsAfter s).logic limit mayStick)
      (payCustomer env w d cw cd c (Amount.quotient m 100 : F)) Q t (n, b + 2) := by
  obtain ⟨first, stored, _, once, _⟩ := loaded.customer home customer
  have once : first.cPaymentCnt.toInt = 1 := by rw [once]; rfl
  simp only [payCustomer, Act.wp_bind, Act.wp_pure]
  refine wp_uninit fun old t => wp_getRecord_evolves stored (fun _ _ => id)
    fun m₁ row t le₁ less later => ?_
  have low := later.payments.1
  have high := later.payments.2
  have credit : row.cCredit = first.cCredit := by rw [later.same]
  apply Act.wp_ofOption
  · intro count more
    have value : count.toInt = row.cPaymentCnt.toInt + 1 := addInt32_toInt more
    have put : ∀ data : CharArray 501, data.IsStr 500 →
        (CharArray.cStr first.cCredit.bytes ≠ badCredit → data = first.cData) →
        Act.wp ((rowsAfter s).logic limit mayStick) (putRecord customerVal (customerKey cw cd c)
          { row with
            cBalance := row.cBalance - Amount.quotient m 100
            cYtdPayment := row.cYtdPayment + Amount.quotient m 100
            cPaymentCnt := count, cData := data }) (fun _ => Q ()) t (m₁ + 1, b + 1) := by
      intro data isStr good
      refine wp_putRecord_rows ?_ fun m₂ _ => h m₂ t
      refine ⟨first, _, stored, rfl, by rw [later.same], ?_, ?_, isStr, good⟩
      · simp only
        omega
      · have := later.deliveries
        simp only
        omega
    unfold paymentData
    split
    · rename_i bad
      apply wp_insertData_isStr later.data.1
      · apply ok.imp_right
        rintro ⟨-, prints⟩
        exact isText_paymentHistory prints loaded.small district home customer amount
      · intro data isStr
        refine put data isStr fun good => absurd ?_ good
        rw [← credit]
        exact bad
    · rename_i good
      refine put row.cData later.data fun _ => later.good ?_
      rwa [← credit]
  · apply ok.imp_right
    rintro ⟨room, -⟩
    show (addInt32 row.cPaymentCnt 1).isSome
    rw [Option.isSome_iff_exists, addInt32_isSome]
    omega

theorem payment_begins (loaded : TablesLoaded W s)
    (ok : mayStick ∨ limit + 3001 < 2 ^ 31 ∧ AmountsPrint F) :
    Act.Begins ((rowsAfter s).logic limit mayStick) (payment (F := F) env W) (fun _ _ _ => True)
      t (n, 7) := by
  unfold payment
  refine Act.begins_draw (wp_randomNumber (.inl trivial) fun x t _ _ => ?_)
  refine Act.begins_draw (wp_randomNumber (.inl trivial) fun y t _ _ => ?_)
  refine Act.begins_draw (wp_pickWarehouseId (.inl trivial) fun w t hw hw' => ?_)
  refine Act.begins_draw (wp_randomNumber (.inl trivial) fun d t hd hd' => ?_)
  refine Act.begins_draw (wp_payingCustomer trivial ⟨hw, hw'.le⟩ ⟨hd, hd'⟩
    fun cw cd t hcw hcd => ?_)
  refine Act.begins_draw (wp_randomNumber (.inl trivial) fun m t low high => ?_)
  refine Act.begins_draw (wp_payingId trivial fun c t hc => .inr ?_)
  have district : IsDistrict W w d := ⟨⟨hw, hw'.le⟩, hd, hd'⟩
  obtain ⟨ware, storedWare, _, wName⟩ := loaded.warehouse district.1
  obtain ⟨dist, storedDist, _, _, dName⟩ := loaded.district district
  simp only [payWarehouse, payDistrict, Act.wp_bind, Act.wp_pure]
  refine wp_uninit fun old t => wp_getRecord_evolves storedWare (fun _ _ => id)
    fun m₁ row t _ _ laterWare => wp_putRecord_rows ?_ fun m₂ _ => ?_
  · exact ⟨ware, _, storedWare, rfl, by rw [laterWare]; rfl⟩
  refine wp_uninit fun old t => wp_getRecord_evolves storedDist (fun _ _ => id)
    fun m₃ row' t _ _ laterDist => wp_putRecord_rows ?_ fun m₄ _ => ?_
  · refine ⟨dist, _, storedDist, rfl, by rw [laterDist.same], ?_⟩
    have := laterDist.next
    simp only
    omega
  refine wp_payCustomer_rows loaded ok district ⟨hcw, hcd⟩ hc ⟨low, high⟩ fun m₅ t => ?_
  refine wp_payHistory_put ?_ ?_ fun hist t => ⟨Nat.one_pos, fun m₆ _ _ => ⟨⟨hist, rfl⟩, trivial⟩⟩
  · rw [laterWare]
    exact wName
  · rw [laterDist.same]
    exact dName

theorem wp_deliverCustomer_rows {d : Nat} {customerId : Int32} {sum : F}
    {Q : Unit → Thread ρ → Nat × Nat → Prop}
    (loaded : TablesLoaded W s) (ok : mayStick ∨ limit + 3001 < 2 ^ 31)
    (district : IsDistrict W w d)
    (customer : 1 ≤ customerId.toInt ∧ customerId.toInt ≤ 3000) (h : ∀ m t, Q () t (m, b)) :
    Act.wp ((rowsAfter s).logic limit mayStick) (deliverCustomer env w d customerId sum) Q t
      (n, b + 2) := by
  obtain ⟨first, stored, none, _⟩ := loaded.customer district customer
  have none : first.cDeliveryCnt.toInt = 0 := by rw [none]; rfl
  simp only [deliverCustomer, Act.wp_bind]
  refine wp_uninit fun old t => wp_getRecord_evolves stored (fun _ _ => id)
    fun m₁ row t le₁ less later => ?_
  have low := later.deliveries.1
  have high := later.deliveries.2
  apply Act.wp_ofOption
  · intro count more
    have value : count.toInt = row.cDeliveryCnt.toInt + 1 := addInt32_toInt more
    refine wp_putRecord_rows ?_ fun m₂ _ => h m₂ t
    refine ⟨first, _, stored, rfl, by rw [later.same], ?_, ?_, later.data, later.good⟩
    · have := later.payments
      simp only
      omega
    · simp only
      omega
  · apply ok.imp_right
    intro room
    show (addInt32 row.cDeliveryCnt 1).isSome
    rw [Option.isSome_iff_exists, addInt32_isSome]
    omega

theorem delivery_begins (loaded : TablesLoaded W s) (ok : mayStick ∨ limit + 3001 < 2 ^ 31) :
    Act.Begins ((rowsAfter s).logic limit mayStick) (delivery (F := F) env W) (fun _ _ _ => True)
      t (n, 350) := by
  unfold delivery
  refine Act.begins_draw (wp_pickWarehouseId (.inl trivial) fun w t hw hw' => ?_)
  refine Act.begins_draw (wp_randomNumber (.inl trivial) fun carrier t _ _ => .inr ?_)
  simp only [Act.wp_bind, Act.wp_pure]
  refine wp_getCurrentTimeMillis fun currentTs t => ?_
  apply Act.wp_mono (Rows.wp_forRange (b := 0) (c := 35) (k := 10) ?_) fun _ _ _ _ => trivial
  intro d orders t n b low high
  have district : IsDistrict W w d := ⟨⟨hw, hw'.le⟩, by omega, by omega⟩
  simp only [deliverDistrict, deliverOrder, Act.wp_bind, Act.wp_pure]
  refine wp_randomNumber (.inr (by decide)) fun o t ho ho' => ?_
  obtain ⟨first, stored, _, _, customer, _⟩ :=
    loaded.order district (o := o) ⟨by omega, by exact_mod_cast ho'⟩
  refine wp_uninit fun norder t => wp_getRecord_rows fun m₁ _ t _ => ?_
  refine wp_uninit fun old t => wp_getRecord_evolves stored (evolves_order stored)
    fun m₂ row t _ _ later => wp_putRecord_rows ?_ fun m₃ _ => ?_
  · exact .inl ⟨first, _, stored, rfl, by rw [later]; rfl⟩
  apply Act.wp_mono (Rows.wp_forRange (b := b + 2) (c := 2) ?_)
  · rintro sum t ⟨n, left⟩ enough
    obtain ⟨b', rfl⟩ := Nat.exists_eq_add_of_le' (Nat.le_trans (Nat.le_add_left 2 b) enough)
    refine wp_deliverCustomer_rows loaded ok district ?_ fun _ _ =>
      Nat.le_of_add_le_add_right enough
    rw [later]
    exact customer
  · intro l sum t n b _ _
    simp only [deliverLine, Act.wp_bind, Act.wp_pure]
    refine wp_uninit fun line t => wp_getRecord_line fun m₄ x t _ later => ?_
    refine wp_putRecord_rows ⟨⟨_, rfl⟩, fun room there => ?_⟩ fun _ _ => Nat.le_refl b
    obtain ⟨v, stored, typed⟩ := loaded.typed_of_ne_none there
    obtain ⟨_, _, _, _, first, _, _, _, _, rfl⟩ := typed.orderLine_row (by simp)
    refine ⟨first, _, stored, rfl, ?_⟩
    rw [OrderLineVal.Later, later (by omega) first stored]

theorem orderStatus_begins (loaded : TablesLoaded W s) :
    Act.Begins ((rowsAfter s).logic limit mayStick) (orderStatus (F := F) env W) (fun _ _ _ => True)
      t (n, 17) := by
  unfold orderStatus
  refine Act.begins_draw (wp_randomNumber (.inl trivial) fun y t _ _ => ?_)
  refine Act.begins_draw (wp_pickWarehouseId (.inl trivial) fun w t hw hw' => ?_)
  refine Act.begins_draw (wp_randomNumber (.inl trivial) fun d t hd hd' => ?_)
  refine Act.begins_draw (wp_statusCustomer fun c t _ _ => .inr ?_)
  simp only [Act.wp_bind, Act.wp_pure]
  refine wp_uninit fun cust t => wp_getRecord_rows fun _ _ t _ => ?_
  refine wp_randomNumber (.inr (by decide)) fun o t ho ho' => ?_
  obtain ⟨first, stored, _, count, _⟩ :=
    loaded.order (w := w) (d := d) (o := o) ⟨⟨hw, hw'.le⟩, hd, hd'⟩ ⟨ho, ho'⟩
  refine wp_uninit fun old t => wp_getRecord_evolves stored (evolves_order stored)
    fun m row t _ _ later => ?_
  have lines : row.oOlCnt = first.oOlCnt := by rw [later]
  have left : 15 = 15 - row.oOlCnt.toInt.toNat + 1 * row.oOlCnt.toInt.toNat := by
    rw [lines]
    omega
  rw [left]
  apply Act.wp_mono (Rows.wp_forRange ?_) fun _ _ _ _ => trivial
  intro i lines t n b _ _
  simp only [statusLine, Act.wp_bind, Act.wp_pure]
  exact wp_uninit fun line t => wp_getRecord_rows fun _ _ _ _ => Nat.le_refl b

omit [Amount F] in
/-- The loop over the lines of an order ends before its fuel. -/
theorem wp_levelOrder_rows {threshold o : Int} {ids : List Int32} :
    Act.wp ((rowsAfter s).logic limit mayStick) (levelOrder (F := F) env threshold w d o ids)
      (fun _ _ y => b ≤ y.2) t (n, b + 30) := by
  unfold levelOrder
  apply Act.wp_loop (fun i x _ y => x.1 = i + 1 ∧ i ≤ 15 ∧ b + 2 * (15 - i) ≤ y.2)
  · right
    rintro x t y ⟨_, few, _⟩
    exact absurd few (by decide)
  · rintro i x t ⟨m, left⟩ ⟨count, few, enough⟩
    unfold levelLine
    split
    · obtain ⟨b', rfl⟩ := Nat.exists_eq_add_of_le' (show 2 ≤ left by simp only at enough; omega)
      simp only [Act.wp_bind]
      refine wp_uninit fun line t => wp_getRecord_rows fun _ _ t _ => ?_
      split
      · simp only [Act.wp_pure]
        simp only at enough
        omega
      · simp only [Act.wp_bind]
        refine wp_uninit fun stock t => wp_getRecord_rows fun _ _ t _ => ?_
        simp only at enough
        split
        · exact ⟨by simp only; omega, by omega, by simp only; omega⟩
        · exact ⟨by simp only; omega, by omega, by simp only; omega⟩
    · simp only [Act.wp_pure]
      simp only at enough
      omega
  · exact ⟨rfl, by decide, by simp⟩

theorem stockLevel_begins (loaded : TablesLoaded W s) (ok : mayStick ∨ limit + 3001 < 2 ^ 31) :
    Act.Begins ((rowsAfter s).logic limit mayStick) (stockLevel (F := F) env W) (fun _ _ _ => True)
      t (n, 601) := by
  unfold stockLevel
  refine Act.begins_draw (wp_randomNumber (.inl trivial) fun threshold t _ _ => ?_)
  refine Act.begins_draw (wp_pickWarehouseId (.inl trivial) fun w t hw hw' => ?_)
  refine Act.begins_draw (wp_randomNumber (.inl trivial) fun d t hd hd' => .inr ?_)
  obtain ⟨first, stored, _, loadedNext, _⟩ := loaded.district ⟨⟨hw, hw'.le⟩, hd, hd'⟩
  have loadedNext : first.dNextOId.toInt = 3001 := by rw [loadedNext]; rfl
  simp only [stockLevelOf, Act.wp_bind, Act.wp_pure]
  refine wp_uninit fun old t => wp_getRecord_evolves stored (fun _ _ => id)
    fun m row t _ less later => Act.wp_ofOption (fun number _ => ?_) ?_
  · apply Act.wp_mono (Rows.wp_forRange (b := 0) (c := 30) (k := 20) ?_) fun _ _ _ _ => trivial
    intro i ids t n b _ _
    exact wp_levelOrder_rows
  · apply ok.imp_right
    intro room
    have := later.next
    show (addInt32 row.dNextOId (-20)).isSome
    rw [Option.isSome_iff_exists, addInt32_isSome]
    omega

/-- How many accesses a transaction makes at most. -/
def TxType.accesses : TxType → Nat
  | .newOrder => 67
  | .payment => 7
  | .delivery => 350
  | .orderStatus => 17
  | .stockLevel => 601

theorem transaction_begins (loaded : TablesLoaded W s)
    (ok : mayStick ∨ limit + 3001 < 2 ^ 31 ∧ AmountsPrint F) (type : TxType) :
    Act.Begins ((rowsAfter s).logic limit mayStick) (transaction (F := F) env W type)
      (fun _ _ _ => True) t (n, type.accesses) := by
  have room := ok.imp_right And.left
  cases type with
  | newOrder => exact Act.begins_bind (newOrder_begins loaded room)
  | payment => exact Act.begins_bind (payment_begins loaded ok)
  | delivery => exact Act.begins_bind (delivery_begins loaded room)
  | orderStatus => exact Act.begins_bind (orderStatus_begins loaded)
  | stockLevel => exact Act.begins_bind (stockLevel_begins loaded room)

/-- A transaction whose draws are not accepted makes no access; any other one follows the rows. -/
theorem IsTransaction.begins (loaded : TablesLoaded W s)
    (ok : mayStick ∨ limit + 3001 < 2 ^ 31 ∧ AmountsPrint F) {type : TxType}
    {p : Prog Key (Value F) (Outcome F)} (program : IsTransaction W type p) :
    p = .stuck ∨ p.wp ((rowsAfter s).logic limit mayStick) (fun _ _ => True)
      (0, type.accesses) := by
  obtain ⟨ρ, env, t, rfl⟩ := program
  have begins : Act.Begins ((rowsAfter s).logic limit mayStick) (transaction env W type)
      (fun _ _ _ => True) t (0, type.accesses) := transaction_begins loaded ok type
  rcases begins with stuck | goes
  · left
    rw [stuck]
    rfl
  · right
    rwa [Prog.wp_bind]

end Transactions

/-! ### Clients -/

/-- A transaction whose draws are accepted: it gets as far as its first access. -/
def IsDrawn {F : Type} [FloatRep F] [DecidableEq F] [Amount F] (W : Nat) (type : TxType)
    (p : Prog Key (Value F) (Outcome F)) : Prop :=
  IsTransaction W type p ∧ p ≠ .stuck

section Runs

variable {ι F : Type} [DecidableEq ι] [FloatRep F] [DecidableEq F] [Amount F] {W : Nat}
  {s : Store Key (Value F)} {l : List (TableMove ι F)} {c : TableClients ι F Key}

omit [DecidableEq ι] in
theorem TablesLoaded.first (loaded : TablesLoaded W s) :
    ∀ c : TableClients ι F Key, c.store = s ∧ c.Idle →
      c.Idle ∧ ∀ k, (rowsAfter s).Found 0 k (c.store k) := by
  rintro c ⟨rfl, isIdle⟩
  exact ⟨isIdle, loaded.found⟩

/-- The rows and the accesses in any interleaving. -/
theorem SharedRun.rows (loaded : Loaded id W s) (run : SharedRun id W s l c) : ∃ left,
    (rowsAfter s).Kept l.length True l.length left c ∧ Spent TxType.accesses l left := by
  refine Run.rows (fun type p program => ?_) loaded.tables.first run (Nat.le_refl _)
  rcases program.begins loaded.tables (.inl trivial) with rfl | goes
  · trivial
  · exact goes

/-- No interleaving of clients breaks a row: no row is removed, and each row is what its loaded row
can have become in as many moves. -/
theorem interleaved_rows (loaded : Loaded id W s) (run : SharedRun id W s l c) (k : Key) :
    (s k ≠ none → c.store k ≠ none) ∧ ∀ v, c.store k = some v → RowAfter s l.length k v := by
  obtain ⟨left, kept, _⟩ := SharedRun.rows loaded run
  exact ⟨(kept.found k).present, (kept.found k).row⟩

/-- A client makes no more accesses than its transactions may, whatever the others do meanwhile. -/
theorem accesses_bounded (loaded : Loaded id W s) (run : SharedRun id W s l c) (i : ι) :
    accessesOf i l ≤ allowance TxType.accesses i l := by
  obtain ⟨left, _, spent⟩ := SharedRun.rows loaded run
  exact Nat.le_trans (Nat.le_add_right ..) (spent i)

/-- No interleaving stops a client: in a run that is not so long that a counter overflows, a client
that has begun its accesses can make the next one, or has come to the end of its transaction. -/
theorem clients_go_on (loaded : Loaded id W s) (prints : AmountsPrint F)
    (run : Run (fun c => c.store = s ∧ c.Idle) (Clients.Step (.exact (Value F) id) (IsDrawn W)) l c)
    (few : l.length + 3001 < 2 ^ 31) {i : ι} {type : TxType} {p : Prog Key (Value F) (Outcome F)}
    (running : c.running i = some (type, p)) :
    ∃ move c', Clients.Step (.exact (Value F) id) (IsDrawn W) c move c' ∧
      ((∃ e, move = .access i type e) ∨ ∃ outcome, move = .finish i type outcome) := by
  have programs : ∀ type p, IsDrawn W type p →
      p.wp ((rowsAfter s).logic l.length False) (fun _ _ => True) (0, type.accesses) := by
    rintro type p ⟨program, goes⟩
    exact (program.begins loaded.tables (.inr ⟨few, prints⟩)).resolve_left goes
  obtain ⟨left, kept, _⟩ := Run.rows programs loaded.tables.first run (Nat.le_refl _)
  exact kept.moves running

end Runs

/-! ### Two orders on loaded tables -/

section Sample

/-- Two clients on loaded tables, each with some of the accesses of its order made. -/
theorem exists_interleaved : ∃ (s : Store Key (Value ℚ)) (l : List (TableMove Bool ℚ))
    (c : TableClients Bool ℚ Key), Loaded id 2 s ∧ SharedRun id 2 s l c ∧
      ∀ i, ∃ e, .access i .newOrder e ∈ l := by
  obtain ⟨s, loaded⟩ := exists_loaded id (W := 2) (by norm_num)
  obtain ⟨l, c, run, accesses, _⟩ :=
    exists_two_orders sampleOrder_isTransaction (.exact (Value ℚ) id) s
  exact ⟨s, l, c, loaded, run, accesses⟩

theorem interleaved_rows_orders : ∃ (s : Store Key (Value ℚ)) (l : List (TableMove Bool ℚ))
    (c : TableClients Bool ℚ Key), (∀ i, ∃ e, .access i .newOrder e ∈ l) ∧
      ∀ v, c.store (districtKey 1 8) = some v → RowAfter s l.length (districtKey 1 8) v := by
  obtain ⟨s, l, c, loaded, run, accesses⟩ := exists_interleaved
  exact ⟨s, l, c, accesses, (interleaved_rows loaded run (districtKey 1 8)).2⟩

theorem accesses_bounded_orders : ∃ l : List (TableMove Bool ℚ),
    (∀ i, ∃ e, .access i .newOrder e ∈ l) ∧
      ∀ i, accessesOf i l ≤ allowance TxType.accesses i l := by
  obtain ⟨s, l, c, loaded, run, accesses⟩ := exists_interleaved
  exact ⟨l, accesses, accesses_bounded loaded run⟩

/-- On loaded tables the draws of the order are accepted. -/
theorem sampleOrder_isDrawn {s : Store Key (Value ℚ)} (loaded : Loaded id 2 s) :
    IsDrawn 2 .newOrder sampleOrder := by
  obtain ⟨dist, row, _, next, _⟩ := loaded.tables.district (w := 1) (d := 8) ⟨by decide, by decide⟩
  obtain ⟨res, t', s', returns, _⟩ := sample_order_returns row (by rw [next]; decide)
  have whole :
      Act.Returns id (transaction sampleEnv 2 .newOrder) sampleThread s (.newOrder res) t' s' :=
    Act.returns_bind.mpr ⟨res, t', s', returns, Act.returns_pure.mpr ⟨rfl, rfl, rfl⟩⟩
  exact ⟨sampleOrder_isTransaction, whole.ne_stuck⟩

/-- The first client goes on with its order after the accesses of the other one. -/
theorem clients_go_on_order : ∃ (l : List (TableMove Bool ℚ)) (c c' : TableClients Bool ℚ Key)
    (move : TableMove Bool ℚ), (∀ i, ∃ e, .access i .newOrder e ∈ l) ∧
      Clients.Step (.exact (Value ℚ) id) (IsDrawn 2) c move c' ∧
        ((∃ e, move = .access true .newOrder e) ∨
          ∃ outcome, move = .finish true .newOrder outcome) := by
  obtain ⟨s, loaded⟩ := exists_loaded id (W := 2) (by norm_num)
  obtain ⟨l, c, run, accesses, few, p, running⟩ :=
    exists_two_orders (sampleOrder_isDrawn loaded) (.exact (Value ℚ) id) s
  obtain ⟨move, c', step, own⟩ :=
    clients_go_on loaded exact_amountsPrint run (by omega) running
  exact ⟨l, c, c', move, accesses, step, own⟩

end Sample

end Tpcc
