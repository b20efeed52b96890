import Tpcc.Consistency.LostUpdates
import Tpcc.Lib.Simulation

/-! The backends of a `TPCCTable`.  `RocksDBImpl` and `ListDBImpl` store a record at the decimal
digits of its `item_key`; what they store it in is a parameter, with the promises that the code
relies on.  `ListDB` hands back an address at which the length of the string and its bytes are.
Both stand for the store that is exact on item keys: clients over them make the same accesses. -/

namespace Tpcc

open KvProgram Layout

/-- `KVInterface`, with states in `σ`: `Put` and `Get` return a status, and `Get` assigns to the
string that it is given. -/
structure KVInterface (F σ : Type) where
  put : σ → UInt64 → Value F → Int × σ
  get : σ → UInt64 → Value F → Int × Value F

/-- A table over a `KVInterface`.  No caller of `PutRecord` tests its status; `GetRecord` hands
`Get` an empty string, and fails where the status is not 1. -/
def KVInterface.backend {F σ : Type} (kvImpl : KVInterface F σ) : Backend Key (Value F) σ where
  get s key :=
    let found := kvImpl.get s key.itemKey []
    if found.1 = 1 then some found.2 else none
  put s key value := (kvImpl.put s key.itemKey value).2

/-- `std::to_string` of an item key. -/
def toDigits (itemKey : UInt64) : String := toString itemKey.toNat

theorem toDigits_injective : Function.Injective toDigits := by
  intro a b same
  have digits : Nat.toDigits 10 a.toNat = Nat.toDigits 10 b.toNat := by
    simpa [toDigits] using congrArg String.toList same
  have numbers : a.toNat = b.toNat := by
    rw [← Nat.ofDigitChars_ten_toDigits (n := a.toNat), digits, Nat.ofDigitChars_ten_toDigits]
  exact UInt64.toNat_inj.mp numbers

theorem toDigits_eq_iff (k k' : Key) :
    toDigits k.itemKey = toDigits k'.itemKey ↔ k.itemKey = k'.itemKey := toDigits_injective.eq_iff

/-! ### MemoryDBImpl -/

/-- `MemoryDBImpl`. -/
def memoryDBImpl {F : Type} [FloatRep F] : KVInterface F (Store UInt64 (Value F)) where
  put s key value := (1, MemoryDBImpl.put s key value)
  get s key old := (MemoryDBImpl.get s key).elim (-1, old) fun value => (1, value)

theorem memoryDBImpl_backend {F : Type} [FloatRep F] :
    (memoryDBImpl (F := F)).backend = MemoryDBImpl.backend := by
  rw [MemoryDBImpl.backend, KVInterface.backend, Backend.mk.injEq]
  constructor
  · funext s key
    cases found : MemoryDBImpl.get s key.itemKey <;> simp [memoryDBImpl, found]
  · rfl

/-! ### RocksDBImpl -/

/-- What `RocksDBImpl` uses of `rocksdb::DB`: whether the statuses of `Put` and `Get` are `ok()`,
and what `Get` assigns. -/
structure RocksDb (F σ : Type) where
  put : σ → String → Value F → Bool × σ
  get : σ → String → Value F → Bool × Value F

/-- A database whose calls do not fail: `Put` sets the entry of a key, and `Get` finds it. -/
structure RocksDb.Works {F σ : Type} (db : RocksDb F σ) (contents : σ → Store String (Value F)) :
    Prop where
  put : ∀ s k v, (db.put s k v).1 = true ∧ contents (db.put s k v).2 = (contents s).put k v
  found : ∀ s k old v, contents s k = some v → db.get s k old = (true, v)
  absent : ∀ s k old, contents s k = none → (db.get s k old).1 = false

/-- `RocksDBImpl`. -/
def rocksDBImpl {F σ : Type} (db : RocksDb F σ) : KVInterface F σ where
  put s key value :=
    let result := db.put s (toDigits key) value
    (if result.1 then 1 else -1, result.2)
  get s key old :=
    let result := db.get s (toDigits key) old
    (if result.1 then 1 else -1, result.2)

section RocksDb

variable {F σ : Type} {db : RocksDb F σ} {contents : σ → Store String (Value F)}

theorem RocksDb.Works.status (works : db.Works contents) (s : σ) (key : UInt64) (v : Value F) :
    ((rocksDBImpl db).put s key v).1 = 1 := if_pos (works.put s (toDigits key) v).1

theorem RocksDb.Works.implements (works : db.Works contents) :
    (rocksDBImpl db).backend.Implements (.exact (Value F) Key.itemKey) (fun _ _ => True)
      fun s t => Stands (fun k => toDigits k.itemKey) Key.itemKey (fun _ => True)
        (contents s) t := by
  apply Backend.implements_exact toDigits_eq_iff
  · intro s k _
    cases stored : contents s (toDigits k.itemKey) with
    | none => simp [KVInterface.backend, rocksDBImpl, works.absent _ _ _ stored]
    | some v => simp [KVInterface.backend, rocksDBImpl, works.found _ _ _ _ stored]
  · intro s k v _
    exact (works.put s (toDigits k.itemKey) v).2

end RocksDb

/-! ### ListDBImpl -/

/-- What `ListDBImpl` uses of `DBClient`: `PutStringKV`, `GetStringKV` with the address that it
assigns where it returns true, and the bytes at the addresses.  No string wraps around the address
space. -/
structure ListDb (F σ : Type) where
  putStringKV : σ → String → Value F → σ
  getStringKV : σ → String → Option Nat
  memory : σ → Nat → Cell F

/-- The image of a string at its address: its length, a `size_t`, and its bytes. -/
def stringImage {F : Type} (v : Value F) : Value F := (leBytes 8 v.length).map .byte ++ v

/-- A database that keeps the strings that it is given. -/
structure ListDb.Works {F σ : Type} (db : ListDb F σ) (contents : σ → Store String (Value F)) :
    Prop where
  put : ∀ s k v, v.length < 2 ^ 64 → contents (db.putStringKV s k v) = (contents s).put k v
  found : ∀ s k v, contents s k = some v → ∃ p, db.getStringKV s k = some p ∧
    ∀ i, (h : i < (stringImage v).length) → db.memory s (p + i) = (stringImage v).get ⟨i, h⟩
  absent : ∀ s k, contents s k = none → db.getStringKV s k = none

/-- The `n` bytes from an address on. -/
def bytesAt {F : Type} (memory : Nat → Cell F) (p n : Nat) : Value F :=
  (List.range n).map fun i => memory (p + i)

/-- `convert_valueptr_to_value`. -/
def convertValueptrToValue {F : Type} [FloatRep F] (memory : Nat → Cell F) (valuePtr : Nat) :
    Value F :=
  let valueLen := ofLeBytes ((bytesAt memory valuePtr 8).map Cell.toByte)
  bytesAt memory (valuePtr + 8) valueLen

/-- `ListDBImpl`. -/
def listDBImpl {F σ : Type} [FloatRep F] (db : ListDb F σ) : KVInterface F σ where
  put s key value := (1, db.putStringKV s (toDigits key) value)
  get s key old := match db.getStringKV s (toDigits key) with
    | none => (-1, old)
    | some valuePtr => (1, convertValueptrToValue (db.memory s) valuePtr)

section ListDb

variable {F σ : Type} [FloatRep F] {db : ListDb F σ} {contents : σ → Store String (Value F)}

omit [FloatRep F] in
theorem bytesAt_eq {memory : Nat → Cell F} {p : Nat} {image : Value F}
    (h : ∀ i, (h : i < image.length) → memory (p + i) = image.get ⟨i, h⟩) (n m : Nat)
    (room : n + m ≤ image.length) : bytesAt memory (p + n) m = (image.drop n).take m := by
  apply List.ext_getElem
  · simp only [bytesAt, List.length_map, List.length_range, List.length_take, List.length_drop]
    omega
  · intro i hi _
    have lower : i < m := by simpa [bytesAt] using hi
    have read := h (n + i) (by omega)
    rw [← Nat.add_assoc] at read
    simpa [bytesAt] using read

/-- The string at an address is read back. -/
theorem convertValueptrToValue_eq {memory : Nat → Cell F} {p : Nat} {v : Value F}
    (short : v.length < 2 ^ 64) (h : ∀ i, (h : i < (stringImage v).length) →
      memory (p + i) = (stringImage v).get ⟨i, h⟩) : convertValueptrToValue memory p = v := by
  have length : (stringImage v).length = 8 + v.length := by simp [stringImage]
  have words : bytesAt memory p 8 = (leBytes 8 v.length).map .byte := by
    have start := bytesAt_eq h 0 8 (by omega)
    rw [List.drop_zero, Nat.add_zero] at start
    rw [start, stringImage, List.take_left' (by simp)]
  have characters : bytesAt memory (p + 8) v.length = v := by
    have rest := bytesAt_eq h 8 v.length (by omega)
    rw [stringImage, List.drop_left' (by simp), List.take_length] at rest
    exact rest
  rw [convertValueptrToValue, words, map_toByte_map_byte, ofLeBytes_leBytes,
    Nat.mod_eq_of_lt (by norm_num at short ⊢; omega), characters]

theorem ListDb.Works.implements (works : db.Works contents) :
    (listDBImpl db).backend.Implements (.exact (Value F) Key.itemKey) (fun _ v => v.length < 2 ^ 64)
      fun s t => Stands (fun k => toDigits k.itemKey) Key.itemKey (fun v => v.length < 2 ^ 64)
        (contents s) t := by
  apply Backend.implements_exact toDigits_eq_iff
  · intro s k short
    cases stored : contents s (toDigits k.itemKey) with
    | none => simp [KVInterface.backend, listDBImpl, works.absent _ _ stored]
    | some v =>
      obtain ⟨p, found, image⟩ := works.found _ _ _ stored
      simp [KVInterface.backend, listDBImpl, found,
        convertValueptrToValue_eq (short v stored) image]
  · intro s k v short
    exact works.put s (toDigits k.itemKey) v short

end ListDb

/-! ### Clients over the backends -/

section Images

variable {ρ F α : Type} [FloatRep F] [DecidableEq F] [Amount F] {env : Env ρ}
  {t : Thread ρ} {W : Nat}

/-- The strings that a transaction puts are those of records, and short. -/
abbrev shortLogic (F : Type) : Logic Key (Value F) Unit := .writing fun _ v => v.length < 2 ^ 64

omit [FloatRep F] [DecidableEq F] [Amount F] in
theorem wp_getRecord_any {may : Key → Value F → Prop} {layout : Codec (Cell F) α} {key : Key}
    {old : α} {Q : Int × α → Thread ρ → Unit → Prop} (h : ∀ x t, Q x t ()) :
    Act.wp (.writing may) (getRecord env layout key old) Q t () :=
  wp_getRecord fun _ _ _ t _ => h _ t

omit [FloatRep F] [DecidableEq F] [Amount F] in
theorem wp_putRecord_short {layout : Codec (Cell F) α} {key : Key} {v : α}
    {Q : Int → Thread ρ → Unit → Prop} (short : layout.size < 2 ^ 64) (h : Q 1 t ()) :
    Act.wp (shortLogic F) (putRecord layout key v) Q t () := by
  rw [wp_putRecord]
  have length := layout.length_encode v
  exact ⟨by rwa [← length] at short, h⟩

theorem wp_newOrderLine_short {wId : Int} {stock : ChosenStock}
    {Q : OrderLineVal F × UInt32 → Thread ρ → Unit → Prop} (h : ∀ x t, Q x t ()) :
    Act.wp (shortLogic F) (newOrderLine env wId stock) Q t () := by
  simp only [newOrderLine, Act.wp_bind, Act.wp_pure]
  refine wp_randomNumber (.inl trivial) fun q t _ _ => ?_
  refine wp_uninit fun item t => wp_getRecord_any fun _ t => ?_
  refine wp_uninit fun val t => wp_getRecord_any fun _ t => ?_
  refine Act.wp_ofOption (fun row _ => wp_putRecord_short (by simp) ?_) (.inl trivial)
  exact wp_uninit fun line t => h _ t

theorem wp_newOrder_short :
    Act.wp (shortLogic F) (newOrder env W) (fun _ _ _ => True) t () := by
  refine wp_newOrder_draws trivial fun w d c n x t _ _ _ _ _ _ => ?_
  simp only [insertOrder, Act.wp_bind, Act.wp_pure]
  refine wp_uninit fun ware t => wp_getRecord_any fun _ t => ?_
  refine wp_uninit fun cust t => wp_getRecord_any fun _ t => ?_
  refine wp_uninit fun old t => wp_getRecord_any fun _ t => ?_
  refine Act.wp_ofOption (fun next _ => wp_putRecord_short (by simp) ?_) (.inl trivial)
  refine wp_uninit fun norder t => wp_putRecord_short (by simp) ?_
  refine wp_getCurrentTimeMillis fun oEntryD t => wp_putRecord_short (by simp) ?_
  apply wp_putRecord_short (by simp)
  refine Act.wp_mono (Act.wp_forEach (fun _ _ _ _ => True) ?_ trivial) fun lines t _ _ => ?_
  · rintro seen stock lines t _ - -
    simp only [localLine, Act.wp_bind, Act.wp_pure]
    exact wp_newOrderLine_short fun x t => wp_putRecord_short (by simp) trivial
  · refine Act.wp_mono (Act.wp_forEach (fun _ _ _ _ => True) ?_ trivial) fun _ _ _ _ => trivial
    rintro seen stock lines t _ - -
    simp only [remoteLine, Act.wp_bind, Act.wp_pure]
    exact wp_newOrderLine_short fun x t => wp_putRecord_short (by simp) trivial

theorem wp_payment_short :
    Act.wp (shortLogic F) (payment env W) (fun _ _ _ => True) t () := by
  refine wp_payment_draws trivial fun w d cw cd n c t _ _ _ _ _ _ => ?_
  simp only [payWarehouse, payDistrict, payCustomer, payHistory, strcpy, strcat, cString,
    Act.wp_bind, Act.wp_pure]
  refine wp_uninit fun ware t => wp_getRecord_any fun _ t => wp_putRecord_short (by simp) ?_
  refine wp_uninit fun dist t => wp_getRecord_any fun _ t => wp_putRecord_short (by simp) ?_
  refine wp_uninit fun cust t => wp_getRecord_any fun _ t => ?_
  refine Act.wp_ofOption (fun count _ => wp_paymentData trivial fun data => ?_) (.inl trivial)
  apply wp_putRecord_short (by simp)
  refine wp_uninit fun hist t => wp_getCurrentTimeMillis fun hDate t => ?_
  refine Act.wp_assert (fun _ => Act.wp_ofOption (fun _ _ => ?_) (.inl trivial)) (.inl trivial)
  refine Act.wp_ofOption (fun _ _ => Act.wp_assert (fun _ => ?_) (.inl trivial)) (.inl trivial)
  exact Act.wp_ofOption (fun _ _ => wp_putRecord_short (by simp) trivial) (.inl trivial)

theorem wp_delivery_short :
    Act.wp (shortLogic F) (delivery env W) (fun _ _ _ => True) t () := by
  simp only [delivery, Act.wp_bind, Act.wp_pure]
  refine wp_pickWarehouseId (.inl trivial) fun w t _ _ => ?_
  refine wp_randomNumber (.inl trivial) fun carrier t _ _ => wp_getCurrentTimeMillis fun ts t => ?_
  refine Act.wp_forRange (fun _ _ _ _ => True) ?_ trivial
  rintro d orders t _ - - -
  simp only [deliverDistrict, deliverOrder, deliverCustomer, Act.wp_bind, Act.wp_pure]
  refine wp_randomNumber (.inl trivial) fun o t _ _ => ?_
  refine wp_uninit fun norder t => wp_getRecord_any fun _ t => ?_
  refine wp_uninit fun order t => wp_getRecord_any fun _ t => wp_putRecord_short (by simp) ?_
  refine Act.wp_mono (Act.wp_forRange (fun _ _ _ _ => True) ?_ trivial) fun sum t _ _ => ?_
  · rintro l sum t _ - - -
    simp only [deliverLine, Act.wp_bind, Act.wp_pure]
    exact wp_uninit fun line t => wp_getRecord_any fun _ t => wp_putRecord_short (by simp) trivial
  · refine wp_uninit fun cust t => wp_getRecord_any fun _ t => ?_
    exact Act.wp_ofOption (fun _ _ => wp_putRecord_short (by simp) trivial) (.inl trivial)

omit [Amount F] in
/-- `OrderStatus` writes nothing. -/
theorem wp_orderStatus_writes {may : Key → Value F → Prop} :
    Act.wp (.writing may) (orderStatus env W) (fun _ _ _ => True) t () := by
  simp only [orderStatus, Act.wp_bind, Act.wp_pure]
  refine wp_randomNumber (.inl trivial) fun y t _ _ => ?_
  refine wp_pickWarehouseId (.inl trivial) fun w t _ _ => ?_
  refine wp_randomNumber (.inl trivial) fun d t _ _ => wp_statusCustomer fun c t _ _ => ?_
  refine wp_uninit fun cust t => wp_getRecord_any fun _ t => ?_
  refine wp_randomNumber (.inl trivial) fun o t _ _ => ?_
  refine wp_uninit fun order t => wp_getRecord_any fun _ t => ?_
  refine Act.wp_forRange (fun _ _ _ _ => True) ?_ trivial
  rintro i lines t _ - - -
  simp only [statusLine, Act.wp_bind, Act.wp_pure]
  exact wp_uninit fun line t => wp_getRecord_any fun _ t => trivial

omit [Amount F] in
/-- `StockLevel` writes nothing. -/
theorem wp_stockLevel_writes {may : Key → Value F → Prop} :
    Act.wp (.writing may) (stockLevel env W) (fun _ _ _ => True) t () := by
  simp only [stockLevel, stockLevelOf, Act.wp_bind, Act.wp_pure]
  refine wp_randomNumber (.inl trivial) fun threshold t _ _ => ?_
  refine wp_pickWarehouseId (.inl trivial) fun w t _ _ => ?_
  refine wp_randomNumber (.inl trivial) fun d t _ _ => ?_
  refine wp_uninit fun old t => wp_getRecord_any fun dist t => ?_
  refine Act.wp_ofOption (fun first _ => ?_) (.inl trivial)
  refine Act.wp_forRange (fun _ _ _ _ => True) ?_ trivial
  rintro i ids t _ - - -
  refine Act.wp_loop (fun _ _ _ _ => True) (.inl trivial) ?_ trivial
  rintro _ x t _ -
  unfold levelLine
  split
  · simp only [Act.wp_bind]
    refine wp_uninit fun line t => wp_getRecord_any fun _ t => ?_
    split
    · trivial
    · simp only [Act.wp_bind]
      refine wp_uninit fun stock t => wp_getRecord_any fun _ t => ?_
      split <;> trivial
  · trivial

/-- Every string that a transaction puts, whatever it reads, has a length that a `size_t` holds. -/
theorem IsTransaction.short {type : TxType} {p : Prog Key (Value F) (Outcome F)}
    (h : IsTransaction W type p) : p.Writes fun _ v => v.length < 2 ^ 64 := by
  obtain ⟨ρ, env, t, rfl⟩ := h
  have all : Act.wp (shortLogic F) (transaction env W type) (fun _ _ _ => True) t () := by
    cases type <;> simp only [transaction, Act.wp_bind, Act.wp_pure]
    case newOrder => exact wp_newOrder_short
    case payment => exact wp_payment_short
    case delivery => exact wp_delivery_short
    case orderStatus => exact wp_orderStatus_writes
    case stockLevel => exact wp_stockLevel_writes
  rw [Prog.Writes, Prog.wp_bind]
  exact all

end Images

section Runs

variable {ι F σ : Type} [DecidableEq ι] [FloatRep F] [DecidableEq F] [Amount F]

/-- The runs of clients that share a table over a `KVInterface`, from a state and with no
transaction running. -/
abbrev TableRun (kvImpl : KVInterface F σ) (W : Nat) (s : σ) :
    List (TableMove ι F) → Clients ι TxType Key (Value F) (Outcome F) σ → Prop :=
  Run (fun c => c.store = s ∧ c.Idle) (Clients.Step kvImpl.backend (IsTransaction W))

/-- What is stored at the digits of each item key. -/
def itemStore {V : Type} (contents : Store String V) : Store UInt64 V :=
  fun itemKey => contents (toDigits itemKey)

theorem stands_itemStore {V : Type} {ok : V → Prop} {contents : Store String V}
    (values : ∀ k v, contents k = some v → ok v) :
    Stands (fun k : Key => toDigits k.itemKey) Key.itemKey ok contents (itemStore contents) :=
  ⟨fun _ => rfl, fun _ => values _⟩

theorem stands_contents {V : Type} (contents : Store String V) :
    Stands (fun k : Key => toDigits k.itemKey) Key.itemKey (fun _ => True) contents
      (itemStore contents) :=
  stands_itemStore fun _ _ _ => trivial

theorem itemStore_empty {V : Type} {contents : Store String V} (empty : contents = fun _ => none) :
    itemStore contents = fun _ => none := by
  funext itemKey
  rw [itemStore, empty]

theorem eq_itemStore {V : Type} {ok : V → Prop} {contents : Store String V}
    {t : Store UInt64 V}
    (h : Stands (fun k : Key => toDigits k.itemKey) Key.itemKey ok contents t) :
    t = itemStore contents := by
  funext itemKey
  exact (h.same ⟨.item, itemKey⟩).symm

variable {W : Nat} {s : σ} {contents : σ → Store String (Value F)} {l : List (TableMove ι F)}
  {c : Clients ι TxType Key (Value F) (Outcome F) σ}

/-- Clients over a backend that implements the exact one make the moves of clients over that one. -/
theorem TableRun.shared {kvImpl : KVInterface F σ} {ok : Value F → Prop}
    (implements : kvImpl.backend.Implements (.exact (Value F) Key.itemKey) (fun _ v => ok v)
      fun s t => Stands (fun k => toDigits k.itemKey) Key.itemKey ok (contents s) t)
    (programs : ∀ type (p : Prog Key (Value F) (Outcome F)), IsTransaction W type p →
      p.Writes fun _ v => ok v)
    (values : ∀ k v, contents s k = some v → ok v) (run : TableRun kvImpl W s l c) :
    SharedRun Key.itemKey W (itemStore (contents s)) l
      ⟨itemStore (contents c.store), c.running⟩ := by
  have first (c : Clients ι TxType Key (Value F) (Outcome F) σ) (start : c.store = s ∧ c.Idle) :
      ∃ c' : TableClients ι F UInt64, (c'.store = itemStore (contents s) ∧ c'.Idle) ∧
        Clients.Related (fun _ v => ok v)
          (fun s t => Stands (fun k : Key => toDigits k.itemKey) Key.itemKey ok (contents s) t)
            c c' := by
    obtain ⟨rfl, idle⟩ := start
    refine ⟨⟨itemStore (contents c.store), c.running⟩, ⟨rfl, idle⟩,
      stands_itemStore values, rfl, ?_⟩
    intro i type p running
    rw [idle i] at running
    contradiction
  obtain ⟨c', run', related⟩ := Run.simulates implements programs first run
  have same : c' = ⟨itemStore (contents c.store), c.running⟩ := by
    rw [← eq_itemStore related.store, ← related.running]
  rwa [same] at run'

/-- Clients over `RocksDBImpl` make the moves of clients over the store that is exact on item
keys. -/
theorem rocksDBImpl_exact {db : RocksDb F σ} (works : db.Works contents)
    (run : TableRun (rocksDBImpl db) W s l c) :
    SharedRun Key.itemKey W (itemStore (contents s)) l ⟨itemStore (contents c.store), c.running⟩ :=
  TableRun.shared works.implements (fun _ _ _ => Prog.writes_all (fun _ _ => trivial) _)
    (fun _ _ _ => trivial) run

/-- Clients over `ListDBImpl` make the moves of clients over the store that is exact on item
keys. -/
theorem listDBImpl_exact {db : ListDb F σ} (works : db.Works contents)
    (short : ∀ k v, contents s k = some v → v.length < 2 ^ 64)
    (run : TableRun (listDBImpl db) W s l c) :
    SharedRun Key.itemKey W (itemStore (contents s)) l ⟨itemStore (contents c.store), c.running⟩ :=
  TableRun.shared works.implements (fun _ _ => IsTransaction.short) short run

end Runs

/-! ### Two orders over the backends -/

section Sample

/-- A database that is a map. -/
def mapDb : RocksDb ℚ (Store String (Value ℚ)) where
  put s k v := (true, s.put k v)
  get s k old := (s k).elim (false, old) fun v => (true, v)

theorem mapDb_works : mapDb.Works id where
  put _ _ _ := ⟨rfl, rfl⟩
  found s k old v stored := by simp only [id] at stored; simp [mapDb, stored]
  absent s k old none := by simp only [id] at none; simp [mapDb, none]

/-- Two clients over `RocksDBImpl`, each with accesses of its order made. -/
theorem rocksDBImpl_exact_orders : ∃ (l : List (TableMove Bool ℚ)) (c : TableClients Bool ℚ UInt64),
    (∀ i, ∃ e, .access i .newOrder e ∈ l) ∧
      SharedRun Key.itemKey 2 (itemStore fun _ => none) l c := by
  obtain ⟨l, c, run, accesses, _⟩ := exists_two_orders sampleOrder_isTransaction
    (rocksDBImpl mapDb).backend fun _ => none
  exact ⟨l, _, accesses, rocksDBImpl_exact mapDb_works run⟩

/-- A string that has a length that a `size_t` holds. -/
abbrev ShortValue := { v : Value ℚ // v.length < 2 ^ 64 }

/-- A database that appends what it is given: string number `j` is at the address `j * 2^65`. -/
def logDb : ListDb ℚ (List (String × ShortValue)) where
  putStringKV s k v := if h : v.length < 2 ^ 64 then (k, ⟨v, h⟩) :: s else s
  getStringKV s k := (s.findIdx? (·.1 = k)).map fun i => (s.length - 1 - i) * 2 ^ 65
  memory s a := (s.reverse[a / 2 ^ 65]?.bind fun entry =>
    (stringImage entry.2.1)[a % 2 ^ 65]?).getD (.byte 0)

/-- The string that was last given for each key. -/
def logContents (s : List (String × ShortValue)) : Store String (Value ℚ) :=
  fun k => (s.find? (·.1 = k)).map fun entry => entry.2.1

theorem logDb_works : logDb.Works logContents where
  put s k v short := by
    funext k'
    simp only [logDb, dif_pos short, logContents, List.find?_cons, Store.put_apply]
    by_cases same : k = k' <;> simp [same, eq_comm]
  found s k v stored := by
    obtain ⟨entry, found, rfl⟩ := Option.map_eq_some_iff.mp stored
    obtain ⟨own, before, after, rfl, others⟩ := List.find?_eq_some_iff_append.mp found
    have length : (stringImage entry.2.1).length = 8 + entry.2.1.length := by simp [stringImage]
    have short := entry.2.2
    refine ⟨after.length * 2 ^ 65, ?_, fun i hi => ?_⟩
    · have index : (before ++ entry :: after).findIdx? (·.1 = k) = some before.length := by
        rw [List.findIdx?_eq_some_iff_getElem]
        refine ⟨by simp, by simpa using own, fun j hj => ?_⟩
        rw [List.getElem_append_left hj]
        simpa using others _ (List.getElem_mem hj)
      simp [logDb, index]
    · have number : (after.length * 2 ^ 65 + i) / 2 ^ 65 = after.length := by omega
      have offset : (after.length * 2 ^ 65 + i) % 2 ^ 65 = i := by omega
      have stored : (before ++ entry :: after).reverse[after.length]? = some entry := by simp
      simp only [logDb, number, offset, stored, Option.bind_some, List.getElem?_eq_getElem hi,
        Option.getD_some, List.get_eq_getElem]
  absent s k none := by
    have unseen : s.find? (·.1 = k) = .none := by simpa [logContents] using none
    simp only [List.find?_eq_none] at unseen
    simp only [logDb, Option.map_eq_none_iff, List.findIdx?_eq_none_iff]
    exact fun entry mem => by simpa using unseen entry mem

/-- Two clients over `ListDBImpl`, each with accesses of its order made. -/
theorem listDBImpl_exact_orders : ∃ (l : List (TableMove Bool ℚ)) (c : TableClients Bool ℚ UInt64),
    (∀ i, ∃ e, .access i .newOrder e ∈ l) ∧
      SharedRun Key.itemKey 2 (itemStore (logContents [])) l c := by
  obtain ⟨l, c, run, accesses, _⟩ := exists_two_orders sampleOrder_isTransaction
    (listDBImpl logDb).backend []
  have short : ∀ k v, logContents [] k = some v → v.length < 2 ^ 64 := by
    intro k v stored
    simp [logContents] at stored
  exact ⟨l, _, accesses, listDBImpl_exact logDb_works short run⟩

end Sample

end Tpcc
