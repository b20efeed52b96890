import Tpcc.Keys

/-! The primary keys of the ten tables in the one space of 64-bit keys.  The store sees an
`item_key` only, so that two rows with the same one overwrite each other.  For up to 21473
warehouses no key wraps, and a key is the number that its identifiers spell: the rows of one table
have different numbers, but those of different tables need not. -/

namespace Tpcc

/-- A primary key: a table, and the identifiers of a row. -/
inductive PrimaryKey where
  | warehouse (w : Int)
  | district (w d : Int)
  | customer (w d c : Int)
  | history (w d cw cd c : Int)
  | newOrder (w d o : Int)
  | order (w d o : Int)
  | orderIndex (w d c o : Int)
  | orderLine (w d o l : Int)
  | item (i : Int)
  | stock (w i : Int)
  deriving DecidableEq

namespace PrimaryKey

/-- The key that the source builds. -/
def key : PrimaryKey → Key
  | warehouse w => warehouseKey w
  | district w d => districtKey w d
  | customer w d c => customerKey w d c
  | history w d cw cd c => historyKey w d cw cd c
  | newOrder w d o => newOrderKey w d o
  | order w d o => orderKey w d o
  | orderIndex w d c o => orderIndexKey w d c o
  | orderLine w d o l => orderLineKey w d o l
  | item i => itemKey i
  | stock w i => stockKey w i

/-- The number that the identifiers spell. -/
def number : PrimaryKey → Int
  | warehouse w => w
  | district w d => 10 * w + d
  | customer w d c => (10 * w + d) * 2 ^ 32 + c
  | history w d cw cd c => ((10 * cw + cd) * 3000 + c) * 2 ^ 20 + (10 * w + d)
  | newOrder w d o => (10 * w + d) * 2 ^ 32 + o
  | order w d o => (10 * w + d) * 2 ^ 32 + o
  | orderIndex w d c o => ((10 * w + d) * 3000 + c) * 2 ^ 32 + o
  | orderLine w d o l => ((10 * w + d) * 10000000 + o) * 15 + l
  | item i => i
  | stock w i => 100000 * w + i

/-- The identifiers that `LoadTables` and the transactions use with `W` warehouses. -/
def InRange (W : Nat) : PrimaryKey → Prop
  | warehouse w => 1 ≤ w ∧ w ≤ W
  | district w d => IsDistrict W w d
  | customer w d c => IsDistrict W w d ∧ 1 ≤ c ∧ c ≤ 3000
  | history w d cw cd c => IsDistrict W w d ∧ IsDistrict W cw cd ∧ 1 ≤ c ∧ c ≤ 3000
  | newOrder w d o => IsDistrict W w d ∧ 1 ≤ o ∧ o < 2 ^ 31
  | order w d o => IsDistrict W w d ∧ 1 ≤ o ∧ o < 2 ^ 31
  | orderIndex w d c o => IsDistrict W w d ∧ (1 ≤ c ∧ c ≤ 3000) ∧ 1 ≤ o ∧ o < 2 ^ 31
  | orderLine w d o l => IsDistrict W w d ∧ (1 ≤ o ∧ o < 2 ^ 31) ∧ 1 ≤ l ∧ l ≤ 15
  | item i => 1 ≤ i ∧ i ≤ 100000
  | stock w i => (1 ≤ w ∧ w ≤ W) ∧ 1 ≤ i ∧ i ≤ 100000

variable {W : Nat} {p q : PrimaryKey}

/-- A key is the number that its identifiers spell. -/
theorem itemKey_toNat (small : W ≤ 21473) (h : p.InRange W) :
    (p.key.itemKey.toNat : Int) = p.number := by
  cases p with
  | warehouse w =>
    obtain ⟨low, high⟩ := h
    exact warehouseKey_toNat (by omega) (by omega)
  | district w d =>
    obtain ⟨hw, hd⟩ := h
    exact districtKey_toNat (by omega) (by omega)
  | customer w d c =>
    obtain ⟨⟨hw, hd⟩, hc⟩ := h
    exact customerKey_toNat (by omega) (by omega) (by omega) (by omega)
  | history w d cw cd c =>
    obtain ⟨⟨hw, hd⟩, ⟨hcw, hcd⟩, hc⟩ := h
    exact historyKey_toNat (by omega) (by omega) (by omega) (by omega)
  | newOrder w d o =>
    obtain ⟨⟨hw, hd⟩, ho⟩ := h
    exact newOrderKey_toNat (by omega) (by omega) (by omega) ho.2
  | order w d o =>
    obtain ⟨⟨hw, hd⟩, ho⟩ := h
    exact orderKey_toNat (by omega) (by omega) (by omega) ho.2
  | orderIndex w d c o =>
    obtain ⟨⟨hw, hd⟩, hc, ho⟩ := h
    exact orderIndexKey_toNat (by omega) (by omega) (by omega) ho.2
  | orderLine w d o l =>
    obtain ⟨⟨hw, hd⟩, ho, hl⟩ := h
    exact orderLineKey_toNat (by omega) (by omega) (by omega) ho.2 (by omega) (by omega)
  | item i =>
    obtain ⟨low, high⟩ := h
    exact Tpcc.itemKey_toNat (by omega) (by omega)
  | stock w i =>
    obtain ⟨hw, hi⟩ := h
    exact stockKey_toNat (by omega) (by omega)

/-- Two rows overwrite each other exactly when their identifiers spell the same number. -/
theorem itemKey_eq_iff (small : W ≤ 21473) (hp : p.InRange W) (hq : q.InRange W) :
    p.key.itemKey = q.key.itemKey ↔ p.number = q.number := by
  have left := itemKey_toNat small hp
  have right := itemKey_toNat small hq
  rw [← UInt64.toNat_inj]
  omega

/-- The number of an order is at most the factor by which the keys of its lines are packed. -/
def LineFits : PrimaryKey → Prop
  | orderLine _ _ o _ => o ≤ 10000000
  | _ => True

/-- The rows of one table spell different numbers. -/
theorem eq_of_number (small : W ≤ 21473) (hp : p.InRange W) (hq : q.InRange W) (fits : p.LineFits)
    (fits' : q.LineFits) (table : p.key.table = q.key.table) (same : p.number = q.number) :
    p = q := by
  cases p <;> cases q <;> simp [key] at table
  case history.history w d cw cd c w' d' cw' cd' c' =>
    obtain ⟨⟨hw, hd⟩, ⟨hcw, hcd⟩, hc⟩ := hp
    obtain ⟨⟨hw', hd'⟩, ⟨hcw', hcd'⟩, hc'⟩ := hq
    simp only [number] at same
    have customer : (10 * cw + cd) * 3000 + c = (10 * cw' + cd') * 3000 + c' := by omega
    have cDistrict : 10 * cw + cd = 10 * cw' + cd' := by omega
    have district : 10 * w + d = 10 * w' + d' := by omega
    rw [history.injEq]
    omega
  all_goals
    simp only [InRange, IsDistrict, LineFits, number] at hp hq fits fits' same
    simp only [warehouse.injEq, district.injEq, customer.injEq, newOrder.injEq,
      order.injEq, orderIndex.injEq, orderLine.injEq, item.injEq, stock.injEq]
    omega

/-- The rows of one table have different keys. -/
theorem eq_of_table (small : W ≤ 21473) (hp : p.InRange W) (hq : q.InRange W) (fits : p.LineFits)
    (fits' : q.LineFits) (table : p.key.table = q.key.table)
    (same : p.key.itemKey = q.key.itemKey) : p = q :=
  eq_of_number small hp hq fits fits' table ((itemKey_eq_iff small hp hq).mp same)

end PrimaryKey

/-- Different primary keys have different item keys. -/
def UniqueKeys (W : Nat) : Prop :=
  ∀ p q : PrimaryKey, p.InRange W → q.InRange W → p ≠ q → p.key.itemKey ≠ q.key.itemKey

/-- An order and its new-order row have one item key. -/
theorem newOrderKey_itemKey (w d o : Int) :
    (newOrderKey w d o).itemKey = (orderKey w d o).itemKey := rfl

/-- With any number of warehouses, the new-order row of an order overwrites the order. -/
theorem keys_not_unique {W : Nat} (one : 1 ≤ W) : ¬UniqueKeys W := by
  intro unique
  have district : IsDistrict W 1 1 := ⟨⟨le_rfl, by omega⟩, by decide⟩
  have first : (1 : Int) ≤ 1 ∧ (1 : Int) < 2 ^ 31 := by decide
  exact unique (.newOrder 1 1 1) (.order 1 1 1) ⟨district, first⟩ ⟨district, first⟩ (by decide)
    (newOrderKey_itemKey 1 1 1)

theorem keys_not_unique_one : ¬UniqueKeys 1 := keys_not_unique le_rfl

/-- The new-order row and the order row of order 1 of district (1, 1). -/
theorem order_and_newOrder_clash : ¬∀ W : Nat, 1 ≤ W → UniqueKeys W := by
  intro unique
  have district : IsDistrict 1 1 1 := ⟨by decide, by decide⟩
  exact unique 1 le_rfl (.newOrder 1 1 1) (.order 1 1 1) ⟨district, by decide⟩
    ⟨district, by decide⟩ (by decide) (by decide)

end Tpcc
