import Tpcc.KeySpace

/-! The results of the key functions, with the arithmetic of the source: an identifier is an
`int32_t`, the numbers of rows are `uint32_t`, so that sums and products are computed modulo `2^32`
before they are stored in an `int32_t` and shifted.  For up to 21473 warehouses none of these
numbers wraps, and two rows of a table have different keys. -/

namespace Tpcc

/-- An `int32_t` as an operand of unsigned arithmetic. -/
def operand (x : Int) : UInt32 := (Int32.ofInt x).toUInt32

section Operand

variable {x y : Int}

theorem operand_add : operand (x + y) = operand x + operand y := by
  rw [operand, Int32.ofInt_add, Int32.toUInt32_add]
  rfl

theorem operand_mul : operand (x * y) = operand x * operand y := by
  rw [operand, Int32.ofInt_mul, Int32.toUInt32_mul]
  rfl

/-- A number that is computed unsigned and stored in an `int32_t`. -/
theorem toInt32_operand : (operand x).toInt32 = Int32.ofInt x := Int32.toInt32_toUInt32 _

theorem operand_toNat (h : 0 ≤ x) (h' : x < 2 ^ 31) : ((operand x).toNat : Int) = x := by
  have stored := warehouseKey_toNat h h'
  rwa [warehouseKey, UInt32.toNat_toUInt64] at stored

end Operand

namespace PrimaryKey

/-- What the key function of a table returns, and the identifier itself where a table has none. -/
def make : PrimaryKey → Int64
  | warehouse w => (Int32.ofInt w).toInt64
  | district w d => makeDistrictKey w d
  | customer w d c => makeCustomerKey w d c
  | history w d cw cd c => makeHistoryKey w d cw cd c
  | newOrder w d o => makeNewOrderKey w d o
  | order w d o => makeOrderKey w d o
  | orderIndex w d c o => makeOrderIndexKey w d c o
  | orderLine w d o l => makeOrderLineKey w d o l
  | item i => Int64.ofInt i
  | stock w i => makeStockKey w i

/-- The 32-bit numbers that the key function computes, each with the integer that it stands for. -/
def words : PrimaryKey → List (UInt32 × Int)
  | district w d =>
    let scaled := operand w * 10
    [(scaled, w * 10), (operand d + scaled, d + w * 10)]
  | customer w d _ | newOrder w d _ | order w d _ | orderLine w d _ _ =>
    let scaled := operand w * 10
    [(scaled, w * 10), (scaled + operand d, w * 10 + d)]
  | history w d cw cd c =>
    let scaled := operand cw * 10
    let upper := (scaled + operand cd) * 3000
    let low := operand w * 10
    [(scaled, cw * 10), (scaled + operand cd, cw * 10 + cd), (upper, (cw * 10 + cd) * 3000),
      (upper + operand c, (cw * 10 + cd) * 3000 + c), (low, w * 10), (operand d + low, d + w * 10)]
  | orderIndex w d c _ =>
    let scaled := operand w * 10
    let upper := (scaled + operand d) * 3000
    [(scaled, w * 10), (scaled + operand d, w * 10 + d), (upper, (w * 10 + d) * 3000),
      (upper + operand c, (w * 10 + d) * 3000 + c)]
  | stock w i =>
    let scaled := operand w * 100000
    [(scaled, w * 100000), (operand i + scaled, i + w * 100000)]
  | warehouse _ | item _ => []

variable {W : Nat} {p q : PrimaryKey}

/-- The numbers that are computed are those of the integers, modulo `2^32`. -/
theorem words_eq_operand : ∀ x ∈ p.words, x.1 = operand x.2 := by
  have factors : operand 10 = 10 ∧ operand 3000 = 3000 ∧ operand 100000 = 100000 := by decide
  cases p <;> simp [words, operand_add, operand_mul, factors]

/-- What the key function returns, computed from these numbers. -/
def computed : PrimaryKey → Int64
  | warehouse w => (Int32.ofInt w).toInt64
  | district w d => (operand d + operand w * 10).toInt32.toInt64
  | customer w d c =>
    (operand w * 10 + operand d).toInt32.toInt64 <<< 32 ||| (Int32.ofInt c).toInt64
  | history w d cw cd c =>
    ((operand cw * 10 + operand cd) * 3000 + operand c).toInt32.toInt64 <<< 20 |||
      (operand d + operand w * 10).toInt32.toInt64
  | newOrder w d o =>
    (operand w * 10 + operand d).toInt32.toInt64 <<< 32 ||| (Int32.ofInt o).toInt64
  | order w d o => (operand w * 10 + operand d).toInt32.toInt64 <<< 32 ||| (Int32.ofInt o).toInt64
  | orderIndex w d c o =>
    ((operand w * 10 + operand d) * 3000 + operand c).toInt32.toInt64 <<< 32 |||
      (Int32.ofInt o).toInt64
  | orderLine w d o l =>
    ((operand w * 10 + operand d).toInt32.toInt64 * 10000000 + (Int32.ofInt o).toInt64) * 15 +
      (Int32.ofInt l).toInt64
  | item i => Int64.ofInt i
  | stock w i => (operand i + operand w * 100000).toInt32.toInt64

/-- The key functions convert to `int32_t` what unsigned arithmetic computes. -/
theorem computed_eq_make : p.computed = p.make := by
  have ten : operand 10 = 10 := by decide
  have thousands : operand 3000 = 3000 ∧ operand 100000 = 100000 := by decide
  cases p <;> simp only [computed, make, makeDistrictKey, makeCustomerKey, makeHistoryKey,
    makeNewOrderKey, makeOrderKey, makeOrderIndexKey, makeOrderLineKey, makeStockKey,
    ← toInt32_operand, operand_add, operand_mul, Nat.cast_ofNat, ten, thousands]

/-- No 32-bit number that the key function computes wraps, also where it is stored in an
`int32_t`. -/
def Exact (p : PrimaryKey) : Prop := ∀ x ∈ p.words, (x.1.toNat : Int) = x.2 ∧ x.2 < 2 ^ 31

theorem exact_of_bounds (bounds : ∀ x ∈ p.words, 0 ≤ x.2 ∧ x.2 < 2 ^ 31) : p.Exact := by
  intro x hx
  obtain ⟨low, high⟩ := bounds x hx
  rw [words_eq_operand x hx]
  exact ⟨operand_toNat low high, high⟩

theorem exact (small : W ≤ 21473) (h : p.InRange W) : p.Exact := by
  apply exact_of_bounds
  cases p <;> simp only [InRange, IsDistrict] at h <;>
    simp only [words, List.forall_mem_cons, List.not_mem_nil, false_implies, implies_true,
      and_true] <;>
    omega

/-- The keys of all stocks of `W` warehouses fit `int32_t` exactly for up to 21473 warehouses. -/
theorem stock_exact_iff :
    (∀ w i : Int, (stock w i).InRange W → (stock w i).Exact) ↔ W ≤ 21473 := by
  refine ⟨fun exact => ?_, fun small w i h => exact small h⟩
  by_contra large
  have range : (stock W 100000).InRange W := ⟨⟨by omega, le_rfl⟩, by decide⟩
  have last := (exact W 100000 range _ (List.mem_cons_of_mem _ (List.mem_singleton_self _))).2
  simp only at last
  omega

theorem number_bounds (small : W ≤ 21473) (h : p.InRange W) : 0 < p.number ∧ p.number < 2 ^ 63 := by
  cases p <;> simp only [InRange, IsDistrict] at h <;> simp only [number] <;> omega

/-- The store sees what the key function returns. -/
theorem itemKey_eq_make (small : W ≤ 21473) (h : p.InRange W) :
    p.key.itemKey = p.make.toUInt64 := by
  cases p with
  | warehouse w =>
    obtain ⟨low, high⟩ := h
    have key := warehouseKey_toNat (w := w) (by omega) (by omega)
    have made := toNat_toUInt64_ofInt (x := w) (by omega) (by omega)
    exact UInt64.toNat_inj.mp (Int.ofNat_inj.mp (key.trans made.symm))
  | _ => rfl

/-- The key function returns the number that the identifiers spell. -/
theorem make_toInt (small : W ≤ 21473) (h : p.InRange W) : p.make.toInt = p.number := by
  have value := itemKey_toNat small h
  rw [itemKey_eq_make small h, toNat_toUInt64] at value
  have bounds := number_bounds small h
  have low := p.make.le_toInt
  have high := p.make.toInt_lt
  omega

end PrimaryKey

open PrimaryKey in
/-- For up to 21473 warehouses, the largest number for which all stock keys fit `int32_t`, the keys
of a table tell its rows apart, all of them are positive, and none of the 32-bit numbers from which
they are computed wraps. -/
theorem keys_injective {W : Nat} (small : W ≤ 21473) :
    (∀ p q : PrimaryKey, p.InRange W → q.InRange W → p.LineFits → q.LineFits →
      p.key.table = q.key.table → p.make = q.make → p = q) ∧
    (∀ p : PrimaryKey, p.InRange W → 0 < p.make.toInt ∧ p.Exact) ∧
    ∀ V : Nat, (∀ w i : Int, (stock w i).InRange V → (stock w i).Exact) ↔ V ≤ 21473 := by
  refine ⟨fun p q hp hq fits fits' table same => ?_, fun p hp => ⟨?_, exact small hp⟩,
    fun V => stock_exact_iff⟩
  · apply eq_of_table small hp hq fits fits' table
    rw [itemKey_eq_make small hp, itemKey_eq_make small hq, same]
  · rw [make_toInt small hp]
    exact (number_bounds small hp).1

open PrimaryKey in
theorem keys_injective_default :
    (∀ p q : PrimaryKey, p.InRange 2 → q.InRange 2 → p.LineFits → q.LineFits →
      p.key.table = q.key.table → p.make = q.make → p = q) ∧
    (∀ p : PrimaryKey, p.InRange 2 → 0 < p.make.toInt ∧ p.Exact) ∧
    ∀ V : Nat, (∀ w i : Int, (stock w i).InRange V → (stock w i).Exact) ↔ V ≤ 21473 :=
  keys_injective (by decide)

end Tpcc
