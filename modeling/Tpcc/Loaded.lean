import Mathlib.Tactic.IntervalCases
import Tpcc.Load

/-! What `LoadTables` leaves in a store: the rows that it writes, and that it writes all of them.
One proof covers partial correctness, for any draws, and the surroundings in which the load
finishes. -/

namespace Tpcc

open KvProgram Layout

section

variable {F : Type} [FloatRep F] [DecidableEq F] [Amount F]

/-- Surroundings in which the load of `W` warehouses finishes. -/
structure Env.Finishes {ρ : Type} (env : Env ρ) (F : Type) [Amount F] (W : Nat) : Prop where
  accepting : env.Accepting
  prices : ∀ p : Int, 100 ≤ p → p ≤ 10000 →
    Amount.le (Amount.ofInt 1) (Amount.quotient p 100 : F) ∧
      Amount.le (Amount.quotient p 100 : F) (Amount.ofInt 100)
  counters : W * 100000 < 2 ^ 31

/-- The rows that a load of `W` warehouses writes. -/
inductive LoadRow (W : Nat) : Key → Value F → Prop
  | warehouse {w : Nat} {row : WarehouseVal F} (range : 1 ≤ w ∧ w ≤ W)
      (ytd : row.wYtd = Amount.ofInt (300000 * 100)) (name : row.wName.IsStr 10) :
      LoadRow W (warehouseKey w) (warehouseVal.encode row)
  | district {w d : Nat} {row : DistrictVal F} (range : 1 ≤ w ∧ w ≤ W ∧ 1 ≤ d ∧ d ≤ 10)
      (ytd : row.dYtd = Amount.ofInt (30000 * 100)) (next : row.dNextOId = 3001)
      (name : row.dName.IsStr 10) :
      LoadRow W (districtKey w d) (districtVal.encode row)
  | customer {w d c : Nat} {row : CustomerVal F}
      (range : 1 ≤ w ∧ w ≤ W ∧ 1 ≤ d ∧ d ≤ 10 ∧ 1 ≤ c ∧ c ≤ 3000)
      (delivered : row.cDeliveryCnt = 0) (paid : row.cPaymentCnt = 1) (data : row.cData.IsStr 500) :
      LoadRow W (customerKey w d c) (customerVal.encode row)
  | customerIndex {address : UInt64} {row : CustomerIndexVal} :
      LoadRow W (customerIndexKey address) (customerIndexVal.encode row)
  | history {w d c : Nat} {row : HistoryVal F}
      (range : 1 ≤ w ∧ w ≤ W ∧ 1 ≤ d ∧ d ≤ 10 ∧ 1 ≤ c ∧ c ≤ 3000)
      (amount : row.hAmount = Amount.ofInt 10) :
      LoadRow W (historyKey w d w d c) (historyVal.encode row)
  | order {w d o : Nat} {row : OrderVal}
      (range : 1 ≤ w ∧ w ≤ W ∧ 1 ≤ d ∧ d ≤ 10 ∧ 1 ≤ o ∧ o ≤ 3000)
      (carrier : row.oCarrierId = 0 ↔ 2100 < o)
      (count : 5 ≤ row.oOlCnt.toInt ∧ row.oOlCnt.toInt ≤ 15)
      (customer : 1 ≤ row.oCId.toInt ∧ row.oCId.toInt ≤ 3000) :
      LoadRow W (orderKey w d o) (orderVal.encode row)
  | orderIndex {w d o : Nat} {c : Int} {row : OrderIndexVal}
      (range : 1 ≤ w ∧ w ≤ W ∧ 1 ≤ d ∧ d ≤ 10 ∧ 1 ≤ o ∧ o ≤ 3000) (customer : 1 ≤ c ∧ c ≤ 3000) :
      LoadRow W (orderIndexKey w d c o) (orderIndexVal.encode row)
  | newOrder {w d o : Nat} {row : NewOrderVal}
      (range : 1 ≤ w ∧ w ≤ W ∧ 1 ≤ d ∧ d ≤ 10 ∧ 2100 < o ∧ o ≤ 3000) :
      LoadRow W (newOrderKey w d o) (newOrderVal.encode row)
  | orderLine {w d o l : Nat} {row : OrderLineVal F}
      (range : 1 ≤ w ∧ w ≤ W ∧ 1 ≤ d ∧ d ≤ 10 ∧ 1 ≤ o ∧ o ≤ 3000 ∧ 1 ≤ l ∧ l ≤ 15) :
      LoadRow W (orderLineKey w d o l) (orderLineVal.encode row)
  | item {i : Nat} {row : ItemVal F} (range : 1 ≤ i ∧ i ≤ 100000) :
      LoadRow W (itemKey i) (itemVal.encode row)
  | stock {w i : Nat} {row : StockVal} (range : 1 ≤ w ∧ w ≤ W ∧ 1 ≤ i ∧ i ≤ 100000)
      (quantity : 10 ≤ row.sQuantity.toInt ∧ row.sQuantity.toInt ≤ 100)
      (counters : row.sYtd = 0 ∧ row.sOrderCnt = 0 ∧ row.sRemoteCnt = 0) :
      LoadRow W (stockKey w i) (stockVal.encode row)

/-- A contract that lets a program read at some keys, and write the rows of a load there. -/
structure Permits {κ : Type} (C : Contract Key (Value F) κ) (W : Nat) (own : Key → Prop) :
    Prop where
  mayGet : ∀ k n v, own k → C.mayGet k n v
  mayPut : ∀ k v, own k → LoadRow W k v → C.mayPut k v

end

/-! ### Rows -/

section Rows

variable {ρ F S : Type} [FloatRep F] [DecidableEq F] [Amount F] {env : Env ρ}
  {L : Logic Key (Value F) S} {t : Thread ρ} {s : S} {W : Nat}

theorem zero_notMem_of_isAlnum {bs : List UInt8} (h : ∀ b ∈ bs, isAlnum b) : 0 ∉ bs := fun hz =>
  absurd (h 0 hz) (by decide)

omit [FloatRep F] [DecidableEq F] [Amount F] in
/-- A string of a drawn length. -/
theorem wp_randomStrIn {lo hi : Int} {Q : List UInt8 → Thread ρ → S → Prop}
    (bounds : 0 ≤ lo ∧ lo ≤ hi ∧ hi ≤ 3000) (ok : L.mayStick ∨ env.Accepting)
    (h : ∀ bs t, (bs.length : Int) ≤ hi → (∀ b ∈ bs, isAlnum b) → Q bs t s) :
    Act.wp L (randomNumber env lo hi)
      (fun len => Act.wp L (randomStr env len.toNat) Q) t s := by
  refine wp_randomNumber (.inr ⟨bounds.1, bounds.2.1⟩) fun len t lower upper => ?_
  refine wp_randomStr (ok.imp_right fun accepting => ⟨accepting, by omega⟩)
    fun bs t length alnum => ?_
  exact h bs t (by omega) alnum

omit [FloatRep F] [DecidableEq F] [Amount F] in
theorem wp_randomStreet {Q : List UInt8 → Thread ρ → S → Prop} (ok : L.mayStick ∨ env.Accepting)
    (h : ∀ bs t, bs.length < 21 → Q bs t s) : Act.wp L (randomStreet env) Q t s := by
  simp only [randomStreet, Act.wp_bind]
  refine wp_randomStrIn (by decide) ok fun bs t length _ => h bs t ?_
  simpa [Address.maxStreet, Nat.lt_succ_iff] using length

omit [FloatRep F] [DecidableEq F] [Amount F] in
theorem wp_randomCity {Q : List UInt8 → Thread ρ → S → Prop} (ok : L.mayStick ∨ env.Accepting)
    (h : ∀ bs t, bs.length < 21 → Q bs t s) : Act.wp L (randomCity env) Q t s := by
  simp only [randomCity, Act.wp_bind]
  refine wp_randomStrIn (by decide) ok fun bs t length _ => h bs t ?_
  simpa [Address.maxCity, Nat.lt_succ_iff] using length

omit [FloatRep F] [DecidableEq F] [Amount F] in
/-- The two letters of a state, and the NUL after them. -/
theorem wp_randomState {a : CharArray 3} {Q : CharArray 3 → Thread ρ → S → Prop}
    (ok : L.mayStick ∨ env.Accepting) (h : ∀ b t, b.bytes.getD 2 1 = 0 → Q b t s) :
    Act.wp L (randomStr env Address.state) (fun bs => Act.wp L (strcpy a bs) Q) t s := by
  refine wp_randomStr (ok.imp_right fun accepting => ⟨accepting, by decide⟩)
    fun bs t length alnum => ?_
  refine wp_strcpy (.inr (by rw [length]; decide)) fun b copied => h b t ?_
  rw [CharArray.strcpy_bytes copied, CharArray.cStr_eq_self (zero_notMem_of_isAlnum alnum)]
  rw [show Address.state = 2 from rfl] at length
  simp [List.getD, length]

theorem wp_warehouseRow {Q : WarehouseVal F → Thread ρ → S → Prop}
    (ok : L.mayStick ∨ env.Accepting)
    (h : ∀ (row : WarehouseVal F) t, row.wYtd = Amount.ofInt (300000 * 100) → row.wName.IsStr 10 →
      Q row t s) : Act.wp L (warehouseRow env) Q t s := by
  simp only [warehouseRow, Act.wp_bind, Act.wp_pure]
  refine wp_uninit fun val t => wp_randomNumber (.inr (by decide)) fun tax t _ _ => ?_
  refine wp_randomStrIn (by decide) ok fun name t short _ =>
    wp_strcpy (.inr (by omega)) fun _ named => ?_
  refine wp_randomStreet ok fun street t length => wp_strcpy (.inr length) fun _ _ => ?_
  refine wp_randomStreet ok fun street t length => wp_strcpy (.inr length) fun _ _ => ?_
  refine wp_randomCity ok fun city t length => wp_strcpy (.inr length) fun _ _ => ?_
  refine wp_randomState ok fun state t ended => wp_strcpy (.inr (by decide)) fun zip copied => ?_
  refine Act.wp_assert (fun _ => h _ t rfl (CharArray.strcpy_isStr named (by omega)))
    (.inr ⟨ended, ?_⟩)
  rw [CharArray.cStr_strcpy copied]
  decide

theorem wp_districtRow {Q : DistrictVal F → Thread ρ → S → Prop} (ok : L.mayStick ∨ env.Accepting)
    (h : ∀ (row : DistrictVal F) t, row.dYtd = Amount.ofInt (30000 * 100) → row.dNextOId = 3001 →
      row.dName.IsStr 10 → Q row t s) : Act.wp L (districtRow env) Q t s := by
  simp only [districtRow, Act.wp_bind, Act.wp_pure]
  refine wp_uninit fun val t => wp_randomNumber (.inr (by decide)) fun tax t _ _ => ?_
  refine wp_randomStrIn (by decide) ok fun name t short _ =>
    wp_strcpy (.inr (by omega)) fun _ named => ?_
  refine wp_randomStreet ok fun street t length => wp_strcpy (.inr length) fun _ _ => ?_
  refine wp_randomStreet ok fun street t length => wp_strcpy (.inr length) fun _ _ => ?_
  refine wp_randomCity ok fun city t length => wp_strcpy (.inr length) fun _ _ => ?_
  refine wp_randomState ok fun state t _ => wp_strcpy (.inr (by decide)) fun zip _ => ?_
  exact h _ t rfl rfl (CharArray.strcpy_isStr named (by omega))

omit [FloatRep F] [DecidableEq F] [Amount F] in
theorem wp_randomZip {Q : List UInt8 → Thread ρ → S → Prop}
    (h : ∀ bs t, bs.length < 10 → Q bs t s) :
    Act.wp L (randomZip env) Q t s := by
  simp only [randomZip, Act.wp_bind, Act.wp_pure]
  refine wp_randomNStr fun digits t length => h _ t ?_
  rw [List.length_append, length]
  decide

omit [FloatRep F] [DecidableEq F] [Amount F] in
theorem length_getCustomerLastName (num : Nat) : (getCustomerLastName num).length ≤ 15 := by
  have token : ∀ i, (nameTokens.getD i []).length ≤ 5 := by
    intro i
    by_cases hi : i < 10
    · interval_cases i <;> decide
    · rw [List.getD_eq_default _ _ (by simpa [nameTokens] using hi)]
      decide
  have first := token (num / 100)
  have second := token (num / 10 % 10)
  have third := token (num % 10)
  simp only [getCustomerLastName, List.length_append]
  omega

omit [FloatRep F] [DecidableEq F] [Amount F] in
theorem wp_customerLast {c : Nat} {Q : List UInt8 → Thread ρ → S → Prop}
    (h : ∀ bs t, bs.length < 17 → Q bs t s) : Act.wp L (customerLast env c) Q t s := by
  have short := length_getCustomerLastName
  unfold customerLast
  split
  · exact h _ t (Nat.lt_succ_of_lt (Nat.lt_succ_of_le (short _)))
  · exact wp_getNonUniformCustomerLastNameLoad fun num t _ =>
      h _ t (Nat.lt_succ_of_lt (Nat.lt_succ_of_le (short _)))

-- Otherwise the elaborator unrolls the loop when it looks for a binder in a goal.
attribute [local irreducible] randomNStr

/-- A customer has paid once, and has a balance of what that leaves. -/
theorem wp_customerRow_opening {c : Nat}
    {Q : CustomerVal F × List UInt8 × List UInt8 → Thread ρ → S → Prop}
    (ok : L.mayStick ∨ env.Accepting)
    (h : ∀ (row : CustomerVal F) last first t, row.cDeliveryCnt = 0 → row.cPaymentCnt = 1 →
      row.cData.IsStr 500 → row.cBalance = Amount.ofInt (-10) → row.cYtdPayment = Amount.ofInt 10 →
      Q (row, last, first) t s) :
    Act.wp L (customerRow env c) Q t s := by
  simp only [customerRow, Act.wp_bind, Act.wp_pure]
  refine wp_uninit fun val t => wp_randomNumber (.inr (by decide)) fun discount t _ _ => ?_
  refine wp_randomNumber (.inr (by decide)) fun bad t _ _ => ?_
  refine wp_strcpy (.inr (by split <;> decide)) fun _ _ => ?_
  refine wp_customerLast fun last t length => wp_strcpy (.inr length) fun _ _ => ?_
  refine wp_randomStrIn (by decide) ok fun first t _ _ => wp_strcpy (.inr (by omega)) fun _ _ => ?_
  refine wp_randomStreet ok fun street t length => wp_strcpy (.inr length) fun _ _ => ?_
  refine wp_randomStreet ok fun street t length => wp_strcpy (.inr length) fun _ _ => ?_
  refine wp_randomCity ok fun city t length => wp_strcpy (.inr length) fun _ _ => ?_
  refine wp_randomState ok fun state t _ => ?_
  refine wp_randomZip fun zip t length => wp_strcpy (.inr length) fun _ _ => ?_
  refine wp_randomNStr fun phone t length => wp_strcpy (.inr (by omega)) fun _ _ => ?_
  refine wp_getCurrentTimeMillis fun since t => wp_strcpy (.inr (by decide)) fun _ _ => ?_
  refine wp_randomStrIn (by decide) ok fun data t short _ =>
    wp_strcpy (.inr (by omega)) fun _ copied => ?_
  exact h _ last first t rfl rfl (CharArray.strcpy_isStr copied (by omega)) rfl rfl

theorem wp_customerRow {c : Nat}
    {Q : CustomerVal F × List UInt8 × List UInt8 → Thread ρ → S → Prop}
    (ok : L.mayStick ∨ env.Accepting)
    (h : ∀ (row : CustomerVal F) last first t, row.cDeliveryCnt = 0 → row.cPaymentCnt = 1 →
      row.cData.IsStr 500 → Q (row, last, first) t s) :
    Act.wp L (customerRow env c) Q t s :=
  wp_customerRow_opening ok fun row last first t delivered paid data _ _ =>
    h row last first t delivered paid data

theorem wp_historyRow {Q : HistoryVal F → Thread ρ → S → Prop} (ok : L.mayStick ∨ env.Accepting)
    (h : ∀ (row : HistoryVal F) t, row.hAmount = Amount.ofInt 10 → Q row t s) :
    Act.wp L (historyRow env) Q t s := by
  simp only [historyRow, Act.wp_bind, Act.wp_pure]
  refine wp_uninit fun val t => wp_getCurrentTimeMillis fun date t => ?_
  refine wp_randomStrIn (by decide) ok fun data t _ _ => wp_strcpy (.inr (by omega)) fun _ _ => ?_
  exact h _ t rfl

omit [FloatRep F] [DecidableEq F] [Amount F] in
/-- The customers that have been drawn are different; when no draw is rejected, they are those of
the first draws. -/
theorem wp_shuffleCustomers {Q : List Nat → Thread ρ → S → Prop} (ok : L.mayStick ∨ env.Accepting)
    (h : ∀ ids t, ids.length = 3000 → ids.Nodup → (∀ c ∈ ids, 1 ≤ c ∧ c ≤ 3000) → Q ids t s) :
    Act.wp L (shuffleCustomers env) Q t s := by
  unfold shuffleCustomers
  let draw (i : Nat) : Nat := (env.long (env.after t.rng i)).1 % 3000 + 1
  refine Act.wp_loop (fun n ids t' s' => s' = s ∧ ids.length ≤ 3000 ∧ ids.Nodup ∧
    (∀ c ∈ ids, 1 ≤ c ∧ c ≤ 3000) ∧
    (env.Accepting → ids = (List.range n).map draw ∧ t'.rng = env.after t.rng n)) ?_ ?_
    ⟨rfl, by simp, by simp, by simp, fun _ => ⟨rfl, rfl⟩⟩
  · refine ok.imp_right fun accepting ids _ _ hI => ?_
    have := accepting.attempts
    have := hI.2.1
    have := congrArg List.length (hI.2.2.2.2 accepting).1
    simp only [List.length_map, List.length_range] at this
    omega
  · rintro n ids t' _ ⟨rfl, length, nodup, range, count⟩
    split
    · rename_i more
      have drawn : ∀ {R : Nat → Thread ρ → S → Prop} {s : S}, Act.wp L (nextLong env) R t' s =
          R (env.long t'.rng).1 { t' with rng := (env.long t'.rng).2 } s := rfl
      rw [Act.wp_bind, drawn]
      have next : env.Accepting → (env.long t'.rng).2 = env.after t.rng (n + 1) :=
        fun accepting => by
        rw [Env.after_succ, ← (count accepting).2]
      split
      · rename_i old
        refine ⟨rfl, length, nodup, range, fun accepting => ?_⟩
        obtain ⟨rfl, rng⟩ := count accepting
        obtain ⟨i, hi, same⟩ := List.mem_map.mp old
        simp only [List.length_map, List.length_range] at length more
        rw [rng] at same
        exact absurd (Nat.succ.inj same) (accepting.distinct t.rng i n (List.mem_range.mp hi)
          (lt_of_le_of_ne length more))
      · rename_i new
        refine ⟨rfl, ?_, ?_, ?_, fun accepting => ⟨?_, next accepting⟩⟩
        · simp only [List.length_append, List.length_singleton]
          exact Nat.succ_le_of_lt (lt_of_le_of_ne length more)
        · rw [List.nodup_append]
          refine ⟨nodup, by simp, fun a ha b hb same => new ?_⟩
          rw [← List.mem_singleton.mp hb, ← same]
          exact ha
        · intro c hc
          rcases List.mem_append.mp hc with hc | hc
          · exact range c hc
          · rw [List.mem_singleton.mp hc]
            have := Nat.mod_lt (env.long t'.rng).1 (show 0 < 3000 by decide)
            exact ⟨by omega, this⟩
        · obtain ⟨rfl, rng⟩ := count accepting
          rw [List.range_succ, List.map_append, rng]
          rfl
    · rename_i done
      exact h ids t' (not_not.mp done) nodup range

omit [FloatRep F] [DecidableEq F] [Amount F] in
/-- Only an order that the loader delivers has a carrier. -/
theorem wp_orderCarrier {c : Nat} {Q : Int → Thread ρ → S → Prop}
    (h : ∀ v t, (Int32.ofInt v = 0 ↔ 2100 < c) → Q v t s) :
    Act.wp L (orderCarrier env c) Q t s := by
  unfold orderCarrier
  split
  · rename_i delivered
    refine wp_randomNumber (.inr (by decide)) fun v t lower upper => h v t (iff_of_false ?_ ?_)
    · interval_cases v <;> decide
    · exact Nat.not_lt.mpr delivered
  · rename_i open'
    exact h 0 t (iff_of_true rfl (Nat.lt_of_not_le open'))

omit [FloatRep F] [DecidableEq F] [Amount F] in
theorem wp_orderRow {c cId : Nat} {Q : OrderVal → Thread ρ → S → Prop}
    (range : 1 ≤ cId ∧ cId ≤ 3000) (h : ∀ (row : OrderVal) t, (row.oCarrierId = 0 ↔ 2100 < c) →
      5 ≤ row.oOlCnt.toInt ∧ row.oOlCnt.toInt ≤ 15 →
      1 ≤ row.oCId.toInt ∧ row.oCId.toInt ≤ 3000 → Q row t s) :
    Act.wp L (orderRow env c cId) Q t s := by
  simp only [orderRow, Act.wp_bind, Act.wp_pure]
  refine wp_orderCarrier fun carrier t hcarrier => ?_
  refine wp_randomNumber (.inr (by decide)) fun n t lower upper => ?_
  refine wp_getCurrentTimeMillis fun entry t => h _ t hcarrier ?_ ?_
  · rw [Int32.toInt_ofInt_of_le (by omega) (by omega)]
    exact ⟨lower, upper⟩
  · rw [Int32.toInt_ofNat_of_lt (by omega)]
    omega

omit [FloatRep F] [DecidableEq F] in
theorem wp_lineAmount {c : Nat} {entry : UInt32} {Q : UInt32 × F → Thread ρ → S → Prop}
    (h : ∀ (x : UInt32 × F) t, x.1 = (if c ≤ 2100 then entry else 0) → Q x t s) :
    Act.wp L (lineAmount env c entry) Q t s := by
  unfold lineAmount
  split
  · rename_i delivered
    exact h _ t (if_pos delivered).symm
  · rename_i notYet
    rw [Act.wp_bind]
    exact wp_randomNumber (.inr (by decide)) fun amount t _ _ => h _ t (if_neg notYet).symm

/-- A line is dated as its order when the loader delivers the order. -/
theorem wp_orderLineRow_dated {w c : Nat} {entry : UInt32}
    {Q : OrderLineVal F → Thread ρ → S → Prop}
    (h : ∀ (row : OrderLineVal F) t, row.olDeliveryD = (if c ≤ 2100 then entry else 0) →
      Q row t s) :
    Act.wp L (orderLineRow env w c entry) Q t s := by
  simp only [orderLineRow, Act.wp_bind, Act.wp_pure]
  refine wp_uninit fun val t => wp_randomNumber (.inr (by decide)) fun i t lower upper => ?_
  refine wp_lineAmount fun x t date => ?_
  exact Act.wp_assert (fun _ => h _ t date) (.inr ⟨lower, upper⟩)

theorem wp_orderLineRow {w c : Nat} {entry : UInt32} {Q : OrderLineVal F → Thread ρ → S → Prop}
    (h : ∀ (row : OrderLineVal F) t, Q row t s) :
    Act.wp L (orderLineRow env w c entry) Q t s :=
  wp_orderLineRow_dated fun row t _ => h row t

omit [FloatRep F] [DecidableEq F] [Amount F] in
theorem wp_randomData {len : Int} {Q : List UInt8 → Thread ρ → S → Prop}
    (range : 26 ≤ len ∧ len ≤ 50)
    (ok : L.mayStick ∨ env.Accepting) (h : ∀ bs t, bs.length < 51 → Q bs t s) :
    Act.wp L (randomData env len) Q t s := by
  unfold randomData
  rw [Act.wp_bind]
  refine wp_randomNumber (.inr (by decide)) fun original t _ _ => ?_
  split
  · refine wp_randomStr (ok.imp_right fun accepting => ⟨accepting, by omega⟩)
      fun bs t length _ => ?_
    exact h bs t (by omega)
  · simp only [Act.wp_bind, Act.wp_pure]
    refine wp_randomNumber (.inr (by omega)) fun start t lower upper => ?_
    refine wp_randomStr (ok.imp_right fun accepting => ⟨accepting, by omega⟩)
      fun before t first _ => ?_
    refine wp_randomStr (ok.imp_right fun accepting => ⟨accepting, by omega⟩)
      fun after t last _ => ?_
    apply h _ t
    have word : ("ORIGINAL".toUTF8.data.toList).length = 8 := by decide
    rw [List.length_append, List.length_append, first, word, last]
    omega

theorem wp_itemRow {Q : ItemVal F → Thread ρ → S → Prop} (ok : L.mayStick ∨ env.Finishes F W)
    (h : ∀ (row : ItemVal F) t, Q row t s) : Act.wp L (itemRow env) Q t s := by
  have accepting := ok.imp_right Env.Finishes.accepting
  simp only [itemRow, Act.wp_bind, Act.wp_pure]
  refine wp_uninit fun val t => wp_randomStrIn (by decide) accepting fun name t _ _ => ?_
  refine wp_strcpy (.inr (by omega)) fun _ _ => ?_
  refine wp_randomNumber (.inr (by decide)) fun price t lower upper => ?_
  refine wp_randomNumber (.inr (by decide)) fun len t short long => ?_
  refine wp_randomData ⟨short, long⟩ accepting fun data t length => ?_
  refine wp_strcpy (.inr length) fun _ _ => wp_randomNumber (.inr (by decide)) fun im t _ _ => ?_
  exact Act.wp_assert (fun _ => h _ t)
    (ok.imp_right fun finishes => finishes.prices price lower upper)

omit [DecidableEq F] [Amount F] in
theorem wp_stockRow {seed : Nat} {Q : StockVal → Thread ρ → S → Prop}
    (ok : L.mayStick ∨ env.Accepting)
    (h : ∀ (row : StockVal) t, 10 ≤ row.sQuantity.toInt ∧ row.sQuantity.toInt ≤ 100 →
      row.sYtd = 0 ∧ row.sOrderCnt = 0 ∧ row.sRemoteCnt = 0 → Q row t s) :
    Act.wp L (stockRow env seed) Q t s := by
  simp only [stockRow, Act.wp_bind, Act.wp_pure]
  refine wp_uninit fun val t => wp_seeded fun t => ?_
  refine wp_randomNumber (.inr (by decide)) fun quantity t lower upper => ?_
  refine wp_randomNumber (.inr (by decide)) fun len t short long => ?_
  refine wp_randomData ⟨short, long⟩ ok fun data t length => ?_
  refine wp_strcpy (.inr length) fun _ _ => h _ t ?_ ⟨rfl, rfl, rfl⟩
  show 10 ≤ (Int32.ofInt quantity).toInt ∧ (Int32.ofInt quantity).toInt ≤ 100
  rw [Int32.toInt_ofInt_of_le (by omega) (by omega)]
  exact ⟨lower, upper⟩

end Rows

/-! ### Counters -/

/-- The counters have counted `n` records. -/
structure Totals.Counts (totals : Totals) (n : Nat) : Prop where
  inserted : totals.inserted = n
  examined : totals.examined = n
  bound : n < 2 ^ 31

theorem zero_counts : Totals.zero.Counts 0 := ⟨rfl, rfl, by norm_num⟩

theorem wp_count {ρ K V S : Type} {L : Logic K V S} {totals : Totals} {n : Nat} {r : ρ} {s : S}
    {Q : Totals → ρ → S → Prop} (ok : L.mayStick ∨ n + 1 < 2 ^ 31) (counts : totals.Counts n)
    (h : ∀ totals, totals.Counts (n + 1) → Q totals r s) : Act.wp L (totals.count 1) Q r s := by
  obtain ⟨inserted, examined, _⟩ := counts
  simp only [Totals.count, Act.wp_bind, Act.wp_pure]
  refine Act.wp_assert (fun bound => ?_) (ok.imp_right fun _ => by omega)
  refine Act.wp_assert (fun _ => h _ ⟨?_, ?_, ?_⟩) (ok.imp_right fun _ => by omega)
  · show totals.inserted + 1 = _; omega
  · show totals.examined + 1 = _; omega
  · omega

/-! ### Tables -/

section Tables

variable {ρ F κ : Type} [FloatRep F] [DecidableEq F] [Amount F] [DecidableEq κ] {env : Env ρ}
  {C : Contract Key (Value F) κ} {t : Thread ρ} {s : Store κ (Value F)} {W seed : Nat}

theorem wp_populateWarehouseTable (ok : C.mayStick ∨ env.Finishes F W)
    (permits : Permits C W (·.table = .warehouse)) :
    Act.wp C.logic (populateWarehouseTable env W seed)
      (fun _ _ s' => ∀ w : Nat, 1 ≤ w → w ≤ W → s' (C.addr (warehouseKey w)) ≠ none) t s := by
  simp only [populateWarehouseTable, Act.wp_bind, Act.wp_pure]
  refine wp_seeded fun t => Act.wp_mono (Act.wp_forRange_all
    (P := fun w s => s (C.addr (warehouseKey w)) ≠ none)
    (fun w totals => totals.Counts (w - 1)) ?_ ?_ zero_counts) ?_
  · exact fun _ _ _ _ row _ => Store.put_ne_none row
  · intro w totals t s low high counts
    simp only [Act.wp_bind, wp_putRecord]
    refine wp_warehouseRow (ok.imp_right Env.Finishes.accepting) fun row t ytd name => ?_
    refine ⟨permits.mayPut _ _ rfl (.warehouse (by omega) ytd name), ?_⟩
    refine wp_count (ok.imp_right fun finishes => ?_) counts fun totals counts => ⟨?_, ?_⟩
    · have := finishes.counters
      omega
    · rwa [show w + 1 - 1 = w - 1 + 1 by omega]
    · exact Store.put_self_ne_none
  · rintro totals t s' ⟨_, rows⟩ w low high
    exact rows w low (by omega)

theorem wp_populateDistrictTable (ok : C.mayStick ∨ env.Finishes F W)
    (permits : Permits C W (·.table = .district)) :
    Act.wp C.logic (populateDistrictTable env W seed)
      (fun _ _ s' => ∀ w d : Nat, 1 ≤ w → w ≤ W → 1 ≤ d → d ≤ 10 →
        s' (C.addr (districtKey w d)) ≠ none) t s := by
  simp only [populateDistrictTable, Act.wp_bind, Act.wp_pure]
  refine wp_seeded fun t => Act.wp_mono (Act.wp_forRange_all
    (P := fun w s => ∀ d : Nat, 1 ≤ d → d < 1 + 10 → s (C.addr (districtKey w d)) ≠ none)
    (fun w totals => totals.Counts (10 * (w - 1))) ?_ ?_ zero_counts) ?_
  · exact fun _ _ _ _ rows _ d low high => Store.put_ne_none (rows d low high)
  · intro w totals t s low high counts
    refine Act.wp_mono (Act.wp_forRange_all
      (P := fun d s => s (C.addr (districtKey w d)) ≠ none)
      (fun d totals => totals.Counts (10 * (w - 1) + (d - 1))) ?_ ?_ counts) ?_
    · exact fun _ _ _ _ row _ => Store.put_ne_none row
    · intro d totals t s first (last : d < 1 + 10) counts
      simp only [Act.wp_bind, wp_putRecord]
      refine wp_districtRow (ok.imp_right Env.Finishes.accepting) fun row t ytd next name => ?_
      refine ⟨permits.mayPut _ _ rfl (.district (by omega) ytd next name), ?_⟩
      refine wp_count (ok.imp_right fun finishes => ?_) counts fun totals counts => ⟨?_, ?_⟩
      · have := finishes.counters
        omega
      · rwa [show d + 1 - 1 = d - 1 + 1 by omega]
      · exact Store.put_self_ne_none
    · rintro totals t s' ⟨counts, rows⟩
      refine ⟨?_, rows⟩
      rwa [show 10 * (w + 1 - 1) = 10 * (w - 1) + (1 + 10 - 1) by omega]
  · rintro totals t s' ⟨_, rows⟩ w d low high first last
    exact rows w low (by omega) d first (by omega)

/-- The counters of the customers after `n` of them: the index may have fewer entries. -/
structure CustomerTotals.Counts (totals : CustomerTotals) (n : Nat) : Prop where
  customer : totals.customer.Counts n
  customerIndex : ∃ m ≤ n, totals.customerIndex.Counts m
  history : totals.history.Counts n

/-- The keys that may be read or written while the customers are loaded: an entry of their index is
at an address that `operator new` has returned. -/
def CustomerOwn (env : Env ρ) (k : Key) : Prop :=
  k.table ∈ [.customer, .history] ∨ ∃ words r, k = customerIndexKey (env.allocate words r).1

theorem wp_populateCustomerIndex {address : UInt64} {c : Int64} {totals : Totals} {m : Nat}
    {Q : Totals → Thread ρ → Store κ (Value F) → Prop} (ok : C.mayStick ∨ m + 1 < 2 ^ 31)
    (permits : Permits C W (· = customerIndexKey address)) (counts : totals.Counts m)
    (h : ∀ totals t s', (totals.Counts m ∨ totals.Counts (m + 1)) →
      (∀ a, s a ≠ none → s' a ≠ none) → Q totals t s') :
    Act.wp C.logic (populateCustomerIndex env address c totals) Q t s := by
  simp only [populateCustomerIndex, Act.wp_bind]
  refine wp_uninit fun val t => ?_
  refine wp_getRecord ⟨permits.mayGet _ _ _ rfl, fun status found t _ => ?_⟩
  split
  · simp only [Act.wp_bind, wp_putRecord]
    refine ⟨permits.mayPut _ _ rfl .customerIndex, ?_⟩
    apply wp_count ok counts
    intro totals counts
    exact h totals t _ (.inr counts) fun _ row => Store.put_ne_none row
  · exact h totals t s (.inl counts) fun _ row => row

theorem wp_populateCustomer {w d c : Nat} {totals : CustomerTotals} {n : Nat}
    (ok : C.mayStick ∨ env.Accepting ∧ n + 1 < 2 ^ 31)
    (permits : Permits C W (CustomerOwn env))
    (range : 1 ≤ w ∧ w ≤ W ∧ 1 ≤ d ∧ d ≤ 10 ∧ 1 ≤ c ∧ c ≤ 3000) (counts : totals.Counts n) :
    Act.wp C.logic (populateCustomer env w d c totals) (fun totals _ s' => totals.Counts (n + 1) ∧
      s' (C.addr (customerKey w d c)) ≠ none ∧ s' (C.addr (historyKey w d w d c)) ≠ none) t s := by
  obtain ⟨customers, ⟨m, hm, indices⟩, histories⟩ := counts
  have accepting := ok.imp_right And.left
  have room := ok.imp_right And.right
  simp only [populateCustomer, makeCustomerIndexKey, Act.wp_bind, Act.wp_pure, Act.wp_own,
    wp_putRecord]
  apply wp_customerRow accepting
  intro row last first t delivered paid data
  refine ⟨permits.mayPut _ _ (.inl (by simp)) (.customer range delivered paid data), ?_⟩
  apply wp_count room customers
  intro customer customers
  apply wp_populateCustomerIndex (ok.imp_right fun _ => by omega)
    ⟨fun k n v own => permits.mayGet k n v (.inr ⟨_, _, own⟩),
      fun k v own => permits.mayPut k v (.inr ⟨_, _, own⟩)⟩ indices
  intro index t s' indices grown
  apply wp_historyRow accepting
  intro history t amount
  refine ⟨permits.mayPut _ _ (.inl (by simp)) (.history range amount), ?_⟩
  apply wp_count room histories
  intro historyTotals histories
  refine ⟨⟨customers, ?_, histories⟩, ?_, Store.put_self_ne_none⟩
  · rcases indices with same | more
    · exact ⟨m, by omega, same⟩
    · exact ⟨m + 1, by omega, more⟩
  · exact Store.put_ne_none (grown _ Store.put_self_ne_none)

theorem wp_populateCustomerAndHistoryTable (ok : C.mayStick ∨ env.Finishes F W)
    (permits : Permits C W (CustomerOwn env)) :
    Act.wp C.logic (populateCustomerAndHistoryTable env W seed)
      (fun _ _ s' => W * 30000 < 2 ^ 31 ∧ ∀ w d c : Nat, 1 ≤ w → w ≤ W → 1 ≤ d → d ≤ 10 → 1 ≤ c →
        c ≤ 3000 → s' (C.addr (customerKey w d c)) ≠ none ∧
          s' (C.addr (historyKey w d w d c)) ≠ none) t s := by
  let Rows (w d c : Nat) (s : Store κ (Value F)) : Prop :=
    s (C.addr (customerKey w d c)) ≠ none ∧ s (C.addr (historyKey w d w d c)) ≠ none
  have keeps {w d c : Nat} {s : Store κ (Value F)} {a : κ} {v : Value F} (rows : Rows w d c s) :
      Rows w d c (s.put a v) := ⟨Store.put_ne_none rows.1, Store.put_ne_none rows.2⟩
  simp only [populateCustomerAndHistoryTable, Act.wp_bind, Act.wp_pure]
  refine wp_seeded fun t => Act.wp_mono (Act.wp_forRange_all
    (P := fun w s => ∀ d, 1 ≤ d → d < 1 + 10 → ∀ c, 1 ≤ c → c < 1 + 3000 → Rows w d c s)
    (fun w totals => totals.Counts (3000 * (10 * (w - 1)))) ?_ ?_
    ⟨zero_counts, ⟨0, le_rfl, zero_counts⟩, zero_counts⟩) ?_
  · exact fun _ _ _ _ rows _ d low high c first last => keeps (rows d low high c first last)
  · intro w totals t s low high counts
    refine Act.wp_mono (Act.wp_forRange_all
      (P := fun d s => ∀ c, 1 ≤ c → c < 1 + 3000 → Rows w d c s)
      (fun d totals => totals.Counts (3000 * (10 * (w - 1) + (d - 1)))) ?_ ?_ counts) ?_
    · exact fun _ _ _ _ rows _ c first last => keeps (rows c first last)
    · intro d totals t s dLow (dHigh : d < 1 + 10) counts
      refine Act.wp_mono (Act.wp_forRange_all (P := fun c s => Rows w d c s)
        (fun c totals => totals.Counts (3000 * (10 * (w - 1) + (d - 1)) + (c - 1))) ?_ ?_
        counts) ?_
      · exact fun _ _ _ _ rows _ => keeps rows
      · intro c totals t s first (last : c < 1 + 3000) counts
        rw [show c + 1 - 1 = c - 1 + 1 by omega]
        refine wp_populateCustomer (n := 3000 * (10 * (w - 1) + (d - 1)) + (c - 1))
          (ok.imp_right fun finishes => ?_) permits (by omega) counts
        have := finishes.counters
        exact ⟨finishes.accepting, by omega⟩
      · rintro totals t s' ⟨counts, rows⟩
        refine ⟨?_, rows⟩
        rwa [show 3000 * (10 * (w - 1) + (d + 1 - 1)) =
          3000 * (10 * (w - 1) + (d - 1)) + (1 + 3000 - 1) by omega]
    · rintro totals t s' ⟨counts, rows⟩
      refine ⟨?_, rows⟩
      rwa [show 3000 * (10 * (w + 1 - 1)) = 3000 * (10 * (w - 1) + (1 + 10 - 1)) by omega]
  · rintro totals t s' ⟨counts, rows⟩
    have bound := counts.customer.bound
    refine ⟨by omega, fun w d c low high dLow dHigh first last => ?_⟩
    exact rows w low (by omega) d dLow (by omega) c first (by omega)

/-! ### Orders -/

/-- Writes beside the one of an order row: short, and to other tables. -/
def BesideOrder (writes : List (Key × Value F)) : Prop :=
  ∀ x ∈ writes, x.1.table ≠ .order ∧ x.2.length ≤ 56

omit [FloatRep F] [DecidableEq F] [Amount F] in
theorem BesideOrder.append {writes more : List (Key × Value F)} (h : BesideOrder writes)
    (h' : BesideOrder more) : BesideOrder (writes ++ more) := by
  intro x hx
  rcases List.mem_append.mp hx with hx | hx
  · exact h x hx
  · exact h' x hx

/-- The writes of order `c` of a district: its row, then those of its index entry, its new-order row
if it has not been delivered, and its lines. -/
def OrderPut (addr : Key → κ) (w d c : Nat) (s s' : Store κ (Value F)) : Prop :=
  ∃ (row : OrderVal) (writes : List (Key × Value F)),
    s' = s.puts addr ((orderKey w d c, orderVal.encode row) :: writes) ∧ BesideOrder writes ∧
    (2100 < c → newOrderKey w d c ∈ writes.map Prod.fst) ∧
    ∀ l : Nat, 1 ≤ l → l ≤ row.oOlCnt.toInt → orderLineKey w d c l ∈ writes.map Prod.fst

/-- The keys that may be written while order `c` of a district is loaded. -/
def OrderOwn (w d c : Nat) (k : Key) : Prop :=
  k.table ∈ [.order, .orderIndex, .newOrder, .orderLine] ∧
    (k.table = .order → k = orderKey w d c)

variable {w d c : Nat}

theorem wp_populateOrderIndex {cId : Int} {Q : Unit → Thread ρ → Store κ (Value F) → Prop}
    (permits : Permits C W (OrderOwn w d c))
    (range : 1 ≤ w ∧ w ≤ W ∧ 1 ≤ d ∧ d ≤ 10 ∧ 1 ≤ c ∧ c ≤ 3000) (customer : 1 ≤ cId ∧ cId ≤ 3000)
    (h : ∀ writes t, BesideOrder writes → Q () t (s.puts C.addr writes)) :
    Act.wp C.logic (populateOrderIndex env w d c cId) Q t s := by
  simp only [populateOrderIndex, Act.wp_bind]
  have own : OrderOwn w d c (orderIndexKey w d cId c) := by simp [OrderOwn]
  refine wp_uninit fun val t => ?_
  refine wp_getRecord ⟨permits.mayGet _ _ _ own, fun status found t _ => ?_⟩
  split
  · simp only [Act.wp_bind, wp_putRecord]
    refine ⟨permits.mayPut _ _ own (.orderIndex range customer), ?_⟩
    refine h [(orderIndexKey w d cId c, _)] t fun x hx => ?_
    rw [List.mem_singleton.mp hx]
    exact ⟨by simp [orderIndexKey], by simp⟩
  · exact h [] t fun x hx => absurd hx (by simp)

theorem wp_populateNewOrder {Q : Unit → Thread ρ → Store κ (Value F) → Prop}
    (permits : Permits C W (OrderOwn w d c))
    (range : 1 ≤ w ∧ w ≤ W ∧ 1 ≤ d ∧ d ≤ 10 ∧ 1 ≤ c ∧ c ≤ 3000)
    (h : ∀ writes t, BesideOrder writes → (2100 < c → newOrderKey w d c ∈ writes.map Prod.fst) →
      Q () t (s.puts C.addr writes)) :
    Act.wp C.logic (populateNewOrder env w d c) Q t s := by
  unfold populateNewOrder
  split
  · rename_i more
    have open' : 2100 < c := more
    simp only [Act.wp_bind, wp_putRecord]
    refine wp_uninit fun val t => ?_
    refine ⟨permits.mayPut _ _ (by simp [OrderOwn, newOrderKey]) (.newOrder (by omega)), ?_⟩
    refine h [(newOrderKey w d c, _)] t (fun x hx => ?_) fun _ => by simp
    rw [List.mem_singleton.mp hx]
    exact ⟨by simp [newOrderKey], by simp⟩
  · rename_i delivered
    exact h [] t (fun x hx => absurd hx (by simp)) fun more => absurd more delivered

theorem wp_populateOrder {cIds : List Nat} (permits : Permits C W (OrderOwn w d c))
    (range : 1 ≤ w ∧ w ≤ W ∧ 1 ≤ d ∧ d ≤ 10 ∧ 1 ≤ c ∧ c ≤ 3000) (length : cIds.length = 3000)
    (ids : ∀ c ∈ cIds, 1 ≤ c ∧ c ≤ 3000) :
    Act.wp C.logic (populateOrder env w d cIds c)
      (fun _ _ s' => OrderPut C.addr w d c s s') t s := by
  simp only [populateOrder, Act.wp_bind, wp_putRecord]
  have drawn : 1 ≤ cIds.getD (c - 1) 0 ∧ cIds.getD (c - 1) 0 ≤ 3000 := by
    rw [List.getD_eq_getElem _ _ (by omega)]
    exact ids _ (List.getElem_mem _)
  apply wp_orderRow drawn
  intro row t carrier count customer
  refine ⟨permits.mayPut _ _ (by simp [OrderOwn, orderKey])
    (.order range carrier count customer), ?_⟩
  apply wp_populateOrderIndex permits range customer
  intro index t besideIndex
  apply wp_populateNewOrder permits range
  intro norder t besideNew isNew
  refine Act.wp_mono (Act.wp_forRange (fun l _ _ s' => ∃ writes,
    s' = s.puts C.addr ((orderKey w d c, orderVal.encode row) :: writes) ∧ BesideOrder writes ∧
    (2100 < c → newOrderKey w d c ∈ writes.map Prod.fst) ∧
    ∀ l' : Nat, 1 ≤ l' → l' < l → orderLineKey w d c l' ∈ writes.map Prod.fst) ?_ ?_) ?_
  · rintro l _ t _ low high ⟨writes, rfl, beside, isNew, lines⟩
    simp only [Act.wp_bind, wp_putRecord]
    apply wp_orderLineRow
    intro line t
    refine ⟨permits.mayPut _ _ (by simp [OrderOwn, orderLineKey]) (.orderLine (by omega)), ?_⟩
    refine ⟨writes ++ [(orderLineKey w d c l, orderLineVal.encode line)], ?_, ?_, ?_, ?_⟩
    · rw [← List.cons_append, Store.puts_append]
      rfl
    · refine beside.append fun x hx => ?_
      rw [List.mem_singleton.mp hx]
      exact ⟨by simp [orderLineKey], by simp⟩
    · exact fun more => by simpa using .inl (by simpa using isNew more)
    · intro l' low' high'
      rcases Nat.lt_succ_iff_lt_or_eq.mp high' with earlier | rfl
      · exact List.mem_map.mpr (by
          obtain ⟨x, hx, same⟩ := List.mem_map.mp (lines l' low' earlier)
          exact ⟨x, List.mem_append_left _ hx, same⟩)
      · simp
  · refine ⟨index ++ norder, ?_, besideIndex.append besideNew, fun more => ?_,
      fun _ _ _ => by omega⟩
    · rw [Store.puts_cons, Store.puts_append]
    · simpa using .inr (by simpa using isNew more)
  · rintro _ t s' ⟨writes, rfl, beside, isNew, lines⟩
    exact ⟨row, writes, rfl, beside, isNew, fun l low high => lines l low (by omega)⟩

/-- The keys that may be written while the orders are loaded. -/
def OrderTables (k : Key) : Prop := k.table ∈ [.order, .orderIndex, .newOrder, .orderLine]

/-- The load of the orders establishes for each of them what its writes establish, and what the
writes of the other orders keep. -/
theorem wp_populateOrders (seed : Nat) (ok : C.mayStick ∨ env.Accepting)
    (permits : Permits C W OrderTables) (P : Nat → Nat → Nat → Store κ (Value F) → Prop)
    (establishes : ∀ w d c s s', 1 ≤ w ∧ w ≤ W ∧ 1 ≤ d ∧ d ≤ 10 ∧ 1 ≤ c ∧ c ≤ 3000 →
      OrderPut C.addr w d c s s' → P w d c s')
    (keeps : ∀ w d c w' d' c', 1 ≤ w ∧ w ≤ W ∧ 1 ≤ d ∧ d ≤ 10 ∧ 1 ≤ c ∧ c ≤ 3000 →
      1 ≤ w' ∧ w' ≤ W ∧ 1 ≤ d' ∧ d' ≤ 10 ∧ 1 ≤ c' ∧ c' ≤ 3000 → (w, d, c) ≠ (w', d', c') →
      ∀ s k v, P w d c s → C.mayPut k v → (k.table = .order → k = orderKey w' d' c') →
        P w d c (s.put (C.addr k) v)) :
    Act.wp C.logic (populateOrderNewOrderAndOrderLineTable env W seed)
      (fun _ _ s' => ∀ w d c, 1 ≤ w ∧ w ≤ W ∧ 1 ≤ d ∧ d ≤ 10 ∧ 1 ≤ c ∧ c ≤ 3000 →
        P w d c s') t s := by
  simp only [populateOrderNewOrderAndOrderLineTable, Act.wp_bind]
  refine wp_seeded fun t => Act.wp_mono (Act.wp_forRange_each
    (P := fun w s => ∀ d c, 1 ≤ d ∧ d ≤ 10 → 1 ≤ c ∧ c ≤ 3000 → P w d c s)
    (D := fun w k _ => k.table = .order → ∃ d c : Nat, (1 ≤ d ∧ d ≤ 10) ∧ (1 ≤ c ∧ c ≤ 3000) ∧
      k = orderKey w d c) (fun _ _ => True) ?_ ?_ trivial) ?_
  · intro w w' s k v low before high rows may own d c hd hc
    by_cases order : k.table = .order
    · obtain ⟨d', c', hd', hc', same⟩ := own order
      exact keeps w' d c w d' c' (by omega) (by omega) (by simp; omega) s k v (rows d c hd hc) may
        fun _ => same
    · exact keeps w' d c w 1 1 (by omega) (by omega) (by simp; omega) s k v (rows d c hd hc) may
        fun this => absurd this order
  · intro w _ t s low high _
    refine Act.wp_mono (Act.wp_forRange_each
      (P := fun d s => ∀ c, 1 ≤ c ∧ c ≤ 3000 → P w d c s)
      (D := fun d k _ => k.table = .order → ∃ c : Nat, (1 ≤ c ∧ c ≤ 3000) ∧ k = orderKey w d c)
      (fun _ _ => True) ?_ ?_ trivial) fun _ _ _ h => ⟨trivial, fun d c hd => h.2 d hd.1 (by
        have := hd.2
        show d < 1 + 10
        omega) c⟩
    · intro d d' s k v dLow before (dHigh : d < 1 + 10) rows may own c hc
      by_cases order : k.table = .order
      · obtain ⟨c', hc', same⟩ := own order
        exact keeps w d' c w d c' (by omega) (by omega) (by simp; omega) s k v (rows c hc) may.1
          fun _ => same
      · exact keeps w d' c w d 1 (by omega) (by omega) (by simp; omega) s k v (rows c hc) may.1
          fun this => absurd this order
    · intro d _ t s dLow (dHigh : d < 1 + 10) _
      rw [Act.wp_bind]
      refine wp_shuffleCustomers ok fun cIds t length nodup ids => ?_
      refine Act.wp_mono (Act.wp_forRange_each (P := fun c s => P w d c s)
        (D := fun c k _ => k.table = .order → k = orderKey w d c) (fun _ _ => True) ?_ ?_ trivial)
        fun _ _ _ h => ⟨trivial, fun c hc => h.2 c hc.1 (by
          have := hc.2
          show c < 1 + 3000
          omega)⟩
      · intro c c' s k v cLow before (cHigh : c < 1 + 3000) rows may own
        exact keeps w d c' w d c (by omega) (by omega) (by simp; omega) s k v rows may.1.1 own
      · intro c _ t s cLow (cHigh : c < 1 + 3000) _
        refine Act.wp_mono (wp_populateOrder (W := W)
          ⟨fun k n v own => permits.mayGet k n v own.1, fun k v own row => ?_⟩
          (by omega) length ids) fun _ _ s' put => ⟨trivial, establishes w d c s s' (by omega) put⟩
        exact ⟨⟨⟨permits.mayPut k v own.1 row, fun order =>
          ⟨d, c, by omega, by omega, own.2 order⟩⟩,
          fun order => ⟨c, by omega, own.2 order⟩⟩, own.2⟩
  · rintro _ t s' ⟨_, rows⟩ w d c range
    exact rows w range.1 (by omega) d c (by omega) (by omega)

theorem wp_populateItemTable (ok : C.mayStick ∨ env.Finishes F W)
    (permits : Permits C W (·.table = .item)) :
    Act.wp C.logic (populateItemTable env seed)
      (fun _ _ s' => ∀ i : Nat, 1 ≤ i → i ≤ 100000 → s' (C.addr (itemKey i)) ≠ none) t s := by
  simp only [populateItemTable, Act.wp_bind, Act.wp_pure]
  refine wp_seeded fun t => Act.wp_mono (Act.wp_forRange_all
    (P := fun i s => s (C.addr (itemKey i)) ≠ none)
    (fun i totals => totals.Counts (i - 1)) ?_ ?_ zero_counts) ?_
  · exact fun _ _ _ _ row _ => Store.put_ne_none row
  · intro i totals t s low (high : i < 1 + 100000) counts
    simp only [Act.wp_bind, wp_putRecord]
    apply wp_itemRow ok
    intro row t
    refine ⟨permits.mayPut _ _ rfl (.item (by omega)), ?_⟩
    apply wp_count (.inr (by omega)) counts
    intro totals counts
    refine ⟨?_, Store.put_self_ne_none⟩
    rwa [show i + 1 - 1 = i - 1 + 1 by omega]
  · rintro totals t s' ⟨_, rows⟩ i low high
    exact rows i low (by show i < 1 + 100000; omega)

theorem wp_populateStockTable (ok : C.mayStick ∨ env.Finishes F W)
    (permits : Permits C W (·.table = .stock)) :
    Act.wp C.logic (populateStockTable env W seed)
      (fun _ _ s' => W * 100000 < 2 ^ 31 ∧ ∀ w i : Nat, 1 ≤ w → w ≤ W → 1 ≤ i → i ≤ 100000 →
        s' (C.addr (stockKey w i)) ≠ none) t s := by
  simp only [populateStockTable, Act.wp_bind, Act.wp_pure]
  refine Act.wp_mono (Act.wp_forRange_all
    (P := fun w s => ∀ i : Nat, 1 ≤ i → i < 1 + 100000 → s (C.addr (stockKey w i)) ≠ none)
    (fun w totals => totals.Counts (100000 * (w - 1))) ?_ ?_ zero_counts) ?_
  · exact fun _ _ _ _ rows _ i low high => Store.put_ne_none (rows i low high)
  · intro w totals t s low high counts
    refine Act.wp_mono (Act.wp_forRange_all
      (P := fun i s => s (C.addr (stockKey w i)) ≠ none)
      (fun i totals => totals.Counts (100000 * (w - 1) + (i - 1))) ?_ ?_ counts) ?_
    · exact fun _ _ _ _ row _ => Store.put_ne_none row
    · intro i totals t s first (last : i < 1 + 100000) counts
      simp only [Act.wp_bind, wp_putRecord]
      apply wp_stockRow (ok.imp_right Env.Finishes.accepting)
      intro row t quantity counters
      refine ⟨permits.mayPut _ _ rfl (.stock (by omega) quantity counters), ?_⟩
      refine wp_count (ok.imp_right fun finishes => ?_) counts fun totals counts => ⟨?_, ?_⟩
      · have := finishes.counters
        omega
      · rwa [show i + 1 - 1 = i - 1 + 1 by omega]
      · exact Store.put_self_ne_none
    · rintro totals t s' ⟨counts, rows⟩
      refine ⟨?_, rows⟩
      rwa [show 100000 * (w + 1 - 1) = 100000 * (w - 1) + (1 + 100000 - 1) by omega]
  · rintro totals t s' ⟨counts, rows⟩
    have bound := counts.bound
    exact ⟨by omega, fun w i low high first last => rows w low (by omega) i first (by omega)⟩

/-! ### All tables -/

/-- The contract of the load of `W` warehouses. -/
def loadContract (addr : Key → κ) (W : Nat) (mayStick : Prop) : Contract Key (Value F) κ where
  addr
  mayGet _ _ _ := True
  mayPut := LoadRow W
  mayStick

/-- Every row that a load writes has a value at its address. -/
structure RowsLoaded (addr : Key → κ) (W : Nat) (s : Store κ (Value F)) : Prop where
  small : W * 100000 < 2 ^ 31
  warehouse : ∀ w : Nat, 1 ≤ w → w ≤ W → s (addr (warehouseKey w)) ≠ none
  district : ∀ w d : Nat, 1 ≤ w → w ≤ W → 1 ≤ d → d ≤ 10 → s (addr (districtKey w d)) ≠ none
  customer : ∀ w d c : Nat, 1 ≤ w → w ≤ W → 1 ≤ d → d ≤ 10 → 1 ≤ c → c ≤ 3000 →
    s (addr (customerKey w d c)) ≠ none ∧ s (addr (historyKey w d w d c)) ≠ none
  item : ∀ i : Nat, 1 ≤ i → i ≤ 100000 → s (addr (itemKey i)) ≠ none
  stock : ∀ w i : Nat, 1 ≤ w → w ≤ W → 1 ≤ i → i ≤ 100000 → s (addr (stockKey w i)) ≠ none

/-- The load writes all rows, and establishes for every order what the writes of the order
establish and those of the other orders and of the tables loaded after them keep. -/
theorem wp_loadTables (env : Env ρ) (addr : Key → κ) (W : Nat) (mayStick : Prop)
    (ok : mayStick ∨ env.Finishes F W)
    (P : Nat → Nat → Nat → Store κ (Value F) → Prop)
    (establishes : ∀ w d c s s', 1 ≤ w ∧ w ≤ W ∧ 1 ≤ d ∧ d ≤ 10 ∧ 1 ≤ c ∧ c ≤ 3000 →
      OrderPut addr w d c s s' → P w d c s')
    (keeps : W * 30000 < 2 ^ 31 → ∀ w d c w' d' c',
      1 ≤ w ∧ w ≤ W ∧ 1 ≤ d ∧ d ≤ 10 ∧ 1 ≤ c ∧ c ≤ 3000 →
      1 ≤ w' ∧ w' ≤ W ∧ 1 ≤ d' ∧ d' ≤ 10 ∧ 1 ≤ c' ∧ c' ≤ 3000 → (w, d, c) ≠ (w', d', c') →
      ∀ s k v, P w d c s → LoadRow W k v → OrderTables k →
        (k.table = .order → k = orderKey w' d' c') → P w d c (s.put (addr k) v))
    (later : ∀ w d c s k v, P w d c s → LoadRow W k v → k.table = .stock ∨ k.table = .item →
      P w d c (s.put (addr k) v)) :
    Act.wp (loadContract addr W mayStick).logic (loadTables env W) (fun _ _ s' =>
      RowsLoaded addr W s' ∧
      ∀ w d c, 1 ≤ w ∧ w ≤ W ∧ 1 ≤ d ∧ d ≤ 10 ∧ 1 ≤ c ∧ c ≤ 3000 → P w d c s') t s := by
  let C : Contract Key (Value F) κ := loadContract addr W mayStick
  have permits (own : Key → Prop) : Permits C W own :=
    ⟨fun _ _ _ _ => trivial, fun _ _ _ row => row⟩
  have accepting := ok.imp_right Env.Finishes.accepting
  simp only [loadTables, Act.wp_bind]
  apply Act.wp_mono (Act.wp_grows (wp_populateWarehouseTable ok (permits _)))
  rintro _ t s1 ⟨warehouse, _⟩
  apply Act.wp_mono (Act.wp_grows (wp_populateDistrictTable ok (permits _)))
  rintro _ t s2 ⟨district, grown2⟩
  apply Act.wp_mono (Act.wp_grows (wp_populateCustomerAndHistoryTable ok (permits _)))
  rintro _ t s3 ⟨⟨bound, customer⟩, grown3⟩
  have orders := wp_populateOrders (C := C.demand fun k _ => OrderTables k) 2343352
    (t := t) (s := s3) accepting ⟨fun _ _ _ _ => trivial, fun k v own row => ⟨row, own⟩⟩ P
    establishes fun w d c w' d' c' range range' other s k v rows may own =>
      keeps bound w d c w' d' c' range range' other s k v rows may.1 may.2 own
  apply Act.wp_mono (Act.wp_grows (Act.wp_of_demand orders))
  rintro _ t s4 ⟨order, grown4⟩
  let Orders (s : Store κ (Value F)) : Prop := ∀ w d c,
    1 ≤ w ∧ w ≤ W ∧ 1 ≤ d ∧ d ≤ 10 ∧ 1 ≤ c ∧ c ≤ 3000 → P w d c s
  let Later (k : Key) (_ : Value F) : Prop := k.table = .stock ∨ k.table = .item
  have kept {m : Act (Thread ρ) Key (Value F) Unit} {Q : Unit → Thread ρ → Store κ (Value F) → Prop}
      {t : Thread ρ} {s : Store κ (Value F)} (h : Act.wp (C.demand Later).logic m Q t s)
      (orders : Orders s) : Act.wp C.logic m
        (fun a t s' => (Q a t s' ∧ Orders s') ∧ ∀ a, s a ≠ none → s' a ≠ none) t s :=
    Act.wp_grows (Act.wp_of_demand (Act.wp_keeps (R := Orders) (fun s k v rows may w d c range =>
      later w d c s k v (rows w d c range) may.1 may.2) h orders))
  refine Act.wp_mono (kept (wp_populateStockTable ok
    ⟨fun _ _ _ _ => trivial, fun k v own row => ⟨row, .inl own⟩⟩) order) ?_
  rintro _ t s5 ⟨⟨⟨small, stock⟩, order⟩, grown5⟩
  refine Act.wp_mono (kept (wp_populateItemTable ok
    ⟨fun _ _ _ _ => trivial, fun k v own row => ⟨row, .inr own⟩⟩) order) ?_
  rintro _ t s6 ⟨⟨item, order⟩, grown6⟩
  refine Act.wp_mono (kept (wp_populateStockTable ok
    ⟨fun _ _ _ _ => trivial, fun k v own row => ⟨row, .inl own⟩⟩) order) ?_
  rintro _ t s7 ⟨⟨_, order⟩, grown7⟩
  have since4 (a : κ) (h : s4 a ≠ none) : s7 a ≠ none := grown7 a (grown6 a (grown5 a h))
  have since2 (a : κ) (h : s2 a ≠ none) : s7 a ≠ none := since4 a (grown4 a (grown3 a h))
  refine ⟨⟨small, ?_, ?_, ?_, ?_, ?_⟩, order⟩
  · exact fun w low high => since2 _ (grown2 _ (warehouse w low high))
  · exact fun w d low high first last => since2 _ (district w d low high first last)
  · intro w d c low high dLow dHigh first last
    obtain ⟨customer, history⟩ := customer w d c low high dLow dHigh first last
    exact ⟨since4 _ (grown4 _ customer), since4 _ (grown4 _ history)⟩
  · exact fun i first last => grown7 _ (item i first last)
  · exact fun w i low high first last => grown7 _ (grown6 _ (stock w i low high first last))

end Tables

end Tpcc
