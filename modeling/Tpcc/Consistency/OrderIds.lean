import Tpcc.LoadedTables
import Tpcc.NewOrderRows
import Tpcc.StockQuantity

/-! The numbers of the orders: in each district, those of the orders inserted so far are all that
are below the next one.  A district may place as many orders as its counter has numbers. -/

namespace Tpcc

open KvProgram Layout

variable {F : Type} [FloatRep F] [DecidableEq F] [Amount F] {W : Nat}
  {s s' : Store Key (Value F)} {run : List (Outcome F)} {w d o : Int}

/-- A `NewOrder` at the district `(w, d)`. -/
def Outcome.isOrderAt (w d : Int) : Outcome F → Bool
  | .newOrder res => decide (res.At w d)
  | _ => false

/-- The number of `NewOrder` transactions at the district `(w, d)`. -/
def numOrders (w d : Int) (run : List (Outcome F)) : Nat := run.countP (·.isOrderAt w d)

omit [FloatRep F] [DecidableEq F] [Amount F] in
@[simp] theorem numOrders_nil : numOrders w d ([] : List (Outcome F)) = 0 := rfl

omit [FloatRep F] [DecidableEq F] [Amount F] in
theorem numOrders_newOrder {res : NewOrderResult} :
    numOrders w d (.newOrder res :: run) = numOrders w d run + if res.At w d then 1 else 0 := by
  simp [numOrders, List.countP_cons, Outcome.isOrderAt]

omit [FloatRep F] [DecidableEq F] [Amount F] in
theorem numOrders_cons {outcome : Outcome F} (other : outcome.isOrderAt w d = false) :
    numOrders w d (outcome :: run) = numOrders w d run := by
  simp [numOrders, other]

/-- The numbers of the orders after a run. -/
structure OrderIds (W : Nat) (run : List (Outcome F)) (s : Store Key (Value F)) : Prop where
  small : W ≤ 21474
  next : ∀ w d, IsDistrict W w d → ∃ row : DistrictVal F,
    s (districtKey w d) = some (districtVal.encode row) ∧
      row.dNextOId.toInt = 3001 + numOrders w d run
  order : ∀ w d o, IsDistrict W w d → IsInt32 o →
    (s (orderKey w d o) ≠ none ↔ 1 ≤ o ∧ o ≤ 3000 + numOrders w d run)
  newOrder : ∀ w d o, IsDistrict W w d → IsInt32 o →
    (s (newOrderKey w d o) ≠ none ↔ 2101 ≤ o ∧ o ≤ 3000 + numOrders w d run)

theorem TablesLoaded.orderIds (h : TablesLoaded W s) : OrderIds W [] s := by
  constructor
  · exact h.small
  · intro w d hd
    obtain ⟨row, hrow, _, next, _⟩ := h.district hd
    exact ⟨row, hrow, by rw [next]; rfl⟩
  · intro w d o hd ho
    constructor
    · exact fun row => h.order_range hd ho row
    · intro range
      obtain ⟨row, hrow, _⟩ := h.order hd range
      simp [hrow]
  · intro w d o hd ho
    rw [h.newOrder_iff hd ho, numOrders_nil]
    omega

omit [Amount F] in
/-- The number that the next order of a district gets. -/
theorem OrderIds.number {res : NewOrderResult} (h : OrderIds W run s)
    (effect : res.Effect id W s s') :
    res.myNextOId.toInt = 3001 + numOrders res.warehouseId res.districtId run := by
  obtain ⟨row, hrow, count⟩ := h.next _ _ effect.isDistrict
  rcases effect.district_after h.small effect.isDistrict hrow with ⟨_, same, _⟩ | ⟨other, _⟩
  · rw [same, count]
  · exact absurd ⟨rfl, rfl⟩ other

omit [Amount F] in
theorem OrderIds.newOrder_step {res : NewOrderResult} (h : OrderIds W run s)
    (effect : res.Effect id W s s') : OrderIds W (.newOrder res :: run) s' := by
  have small := h.small
  have number := h.number effect
  have positive : 0 ≤ res.myNextOId.toInt := by omega
  constructor
  · exact small
  · intro w d hd
    obtain ⟨row, hrow, count⟩ := h.next w d hd
    rw [numOrders_newOrder]
    rcases effect.district_after small hd hrow with ⟨here, _, next, more, after⟩ | ⟨other, after⟩
    · refine ⟨_, after, ?_⟩
      rw [if_pos here, addInt32_toInt more, count]
      omega
    · exact ⟨row, after, by rw [if_neg other, count]; rfl⟩
  · intro w d o hd ho
    rw [effect.order_iff small hd ho positive, h.order w d o hd ho, numOrders_newOrder]
    by_cases here : res.At w d
    · obtain ⟨rfl, rfl⟩ := here
      simp [NewOrderResult.At]
      omega
    · simp [here]
  · intro w d o hd ho
    rw [effect.newOrder_iff small hd ho positive, h.newOrder w d o hd ho, numOrders_newOrder]
    by_cases here : res.At w d
    · obtain ⟨rfl, rfl⟩ := here
      simp [NewOrderResult.At]
      omega
    · simp [here]

omit [Amount F] in
/-- A step that is no `NewOrder`, and keeps the next number of each district and the orders. -/
theorem OrderIds.keep {outcome : Outcome F} (h : OrderIds W run s)
    (other : ∀ w d, outcome.isOrderAt w d = false)
    (next : ∀ w d, IsDistrict W w d → ∀ row : DistrictVal F,
      s (districtKey w d) = some (districtVal.encode row) → ∃ row' : DistrictVal F,
        s' (districtKey w d) = some (districtVal.encode row') ∧ row'.dNextOId = row.dNextOId)
    (order : ∀ w d o, s' (orderKey w d o) ≠ none ↔ s (orderKey w d o) ≠ none)
    (newOrder : SameOn .newOrder s s') : OrderIds W (outcome :: run) s' := by
  constructor
  · exact h.small
  · intro w d hd
    obtain ⟨row, hrow, count⟩ := h.next w d hd
    obtain ⟨row', hrow', same⟩ := next w d hd row hrow
    exact ⟨row', hrow', by rw [same, count, numOrders_cons (other w d)]⟩
  · intro w d o hd ho
    rw [order, h.order w d o hd ho, numOrders_cons (other w d)]
  · intro w d o hd ho
    rw [newOrder _ (by simp), h.newOrder w d o hd ho, numOrders_cons (other w d)]

theorem OrderIds.step {outcome : Outcome F} (h : OrderIds W run s)
    (step : Step id W s outcome s') : OrderIds W (outcome :: run) s' := by
  cases outcome with
  | newOrder res => exact h.newOrder_step step.newOrder
  | payment res =>
    have order : SameOn .order s s' := step.payment.sameOn (by decide)
    refine h.keep (fun _ _ => rfl) ?_ (fun w d o => by rw [order _ (by simp)])
      (step.payment.sameOn (by decide))
    intro w d hd row hrow
    rcases step.payment.district_after h.small hd hrow with ⟨_, after⟩ | ⟨_, after⟩
    · exact ⟨_, after, rfl⟩
    · exact ⟨row, after, rfl⟩
  | delivery res =>
    have district : SameOn .district s s' := step.delivery.sameOn (by decide)
    refine h.keep (fun _ _ => rfl) (fun w d _ row hrow => ⟨row, ?_, rfl⟩) (fun w d o => ?_)
      (step.delivery.sameOn (by decide))
    · rw [district _ (by simp), hrow]
    · apply step.delivery.order_iff _ (by simp)
      intro w d o hd ho
      rw [h.order w d o hd ⟨by omega, by omega⟩]
      omega
  | _ =>
    have district : SameOn .district s s' := step.sameOn (by simp [Outcome.tables])
    have order : SameOn .order s s' := step.sameOn (by simp [Outcome.tables])
    exact h.keep (fun _ _ => rfl)
      (fun w d _ row hrow => ⟨row, (district _ (by simp)).trans hrow, rfl⟩)
      (fun w d o => by rw [order _ (by simp)]) (step.sameOn (by simp [Outcome.tables]))

theorem Run.orderIds (reached : Reached id W run s) : OrderIds W run s :=
  Run.invariant (fun _ loaded => loaded.tables.orderIds) (fun _ _ _ _ h step => h.step step) reached

/-! ### A run of many orders -/

section Draws

variable {ρ K V : Type} (env : Env ρ)

/-- The draws of an order before it reads and writes: the warehouse, the district, the customer,
the number of items, and the stocks. -/
def orderDraws (W : Nat) : Act (Thread ρ) K V (Int × Int × Int × Int × Selection) := do
  let warehouseId ← pickWarehouseId env 1 W
  let districtId ← randomNumber env 1 numDistrictPerWarehouse
  let customerId ← getCustomerId env numCustomerPerDistrict
  let numItems ← randomNumber env 5 15
  let selection ← selectItems env W warehouseId numItems
  return (warehouseId, districtId, customerId, numItems, selection)

section Place

/-- The rest of an order. -/
def placeOrder (env : Env ρ) (wId dId cId numItems : Int) (x : Selection) :
    Act (Thread ρ) Key (Value F) NewOrderResult := do
  let oId ← insertOrder env wId dId cId numItems x.allLocal
  let lines ← .forEach (localLine env wId dId oId) 1 x.locals []
  let lines ← .forEach (remoteLine env wId dId oId x.locals.length) 1 x.remotes lines
  return ⟨wId, dId, cId, numItems, x, oId, lines⟩

variable {env} {t t' : Thread ρ} {S : Type} {L : Logic Key (Value F) S} {s : S}

theorem wp_newOrder_of_draws {w d c n : Int} {x : Selection}
    {Q : NewOrderResult → Thread ρ → S → Prop}
    (draws : (orderDraws env W t : Prog Key (Value F) _).result = some ((w, d, c, n, x), t'))
    (h : Act.wp L (placeOrder env w d c n x) Q t' s) : Act.wp L (newOrder env W) Q t s := by
  let rest (x : Int × Int × Int × Int × Selection) : Thread ρ → S → Prop :=
    Act.wp L (placeOrder env x.1 x.2.1 x.2.2.1 x.2.2.2.1 x.2.2.2.2) Q
  have after : rest (w, d, c, n, x) t' s := h
  have whole : Act.wp L (orderDraws env W) rest t s := Act.wp_of_result draws after
  simp only [orderDraws, placeOrder, rest, Act.wp_bind, Act.wp_pure] at whole
  simp only [newOrder, Act.wp_bind, Act.wp_pure]
  exact whole

end Place

end Draws

/-- The sample generator draws an order at the district (1, 8), all of whose stocks are local. -/
theorem sample_draws : ∃ c n x t',
    (orderDraws sampleEnv 2 sampleThread : Prog Key (Value ℚ) _).result =
      some ((1, 8, c, n, x), t') ∧
    x.remotes = [] ∧ ∀ stock ∈ x.locals, stock.supply = 1 := by
  have drawn : ((orderDraws sampleEnv 2 sampleThread : Prog Key (Value ℚ) _).result.any fun x =>
      x.1.1 = 1 ∧ x.1.2.1 = 8 ∧ x.1.2.2.2.2.remotes = [] ∧
        ∀ stock ∈ x.1.2.2.2.2.locals, stock.supply = 1) = true := by
    decide +kernel
  obtain ⟨⟨⟨w, d, c, n, x⟩, t'⟩, result, holds⟩ := (Option.any_eq_true ..).mp drawn
  obtain ⟨rfl, rfl, remotes, supplies⟩ := of_decide_eq_true holds
  exact ⟨c, n, x, t', result, remotes, supplies⟩

section Total

variable {ρ : Type} {env : Env ρ} {t : Thread ρ} {s : Store Key (Value ℚ)}
  {wId dId : Int} {oId : Int32}

/-- The line of a stock of the own warehouse is placed, whatever the rows that it reads. -/
theorem wp_localLine_total {i : Nat} {stock : ChosenStock} {lines : List (ChosenStock × UInt32)}
    (own : stock.supply = wId) : Act.wp (Contract.totally (Value ℚ) id).logic
      (localLine env wId dId oId i stock lines) (fun _ _ _ => True) t s := by
  simp only [localLine, newOrderLine, Act.wp_bind, Act.wp_pure, wp_putRecord]
  refine wp_randomNumber (.inr (by decide)) fun q t low high => ?_
  refine wp_uninit fun item t => wp_getRecord ⟨trivial, fun _ item t _ => ?_⟩
  refine wp_uninit fun val t => wp_getRecord ⟨trivial, fun _ val t _ => ?_⟩
  refine Act.wp_ofOption (fun row _ => ⟨trivial, ?_⟩) (.inr ?_)
  · exact wp_uninit fun line t => ⟨trivial, trivial⟩
  · have quantity : 1 ≤ (UInt32.ofInt q).toNat ∧ (UInt32.ofInt q).toNat ≤ 10 := by
      interval_cases q <;> decide
    obtain ⟨row, updated⟩ :
        ∃ row, updateStock val (UInt32.ofInt q) (stock.supply ≠ wId) = some row :=
      (updateStock_isSome quantity.1 quantity.2).mpr (by simp [own])
    rw [updated]
    rfl

/-- An order of local stocks is placed when the district counts on. -/
theorem wp_placeOrder_total {c n : Int} {x : Selection} {dist : DistrictVal ℚ}
    (row : s (districtKey wId dId) = some (districtVal.encode dist))
    (more : dist.dNextOId.toInt + 1 < 2 ^ 31) (remotes : x.remotes = [])
    (own : ∀ stock ∈ x.locals, stock.supply = wId) :
    Act.wp (Contract.totally (Value ℚ) id).logic (placeOrder env wId dId c n x)
      (fun res _ _ => res.At wId dId) t s := by
  simp only [placeOrder, insertOrder, Act.wp_bind, Act.wp_pure, wp_putRecord, remotes]
  refine wp_uninit fun ware t => wp_getRecord ⟨trivial, fun _ ware t _ => ?_⟩
  refine wp_uninit fun cust t => wp_getRecord ⟨trivial, fun _ cust t _ => ?_⟩
  refine wp_uninit fun old t => wp_getRecord_row row trivial fun t => ?_
  refine Act.wp_ofOption (fun next _ => ⟨trivial, ?_⟩) (.inr ?_)
  · refine wp_uninit fun norder t => ⟨trivial, ?_⟩
    refine wp_getCurrentTimeMillis fun entry t => ⟨trivial, trivial, ?_⟩
    refine Act.wp_mono (Act.wp_forEach (fun _ _ _ _ => True) ?_ trivial) fun _ _ _ _ => ⟨rfl, rfl⟩
    rintro seen stock lines t s' ⟨rest, split⟩ -
    exact wp_localLine_total (own stock (by simp [← split]))
  · have low := dist.dNextOId.le_toInt
    obtain ⟨next, hnext⟩ := addInt32_isSome.mpr (⟨by omega, more⟩ :
      -2 ^ 31 ≤ dist.dNextOId.toInt + 1 ∧ dist.dNextOId.toInt + 1 < 2 ^ 31)
    rw [hnext]
    rfl

end Total

-- What is drawn is kept folded: only `sample_draws` runs the generator.
attribute [local irreducible] orderDraws placeOrder newOrder in
theorem sample_order_returns {s : Store Key (Value ℚ)} {dist : DistrictVal ℚ}
    (row : s (districtKey 1 8) = some (districtVal.encode dist))
    (more : dist.dNextOId.toInt + 1 < 2 ^ 31) :
    ∃ res t' s', Act.Returns id (newOrder sampleEnv 2) sampleThread s res t' s' ∧ res.At 1 8 := by
  obtain ⟨c, n, x, t', result, remotes, supplies⟩ := sample_draws
  have wp : Act.wp (Contract.totally (Value ℚ) id).logic (newOrder sampleEnv 2)
      (fun res _ _ => res.At 1 8) sampleThread s :=
    wp_newOrder_of_draws result (wp_placeOrder_total row more remotes supplies)
  exact Act.returns_of_wp wp id

/-- A district may place as many orders as its counter has numbers. -/
theorem exists_orders (n : Nat) (room : 3001 + n < 2 ^ 31) :
    ∃ (run : List (Outcome ℚ)) (s : Store Key (Value ℚ)),
      Reached id 2 run s ∧ run.length = n ∧ numOrders 1 8 run = n := by
  induction n with
  | zero =>
    obtain ⟨s, loaded⟩ := exists_loaded id (W := 2) (by norm_num)
    exact ⟨[], s, .start loaded, rfl, rfl⟩
  | succ n ih =>
    obtain ⟨run, s, reached, length, count⟩ := ih (by omega)
    obtain ⟨dist, row, next⟩ := (Run.orderIds reached).next 1 8 ⟨by decide, by decide⟩
    obtain ⟨res, t', s', returns, here⟩ := sample_order_returns row (by omega)
    have step : Step id 2 s (.newOrder res) s' :=
      ⟨FastRandom, sampleEnv, .newOrder, sampleThread, t', Act.returns_bind.mpr
        ⟨res, t', s', returns, Act.returns_pure.mpr ⟨rfl, rfl, rfl⟩⟩⟩
    refine ⟨.newOrder res :: run, s', .next reached step, congrArg (· + 1) length, ?_⟩
    rw [numOrders_newOrder, if_pos here, count]

/-- In every district, the next order has the number 3001 plus the number of orders placed there,
the orders are those from 1 up to it, and the new-order rows those from 2101. -/
theorem order_numbers (reached : Reached id W run s) (hd : IsDistrict W w d) :
    ∃ row : DistrictVal F, s (districtKey w d) = some (districtVal.encode row) ∧
      row.dNextOId.toInt = 3001 + numOrders w d run ∧
      (∀ o, IsInt32 o → (s (orderKey w d o) ≠ none ↔ 1 ≤ o ∧ o ≤ row.dNextOId.toInt - 1)) ∧
      (∀ o, IsInt32 o → (s (newOrderKey w d o) ≠ none ↔ 2101 ≤ o ∧ o ≤ row.dNextOId.toInt - 1)) ∧
      IsGreatest { o | IsInt32 o ∧ s (orderKey w d o) ≠ none } (row.dNextOId.toInt - 1) ∧
      IsGreatest { o | IsInt32 o ∧ s (newOrderKey w d o) ≠ none } (row.dNextOId.toInt - 1) := by
  have ids := Run.orderIds reached
  obtain ⟨row, hrow, count⟩ := ids.next w d hd
  have last : 3000 + (numOrders w d run : Int) = row.dNextOId.toInt - 1 := by omega
  have order := fun o ho => ids.order w d o hd ho
  have newOrder := fun o ho => ids.newOrder w d o hd ho
  rw [last] at order newOrder
  have bound := isInt32_toInt row.dNextOId
  have int32 : IsInt32 (row.dNextOId.toInt - 1) := ⟨by omega, by have := bound.2; omega⟩
  refine ⟨row, hrow, count, order, newOrder, ⟨⟨int32, ?_⟩, ?_⟩, ⟨int32, ?_⟩, ?_⟩
  · exact (order _ int32).mpr (by omega)
  · rintro o ⟨ho, present⟩
    exact ((order o ho).mp present).2
  · exact (newOrder _ int32).mpr (by omega)
  · rintro o ⟨ho, present⟩
    exact ((newOrder o ho).mp present).2

theorem order_numbers_orders : ∃ (run : List (Outcome ℚ)) (s : Store Key (Value ℚ))
    (row : DistrictVal ℚ), Reached id 2 run s ∧ numOrders 1 8 run = 3 ∧
      s (districtKey 1 8) = some (districtVal.encode row) ∧ row.dNextOId.toInt = 3004 := by
  obtain ⟨run, s, reached, _, count⟩ := exists_orders 3 (by norm_num)
  obtain ⟨row, hrow, number, _⟩ :=
    order_numbers (w := 1) (d := 8) reached ⟨by decide, by decide⟩
  exact ⟨run, s, row, reached, count, hrow, by rw [number, count]; norm_num⟩

end Tpcc
