import Tpcc.Client

/-! The row of a district as one client sees it.  `rowLogic` follows a transaction from the phases
of the client: it may have read the row, whatever number of the next order was there, and it writes
the row back with the number that it has read, or as a `NewOrder` with the one after it.  The rest
of the store is arbitrary at every read. -/

namespace Tpcc

open KvProgram Layout

/-- What a client has done with the row of a district in its transaction. -/
inductive RowPhase where
  | outside
  | read (nextOId : Int)
  | ordered (oId : Int)
  deriving DecidableEq

/-- The order that has been entered in the row. -/
def RowPhase.order : RowPhase → Option Int
  | .ordered oId => some oId
  | _ => none

/-- The order that a transaction has placed at the row of the district `(w, d)`. -/
def Outcome.orderAt {F : Type} (w d : Int) : Outcome F → Option Int
  | .newOrder res =>
    if districtKey res.warehouseId res.districtId = districtKey w d then some res.myNextOId.toInt
    else none
  | _ => none

/-- How far a transaction moves the number of the next order. -/
def TxType.orders : TxType → Int
  | .newOrder => 1
  | _ => 0

/-- The phase after the row is written back. -/
def TxType.written (type : TxType) (nextOId : Int) : RowPhase :=
  if type = .newOrder then .ordered nextOId else .outside

section

variable {F : Type} [FloatRep F] [DecidableEq F]

/-- The logic of the row of the district `(w, d)`. -/
def rowLogic (F : Type) [FloatRep F] [DecidableEq F] (w d : Int) (type : TxType) :
    Logic Key (Value F) RowPhase where
  onGet k _ P φ :=
    if k = districtKey w d then φ.order = none ∧
      ∀ dist : DistrictVal F, P (some (districtVal.encode dist)) (.read dist.dNextOId.toInt)
    else ∀ v, P v φ
  onPut k v P φ :=
    if k = districtKey w d then ∃ (n : Int) (dist : DistrictVal F), φ = .read n ∧
      v = districtVal.encode dist ∧ dist.dNextOId.toInt = n + type.orders ∧ P (type.written n)
    else P φ
  mayStick := True
  onGet_mono h hPR := by
    split at h
    · rw [if_pos ‹_›]
      exact ⟨h.1, fun dist => hPR _ _ (h.2 dist)⟩
    · rw [if_neg ‹_›]
      exact fun v => hPR _ _ (h v)
  onPut_mono h hPR := by
    split at h
    · rw [if_pos ‹_›]
      obtain ⟨n, dist, read, row, next, hP⟩ := h
      exact ⟨n, dist, read, row, next, hPR _ hP⟩
    · rw [if_neg ‹_›]
      exact hPR _ h

variable {w d : Int} {type : TxType} {k : Key} {n : Nat} {φ : RowPhase} {v : Value F}

theorem onGet_row {P : Option (Value F) → RowPhase → Prop} (none : φ.order = none)
    (h : ∀ dist : DistrictVal F,
      P (some (districtVal.encode dist)) (.read dist.dNextOId.toInt)) :
    (rowLogic F w d type).onGet (districtKey w d) n P φ := by
  simp only [rowLogic, if_true]
  exact ⟨none, h⟩

theorem onGet_other {P : Option (Value F) → RowPhase → Prop} (other : k ≠ districtKey w d)
    (h : ∀ v, P v φ) : (rowLogic F w d type).onGet k n P φ := by
  simpa only [rowLogic, if_neg other] using h

theorem onPut_row {P : RowPhase → Prop} {n : Int} {dist : DistrictVal F}
    (next : dist.dNextOId.toInt = n + type.orders) (h : P (type.written n)) :
    (rowLogic F w d type).onPut (districtKey w d) (districtVal.encode dist) P (.read n) := by
  simp only [rowLogic, if_true]
  exact ⟨n, dist, rfl, rfl, next, h⟩

theorem onPut_other {P : RowPhase → Prop} (other : k ≠ districtKey w d) (h : P φ) :
    (rowLogic F w d type).onPut k v P φ := by
  simpa only [rowLogic, if_neg other] using h

end

section Rules

variable {ρ F α : Type} [FloatRep F] [DecidableEq F] {env : Env ρ} {t : Thread ρ} {W : Nat}
  {w d : Int} {type : TxType} {φ : RowPhase} {layout : Codec (Cell F) α} {key : Key}

theorem wp_getRecord_other {old : α} {Q : Int × α → Thread ρ → RowPhase → Prop}
    (other : key.table ≠ .district) (h : ∀ x t, Q x t φ) :
    Act.wp (rowLogic F w d type) (getRecord env layout key old) Q t φ :=
  wp_getRecord (onGet_other (Key.ne_of_table other) fun _ _ _ t _ => h _ t)

theorem wp_putRecord_other {v : α} {Q : Int → Thread ρ → RowPhase → Prop}
    (other : key.table ≠ .district) (h : Q 1 t φ) :
    Act.wp (rowLogic F w d type) (putRecord layout key v) Q t φ := by
  rw [wp_putRecord]
  exact onPut_other (Key.ne_of_table other) h

/-- A district row, which is that of `(w, d)` or not, is read. -/
theorem wp_getRecord_district {w' d' : Int} {old : DistrictVal F}
    {Q : Int × DistrictVal F → Thread ρ → RowPhase → Prop}
    (h : ∀ status (dist : DistrictVal F) t, Q (status, dist) t
      (if districtKey w' d' = districtKey w d then .read dist.dNextOId.toInt else .outside)) :
    Act.wp (rowLogic F w d type) (getRecord env districtVal (districtKey w' d') old) Q t
      .outside := by
  by_cases same : districtKey w' d' = districtKey w d
  · rw [same]
    simp only [same, if_true] at h
    refine wp_getRecord (onGet_row rfl fun dist status v t reads => ?_)
    rw [reads_encode] at reads
    obtain ⟨rfl, rfl⟩ := reads
    exact h 1 v t
  · simp only [same, if_false] at h
    exact wp_getRecord (onGet_other same fun _ status v t _ => h status v t)

/-- A district row that has been read is written back. -/
theorem wp_putRecord_district {w' d' : Int} {m : Int} {dist : DistrictVal F}
    {Q : Int → Thread ρ → RowPhase → Prop} (next : dist.dNextOId.toInt = m + type.orders)
    (h : Q 1 t (if districtKey w' d' = districtKey w d then type.written m else .outside)) :
    Act.wp (rowLogic F w d type) (putRecord districtVal (districtKey w' d') dist) Q t
      (if districtKey w' d' = districtKey w d then .read m else .outside) := by
  rw [wp_putRecord]
  by_cases same : districtKey w' d' = districtKey w d
  · rw [same] at h ⊢
    simp only [if_true] at h ⊢
    exact onPut_row next h
  · simp only [same, if_false] at h ⊢
    exact onPut_other same h

end Rules

/-! ### The transactions -/

section Transactions

variable {ρ F : Type} [FloatRep F] [DecidableEq F] [Amount F] {env : Env ρ} {t : Thread ρ}
  {W : Nat} {w d : Int} {φ : RowPhase}

/-- The phase in which a `NewOrder` at `(w', d')` has entered its order. -/
def orderedAt (w d w' d' oId : Int) : RowPhase :=
  if districtKey w' d' = districtKey w d then .ordered oId else .outside

omit [Amount F] in
theorem wp_insertOrder_row {wId dId cId numItems : Int} {allLocal : Int32}
    {Q : Int32 → Thread ρ → RowPhase → Prop}
    (h : ∀ (oId : Int32) t, Q oId t (orderedAt w d wId dId oId.toInt)) :
    Act.wp (rowLogic F w d .newOrder) (insertOrder env wId dId cId numItems allLocal) Q t
      .outside := by
  simp only [insertOrder, Act.wp_bind, Act.wp_pure]
  refine wp_uninit fun ware t => wp_getRecord_other (by simp) fun _ t => ?_
  refine wp_uninit fun cust t => wp_getRecord_other (by simp) fun _ t => ?_
  refine wp_uninit fun old t => wp_getRecord_district fun status dist t => ?_
  refine Act.wp_ofOption (fun next more => ?_) (.inl trivial)
  apply wp_putRecord_district (addInt32_toInt more)
  refine wp_uninit fun norder t => wp_putRecord_other (by simp) ?_
  refine wp_getCurrentTimeMillis fun oEntryD t => wp_putRecord_other (by simp) ?_
  exact wp_putRecord_other (by simp) (h dist.dNextOId t)

theorem wp_newOrderLine_row {wId : Int} {stock : ChosenStock}
    {Q : OrderLineVal F × UInt32 → Thread ρ → RowPhase → Prop} (h : ∀ x t, Q x t φ) :
    Act.wp (rowLogic F w d .newOrder) (newOrderLine env wId stock) Q t φ := by
  have table : stock.key.table ≠ .district := by simp [ChosenStock.key]
  simp only [newOrderLine, Act.wp_bind, Act.wp_pure]
  refine wp_randomNumber (.inl trivial) fun q t _ _ => ?_
  refine wp_uninit fun item t => wp_getRecord_other (by simp) fun _ t => ?_
  refine wp_uninit fun val t => wp_getRecord_other table fun _ t => ?_
  refine Act.wp_ofOption (fun row _ => wp_putRecord_other table ?_) (.inl trivial)
  exact wp_uninit fun line t => h _ t

theorem wp_newOrder_row : Act.wp (rowLogic F w d .newOrder) (newOrder env W)
    (fun res _ φ => φ.order = Outcome.orderAt w d (F := F) (.newOrder res)) t .outside := by
  refine wp_newOrder_draws trivial fun w' d' c n x t _ _ _ _ _ _ => ?_
  refine wp_insertOrder_row fun oId t => ?_
  let phase := orderedAt w d w' d' oId.toInt
  refine Act.wp_mono (Act.wp_forEach (fun _ _ _ φ => φ = phase) ?_ rfl) ?_
  · rintro seen stock lines t φ - rfl
    simp only [localLine, Act.wp_bind, Act.wp_pure]
    exact wp_newOrderLine_row fun x t => wp_putRecord_other (by simp) rfl
  rintro lines t φ rfl
  refine Act.wp_mono (Act.wp_forEach (fun _ _ _ φ => φ = phase) ?_ rfl) ?_
  · rintro seen stock lines t φ - rfl
    simp only [remoteLine, Act.wp_bind, Act.wp_pure]
    exact wp_newOrderLine_row fun x t => wp_putRecord_other (by simp) rfl
  rintro lines t φ rfl
  simp only [phase, orderedAt, Outcome.orderAt]
  split <;> rfl

theorem wp_payment_row : Act.wp (rowLogic F w d .payment) (payment env W)
    (fun _ _ φ => φ.order = none) t .outside := by
  refine wp_payment_draws trivial fun w' d' cw cd n c t _ _ _ _ _ _ => ?_
  simp only [payWarehouse, payDistrict, Act.wp_bind, Act.wp_pure]
  refine wp_uninit fun ware t => wp_getRecord_other (by simp) fun _ t => ?_
  apply wp_putRecord_other (by simp)
  refine wp_uninit fun old t => wp_getRecord_district fun status dist t => ?_
  apply wp_putRecord_district (add_zero dist.dNextOId.toInt).symm
  have phase : (if districtKey w' d' = districtKey w d then
      TxType.payment.written dist.dNextOId.toInt else .outside) = RowPhase.outside := by
    split <;> rfl
  rw [phase]
  simp only [payCustomer, payHistory, strcpy, strcat, cString, Act.wp_bind, Act.wp_pure]
  refine wp_uninit fun cust t => wp_getRecord_other (by simp) fun cust t => ?_
  refine Act.wp_ofOption (fun count _ => wp_paymentData trivial fun data => ?_) (.inl trivial)
  apply wp_putRecord_other (by simp)
  refine wp_uninit fun hist t => wp_getCurrentTimeMillis fun hDate t => ?_
  refine Act.wp_assert (fun _ => Act.wp_ofOption (fun _ _ => ?_) (.inl trivial)) (.inl trivial)
  refine Act.wp_ofOption (fun _ _ => Act.wp_assert (fun _ => ?_) (.inl trivial)) (.inl trivial)
  exact Act.wp_ofOption (fun _ _ => wp_putRecord_other (by simp) rfl) (.inl trivial)

theorem wp_delivery_row : Act.wp (rowLogic F w d .delivery) (delivery env W)
    (fun _ _ φ => φ.order = none) t .outside := by
  simp only [delivery, Act.wp_bind, Act.wp_pure]
  refine wp_pickWarehouseId (.inl trivial) fun w' t _ _ => ?_
  refine wp_randomNumber (.inl trivial) fun carrier t _ _ => ?_
  refine wp_getCurrentTimeMillis fun currentTs t => ?_
  refine Act.wp_mono (Act.wp_forRange (fun _ _ _ φ => φ = .outside) ?_ rfl) ?_
  · rintro d' orders t φ - - rfl
    simp only [deliverDistrict, deliverOrder, deliverCustomer, Act.wp_bind, Act.wp_pure]
    refine wp_randomNumber (.inl trivial) fun o t _ _ => ?_
    refine wp_uninit fun norder t => wp_getRecord_other (by simp) fun _ t => ?_
    refine wp_uninit fun order t => wp_getRecord_other (by simp) fun _ t => ?_
    apply wp_putRecord_other (by simp)
    refine Act.wp_mono (Act.wp_forRange (fun _ _ _ φ => φ = .outside) ?_ rfl) ?_
    · rintro l sum t φ - - rfl
      simp only [deliverLine, Act.wp_bind, Act.wp_pure]
      refine wp_uninit fun line t => wp_getRecord_other (by simp) fun _ t => ?_
      exact wp_putRecord_other (by simp) rfl
    · rintro sum t φ rfl
      refine wp_uninit fun cust t => wp_getRecord_other (by simp) fun _ t => ?_
      exact Act.wp_ofOption (fun count _ => wp_putRecord_other (by simp) rfl) (.inl trivial)
  · rintro orders t φ rfl
    rfl

omit [Amount F] in
theorem wp_orderStatus_row : Act.wp (rowLogic F w d .orderStatus) (orderStatus env W)
    (fun _ _ φ => φ.order = none) t .outside := by
  simp only [orderStatus, Act.wp_bind, Act.wp_pure]
  refine wp_randomNumber (.inl trivial) fun y t _ _ => ?_
  refine wp_pickWarehouseId (.inl trivial) fun w' t _ _ => ?_
  refine wp_randomNumber (.inl trivial) fun d' t _ _ => wp_statusCustomer fun c t _ _ => ?_
  refine wp_uninit fun cust t => wp_getRecord_other (by simp) fun _ t => ?_
  refine wp_randomNumber (.inl trivial) fun o t _ _ => ?_
  refine wp_uninit fun order t => wp_getRecord_other (by simp) fun _ t => ?_
  refine Act.wp_forRange (fun _ _ _ (φ : RowPhase) => φ.order = none) ?_ rfl
  rintro i lines t φ - - hφ
  simp only [statusLine, Act.wp_bind, Act.wp_pure]
  exact wp_uninit fun line t => wp_getRecord_other (by simp) fun _ t => hφ

omit [Amount F] in
theorem wp_stockLevel_row : Act.wp (rowLogic F w d .stockLevel) (stockLevel env W)
    (fun _ _ φ => φ.order = none) t .outside := by
  simp only [stockLevel, stockLevelOf, Act.wp_bind, Act.wp_pure]
  refine wp_randomNumber (.inl trivial) fun threshold t _ _ => ?_
  refine wp_pickWarehouseId (.inl trivial) fun w' t _ _ => ?_
  refine wp_randomNumber (.inl trivial) fun d' t _ _ => ?_
  refine wp_uninit fun old t => wp_getRecord_district fun status dist t => ?_
  refine Act.wp_ofOption (fun first _ => ?_) (.inl trivial)
  refine Act.wp_forRange (fun _ _ _ (φ : RowPhase) => φ.order = none) ?_ (by split <;> rfl)
  rintro i ids t φ - - hφ
  refine Act.wp_loop (fun _ _ _ (φ : RowPhase) => φ.order = none) (.inl trivial) ?_ hφ
  rintro _ x t φ hφ
  unfold levelLine
  split
  · simp only [Act.wp_bind]
    refine wp_uninit fun line t => wp_getRecord_other (by simp) fun _ t => ?_
    split
    · exact hφ
    · simp only [Act.wp_bind]
      refine wp_uninit fun stock t => wp_getRecord_other (by simp) fun _ t => ?_
      split <;> exact hφ
  · exact hφ

/-- Every transaction follows the logic of the row, and has placed an order there when it ends in a
phase that says so. -/
theorem wp_transaction_row (type : TxType) : Act.wp (rowLogic F w d type) (transaction env W type)
    (fun outcome _ φ => φ.order = outcome.orderAt w d) t .outside := by
  cases type <;> simp only [transaction, Act.wp_bind, Act.wp_pure]
  case newOrder => exact wp_newOrder_row
  case payment => exact wp_payment_row
  case delivery => exact wp_delivery_row
  case orderStatus => exact wp_orderStatus_row
  case stockLevel => exact wp_stockLevel_row

end Transactions

end Tpcc
