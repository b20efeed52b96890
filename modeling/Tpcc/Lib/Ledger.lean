import Mathlib.Algebra.BigOperators.Group.Finset.Basic
import Mathlib.Algebra.BigOperators.Group.List.Basic

/-! Ledgers: accounts, and entries that are made in one account each.  What the entries add to their
accounts, they add to every total over accounts. -/

namespace Ledger

/-- In which account an entry is made, and what it makes of the account. -/
structure Books (ι A E : Type) where
  account : E → ι
  enter : A → E → A

namespace Books

variable {ι A E M : Type} [DecidableEq ι] (B : Books ι A E)

/-- The accounts after an entry. -/
def post (accounts : ι → A) (e : E) : ι → A :=
  Function.update accounts (B.account e) (B.enter (accounts (B.account e)) e)

/-- The accounts after entries, the first one first. -/
def posts (accounts : ι → A) (entries : List E) : ι → A := entries.foldl B.post accounts

variable {B} {accounts : ι → A} {e : E} {entries more : List E} {i : ι}

theorem post_own : B.post accounts e (B.account e) = B.enter (accounts (B.account e)) e :=
  Function.update_self ..

theorem post_other (other : i ≠ B.account e) : B.post accounts e i = accounts i :=
  Function.update_of_ne other ..

@[simp] theorem posts_nil : B.posts accounts [] = accounts := rfl

@[simp] theorem posts_cons :
    B.posts accounts (e :: entries) = B.posts (B.post accounts e) entries :=
  rfl

theorem posts_append :
    B.posts accounts (entries ++ more) = B.posts (B.posts accounts entries) more :=
  List.foldl_append

section Totals

variable [AddCommMonoid M] {measure : A → M} {amount : E → M} {S : Finset ι}

/-- An entry adds its amount to the measure of its account. -/
def Adds (B : Books ι A E) (measure : A → M) (amount : E → M) : Prop :=
  ∀ a e, measure (B.enter a e) = measure a + amount e

theorem sum_post (adds : B.Adds measure amount) (own : B.account e ∈ S) :
    ∑ i ∈ S, measure (B.post accounts e i) = ∑ i ∈ S, measure (accounts i) + amount e := by
  have others : ∑ i ∈ S.erase (B.account e), measure (B.post accounts e i) =
      ∑ i ∈ S.erase (B.account e), measure (accounts i) :=
    Finset.sum_congr rfl fun i mem => by rw [post_other (Finset.ne_of_mem_erase mem)]
  rw [← Finset.add_sum_erase S _ own, ← Finset.add_sum_erase S _ own, others, post_own, adds]
  exact add_right_comm ..

/-- What the entries add, the total gains. -/
theorem sum_posts (adds : B.Adds measure amount) (own : ∀ e ∈ entries, B.account e ∈ S) :
    ∑ i ∈ S, measure (B.posts accounts entries i) =
      ∑ i ∈ S, measure (accounts i) + (entries.map amount).sum := by
  induction entries generalizing accounts with
  | nil => simp
  | cons e entries ih =>
    rw [posts_cons, ih fun e mem => own e (List.mem_cons_of_mem _ mem),
      sum_post adds (own e List.mem_cons_self), List.map_cons, List.sum_cons, add_assoc]

end Totals

end Books

end Ledger
