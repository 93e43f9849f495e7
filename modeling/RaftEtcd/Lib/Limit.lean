import Mathlib.Data.List.Basic
import Mathlib.Algebra.BigOperators.Group.List.Basic
import Mathlib.Order.Lattice
import Mathlib.Algebra.Order.Ring.Nat

/-! The longest initial part of a list whose weight keeps to a limit. The first element is taken in any case. -/
namespace Limit
variable {α : Type} {weight : α → Nat} {max : Nat} {xs ys zs : List α}

def total (weight : α → Nat) (xs : List α) : Nat := (xs.map weight).sum

theorem total_cons (x : α) : total weight (x :: xs) = weight x + total weight xs := by
  rw [total, List.map_cons, List.sum_cons, total]

structure Longest (weight : α → Nat) (max : Nat) (xs ys : List α) : Prop where
  initial : ys <+: xs
  nonempty : xs ≠ [] → ys ≠ []
  fits : total weight ys ≤ max ∨ ys.length ≤ 1
  longest : ∀ zs, zs <+: xs → total weight zs ≤ max → zs.length ≤ ys.length

end Limit
