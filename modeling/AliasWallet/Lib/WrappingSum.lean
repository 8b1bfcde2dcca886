import Mathlib.Algebra.BigOperators.Group.List.Basic
import Mathlib.Algebra.Order.BigOperators.Group.List
import Mathlib.Algebra.Ring.Int.Defs

/-!
# Sums in `Int64`

A wrapping sum of non-negative terms is exact where each partial sum stays non-negative, and in any
case not more than the sum over the integers.
-/

namespace Lib

theorem toInt_nonneg {a : Int64} (h : 0 ≤ a) : 0 ≤ a.toInt := by
  simpa using Int64.le_iff_toInt_le.mp h

/-- An addition of non-negative numbers that wraps shows a negative result. -/
theorem toInt_add_of_nonneg (a b : Int64) (ha : 0 ≤ a) (hb : 0 ≤ b) (hab : 0 ≤ a + b) :
    (a + b).toInt = a.toInt + b.toInt := by
  have ha' := toInt_nonneg ha
  have hb' := toInt_nonneg hb
  have hab' := toInt_nonneg hab
  have hla := a.toInt_lt
  have hlb := b.toInt_lt
  rw [Int64.toInt_add, Int.bmod_def] at hab' ⊢
  omega

theorem bmod_le_self (n : Int) (h : 0 ≤ n) : n.bmod (2 ^ 64) ≤ n := by
  rw [Int.bmod_def]
  omega

/-- The order of wrapping does not matter. -/
theorem toInt_sum (l : List Int64) : l.sum.toInt = (l.map Int64.toInt).sum.bmod (2 ^ 64) := by
  induction l with
  | nil => rfl
  | cons a l ih =>
    rw [List.sum_cons, Int64.toInt_add, ih, List.map_cons, List.sum_cons, Int.add_bmod_bmod]

/-- A sum over the integers, wrapped at the end or in each step. -/
theorem ofInt_sum (l : List Int64) : Int64.ofInt (l.map Int64.toInt).sum = l.sum := by
  rw [← Int64.toInt_inj, Int64.toInt_ofInt, toInt_sum]
  rfl

theorem sum_perm {l l' : List Int64} (h : l.Perm l') : l.sum = l'.sum := by
  rw [← ofInt_sum, ← ofInt_sum l', (h.map Int64.toInt).sum_eq]

end Lib
