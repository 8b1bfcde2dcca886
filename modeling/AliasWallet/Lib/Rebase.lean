import Mathlib.Data.List.TakeWhile
import Mathlib.Data.Nat.Digits.Lemmas

/-!
# Changing the base of a text

A list of digits, the most significant one first, is rewritten in another base. The zeros in front are kept one for one,
so that nothing is lost on the way back.
-/

namespace Lib

/-- The zeros in front, and the number behind them in the base `c`. -/
def rebase (b c : Nat) (l : List Nat) : List Nat :=
  l.takeWhile (· = 0) ++ (Nat.digits c (Nat.ofDigits b l.reverse)).reverse

section Rebase

variable {b c n : Nat} {l zeros : List Nat}

theorem ofDigits_append_zeros (h : ∀ d ∈ zeros, d = 0) :
    Nat.ofDigits b (l ++ zeros) = Nat.ofDigits b l := by
  rw [List.eq_replicate_of_mem h, Nat.ofDigits_append_replicate_zero]

theorem mem_takeWhile_zero {d : Nat} (h : d ∈ l.takeWhile (· = 0)) : d = 0 := by
  have hd := List.mem_takeWhile_imp h
  exact of_decide_eq_true hd

/-- The zeros in front count for nothing. -/
theorem ofDigits_reverse (b : Nat) (l : List Nat) :
    Nat.ofDigits b l.reverse = Nat.ofDigits b (l.dropWhile (· = 0)).reverse := by
  conv_lhs => rw [← List.takeWhile_append_dropWhile (p := fun d : Nat => decide (d = 0)) (l := l), List.reverse_append]
  apply ofDigits_append_zeros
  intro d hd
  exact mem_takeWhile_zero (List.mem_reverse.mp hd)

theorem digits_reverse_head {d : Nat} (h : (Nat.digits b n).reverse.head? = some d) : d ≠ 0 := by
  rw [List.head?_reverse] at h
  have hne : Nat.digits b n ≠ [] := by
    intro hnil
    rw [hnil] at h
    cases h
  rw [List.getLast?_eq_getLast_of_ne_nil hne] at h
  rw [← Option.some.inj h]
  exact Nat.getLast_digit_ne_zero b (Nat.digits_ne_nil_iff_ne_zero.mp hne)

theorem takeWhile_rebase (b c : Nat) (l : List Nat) : (rebase b c l).takeWhile (· = 0) = l.takeWhile (· = 0) := by
  rw [rebase, List.takeWhile_append_of_pos fun d hd => decide_eq_true (mem_takeWhile_zero hd)]
  cases hdigits : (Nat.digits c (Nat.ofDigits b l.reverse)).reverse with
  | nil => exact List.append_nil _
  | cons d rest =>
    have hd : d ≠ 0 := digits_reverse_head (b := c) (by rw [hdigits]; rfl)
    rw [List.takeWhile_cons_of_neg (by simpa using hd), List.append_nil]

theorem ofDigits_rebase (b c : Nat) (l : List Nat) :
    Nat.ofDigits c (rebase b c l).reverse = Nat.ofDigits b l.reverse := by
  rw [rebase, List.reverse_append, List.reverse_reverse, ofDigits_append_zeros, Nat.ofDigits_digits]
  intro d hd
  exact mem_takeWhile_zero (List.mem_reverse.mp hd)

/-- The way back. -/
theorem rebase_rebase (hb : 1 < b) (c : Nat) (h : ∀ d ∈ l, d < b) : rebase c b (rebase b c l) = l := by
  rw [rebase, takeWhile_rebase, ofDigits_rebase, ofDigits_reverse, Nat.digits_ofDigits b hb, List.reverse_reverse,
    List.takeWhile_append_dropWhile]
  · intro d hd
    exact h d (List.dropWhile_subset _ (List.mem_reverse.mp hd))
  · intro hne
    rw [List.getLast_reverse]
    have hfirst := List.head_dropWhile_not (fun d : Nat => decide (d = 0)) (l := l) (by simpa using hne)
    exact of_decide_eq_false hfirst

theorem rebase_digit_lt (hc : 1 < c) {d : Nat} (h : d ∈ rebase b c l) : d < c := by
  rw [rebase, List.mem_append] at h
  cases h with
  | inl h => exact mem_takeWhile_zero h ▸ Nat.lt_of_lt_of_le Nat.one_pos hc.le
  | inr h => exact Nat.digits_lt_base hc (List.mem_reverse.mp h)

/-- A larger base needs no more digits. -/
theorem rebase_length_le (hb : 1 < b) (hbc : b ≤ c) (h : ∀ d ∈ l, d < b) : (rebase b c l).length ≤ l.length := by
  have hrest : (Nat.digits c (Nat.ofDigits b l.reverse)).length ≤ (l.dropWhile (· = 0)).length := by
    rw [Nat.digits_length_le_iff (hb.trans_le hbc), ofDigits_reverse]
    have hlt := Nat.ofDigits_lt_base_pow_length (l := (l.dropWhile (· = 0)).reverse) hb fun d hd =>
      h d (List.dropWhile_subset _ (List.mem_reverse.mp hd))
    rw [List.length_reverse] at hlt
    exact hlt.trans_le (Nat.pow_le_pow_left hbc _)
  have hsplit := congrArg List.length (List.takeWhile_append_dropWhile (p := fun d : Nat => decide (d = 0)) (l := l))
  rw [List.length_append] at hsplit
  rw [rebase, List.length_append, List.length_reverse]
  omega

end Rebase

end Lib
