import Mathlib.Data.Nat.Bitwise
import Mathlib.Data.List.Basic
import Mathlib.Tactic.Ring

/-!
# Numbers as lists of 32-bit words

Least significant word first: sums with carry, comparison from the top, and writes that put bits into a word.
-/

namespace Lib

/-- The number whose words are `xs`, the low word first. -/
def limbsNat : List UInt32 → Nat
  | [] => 0
  | x :: xs => x.toNat + 2 ^ 32 * limbsNat xs

theorem limbsNat_lt (xs : List UInt32) : limbsNat xs < 2 ^ (32 * xs.length) := by
  induction xs with
  | nil => simp [limbsNat]
  | cons x xs ih =>
    have hx := x.toNat_lt
    rw [limbsNat, List.length_cons, Nat.mul_succ, pow_add]
    omega

theorem limbsNat_cons_mod (x : UInt32) (xs : List UInt32) : limbsNat (x :: xs) % 2 ^ 32 = x.toNat := by
  have hx := x.toNat_lt
  rw [limbsNat]
  omega

theorem limbsNat_inj {xs ys : List UInt32} (hlen : xs.length = ys.length) (h : limbsNat xs = limbsNat ys) :
    xs = ys := by
  induction xs generalizing ys with
  | nil => exact (List.eq_nil_of_length_eq_zero hlen.symm).symm
  | cons x xs ih =>
    cases ys with
    | nil => cases hlen
    | cons y ys =>
      have hx := limbsNat_cons_mod x xs
      have hy := limbsNat_cons_mod y ys
      have hxy : x.toNat = y.toNat := by rw [← hx, ← hy, h]
      rw [limbsNat, limbsNat] at h
      rw [UInt32.toNat_inj.mp hxy, ih (Nat.succ.inj hlen) (by omega)]

theorem limbsNat_append (xs ys : List UInt32) :
    limbsNat (xs ++ ys) = limbsNat xs + 2 ^ (32 * xs.length) * limbsNat ys := by
  induction xs with
  | nil => simp [limbsNat]
  | cons x xs ih =>
    rw [List.cons_append, limbsNat, limbsNat, ih, List.length_cons, Nat.mul_succ, pow_add]
    ring

/-- A bit of the number is a bit of the word that it falls into. -/
theorem limbsNat_testBit (xs : List UInt32) (i : Nat) :
    (limbsNat xs).testBit i = (xs.getD (i / 32) 0).toNat.testBit (i % 32) := by
  induction xs generalizing i with
  | nil => simp [limbsNat]
  | cons x xs ih =>
    rw [limbsNat, Nat.add_comm, Nat.testBit_two_pow_mul_add _ x.toNat_lt]
    split_ifs with hlow
    · have hdiv : i / 32 = 0 := by omega
      have hmod : i % 32 = i := by omega
      rw [hdiv, hmod]
      rfl
    · have hdiv : i / 32 = (i - 32) / 32 + 1 := by omega
      have hmod : i % 32 = (i - 32) % 32 := by omega
      rw [ih, hdiv, hmod]
      rfl

/-- Puts the bits of a word into the word at `w.1`. -/
def orAt (pn : List UInt32) (w : Nat × UInt32) : List UInt32 := pn.modify w.1 (· ||| w.2)

@[simp] theorem orAt_length (pn : List UInt32) (w : Nat × UInt32) : (orAt pn w).length = pn.length :=
  List.length_modify ..

theorem foldl_orAt_length (ws : List (Nat × UInt32)) (pn : List UInt32) :
    (ws.foldl orAt pn).length = pn.length := by
  induction ws generalizing pn with
  | nil => rfl
  | cons w ws ih => rw [List.foldl_cons, ih, orAt_length]

/-- After a number of such writes a bit is set if it was set before or a write has set it. -/
theorem foldl_orAt_testBit (ws : List (Nat × UInt32)) (pn : List UInt32) {m : Nat} (hm : m < pn.length) (j : Nat) :
    ((ws.foldl orAt pn).getD m 0).toNat.testBit j =
      ((pn.getD m 0).toNat.testBit j || ws.any fun w => w.1 == m && w.2.toNat.testBit j) := by
  induction ws generalizing pn with
  | nil => simp
  | cons w ws ih =>
    have hword : ((orAt pn w).getD m 0).toNat.testBit j =
        ((pn.getD m 0).toNat.testBit j || (w.1 == m && w.2.toNat.testBit j)) := by
      rw [orAt, List.getD_eq_getElem?_getD, List.getD_eq_getElem?_getD, List.getElem?_modify,
        List.getElem?_eq_getElem hm]
      by_cases heq : w.1 = m
      · simp [heq]
      · simp [heq]
    rw [List.foldl_cons, ih _ (by rwa [orAt_length]), hword, List.any_cons, Bool.or_assoc]

end Lib
