import Mathlib.Algebra.Module.ZMod
import Mathlib.GroupTheory.OrderOfElement
import Mathlib.Data.ZMod.Basic
import Mathlib.Algebra.Field.ZMod
import Mathlib.Tactic.Abel

/-!
# Scalar arithmetic in a group of prime order

Natural-number multiples of the elements of a commutative group of prime order `q`: a multiple
depends on the scalar modulo `q` only, a response closes an opening, and two openings of one
point with different challenges determine a discrete logarithm.
-/

namespace Lib

/-- The remainder of `a - b` modulo `q`, in `[0, q)`. -/
def modSub (a b q : Nat) : Nat := (((a : Int) - b) % q).toNat

/-- The logarithm determined by two openings `(c, r)` and `(c', r')` of one point. -/
def extractLog (q c r c' r' : Nat) : Nat :=
  (((r' : ZMod q) - r) * ((c : ZMod q) - c')⁻¹).val

private theorem modSub_cast_int (a b q : Nat) (hq : 0 < q) :
    ((modSub a b q : Nat) : Int) = ((a : Int) - b) % q := by
  have hnonneg : 0 ≤ ((a : Int) - b) % q := Int.emod_nonneg _ (by omega)
  rw [modSub, Int.toNat_of_nonneg hnonneg]

theorem modSub_lt (a b q : Nat) (hq : 0 < q) : modSub a b q < q := by
  have hlt : ((a : Int) - b) % q < q := Int.emod_lt_of_pos _ (by omega)
  rw [← modSub_cast_int a b q hq] at hlt
  exact_mod_cast hlt

/-- The difference vanishes exactly on congruent numbers. -/
theorem modSub_eq_zero_iff (a b q : Nat) (hq : 0 < q) : modSub a b q = 0 ↔ a % q = b % q := by
  have hcast := modSub_cast_int a b q hq
  have hcong : (a : Int) % q = (b : Int) % q ↔ ((a : Int) - b) % q = 0 :=
    Int.emod_eq_emod_iff_emod_sub_eq_zero
  constructor
  · intro h
    rw [h] at hcast
    exact_mod_cast hcong.mpr (by simpa using hcast.symm)
  · intro h
    have hzero := hcong.mp (by exact_mod_cast h)
    rw [hzero] at hcast
    exact_mod_cast hcast

theorem modSub_cast (a b q : Nat) (hq : 0 < q) :
    ((modSub a b q : Nat) : ZMod q) = (a : ZMod q) - b := by
  have hcast : (((modSub a b q : Nat) : Int) : ZMod q) = ((((a : Int) - b) % q : Int) : ZMod q) := by
    rw [modSub_cast_int a b q hq]
  rw [ZMod.intCast_mod] at hcast
  exact_mod_cast hcast

section Group

variable {G : Type*} [AddCommGroup G] (q : Nat)

theorem mod_nsmul (hcard : Nat.card G = q) (n : Nat) (P : G) : (n % q) • P = n • P := by
  rw [← hcard, mod_natCard_nsmul]

theorem nsmul_congr (hcard : Nat.card G = q) (n m : Nat) (P : G) (h : n % q = m % q) :
    n • P = m • P := by
  rw [← mod_nsmul q hcard n P, h, mod_nsmul q hcard m P]

theorem order_nsmul (hcard : Nat.card G = q) (P : G) : q • P = 0 := by
  rw [← hcard, card_nsmul_eq_zero']

/-- The multiples of an element other than zero that vanish. -/
theorem nsmul_eq_zero_iff_mod (hcard : Nat.card G = q) (hq : q.Prime) {g : G} (hg : g ≠ 0) (n : Nat) :
    n • g = 0 ↔ n % q = 0 := by
  have horder : addOrderOf g = q := by
    rcases hq.eq_one_or_self_of_dvd _ (addOrderOf_dvd_of_nsmul_eq_zero (order_nsmul q hcard g)) with hone | hself
    · exact absurd (AddMonoid.addOrderOf_eq_one_iff.mp hone) hg
    · exact hself
  rw [← addOrderOf_dvd_iff_nsmul_eq_zero, horder, Nat.dvd_iff_mod_eq_zero]

/-- The response `a - c * x` closes the opening of `a • g` under the challenge `c`. -/
theorem opening_close (hcard : Nat.card G = q) (hq : 0 < q) (a c x : Nat) (g : G) :
    c • (x • g) + modSub a (c * x) q • g = a • g := by
  have hsum : (c * x + modSub a (c * x) q) % q = a % q := by
    have hz : ((c * x + modSub a (c * x) q : Nat) : ZMod q) = (a : ZMod q) := by
      rw [Nat.cast_add, modSub_cast a (c * x) q hq]
      abel
    exact (ZMod.natCast_eq_natCast_iff' _ _ _).mp hz
  rw [← mul_nsmul', ← add_nsmul, nsmul_congr q hcard _ a g hsum]

/-- Two openings of one point under different challenges reveal the logarithm of the key. -/
theorem extractLog_spec [Fact q.Prime] (hcard : Nat.card G = q) (c r c' r' : Nat) (P g : G)
    (heq : c • P + r • g = c' • P + r' • g) (hne : c % q ≠ c' % q) :
    P = extractLog q c r c' r' • g := by
  let _ : Module (ZMod q) G := AddCommGroup.zmodModule (order_nsmul q hcard)
  have hinv : ((c : ZMod q) - c') ≠ 0 := by
    intro h
    exact hne ((ZMod.natCast_eq_natCast_iff' _ _ _).mp (sub_eq_zero.mp h))
  have hlin : ((c : ZMod q) - c') • P = ((r' : ZMod q) - r) • g := by
    rw [sub_smul, sub_smul, Nat.cast_smul_eq_nsmul, Nat.cast_smul_eq_nsmul,
      Nat.cast_smul_eq_nsmul, Nat.cast_smul_eq_nsmul, sub_eq_sub_iff_add_eq_add, heq]
    abel
  calc P = (((c : ZMod q) - c')⁻¹ * ((c : ZMod q) - c')) • P := by
        rw [inv_mul_cancel₀ hinv, one_smul]
    _ = (((r' : ZMod q) - r) * ((c : ZMod q) - c')⁻¹) • g := by
        rw [mul_smul, hlin, ← mul_smul, mul_comm]
    _ = extractLog q c r c' r' • g := by
        rw [extractLog, ← Nat.cast_smul_eq_nsmul (ZMod q), ZMod.natCast_zmod_val]

end Group

end Lib
