import Mathlib.Data.List.GetD
import Mathlib.Data.Nat.Bitwise
import Mathlib.Tactic.Ring

/-!
# Streams of bits in groups

A list of numbers below `2 ^ w` stands for a stream of bits, `w` bits a number and the highest first. The stream is read
again in groups of another width.
-/

namespace Lib

/-- Bit `p` of the stream. -/
def groupBit (w : Nat) (xs : List Nat) (p : Nat) : Bool := (xs.getD (p / w) 0).testBit (w - 1 - p % w)

/-- The first `n` groups of `v` bits of the stream `xs`, with zeros behind its end. -/
def regroup (w v n : Nat) (xs : List Nat) : List Nat :=
  (List.range n).map fun k => Nat.ofBits fun j : Fin v => groupBit w xs (v * k + (v - 1 - j))

section Groups

variable {w v n p : Nat} {xs ys : List Nat}

@[simp] theorem regroup_length : (regroup w v n xs).length = n := by simp [regroup]

theorem regroup_lt {x : Nat} (hx : x ∈ regroup w v n xs) : x < 2 ^ v := by
  simp only [regroup, List.mem_map] at hx
  obtain ⟨k, -, rfl⟩ := hx
  exact Nat.ofBits_lt_two_pow _

theorem groupBit_of_le (hw : 0 < w) (hp : w * xs.length ≤ p) : groupBit w xs p = false := by
  have hlen : xs.length ≤ p / w := (Nat.le_div_iff_mul_le hw).mpr (by rw [Nat.mul_comm]; exact hp)
  rw [groupBit, List.getD_eq_default _ _ hlen, Nat.zero_testBit]

/-- Bit `t` of group `k`, counted from the highest. -/
theorem groupBit_group (k t : Nat) (ht : t < w) : groupBit w xs (w * k + t) = (xs.getD k 0).testBit (w - 1 - t) := by
  have hdiv : (w * k + t) / w = k := by
    rw [Nat.mul_add_div (by omega), Nat.div_eq_of_lt ht, Nat.add_zero]
  have hmod : (w * k + t) % w = t := by rw [Nat.mul_add_mod, Nat.mod_eq_of_lt ht]
  rw [groupBit, hdiv, hmod]

theorem groupBit_append_left (hp : p < w * xs.length) : groupBit w (xs ++ ys) p = groupBit w xs p := by
  have hlt : p / w < xs.length := Nat.div_lt_of_lt_mul hp
  rw [groupBit, groupBit, List.getD_append _ _ _ _ hlt]

theorem groupBit_append_right (hw : 0 < w) (p : Nat) :
    groupBit w (xs ++ ys) (w * xs.length + p) = groupBit w ys p := by
  have hdiv : (w * xs.length + p) / w = xs.length + p / w := Nat.mul_add_div hw _ _
  rw [groupBit, groupBit, hdiv, Nat.mul_add_mod, List.getD_append_right _ _ _ _ (Nat.le_add_right _ _),
    Nat.add_sub_cancel_left]

theorem groupBit_take (hp : p < w * n) : groupBit w (xs.take n) p = groupBit w xs p := by
  have hlt : p / w < n := Nat.div_lt_of_lt_mul hp
  rw [groupBit, groupBit, List.getD_eq_getElem?_getD, List.getElem?_take_of_lt hlt, List.getD_eq_getElem?_getD]

theorem groupBit_drop (hw : 0 < w) (n p : Nat) : groupBit w (xs.drop n) p = groupBit w xs (w * n + p) := by
  rw [groupBit, groupBit, Nat.mul_add_div hw, Nat.mul_add_mod, List.getD_eq_getElem?_getD, List.getElem?_drop,
    List.getD_eq_getElem?_getD]

theorem groupBit_regroup (hv : 0 < v) (hp : p < v * n) : groupBit v (regroup w v n xs) p = groupBit w xs p := by
  have hk : p / v < n := Nat.div_lt_of_lt_mul hp
  have ht : p % v < v := Nat.mod_lt p hv
  have hpos : v * (p / v) + (v - 1 - (v - 1 - p % v)) = p := by
    have := Nat.div_add_mod p v
    omega
  rw [groupBit, regroup, List.getD_eq_getElem _ _ (by simpa using hk), List.getElem_map, List.getElem_range,
    Nat.testBit_ofBits_lt _ _ (by omega), hpos]

/-- A stream is determined by its bits. -/
theorem groups_ext (hlen : xs.length = ys.length) (hxs : ∀ x ∈ xs, x < 2 ^ w)
    (hys : ∀ y ∈ ys, y < 2 ^ w) (hbits : ∀ p < w * xs.length, groupBit w xs p = groupBit w ys p) : xs = ys := by
  apply List.ext_getElem hlen
  intro k hk hk'
  apply Nat.eq_of_testBit_eq
  intro j
  by_cases hj : j < w
  · have hp : w * k + (w - 1 - j) < w * xs.length := by
      have hmul : w * (k + 1) ≤ w * xs.length := Nat.mul_le_mul_left w hk
      rw [Nat.mul_succ] at hmul
      omega
    have hbit := hbits _ hp
    rw [groupBit_group _ _ (by omega), groupBit_group _ _ (by omega), List.getD_eq_getElem _ _ hk,
      List.getD_eq_getElem _ _ hk'] at hbit
    rwa [show w - 1 - (w - 1 - j) = j by omega] at hbit
  · have hpow : 2 ^ w ≤ 2 ^ j := Nat.pow_le_pow_right (by omega) (by omega)
    rw [Nat.testBit_lt_two_pow ((hxs _ (List.getElem_mem hk)).trans_le hpow),
      Nat.testBit_lt_two_pow ((hys _ (List.getElem_mem hk')).trans_le hpow)]

end Groups

end Lib
