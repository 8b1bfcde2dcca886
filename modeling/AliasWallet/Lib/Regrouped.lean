import Mathlib.Data.List.Induction
import Mathlib.Data.Nat.Bitwise
import Mathlib.Tactic.Ring

/-!
# Bits in transit

Numbers of `w` bits come in one after the other, numbers of `v` bits go out, and the bits that are left over wait. What
went out and what waits is at every moment the number that came in. So the two streams determine each other.
-/

namespace Lib

/-- The number that numbers of `w` bits stand for, the highest first. -/
def streamValue (w : Nat) (xs : List Nat) : Nat := xs.foldl (fun n x => n * 2 ^ w + x) 0

/-- `xs` came in, `ys` went out, and `count` bits wait. -/
structure Regrouped (w v : Nat) (xs ys : List Nat) (count left : Nat) : Prop where
  value_eq : streamValue w xs = streamValue v ys * 2 ^ count + left
  bits_eq : w * xs.length = v * ys.length + count
  left_lt : left < 2 ^ count
  small : ∀ y ∈ ys, y < 2 ^ v

section Values

variable {w : Nat} {xs ys : List Nat}

@[simp] theorem streamValue_nil : streamValue w [] = 0 := rfl

@[simp] theorem streamValue_concat (x : Nat) : streamValue w (xs ++ [x]) = streamValue w xs * 2 ^ w + x := by
  simp [streamValue]

theorem forall_mem_concat {p : Nat → Prop} {x : Nat} (hxs : ∀ y ∈ xs, p y) (hx : p x) : ∀ y ∈ xs ++ [x], p y := by
  intro y hy
  cases List.mem_append.mp hy with
  | inl hy => exact hxs y hy
  | inr hy => exact List.mem_singleton.mp hy ▸ hx

/-- A stream is determined by its length and its value. -/
theorem streamValue_inj (hlen : xs.length = ys.length) (hxs : ∀ x ∈ xs, x < 2 ^ w) (hys : ∀ y ∈ ys, y < 2 ^ w)
    (h : streamValue w xs = streamValue w ys) : xs = ys := by
  induction xs using List.reverseRecOn generalizing ys with
  | nil => exact (List.length_eq_zero_iff.mp hlen.symm).symm
  | append_singleton xs x ih =>
    cases ys using List.reverseRecOn with
    | nil => simp at hlen
    | append_singleton ys y =>
      have hx : x < 2 ^ w := hxs x (by simp)
      have hy : y < 2 ^ w := hys y (by simp)
      rw [streamValue_concat, streamValue_concat] at h
      have hlast : x = y := by
        have hmod := congrArg (· % 2 ^ w) h
        simpa [Nat.mul_add_mod_self_right, Nat.mod_eq_of_lt hx, Nat.mod_eq_of_lt hy] using hmod
      subst hlast
      have hfirst : streamValue w xs = streamValue w ys :=
        Nat.eq_of_mul_eq_mul_right (Nat.two_pow_pos w) (Nat.add_right_cancel h)
      rw [ih (by simpa using hlen) (fun z hz => hxs z (List.mem_append_left _ hz))
        (fun z hz => hys z (List.mem_append_left _ hz)) hfirst]

end Values

section Shifts

variable {w s : Nat} {d : Nat}

/-- The waiting bits with the highest bits of the next number behind them. -/
theorem shiftLeft_or_shiftRight (left : Nat) (hs : s ≤ w) (hd : d < 2 ^ w) :
    left <<< (w - s) ||| d >>> s = (left * 2 ^ w + d) / 2 ^ s := by
  have hsplit : 2 ^ w = 2 ^ (w - s) * 2 ^ s := by rw [← Nat.pow_add, Nat.sub_add_cancel hs]
  have hhigh : d >>> s < 2 ^ (w - s) := by
    rw [Nat.shiftRight_eq_div_pow]
    exact Nat.div_lt_of_lt_mul (by rw [Nat.mul_comm, ← hsplit]; exact hd)
  rw [← Nat.shiftLeft_add_eq_or_of_lt hhigh, Nat.shiftLeft_eq, Nat.shiftRight_eq_div_pow, hsplit, ← Nat.mul_assoc,
    Nat.add_comm _ d, Nat.add_mul_div_right _ _ (Nat.two_pow_pos s), Nat.add_comm]

/-- The lowest bits of the next number. -/
theorem and_mask (left : Nat) (hs : s ≤ w) : d &&& (2 ^ s - 1) = (left * 2 ^ w + d) % 2 ^ s := by
  have hsplit : 2 ^ w = 2 ^ (w - s) * 2 ^ s := by rw [← Nat.pow_add, Nat.sub_add_cancel hs]
  rw [Nat.and_two_pow_sub_one_eq_mod, hsplit, ← Nat.mul_assoc, Nat.mul_add_mod_self_right]

/-- Bits in the middle of a number. -/
theorem shiftRight_and_mask (d v t : Nat) : d >>> t &&& (2 ^ v - 1) = (d &&& (2 ^ (v + t) - 1)) / 2 ^ t := by
  rw [Nat.and_two_pow_sub_one_eq_mod, Nat.and_two_pow_sub_one_eq_mod, Nat.shiftRight_eq_div_pow, Nat.pow_add,
    Nat.mod_mul_left_div_self]

theorem and_mask_and_mask (d v t : Nat) : d &&& (2 ^ t - 1) = (d &&& (2 ^ (v + t) - 1)) % 2 ^ t := by
  rw [Nat.and_two_pow_sub_one_eq_mod, Nat.and_two_pow_sub_one_eq_mod, Nat.pow_add,
    Nat.mod_mod_of_dvd _ (Nat.dvd_mul_left _ _)]

end Shifts

namespace Regrouped

variable {w v count count' left left' : Nat} {xs xs' ys ys' : List Nat}

theorem nil : Regrouped w v [] [] 0 0 := ⟨rfl, rfl, Nat.one_pos, fun _ hy => absurd hy List.not_mem_nil⟩

/-- One number comes in. -/
theorem feed (h : Regrouped w v xs ys count left) {x : Nat} (hx : x < 2 ^ w) :
    Regrouped w v (xs ++ [x]) ys (count + w) (left * 2 ^ w + x) where
  value_eq := by
    rw [streamValue_concat, h.value_eq, Nat.pow_add]
    ring
  bits_eq := by
    rw [List.length_append, List.length_singleton, Nat.mul_add, h.bits_eq]
    omega
  left_lt := by
    have hle : (left + 1) * 2 ^ w ≤ 2 ^ count * 2 ^ w := Nat.mul_le_mul_right _ h.left_lt
    rw [Nat.pow_add]
    rw [Nat.succ_mul] at hle
    omega
  small := h.small

/-- One number goes out. -/
theorem emit (h : Regrouped w v xs ys count left) {y left' : Nat} (hcount : count = v + count')
    (hy : y = left / 2 ^ count') (hleft : left' = left % 2 ^ count') :
    Regrouped w v xs (ys ++ [y]) count' left' where
  value_eq := by
    rw [h.value_eq, streamValue_concat, hcount, Nat.pow_add, hy, hleft, Nat.add_mul, Nat.mul_assoc, Nat.add_assoc,
      Nat.div_add_mod']
  bits_eq := by
    rw [h.bits_eq, List.length_append, List.length_singleton, Nat.mul_add, hcount]
    omega
  left_lt := hleft ▸ Nat.mod_lt _ (Nat.two_pow_pos _)
  small := by
    have hlt : left < 2 ^ count' * 2 ^ v := by
      rw [← Nat.pow_add, Nat.add_comm, ← hcount]
      exact h.left_lt
    exact forall_mem_concat h.small (hy ▸ Nat.div_lt_of_lt_mul hlt)

/-- One number comes in, and one goes out that ends in it. -/
theorem step (h : Regrouped w v xs ys count left) {x s : Nat} (hx : x < 2 ^ w) (hs : s ≤ w)
    (hcount : count + w = v + s) :
    Regrouped w v (xs ++ [x]) (ys ++ [left <<< (w - s) ||| x >>> s]) s (x &&& (2 ^ s - 1)) :=
  (h.feed hx).emit hcount (shiftLeft_or_shiftRight left hs hx) (and_mask left hs)

/-- One more number goes out from within the last one that came in. -/
theorem again {x t : Nat} (h : Regrouped w v xs ys (v + t) (x &&& (2 ^ (v + t) - 1))) :
    Regrouped w v xs (ys ++ [x >>> t &&& (2 ^ v - 1)]) t (x &&& (2 ^ t - 1)) :=
  h.emit rfl (shiftRight_and_mask x v t) (and_mask_and_mask x v t)

/-- One number comes in and waits with the others. -/
theorem wait (h : Regrouped w v xs ys count left) {x : Nat} (hx : x < 2 ^ w) :
    Regrouped w v (xs ++ [x]) ys (count + w) (left <<< w ||| x) := by
  rw [← Nat.shiftLeft_add_eq_or_of_lt hx, Nat.shiftLeft_eq]
  exact h.feed hx

/-- With nothing left over the streams change places. -/
theorem flip (h : Regrouped w v xs ys 0 left) (hxs : ∀ x ∈ xs, x < 2 ^ w) : Regrouped v w ys xs 0 0 := by
  have hleft : left = 0 := by
    have := h.left_lt
    omega
  refine ⟨?_, h.bits_eq.symm, Nat.one_pos, hxs⟩
  rw [h.value_eq, hleft]
  ring

/-- What is left over goes out with zeros behind it, and the zeros are left over on the way back. -/
theorem pad (h : Regrouped w v xs ys count left) (hcount : count ≤ v) (hxs : ∀ x ∈ xs, x < 2 ^ w) :
    Regrouped v w (ys ++ [left * 2 ^ (v - count)]) xs (v - count) 0 where
  value_eq := by
    have hsplit : 2 ^ v = 2 ^ count * 2 ^ (v - count) := by rw [← Nat.pow_add, Nat.add_sub_cancel' hcount]
    rw [streamValue_concat, h.value_eq, hsplit]
    ring
  bits_eq := by
    rw [h.bits_eq, List.length_append, List.length_singleton, Nat.mul_add]
    omega
  left_lt := Nat.two_pow_pos _
  small := hxs

theorem count_mod (h : Regrouped w v xs ys count left) (hcount : count < v) : count = w * xs.length % v := by
  rw [h.bits_eq, Nat.mul_add_mod, Nat.mod_eq_of_lt hcount]

/-- What goes out is determined by what comes in. -/
theorem right_unique (h : Regrouped w v xs ys count left) (h' : Regrouped w v xs ys' count' left') (hcount : count < v)
    (hcount' : count' < v) : ys = ys' ∧ count = count' ∧ left = left' := by
  have hmod : count = count' := (h.count_mod hcount).trans (h'.count_mod hcount').symm
  subst hmod
  have hlen : ys.length = ys'.length :=
    Nat.eq_of_mul_eq_mul_left (by omega : 0 < v) (Nat.add_right_cancel (h.bits_eq.symm.trans h'.bits_eq))
  have hvalue := h.value_eq.symm.trans h'.value_eq
  have hleft : left = left' := by
    have hrest := congrArg (· % 2 ^ count) hvalue
    simpa [Nat.mul_add_mod_self_right, Nat.mod_eq_of_lt h.left_lt, Nat.mod_eq_of_lt h'.left_lt] using hrest
  subst hleft
  have hvalues : streamValue v ys = streamValue v ys' :=
    Nat.eq_of_mul_eq_mul_right (Nat.two_pow_pos count) (Nat.add_right_cancel hvalue)
  exact ⟨streamValue_inj hlen h.small h'.small hvalues, rfl, rfl⟩

/-- What came in is determined by what went out, when fewer bits wait than came in at a time. -/
theorem left_unique (h : Regrouped w v xs ys count left) (h' : Regrouped w v xs' ys count' left) (hcount : count < w)
    (hcount' : count' < w) (hxs : ∀ x ∈ xs, x < 2 ^ w) (hxs' : ∀ x ∈ xs', x < 2 ^ w) : xs = xs' := by
  have hlen : xs.length = xs'.length := by
    have hbits := h.bits_eq
    have hbits' := h'.bits_eq
    by_contra hne
    cases Nat.lt_or_gt_of_ne hne with
    | inl hlt =>
      have hle : w * (xs.length + 1) ≤ w * xs'.length := Nat.mul_le_mul_left w hlt
      rw [Nat.mul_succ] at hle
      omega
    | inr hlt =>
      have hle : w * (xs'.length + 1) ≤ w * xs.length := Nat.mul_le_mul_left w hlt
      rw [Nat.mul_succ] at hle
      omega
  have hsame : count = count' := by
    have hbits := h.bits_eq
    rw [hlen, h'.bits_eq] at hbits
    omega
  subst hsame
  exact streamValue_inj hlen hxs hxs' (h.value_eq.trans h'.value_eq.symm)

end Regrouped

end Lib
