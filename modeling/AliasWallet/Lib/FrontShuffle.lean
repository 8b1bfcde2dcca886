import Mathlib.Data.List.Nodup
import Mathlib.Order.Lattice

/-!
# Drawing elements to the front of a list

Round `i` exchanges the element at the position `i` with one at a drawn position that is not in front of it. The first
elements are then a sample of the list. A scan over the sample looks for its first smallest element.
-/

namespace Lib

section Shuffle

variable {α : Type*}

/-- Two elements change places. -/
def swapAt (l : List α) (i j : Nat) : List α :=
  match l[i]?, l[j]? with
  | some x, some y => (l.set j x).set i y
  | _, _ => l

/-- The list after some rounds. -/
def frontShuffle (pos : Nat → Nat) (l : List α) : Nat → List α
  | 0 => l
  | k + 1 => swapAt (frontShuffle pos l k) k (pos k)

/-- The elements that the rounds have drawn, in order. -/
def drawn (pos : Nat → Nat) (l : List α) (k : Nat) : List α := (frontShuffle pos l k).take k

/-- Every round draws from what is left. -/
def DrawsFrom (pos : Nat → Nat) (k n : Nat) : Prop := ∀ i < k, i ≤ pos i ∧ pos i < n

variable {pos : Nat → Nat} {l : List α} {i j k : Nat}

theorem DrawsFrom.mono {k' n : Nat} (h : DrawsFrom pos k n) (hk : k' ≤ k) : DrawsFrom pos k' n :=
  fun i hi => h i (Nat.lt_of_lt_of_le hi hk)

theorem swapAt_eq (hi : i < l.length) (hj : j < l.length) : swapAt l i j = (l.set j l[i]).set i l[j] := by
  rw [swapAt, List.getElem?_eq_getElem hi, List.getElem?_eq_getElem hj]

theorem swapAt_perm (l : List α) (i j : Nat) : (swapAt l i j).Perm l := by
  by_cases hi : i < l.length
  · by_cases hj : j < l.length
    · rw [swapAt_eq hi hj]
      exact List.set_set_perm hj hi
    · rw [swapAt, List.getElem?_eq_none (Nat.not_lt.mp hj)]
      split
      · rename_i heq
        cases heq
      · exact .refl l
  · rw [swapAt, List.getElem?_eq_none (Nat.not_lt.mp hi)]

theorem frontShuffle_perm (pos : Nat → Nat) (l : List α) (k : Nat) : (frontShuffle pos l k).Perm l := by
  induction k with
  | zero => exact .refl l
  | succ k ih => exact (swapAt_perm _ _ _).trans ih

theorem frontShuffle_length (pos : Nat → Nat) (l : List α) (k : Nat) : (frontShuffle pos l k).length = l.length :=
  (frontShuffle_perm pos l k).length_eq

/-- The element that round `k` draws comes to its place. -/
theorem frontShuffle_succ_self (h : DrawsFrom pos (k + 1) l.length) :
    (frontShuffle pos l (k + 1))[k]? = (frontShuffle pos l k)[pos k]? := by
  have hk := h k (Nat.lt_succ_self k)
  have hlen := frontShuffle_length pos l k
  have hlt : k < (frontShuffle pos l k).length := by omega
  have hpos : pos k < (frontShuffle pos l k).length := by omega
  rw [frontShuffle, swapAt_eq hlt hpos, List.getElem?_set_self, List.getElem?_eq_getElem hpos]
  rw [List.length_set]
  exact hlt

/-- The places in front stay as they are. -/
theorem frontShuffle_succ_lt (h : DrawsFrom pos (k + 1) l.length) (hi : i < k) :
    (frontShuffle pos l (k + 1))[i]? = (frontShuffle pos l k)[i]? := by
  have hk := h k (Nat.lt_succ_self k)
  have hlen := frontShuffle_length pos l k
  rw [frontShuffle, swapAt_eq (by omega) (by omega), List.getElem?_set_ne (by omega), List.getElem?_set_ne (by omega)]

theorem drawn_getElem? (hi : i < k) : (drawn pos l k)[i]? = (frontShuffle pos l k)[i]? := by
  rw [drawn, List.getElem?_take_of_lt hi]

theorem drawn_length (hk : k ≤ l.length) : (drawn pos l k).length = k := by
  rw [drawn, List.length_take, frontShuffle_length]
  omega

/-- One more element. -/
theorem drawn_succ (h : DrawsFrom pos (k + 1) l.length) (hk : k < l.length) {x : α}
    (hx : (frontShuffle pos l k)[pos k]? = some x) : drawn pos l (k + 1) = drawn pos l k ++ [x] := by
  have hdrawn : (frontShuffle pos l (k + 1)).take k = drawn pos l k := by
    apply List.ext_getElem?
    intro i
    by_cases hi : i < k
    · rw [List.getElem?_take_of_lt hi, drawn_getElem? hi, frontShuffle_succ_lt h hi]
    · rw [List.getElem?_eq_none, List.getElem?_eq_none]
      · rw [drawn_length (Nat.le_of_lt hk)]
        omega
      · rw [List.length_take]
        omega
  have hlast : (frontShuffle pos l (k + 1))[k]? = some x := (frontShuffle_succ_self h).trans hx
  rw [drawn, List.take_add_one, hdrawn, hlast]
  rfl

end Shuffle

section Oldest

variable {α β : Type*} [LinearOrder β] {f : α → β} {sample : List α} {x y : α} {w : Nat}

/-- The first of the smallest elements of a sample, with its place. -/
structure FirstLeast (f : α → β) (sample : List α) (w : Nat) (x : α) : Prop where
  place : sample[w]? = some x
  least : ∀ y ∈ sample, f x ≤ f y
  first : ∀ j < w, ∀ y, sample[j]? = some y → f x < f y

theorem firstLeast_singleton (f : α → β) (x : α) : FirstLeast f [x] 0 x where
  place := rfl
  least := by
    intro y hy
    rw [List.mem_singleton.mp hy]
  first := fun _ hj => absurd hj (Nat.not_lt_zero _)

/-- A smaller element at the end is the least one. -/
theorem FirstLeast.replaced (h : FirstLeast f sample w x) (hy : f y < f x) :
    FirstLeast f (sample ++ [y]) sample.length y where
  place := by rw [List.getElem?_append_right (Nat.le_refl _), Nat.sub_self]; rfl
  least := by
    intro z hz
    cases List.mem_append.mp hz with
    | inl hz => exact (hy.trans_le (h.least z hz)).le
    | inr hz => rw [List.mem_singleton.mp hz]
  first := by
    intro j hj z hz
    rw [List.getElem?_append_left hj] at hz
    exact hy.trans_le (h.least z (List.mem_of_getElem? hz))

theorem FirstLeast.kept (h : FirstLeast f sample w x) (hy : ¬f y < f x) : FirstLeast f (sample ++ [y]) w x where
  place := by
    have hlt := (List.getElem?_eq_some_iff.mp h.place).1
    rw [List.getElem?_append_left hlt, h.place]
  least := by
    intro z hz
    cases List.mem_append.mp hz with
    | inl hz => exact h.least z hz
    | inr hz =>
      rw [List.mem_singleton.mp hz]
      exact not_lt.mp hy
  first := by
    intro j hj z hz
    have hlt := (List.getElem?_eq_some_iff.mp h.place).1
    rw [List.getElem?_append_left (Nat.lt_trans hj hlt)] at hz
    exact h.first j hj z hz

/-- There is only one. -/
theorem FirstLeast.unique {w' : Nat} (h : FirstLeast f sample w x) (h' : FirstLeast f sample w' y) :
    w = w' ∧ x = y := by
  have hplace : w = w' := by
    by_contra hne
    cases Nat.lt_or_gt_of_ne hne with
    | inl hlt => exact absurd (h'.first w hlt x h.place) (not_lt.mpr (h.least y (List.mem_of_getElem? h'.place)))
    | inr hlt => exact absurd (h.first w' hlt y h'.place) (not_lt.mpr (h'.least x (List.mem_of_getElem? h.place)))
  have hx := h.place
  rw [hplace, h'.place] at hx
  exact ⟨hplace, (Option.some.inj hx).symm⟩

end Oldest

end Lib
