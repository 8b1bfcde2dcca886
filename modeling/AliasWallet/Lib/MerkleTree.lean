import Mathlib.Data.List.Nodup
import Mathlib.Data.Set.Function
import Mathlib.Tactic.Ring

/-!
# Hash trees whose odd levels repeat their last node

The levels of the tree over a list, the widths of the levels, and what the top of the tree says of the
list, as far as the pairs that are hashed do not collide.
-/

namespace Lib.Merkle

section Width

/-- The number of nodes `k` levels above `n` leaves. -/
def width (n k : Nat) : Nat := (n + 2 ^ k - 1) / 2 ^ k

@[simp] theorem width_zero (n : Nat) : width n 0 = n := by
  simp [width]

theorem width_succ (n k : Nat) : width n (k + 1) = (width n k + 1) / 2 := by
  have hpos : 0 < 2 ^ k := Nat.two_pow_pos k
  have hsum : n + 2 ^ (k + 1) - 1 = (n + 2 ^ k - 1) + 2 ^ k := by
    rw [Nat.pow_succ]
    omega
  rw [width, width, hsum, Nat.pow_succ, ← Nat.div_div_eq_div_mul, Nat.add_div_right _ hpos]

theorem lt_width_iff (n k i : Nat) : i < width n k ↔ i * 2 ^ k < n := by
  have hpos : 0 < 2 ^ k := Nat.two_pow_pos k
  rw [width, Nat.lt_iff_add_one_le, Nat.le_div_iff_mul_le hpos, Nat.add_mul]
  omega

end Width

section Levels

variable {H : Type} (node : H → H → H)

/-- The pairs that are hashed above a level. -/
def levelPairs : List H → List (H × H)
  | [] => []
  | [h] => [(h, h)]
  | h :: k :: hs => (h, k) :: levelPairs hs

def level (l : List H) : List H := (levelPairs l).map fun x => node x.1 x.2

/-- The list and the levels above it. -/
def levels : Nat → List H → List H
  | 0, l => l
  | k + 1, l => level node (levels k l)

/-- All pairs that are hashed below level `k`. -/
def hashedPairs (k : Nat) (l : List H) : List (H × H) :=
  (List.range k).flatMap fun j => levelPairs (levels node j l)

theorem length_levelPairs (l : List H) : (levelPairs l).length = (l.length + 1) / 2 := by
  induction l using levelPairs.induct with
  | case1 => simp [levelPairs]
  | case2 h => simp [levelPairs]
  | case3 h k hs ih =>
    simp only [levelPairs, List.length_cons, ih]
    omega

theorem length_levels (k : Nat) (l : List H) : (levels node k l).length = width l.length k := by
  induction k with
  | zero => simp [levels]
  | succ k ih => rw [levels, level, List.length_map, length_levelPairs, ih, width_succ]

theorem levels_succ' (k : Nat) (l : List H) :
    levels node (k + 1) l = levels node k (level node l) := by
  induction k with
  | zero => rfl
  | succ k ih => rw [levels, ih, levels]

/-- The last node of an odd level is paired with itself. -/
theorem levelPairs_getElem? (l : List H) (i : Nat) (a : H) (ha : l[2 * i]? = some a) :
    (levelPairs l)[i]? = some (a, (l[2 * i + 1]?).getD a) := by
  induction l using levelPairs.induct generalizing i with
  | case1 => simp at ha
  | case2 h =>
    cases i with
    | zero =>
      obtain rfl : h = a := by simpa using ha
      rfl
    | succ i => simp [Nat.mul_succ] at ha
  | case3 h k hs ih =>
    cases i with
    | zero =>
      obtain rfl : h = a := by simpa using ha
      rfl
    | succ i =>
      rw [Nat.mul_succ] at ha ⊢
      simpa [levelPairs] using ih i (by simpa using ha)

/-- A node above the leaves. -/
theorem levels_succ_getElem? (k : Nat) (l : List H) (i : Nat) (a : H)
    (ha : (levels node k l)[2 * i]? = some a) :
    (levels node (k + 1) l)[i]? = some (node a (((levels node k l)[2 * i + 1]?).getD a)) := by
  rw [levels, level, List.getElem?_map, levelPairs_getElem? _ i a ha]
  rfl

theorem mem_hashedPairs {k j : Nat} {l : List H} {x : H × H} (hj : j < k)
    (hx : x ∈ levelPairs (levels node j l)) : x ∈ hashedPairs node k l :=
  List.mem_flatMap.mpr ⟨j, List.mem_range.mpr hj, hx⟩

end Levels

section Injective

variable {H : Type} {node : H → H → H}

/-- A level tells the one below where that has no repeated nodes. -/
theorem levelPairs_inj (l l' : List H) (hl : l.Nodup) (hl' : l'.Nodup)
    (h : levelPairs l = levelPairs l') : l = l' := by
  induction l using levelPairs.induct generalizing l' with
  | case1 =>
    match l' with
    | [] => rfl
    | [a] => simp [levelPairs] at h
    | a :: b :: l' => simp [levelPairs] at h
  | case2 a =>
    match l' with
    | [] => simp [levelPairs] at h
    | [b] => simpa [levelPairs] using h
    | b :: b' :: l' =>
      simp only [levelPairs, List.cons.injEq, Prod.mk.injEq] at h
      -- a pair of one node comes from the end of an odd level only
      have hrepeat : b = b' := h.1.1.symm.trans h.1.2
      simp [hrepeat] at hl'
  | case3 a a' l ih =>
    match l' with
    | [] => simp [levelPairs] at h
    | [b] =>
      simp only [levelPairs, List.cons.injEq, Prod.mk.injEq] at h
      have hrepeat : a = a' := h.1.1.trans h.1.2.symm
      simp [hrepeat] at hl
    | b :: b' :: l' =>
      simp only [levelPairs, List.cons.injEq, Prod.mk.injEq] at h
      have htail := ih l' (hl.of_cons).of_cons (hl'.of_cons).of_cons h.2
      rw [h.1.1, h.1.2, htail]

theorem nodup_levelPairs (l : List H) (hl : l.Nodup) : (levelPairs l).Nodup := by
  have hsub : ∀ l : List H, ((levelPairs l).map Prod.fst).Sublist l := by
    intro l
    induction l using levelPairs.induct with
    | case1 => exact List.Sublist.refl _
    | case2 h => exact List.Sublist.refl _
    | case3 h k hs ih => exact (ih.cons k).cons_cons h
  exact List.Nodup.of_map Prod.fst (hl.sublist (hsub l))

variable {S : Set (H × H)} (hinj : Set.InjOn (fun x => node x.1 x.2) S)
include hinj

theorem map_inj_on (m m' : List (H × H)) (hm : ∀ x ∈ m, x ∈ S) (hm' : ∀ x ∈ m', x ∈ S)
    (h : (m.map fun x => node x.1 x.2) = m'.map fun x => node x.1 x.2) : m = m' := by
  induction m generalizing m' with
  | nil => simpa using h.symm
  | cons x m ih =>
    cases m' with
    | nil => simp at h
    | cons y m' =>
      simp only [List.map_cons, List.cons.injEq] at h
      rw [List.forall_mem_cons] at hm hm'
      rw [hinj hm.1 hm'.1 h.1, ih m' hm.2 hm'.2 h.2]

theorem nodup_levels (l : List H) (hl : l.Nodup) (k : Nat) (hS : ∀ x ∈ hashedPairs node k l, x ∈ S) :
    (levels node k l).Nodup := by
  induction k with
  | zero => exact hl
  | succ k ih =>
    have hbelow := ih fun x hx => hS x (by
      obtain ⟨j, hj, hx⟩ := List.mem_flatMap.mp hx
      exact mem_hashedPairs node (by rw [List.mem_range] at hj; omega) hx)
    apply List.Nodup.map_on _ (nodup_levelPairs _ hbelow)
    intro x hx y hy hxy
    exact hinj (hS x (mem_hashedPairs node (Nat.lt_succ_self k) hx))
      (hS y (mem_hashedPairs node (Nat.lt_succ_self k) hy)) hxy

/-- Equal levels come from equal levels below. -/
theorem levels_inj (l l' : List H) (hl : l.Nodup) (hl' : l'.Nodup) (i j d : Nat)
    (hS : ∀ x ∈ hashedPairs node (i + d) l, x ∈ S) (hS' : ∀ x ∈ hashedPairs node (j + d) l', x ∈ S)
    (h : levels node (i + d) l = levels node (j + d) l') : levels node i l = levels node j l' := by
  induction d with
  | zero => exact h
  | succ d ih =>
    have hless : ∀ (n : Nat) (m : List H), (∀ x ∈ hashedPairs node (n + (d + 1)) m, x ∈ S) →
        ∀ x ∈ hashedPairs node (n + d) m, x ∈ S := by
      intro n m hm x hx
      obtain ⟨r, hr, hx⟩ := List.mem_flatMap.mp hx
      exact hm x (mem_hashedPairs node (by rw [List.mem_range] at hr; omega) hx)
    apply ih (hless i l hS) (hless j l' hS')
    apply levelPairs_inj _ _ (nodup_levels hinj l hl _ (hless i l hS))
      (nodup_levels hinj l' hl' _ (hless j l' hS'))
    -- the hashes agree, so the pairs do
    have hmem : ∀ (n : Nat) (m : List H), (∀ x ∈ hashedPairs node (n + (d + 1)) m, x ∈ S) →
        ∀ x ∈ levelPairs (levels node (n + d) m), x ∈ S := by
      intro n m hm x hx
      exact hm x (mem_hashedPairs node (by omega) hx)
    exact map_inj_on hinj _ _ (hmem i l hS) (hmem j l' hS') h

/-- Two lists with the same top of their trees are the same, where no leaf is also a hash. -/
theorem leaves_inj (l l' : List H) (hl : l.Nodup) (hl' : l'.Nodup) (hne : l ≠ []) (hne' : l' ≠ [])
    (k k' : Nat) (hS : ∀ x ∈ hashedPairs node k l, x ∈ S)
    (hS' : ∀ x ∈ hashedPairs node k' l', x ∈ S)
    (hleaf : ∀ x ∈ S, node x.1 x.2 ∉ l ∧ node x.1 x.2 ∉ l')
    (h : levels node k l = levels node k' l') : l = l' := by
  -- a list that is a proper level of a tree consists of hashes
  have habove : ∀ (m : List H) (d : Nat), (∀ x ∈ hashedPairs node (d + 1) m, x ∈ S) →
      ∀ a ∈ levels node (d + 1) m, ∃ x ∈ S, node x.1 x.2 = a := by
    intro m d hm a ha
    obtain ⟨x, hx, rfl⟩ := List.mem_map.mp ha
    exact ⟨x, hm x (mem_hashedPairs node (Nat.lt_succ_self d) hx), rfl⟩
  have hless : ∀ (m : List H) (n d : Nat), (∀ x ∈ hashedPairs node (n + d) m, x ∈ S) →
      ∀ x ∈ hashedPairs node n m, x ∈ S := by
    intro m n d hm x hx
    obtain ⟨r, hr, hx⟩ := List.mem_flatMap.mp hx
    exact hm x (mem_hashedPairs node (by rw [List.mem_range] at hr; omega) hx)
  rcases Nat.le_total k k' with hle | hle
  · obtain ⟨d, rfl⟩ := Nat.exists_eq_add_of_le' hle
    have hbelow := levels_inj hinj l l' hl hl' 0 d k (by simpa using hS) hS' (by simpa using h)
    cases d with
    | zero => exact hbelow
    | succ d =>
      obtain ⟨a, ha⟩ := List.exists_mem_of_ne_nil l hne
      have hup : a ∈ levels node (d + 1) l' := by
        rw [← hbelow]
        exact ha
      obtain ⟨x, hx, rfl⟩ := habove l' d (hless l' (d + 1) k hS') a hup
      exact absurd ha (hleaf x hx).1
  · obtain ⟨d, rfl⟩ := Nat.exists_eq_add_of_le' hle
    have hbelow := levels_inj hinj l l' hl hl' d 0 k' hS (by simpa using hS') (by simpa using h)
    cases d with
    | zero => exact hbelow
    | succ d =>
      obtain ⟨a, ha⟩ := List.exists_mem_of_ne_nil l' hne'
      have hup : a ∈ levels node (d + 1) l := by
        rw [hbelow]
        exact ha
      obtain ⟨x, hx, rfl⟩ := habove l d (hless l (d + 1) k' hS) a hup
      exact absurd ha (hleaf x hx).2

end Injective

end Lib.Merkle
