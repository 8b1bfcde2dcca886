import Mathlib.Algebra.BigOperators.Group.Finset.Basic
import Mathlib.Algebra.BigOperators.Group.List.Basic
import Mathlib.Algebra.Order.BigOperators.Group.Finset
import Mathlib.Data.Fintype.BigOperators
import Mathlib.Data.List.AList

/-!
# Elements in a vector, in buckets and in an index

A vector whose elements know their positions, with swaps and removal at the end; elements that lie in several
buckets, and how many buckets hold one; lists as buckets and their total length; and a map whose entries are
changed in place.
-/

namespace Lib

section Vector

variable {α : Type*}

/-- Each element of the vector knows its position, and no other element has one. -/
def Placed (v : List α) (pos : α → Option Nat) : Prop := ∀ x i, pos x = some i ↔ v[i]? = some x

theorem placed_nil : Placed [] (fun _ : α => none) := by
  intro x i
  simp

variable {v : List α} {pos : α → Option Nat}

theorem Placed.nodup (h : Placed v pos) : v.Nodup := by
  rw [List.nodup_iff_getElem?_ne_getElem?]
  intro i j hij hj heq
  have hget := List.getElem?_eq_getElem hj
  have hi := (h _ i).mpr (heq.trans hget)
  have hj := (h _ j).mpr hget
  rw [hi, Option.some.injEq] at hj
  omega

theorem Placed.mem_iff (h : Placed v pos) (x : α) : x ∈ v ↔ (pos x).isSome := by
  rw [List.mem_iff_getElem?, Option.isSome_iff_exists]
  exact exists_congr fun i => (h x i).symm

variable [DecidableEq α]

theorem Placed.push (h : Placed v pos) {x : α} (hx : pos x = none) :
    Placed (v ++ [x]) (Function.update pos x (some v.length)) := by
  intro y i
  rcases Nat.lt_trichotomy i v.length with hi | rfl | hi
  · rw [List.getElem?_append_left hi, ← h y i]
    by_cases hy : y = x
    · subst hy
      rw [Function.update_self, hx, Option.some.injEq]
      exact iff_of_false (by omega) (by simp)
    · rw [Function.update_of_ne hy]
  · rw [List.getElem?_append_right le_rfl, Nat.sub_self, List.getElem?_cons_zero, Option.some.injEq]
    by_cases hy : y = x
    · subst hy
      rw [Function.update_self]
      exact iff_of_true rfl rfl
    · rw [Function.update_of_ne hy, h y, List.getElem?_eq_none le_rfl]
      exact iff_of_false (by simp) (Ne.symm hy)
  · rw [List.getElem?_eq_none (by rw [List.length_append, List.length_singleton]; omega)]
    by_cases hy : y = x
    · subst hy
      rw [Function.update_self, Option.some.injEq]
      exact iff_of_false (by omega) (by simp)
    · rw [Function.update_of_ne hy, h y, List.getElem?_eq_none (by omega)]

/-- Two elements change places. -/
theorem Placed.swap (h : Placed v pos) {i j : Nat} {x y : α} (hi : v[i]? = some x) (hj : v[j]? = some y)
    (hij : i ≠ j) :
    Placed ((v.set i y).set j x) (Function.update (Function.update pos x (some j)) y (some i)) := by
  have hx := (h x i).mpr hi
  have hy := (h y j).mpr hj
  have hxy : x ≠ y := by
    rintro rfl
    rw [hx, Option.some.injEq] at hy
    exact hij hy
  obtain ⟨hilt, -⟩ := List.getElem?_eq_some_iff.mp hi
  obtain ⟨hjlt, -⟩ := List.getElem?_eq_some_iff.mp hj
  intro z k
  rw [List.getElem?_set, List.getElem?_set, List.length_set]
  by_cases hzy : z = y
  · subst hzy
    rw [Function.update_self, Option.some.injEq]
    by_cases hjk : j = k
    · subst hjk
      rw [if_pos rfl, if_pos hjlt, Option.some.injEq]
      exact iff_of_false hij hxy
    · rw [if_neg hjk]
      by_cases hik : i = k
      · subst hik
        rw [if_pos rfl, if_pos hilt]
        exact iff_of_true rfl rfl
      · rw [if_neg hik, ← h z k, hy, Option.some.injEq]
        exact iff_of_false hik hjk
  · rw [Function.update_of_ne hzy]
    by_cases hzx : z = x
    · subst hzx
      rw [Function.update_self, Option.some.injEq]
      by_cases hjk : j = k
      · subst hjk
        rw [if_pos rfl, if_pos hjlt]
        exact iff_of_true rfl rfl
      · rw [if_neg hjk]
        by_cases hik : i = k
        · subst hik
          rw [if_pos rfl, if_pos hilt, Option.some.injEq]
          exact iff_of_false hjk (Ne.symm hxy)
        · rw [if_neg hik, ← h z k, hx, Option.some.injEq]
          exact iff_of_false hjk hik
    · rw [Function.update_of_ne hzx, h z k]
      by_cases hjk : j = k
      · subst hjk
        rw [if_pos rfl, if_pos hjlt, hj, Option.some.injEq, Option.some.injEq]
        exact iff_of_false (Ne.symm hzy) (Ne.symm hzx)
      · rw [if_neg hjk]
        by_cases hik : i = k
        · subst hik
          rw [if_pos rfl, if_pos hilt, hi, Option.some.injEq, Option.some.injEq]
          exact iff_of_false (Ne.symm hzx) (Ne.symm hzy)
        · rw [if_neg hik]

/-- The last element leaves. -/
theorem Placed.pop (h : Placed v pos) {x : α} (hx : v[v.length - 1]? = some x) :
    Placed v.dropLast (Function.update pos x none) := by
  obtain ⟨hlt, -⟩ := List.getElem?_eq_some_iff.mp hx
  intro z k
  rw [List.getElem?_dropLast]
  by_cases hzx : z = x
  · subst hzx
    rw [Function.update_self]
    refine iff_of_false (by simp) ?_
    split
    · intro hget
      have hk := (h z k).mpr hget
      rw [(h z _).mpr hx, Option.some.injEq] at hk
      omega
    · simp
  · rw [Function.update_of_ne hzx, h z k]
    split
    · rfl
    · rcases Nat.lt_or_ge k v.length with hk | hk
      · obtain rfl : k = v.length - 1 := by omega
        rw [hx, Option.some.injEq]
        exact iff_of_false (Ne.symm hzx) (by simp)
      · rw [List.getElem?_eq_none hk]

omit [DecidableEq α] in
/-- An element takes the place of another one. -/
theorem mem_set_of_nodup {i : Nat} {x y z : α} (hnodup : v.Nodup) (hi : v[i]? = some y) :
    z ∈ v.set i x ↔ z = x ∨ z ∈ v ∧ z ≠ y := by
  obtain ⟨hlt, hget⟩ := List.getElem?_eq_some_iff.mp hi
  have hsplit : v.take i ++ y :: v.drop (i + 1) = v := by
    rw [← hget, ← List.drop_eq_getElem_cons hlt, List.take_append_drop]
  have hout := List.nodup_middle.mp (hsplit.symm ▸ hnodup)
  have hy := (List.nodup_cons.mp hout).1
  rw [List.set_eq_take_append_cons_drop, if_pos hlt]
  nth_rewrite 3 [← hsplit]
  rw [List.mem_append, List.mem_cons, List.mem_append, List.mem_cons]
  rw [List.mem_append, not_or] at hy
  constructor
  · rintro (hz | rfl | hz)
    · exact Or.inr ⟨Or.inl hz, fun heq => hy.1 (heq ▸ hz)⟩
    · exact Or.inl rfl
    · exact Or.inr ⟨Or.inr (Or.inr hz), fun heq => hy.2 (heq ▸ hz)⟩
  · rintro (rfl | ⟨hz | rfl | hz, hne⟩)
    · exact Or.inr (Or.inl rfl)
    · exact Or.inl hz
    · exact absurd rfl hne
    · exact Or.inr (Or.inr hz)

end Vector

section Buckets

variable {α β : Type*} [DecidableEq α] [Fintype β]

/-- The buckets that hold an element. -/
def holders (bucket : β → Finset α) (x : α) : Finset β := Finset.univ.filter fun b => x ∈ bucket b

variable {bucket : β → Finset α} {x y : α} {b : β}

theorem mem_holders : b ∈ holders bucket x ↔ x ∈ bucket b := by
  rw [holders, Finset.mem_filter, and_iff_right (Finset.mem_univ b)]

theorem holders_eraseAll_self : holders (fun b => (bucket b).erase x) x = ∅ := by
  ext c
  rw [mem_holders]
  exact iff_of_false (Finset.notMem_erase x _) (Finset.notMem_empty c)

theorem holders_eraseAll_of_ne (h : y ≠ x) :
    holders (fun b => (bucket b).erase x) y = holders bucket y := by
  ext c
  rw [mem_holders, mem_holders, Finset.mem_erase, and_iff_right h]

variable [DecidableEq β]

theorem holders_insert_self :
    holders (Function.update bucket b (insert x (bucket b))) x = insert b (holders bucket x) := by
  ext c
  rw [mem_holders, Finset.mem_insert, mem_holders]
  by_cases hc : c = b
  · subst hc
    rw [Function.update_self]
    exact iff_of_true (Finset.mem_insert_self x _) (Or.inl rfl)
  · rw [Function.update_of_ne hc, or_iff_right hc]

theorem holders_insert_of_ne (h : y ≠ x) :
    holders (Function.update bucket b (insert x (bucket b))) y = holders bucket y := by
  ext c
  rw [mem_holders, mem_holders]
  by_cases hc : c = b
  · subst hc
    rw [Function.update_self, Finset.mem_insert, or_iff_right h]
  · rw [Function.update_of_ne hc]

theorem holders_erase_self :
    holders (Function.update bucket b ((bucket b).erase x)) x = (holders bucket x).erase b := by
  ext c
  rw [mem_holders, Finset.mem_erase, mem_holders]
  by_cases hc : c = b
  · subst hc
    rw [Function.update_self]
    exact iff_of_false (Finset.notMem_erase x _) fun h => h.1 rfl
  · rw [Function.update_of_ne hc, and_iff_right hc]

theorem holders_erase_of_ne (h : y ≠ x) :
    holders (Function.update bucket b ((bucket b).erase x)) y = holders bucket y := by
  ext c
  rw [mem_holders, mem_holders]
  by_cases hc : c = b
  · subst hc
    rw [Function.update_self, Finset.mem_erase, and_iff_right h]
  · rw [Function.update_of_ne hc]

end Buckets

section Lists

variable {α β : Type*} [Fintype β]

/-- The number of places that the buckets take. -/
def totalLength (bucket : β → List α) : Nat := ∑ b, (bucket b).length

/-- Where each element is in one bucket, once, there are as many elements as places. -/
theorem card_eq_totalLength [DecidableEq α] (bucket : β → List α) (S : Finset α) (hnodup : ∀ b, (bucket b).Nodup)
    (hmem : ∀ x, x ∈ S ↔ ∃ b, x ∈ bucket b) (hone : ∀ x b c, x ∈ bucket b → x ∈ bucket c → b = c) :
    S.card = totalLength bucket := by
  have hunion : S = Finset.univ.biUnion fun b => (bucket b).toFinset := by
    ext x
    rw [hmem, Finset.mem_biUnion]
    exact exists_congr fun b => by rw [List.mem_toFinset, and_iff_right (Finset.mem_univ b)]
  rw [hunion, Finset.card_biUnion]
  · exact Finset.sum_congr rfl fun b _ => List.toFinset_card_of_nodup (hnodup b)
  · intro b _ c _ hbc
    rw [Function.onFun, Finset.disjoint_left]
    intro x hb hc
    exact hbc (hone x b c (List.mem_toFinset.mp hb) (List.mem_toFinset.mp hc))

variable [DecidableEq β]

theorem totalLength_update (bucket : β → List α) (b : β) (l : List α) :
    totalLength (Function.update bucket b l) + (bucket b).length = totalLength bucket + l.length := by
  have hrest : ∑ c ∈ Finset.univ.erase b, (Function.update bucket b l c).length =
      ∑ c ∈ Finset.univ.erase b, (bucket c).length := by
    apply Finset.sum_congr rfl
    intro c hc
    rw [Function.update_of_ne (Finset.ne_of_mem_erase hc)]
  have hnew := Finset.sum_erase_add Finset.univ (fun c => (Function.update bucket b l c).length) (Finset.mem_univ b)
  have hold := Finset.sum_erase_add Finset.univ (fun c => (bucket c).length) (Finset.mem_univ b)
  rw [Function.update_self] at hnew
  unfold totalLength
  omega

end Lists

section Modify

variable {κ ν : Type*} [DecidableEq κ]

/-- The entry under a key is changed where there is one. -/
def modifyAt (m : AList fun _ : κ => ν) (k : κ) (f : ν → ν) : AList fun _ : κ => ν :=
  match m.lookup k with
  | none => m
  | some x => m.insert k (f x)

theorem lookup_modifyAt (m : AList fun _ : κ => ν) (k k' : κ) (f : ν → ν) :
    (modifyAt m k f).lookup k' = if k' = k then (m.lookup k').map f else m.lookup k' := by
  rw [modifyAt]
  cases hfound : m.lookup k with
  | none =>
    by_cases hk : k' = k
    · subst hk
      rw [if_pos rfl, hfound]
      rfl
    · rw [if_neg hk]
  | some x =>
    by_cases hk : k' = k
    · subst hk
      rw [if_pos rfl, AList.lookup_insert, hfound]
      rfl
    · rw [if_neg hk, AList.lookup_insert_ne hk]

end Modify

end Lib
