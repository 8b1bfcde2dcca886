import Mathlib.Data.List.Nodup
import Mathlib.Order.Bounds.Basic

/-!
# Ordered sets

A set as the list of its items in ascending order. Two sets with the same items are equal, and the first item of a kind
is the least one.
-/

namespace Lib

universe u

/-- Each item once, the least in front. -/
structure OrderedSet (α : Type u) [LinearOrder α] where
  elems : List α
  sorted : elems.Pairwise (· < ·)

/-- The place of an item that may be there already. -/
def orderedInsert {α : Type u} [LinearOrder α] (a : α) : List α → List α
  | [] => [a]
  | b :: l => if a < b then a :: b :: l else if a = b then b :: l else b :: orderedInsert a l

namespace OrderedSet

variable {α : Type u} [LinearOrder α] {S T : OrderedSet α} {a b : α} {l : List α}

theorem mem_orderedInsert : b ∈ orderedInsert a l ↔ b = a ∨ b ∈ l := by
  induction l with
  | nil => simp [orderedInsert]
  | cons c l ih =>
    rw [orderedInsert]
    by_cases hlt : a < c
    · rw [if_pos hlt, List.mem_cons]
    rw [if_neg hlt]
    by_cases heq : a = c
    · rw [if_pos heq, heq, List.mem_cons, ← or_assoc, or_self]
    · rw [if_neg heq, List.mem_cons, ih, List.mem_cons, or_left_comm]

theorem orderedInsert_sorted (h : l.Pairwise (· < ·)) : (orderedInsert a l).Pairwise (· < ·) := by
  induction l with
  | nil => exact List.pairwise_singleton _ _
  | cons c l ih =>
    obtain ⟨hfirst, hrest⟩ := List.pairwise_cons.mp h
    rw [orderedInsert]
    by_cases hlt : a < c
    · rw [if_pos hlt]
      apply List.Pairwise.cons _ h
      intro b hb
      cases List.mem_cons.mp hb with
      | inl heq => exact heq ▸ hlt
      | inr hmem => exact hlt.trans (hfirst b hmem)
    rw [if_neg hlt]
    by_cases heq : a = c
    · rw [if_pos heq]
      exact h
    · rw [if_neg heq]
      apply List.Pairwise.cons _ (ih hrest)
      intro b hb
      cases mem_orderedInsert.mp hb with
      | inl hb => exact hb ▸ lt_of_le_of_ne (not_lt.mp hlt) (Ne.symm heq)
      | inr hb => exact hfirst b hb

def empty : OrderedSet α := ⟨[], List.Pairwise.nil⟩

def insert (S : OrderedSet α) (a : α) : OrderedSet α := ⟨orderedInsert a S.elems, orderedInsert_sorted S.sorted⟩

instance : Membership α (OrderedSet α) := ⟨fun S a => a ∈ S.elems⟩

theorem mem_iff : a ∈ S ↔ a ∈ S.elems := Iff.rfl

@[simp] theorem not_mem_empty : ¬ a ∈ (empty : OrderedSet α) := List.not_mem_nil

@[simp] theorem mem_insert : b ∈ S.insert a ↔ b = a ∨ b ∈ S := mem_orderedInsert

/-- The items of a list join a set one after another. -/
def insertAll (S : OrderedSet α) (l : List α) : OrderedSet α := l.foldl insert S

@[simp] theorem mem_insertAll : b ∈ S.insertAll l ↔ b ∈ S ∨ b ∈ l := by
  induction l generalizing S with
  | nil => simp [insertAll]
  | cons a l ih =>
    rw [insertAll, List.foldl_cons]
    show b ∈ (S.insert a).insertAll l ↔ _
    rw [ih, mem_insert, List.mem_cons, or_comm (a := b = a), or_assoc]

/-- The items decide the set. -/
theorem ext_mem (h : ∀ a, a ∈ S ↔ a ∈ T) : S = T := by
  have hS : S.elems.Nodup := S.sorted.imp ne_of_lt
  have hT : T.elems.Nodup := T.sorted.imp ne_of_lt
  have hperm : S.elems.Perm T.elems := (List.perm_ext_iff_of_nodup hS hT).mpr h
  have hlists : S.elems = T.elems :=
    hperm.eq_of_pairwise (fun a b _ _ hab hba => absurd hab (lt_asymm hba)) S.sorted T.sorted
  cases S
  cases T
  cases hlists
  rfl

/-- What satisfies a test and comes first is the least that does. -/
theorem find?_eq_some_iff {test : α → Bool} :
    S.elems.find? test = some a ↔ IsLeast {b | b ∈ S ∧ test b = true} a := by
  rw [List.find?_eq_some_iff_append]
  constructor
  · intro h
    obtain ⟨htest, before, after, helems, hbefore⟩ := h
    have hmem : a ∈ S := by rw [mem_iff, helems]; exact List.mem_append_right _ List.mem_cons_self
    apply And.intro (show a ∈ S ∧ test a = true from ⟨hmem, htest⟩)
    intro b hb
    have hsorted := S.sorted
    have hbmem := hb.1
    rw [mem_iff, helems, List.mem_append, List.mem_cons] at hbmem
    rw [helems, List.pairwise_append, List.pairwise_cons] at hsorted
    cases hbmem with
    | inl hfirst =>
      have hno := hbefore b hfirst
      rw [hb.2] at hno
      cases hno
    | inr hlater =>
      cases hlater with
      | inl heq => exact heq ▸ le_rfl
      | inr hlater => exact (hsorted.2.1.1 b hlater).le
  · intro h
    obtain ⟨hmem, hleast⟩ := h
    obtain ⟨before, after, helems⟩ := List.append_of_mem hmem.1
    refine ⟨hmem.2, before, after, helems, ?_⟩
    intro b hb
    have hsorted := S.sorted
    rw [helems, List.pairwise_append] at hsorted
    have hlt : b < a := hsorted.2.2 b hb a List.mem_cons_self
    have hbmem : b ∈ S := by rw [mem_iff, helems]; exact List.mem_append_left _ hb
    rw [Bool.not_eq_true', ← Bool.not_eq_true]
    intro htest
    exact absurd (hleast ⟨hbmem, htest⟩) (not_le.mpr hlt)

end OrderedSet

end Lib
