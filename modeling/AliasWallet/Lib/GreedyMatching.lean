import Mathlib.Data.List.Forall2
import Mathlib.Data.List.NodupEquivFin

/-!
# Greedy matching in order

The items of one list are matched, in their order, with later and later entries of another list. Taking the first entry
that fits never misses a matching.
-/

namespace Lib

universe u v

variable {α : Type u} {β : Type v}

/-- Each item in turn takes the first entry that it fits and that is still free. -/
def greedyMatch (fits : α → β → Bool) : List α → List β → Bool
  | [], _ => true
  | _ :: _, [] => false
  | a :: as, b :: bs => if fits a b then greedyMatch fits as bs else greedyMatch fits (a :: as) bs

section Matching

variable {R : α → β → Prop} {a : α} {b : β} {as : List α} {bs : List β}

@[simp] theorem greedyMatch_nil (fits : α → β → Bool) (bs : List β) : greedyMatch fits [] bs = true := by
  rw [greedyMatch]

theorem greedyMatch_cons (fits : α → β → Bool) (a : α) (b : β) (as : List α) (bs : List β) :
    greedyMatch fits (a :: as) (b :: bs) =
      if fits a b then greedyMatch fits as bs else greedyMatch fits (a :: as) bs := by
  rw [greedyMatch]

theorem SublistForall₂.length_le (h : List.SublistForall₂ R as bs) : as.length ≤ bs.length := by
  obtain ⟨bs', hforall, hsublist⟩ := List.sublistForall₂_iff.mp h
  rw [hforall.length_eq]
  exact hsublist.length_le

/-- A matching of fewer items needs no more entries. -/
theorem SublistForall₂.of_cons (h : List.SublistForall₂ R (a :: as) bs) : List.SublistForall₂ R as bs := by
  induction bs with
  | nil => cases h
  | cons b bs ih =>
    cases h with
    | cons _ h => exact h.cons_right
    | cons_right h => exact (ih h).cons_right

theorem SublistForall₂.reverse (h : List.SublistForall₂ R as bs) : List.SublistForall₂ R as.reverse bs.reverse := by
  obtain ⟨bs', hforall, hsublist⟩ := List.sublistForall₂_iff.mp h
  exact List.sublistForall₂_iff.mpr ⟨bs'.reverse, List.forall₂_reverse_iff.mpr hforall, hsublist.reverse⟩

/-- Exchange: an item that fits the first entry may as well take it. -/
theorem sublistForall₂_cons_iff (h : R a b) :
    List.SublistForall₂ R (a :: as) (b :: bs) ↔ List.SublistForall₂ R as bs := by
  constructor
  · intro hmatch
    cases hmatch with
    | cons _ hmatch => exact hmatch
    | cons_right hmatch => exact SublistForall₂.of_cons hmatch
  · exact fun hmatch => .cons h hmatch

theorem sublistForall₂_skip_iff (h : ¬ R a b) :
    List.SublistForall₂ R (a :: as) (b :: bs) ↔ List.SublistForall₂ R (a :: as) bs := by
  constructor
  · intro hmatch
    cases hmatch with
    | cons hfits _ => exact absurd hfits h
    | cons_right hmatch => exact hmatch
  · exact fun hmatch => hmatch.cons_right

/-- The greedy scan finds a matching exactly when there is one. -/
theorem greedyMatch_iff (fits : α → β → Bool) (as : List α) (bs : List β) :
    greedyMatch fits as bs = true ↔ List.SublistForall₂ (fun a b => fits a b = true) as bs := by
  induction bs generalizing as with
  | nil =>
    cases as with
    | nil => simp [List.SublistForall₂.nil]
    | cons a as =>
      rw [greedyMatch]
      simp only [Bool.false_eq_true, false_iff]
      intro h
      cases h
  | cons b bs ih =>
    cases as with
    | nil => simp [List.SublistForall₂.nil]
    | cons a as =>
      rw [greedyMatch_cons]
      by_cases h : fits a b = true
      · rw [if_pos h, ih as]
        exact (sublistForall₂_cons_iff (R := fun a b => fits a b = true) h).symm
      · rw [if_neg h, ih (a :: as)]
        exact (sublistForall₂_skip_iff (R := fun a b => fits a b = true) h).symm

theorem greedyMatch_of_length_lt (fits : α → β → Bool) (h : bs.length < as.length) :
    greedyMatch fits as bs = false := by
  rw [← Bool.not_eq_true, greedyMatch_iff]
  intro hmatch
  have hlen := SublistForall₂.length_le hmatch
  omega

/-- A matching as an assignment of the items to later and later entries. -/
theorem sublistForall₂_iff_strictMono (as : List α) (bs : List β) :
    List.SublistForall₂ R as bs ↔
      ∃ f : Fin as.length → Fin bs.length, StrictMono f ∧ ∀ i, R (as.get i) (bs.get (f i)) := by
  rw [List.sublistForall₂_iff]
  constructor
  · intro h
    obtain ⟨bs', hforall, hsublist⟩ := h
    obtain ⟨hlen, hget⟩ := List.forall₂_iff_get.mp hforall
    obtain ⟨f, hf⟩ := List.sublist_iff_exists_fin_orderEmbedding_get_eq.mp hsublist
    refine ⟨fun i => f (i.cast hlen), ?_, ?_⟩
    · intro i j hij
      exact f.strictMono hij
    · intro i
      rw [← hf]
      exact hget i i.isLt (i.cast hlen).isLt
  · intro h
    obtain ⟨f, hmono, hf⟩ := h
    refine ⟨List.ofFn fun i => bs.get (f i), ?_, ?_⟩
    · rw [List.forall₂_iff_get]
      refine ⟨List.length_ofFn.symm, fun i hi _ => ?_⟩
      rw [List.get_ofFn]
      exact hf ⟨i, hi⟩
    · rw [List.sublist_iff_exists_fin_orderEmbedding_get_eq]
      refine ⟨OrderEmbedding.ofStrictMono (fun i => f (i.cast (List.length_ofFn))) ?_, ?_⟩
      · intro i j hij
        exact hmono hij
      · intro i
        rw [List.get_ofFn]
        rfl

end Matching

end Lib
