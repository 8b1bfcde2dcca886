import Mathlib.Data.List.Infix
import Mathlib.Data.List.Basic

/-!
# Replacing a string within a string

Every occurrence is replaced from the left, and a replacement is not searched again. Words joined by a separator are the
case used: the separator is replaced and the words are kept.
-/

namespace Lib

universe u

section Replace

variable {α : Type u} [DecidableEq α]

/-- The rest of the string is read after `n` more characters, which belong to an occurrence. -/
def replaceSkip (search replace : List α) : Nat → List α → List α
  | _, [] => []
  | n + 1, _ :: s => replaceSkip search replace n s
  | 0, c :: s =>
    if search.isPrefixOf (c :: s) then replace ++ replaceSkip search replace (search.length - 1) s
    else c :: replaceSkip search replace 0 s

/-- Every occurrence of `search`, from the left, is replaced. -/
def replaceStr (search replace s : List α) : List α := replaceSkip search replace 0 s

variable {search replace w rest t : List α} {a d : α} {words : List (List α)}

@[simp] theorem replaceStr_nil : replaceStr search replace [] = [] := rfl

theorem replaceSkip_append : replaceSkip search replace w.length (w ++ rest) = replaceStr search replace rest := by
  induction w with
  | nil => rfl
  | cons c w ih => exact ih

theorem replaceStr_search :
    replaceStr (a :: t) replace (a :: t ++ rest) = replace ++ replaceStr (a :: t) replace rest := by
  have hprefix : (a :: t).isPrefixOf (a :: (t ++ rest)) = true := by simp
  rw [List.cons_append, replaceStr, replaceSkip, if_pos hprefix, List.length_cons, Nat.add_sub_cancel,
    replaceSkip_append]

omit [DecidableEq α] in
/-- A search string whose first character does not come again has no occurrence across the end of a word. -/
theorem not_prefix_append (hw : ¬ a :: t <:+: d :: w) (hrest : ∀ c ∈ rest.head?, c ∉ t) :
    ¬ a :: t <+: d :: (w ++ rest) := by
  intro hprefix
  rw [List.cons_prefix_cons] at hprefix
  obtain ⟨rfl, ht⟩ := hprefix
  by_cases hlen : t.length ≤ w.length
  · apply hw
    have hin : t <+: w := List.prefix_of_prefix_length_le ht (List.prefix_append w rest) hlen
    exact (List.cons_prefix_cons.mpr ⟨rfl, hin⟩).isInfix
  · obtain ⟨tail, rfl⟩ := List.prefix_of_prefix_length_le (List.prefix_append w rest) ht (by omega)
    rw [List.prefix_append_right_inj] at ht
    cases tail with
    | nil => simp at hlen
    | cons c tail =>
      obtain ⟨more, rfl⟩ := ht
      exact hrest c rfl (by simp)

theorem replaceStr_word (hw : ¬ a :: t <:+: w) (hrest : ∀ c ∈ rest.head?, c ∉ t) :
    replaceStr (a :: t) replace (w ++ rest) = w ++ replaceStr (a :: t) replace rest := by
  induction w with
  | nil => rfl
  | cons c w ih =>
    have hnot : ¬ (a :: t).isPrefixOf (c :: (w ++ rest)) = true := by
      rw [List.isPrefixOf_iff_prefix]
      exact not_prefix_append hw hrest
    have htail : ¬ a :: t <:+: w := fun h => hw (h.trans (List.suffix_cons c w).isInfix)
    rw [List.cons_append, replaceStr, replaceSkip, if_neg hnot]
    exact congrArg (c :: ·) (ih htail)

theorem replaceStr_cons_ne (hd : d ≠ a) :
    replaceStr (a :: t) replace (d :: rest) = d :: replaceStr (a :: t) replace rest := by
  have hnot : ¬ (a :: t).isPrefixOf (d :: rest) = true := by
    rw [List.isPrefixOf_iff_prefix, List.cons_prefix_cons]
    exact fun h => hd h.1.symm
  rw [replaceStr, replaceSkip, if_neg hnot, replaceStr]

theorem replaceStr_eq_self (hw : ¬ a :: t <:+: w) : replaceStr (a :: t) replace w = w := by
  have h : replaceStr (a :: t) replace (w ++ []) = w ++ replaceStr (a :: t) replace [] := replaceStr_word hw (by simp)
  simpa using h

theorem replaceStr_intercalate (ha : a ∉ t) (hwords : ∀ w ∈ words, ¬ a :: t <:+: w) :
    replaceStr (a :: t) replace ((a :: t).intercalate words) = replace.intercalate words := by
  induction words with
  | nil => rfl
  | cons w words ih =>
    have hw : ¬ a :: t <:+: w := hwords w List.mem_cons_self
    cases words with
    | nil =>
      rw [List.intercalate_singleton, List.intercalate_singleton]
      exact replaceStr_eq_self hw
    | cons next words =>
      have hrest := ih fun w hw => hwords w (List.mem_cons_of_mem _ hw)
      rw [List.intercalate_cons_cons, List.intercalate_cons_cons, List.append_assoc, List.append_assoc,
        replaceStr_word hw (by simpa using ha), replaceStr_search, hrest]

/-- A separator that the search string does not have keeps the words apart. -/
theorem replaceStr_intercalate_other (hd : d ∉ a :: t) (hwords : ∀ w ∈ words, ¬ a :: t <:+: w) :
    replaceStr (a :: t) replace ([d].intercalate words) = [d].intercalate words := by
  induction words with
  | nil => rfl
  | cons w words ih =>
    have hw : ¬ a :: t <:+: w := hwords w List.mem_cons_self
    cases words with
    | nil =>
      rw [List.intercalate_singleton]
      exact replaceStr_eq_self hw
    | cons next words =>
      have hrest := ih fun w hw => hwords w (List.mem_cons_of_mem _ hw)
      have hhead : ∀ c ∈ ([d] ++ [d].intercalate (next :: words)).head?, c ∉ t := by
        intro c hc
        simp only [List.singleton_append, List.head?_cons, Option.mem_def, Option.some.injEq] at hc
        exact fun h => hd (List.mem_cons_of_mem a (hc ▸ h))
      have hne : d ≠ a := fun h => hd (h ▸ List.mem_cons_self)
      rw [List.intercalate_cons_cons, List.append_assoc, replaceStr_word hw hhead, List.singleton_append,
        replaceStr_cons_ne hne, hrest]

end Replace

end Lib
