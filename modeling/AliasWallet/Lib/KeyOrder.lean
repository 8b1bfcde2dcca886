import Mathlib.Data.Prod.Lex

/-!
# Comparisons by a key

Two tests that compare the keys of values, `lt` and `eqv`, make a strict total order whose ties are the pairs that `eqv`
accepts. Values that are compared by two parts one after the other have the pair of the keys as their key.
-/

namespace Lib

universe u v w x

variable {α : Type u} {β : Type v} {κ : Type w} {ι : Type x}

/-- Of two values with `P` exactly one is less, or they are the same. -/
structure StrictTotal (P : α → Prop) (lt eqv : α → α → Bool) : Prop where
  irrefl : ∀ {a}, P a → lt a a = false
  trans : ∀ {a b c}, P a → P b → P c → lt a b = true → lt b c = true → lt a c = true
  trichotomous : ∀ {a b}, P a → P b →
    lt a b = true ∧ eqv a b = false ∧ lt b a = false ∨ lt a b = false ∧ eqv a b = true ∧ lt b a = false ∨
      lt a b = false ∧ eqv a b = false ∧ lt b a = true

/-- The tests compare the keys of the values with `P`. -/
structure ComparesKeys [LT κ] (P : α → Prop) (key : α → κ) (lt eqv : α → α → Bool) : Prop where
  lt_iff : ∀ {a b}, P a → P b → (lt a b = true ↔ key a < key b)
  eqv_iff : ∀ {a b}, P a → P b → (eqv a b = true ↔ key a = key b)

namespace ComparesKeys

variable {P : α → Prop} {lt eqv : α → α → Bool}

theorem mono [LT κ] {key : α → κ} (h : ComparesKeys P key lt eqv) {Q : α → Prop} (hQ : ∀ a, Q a → P a) :
    ComparesKeys Q key lt eqv where
  lt_iff ha hb := h.lt_iff (hQ _ ha) (hQ _ hb)
  eqv_iff ha hb := h.eqv_iff (hQ _ ha) (hQ _ hb)

theorem lt_eq_false_iff [LT κ] {key : α → κ} (h : ComparesKeys P key lt eqv) {a b : α} (ha : P a) (hb : P b) :
    lt a b = false ↔ ¬ key a < key b := by
  rw [← h.lt_iff ha hb, Bool.not_eq_true]

theorem eqv_eq_false_iff [LT κ] {key : α → κ} (h : ComparesKeys P key lt eqv) {a b : α} (ha : P a) (hb : P b) :
    eqv a b = false ↔ key a ≠ key b := by
  rw [ne_eq, ← h.eqv_iff ha hb, Bool.not_eq_true]

theorem strictTotal [LinearOrder κ] {key : α → κ} (h : ComparesKeys P key lt eqv) : StrictTotal P lt eqv where
  irrefl ha := (h.lt_eq_false_iff ha ha).mpr (lt_irrefl _)
  trans ha hb hc hab hbc := (h.lt_iff ha hc).mpr (((h.lt_iff ha hb).mp hab).trans ((h.lt_iff hb hc).mp hbc))
  trichotomous := by
    intro a b ha hb
    rw [h.lt_iff ha hb, h.lt_iff hb ha, h.eqv_iff ha hb, h.lt_eq_false_iff ha hb, h.lt_eq_false_iff hb ha,
      h.eqv_eq_false_iff ha hb]
    cases lt_trichotomy (key a) (key b) with
    | inl hlt => exact .inl ⟨hlt, hlt.ne, hlt.asymm⟩
    | inr hge =>
      cases hge with
      | inl heq => exact .inr (.inl ⟨heq.not_lt, heq, heq.not_gt⟩)
      | inr hgt => exact .inr (.inr ⟨hgt.asymm, hgt.ne', hgt⟩)

/-- The first part is compared first. -/
theorem lex [LinearOrder κ] [LinearOrder ι] {key : α → κ} (h : ComparesKeys P key lt eqv) {γ : Type v} {Q : β → Prop}
    {key' : β → ι} {lt' eqv' : β → β → Bool} (h' : ComparesKeys Q key' lt' eqv') (f : γ → α) (g : γ → β) :
    ComparesKeys (fun s => P (f s) ∧ Q (g s)) (fun s => toLex (key (f s), key' (g s)))
      (fun s t => lt (f s) (f t) || (eqv (f s) (f t) && lt' (g s) (g t)))
      (fun s t => eqv (f s) (f t) && eqv' (g s) (g t)) where
  lt_iff hs ht := by
    rw [Prod.Lex.toLex_lt_toLex, Bool.or_eq_true, Bool.and_eq_true, h.lt_iff hs.1 ht.1, h.eqv_iff hs.1 ht.1,
      h'.lt_iff hs.2 ht.2]
  eqv_iff hs ht := by
    rw [Bool.and_eq_true, h.eqv_iff hs.1 ht.1, h'.eqv_iff hs.2 ht.2, toLex_inj, Prod.mk.injEq]

end ComparesKeys

end Lib
