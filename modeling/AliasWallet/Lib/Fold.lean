import Mathlib.Logic.Basic

/-!
# Folds that may fail

Rules for `List.foldlM` in `Option`: taking a successful fold apart at one element, invariants, and
comparing two folds over the same list.
-/

namespace Lib

universe u v

variable {σ : Type u} {α : Type v} {f g : σ → α → Option σ}

/-- A successful fold passes through each element of the list. -/
theorem foldlM_eq_some_split (pre post : List α) (x : α) (s r : σ) :
    (pre ++ x :: post).foldlM f s = some r ↔
      ∃ t t', pre.foldlM f s = some t ∧ f t x = some t' ∧ post.foldlM f t' = some r := by
  simp [List.foldlM_append, Option.bind_eq_some_iff]

/-- What every round preserves holds at the end. -/
theorem foldlM_preserves (Inv : σ → Prop) (l : List α) (s r : σ) (hs : Inv s)
    (hstep : ∀ t, ∀ x ∈ l, ∀ t', Inv t → f t x = some t' → Inv t') (hr : l.foldlM f s = some r) :
    Inv r := by
  induction l generalizing s with
  | nil =>
    obtain rfl : s = r := by simpa using hr
    exact hs
  | cons x l ih =>
    obtain ⟨t, t', ht, hx, hl⟩ := (foldlM_eq_some_split [] l x s r).mp hr
    obtain rfl : s = t := by simpa using ht
    apply ih t' (hstep s x List.mem_cons_self t' hs hx) _ hl
    intro t y hy
    exact hstep t y (List.mem_cons_of_mem x hy)

/-- A fold whose rounds are those of another one behind a gate for each element: it succeeds as the
other does, where all gates are open. -/
theorem foldlM_gated (gate : α → Prop) [DecidablePred gate] (Inv : σ → Prop) (l : List α) (s : σ)
    (hs : Inv s) (hgate : ∀ t, ∀ x ∈ l, Inv t → f t x = if gate x then g t x else none)
    (hstep : ∀ t, ∀ x ∈ l, ∀ t', Inv t → g t x = some t' → Inv t') :
    l.foldlM f s = if ∀ x ∈ l, gate x then l.foldlM g s else none := by
  induction l generalizing s with
  | nil => simp
  | cons x l ih =>
    have hx := hgate s x List.mem_cons_self hs
    by_cases hopen : gate x
    · rw [if_pos hopen] at hx
      rw [List.foldlM_cons, hx, List.foldlM_cons]
      cases hround : g s x with
      | none => simp
      | some t =>
        have ht := hstep s x List.mem_cons_self t hs hround
        have hl := ih t ht (fun t y hy => hgate t y (List.mem_cons_of_mem x hy))
          (fun t y hy => hstep t y (List.mem_cons_of_mem x hy))
        simp [hl, hopen]
    · rw [if_neg hopen] at hx
      rw [List.foldlM_cons, hx]
      simp [hopen]

/-- A fold succeeds where each round does, with what the rounds keep up. -/
theorem foldlM_total (Inv : List α → σ → Prop) (l : List α) (s : σ) (hs : Inv [] s)
    (hstep : ∀ done x rest, l = done ++ x :: rest → ∀ t, Inv done t →
      ∃ t', f t x = some t' ∧ Inv (done ++ [x]) t') :
    ∃ r, l.foldlM f s = some r ∧ Inv l r := by
  have hgeneral : ∀ rest done t, l = done ++ rest → Inv done t →
      ∃ r, rest.foldlM f t = some r ∧ Inv l r := by
    intro rest
    induction rest with
    | nil =>
      intro done t hl ht
      rw [List.append_nil] at hl
      exact ⟨t, rfl, hl ▸ ht⟩
    | cons x rest ih =>
      intro done t hl ht
      obtain ⟨t', hx, ht'⟩ := hstep done x rest hl t ht
      obtain ⟨r, hr, hinv⟩ := ih (done ++ [x]) t' (by simp [hl]) ht'
      refine ⟨r, ?_, hinv⟩
      rw [List.foldlM_cons, hx]
      exact hr
  exact hgeneral l [] s rfl hs

/-- A fold succeeds exactly when each round does, where an invariant of the elements done and the state
decides what a round needs. -/
theorem foldlM_isSome_iff (Inv : List α → σ → Prop) (P : List α → α → Prop) (l : List α) (s : σ)
    (hs : Inv [] s)
    (hround : ∀ done x rest, l = done ++ x :: rest → ∀ t, Inv done t → ((f t x).isSome ↔ P done x))
    (hstep : ∀ done x rest, l = done ++ x :: rest → ∀ t t', Inv done t → f t x = some t' →
      Inv (done ++ [x]) t') :
    (l.foldlM f s).isSome ↔ ∀ done x rest, l = done ++ x :: rest → P done x := by
  have hgeneral : ∀ rest done t, l = done ++ rest → Inv done t →
      ((rest.foldlM f t).isSome ↔ ∀ pre x post, rest = pre ++ x :: post → P (done ++ pre) x) := by
    intro rest
    induction rest with
    | nil =>
      intro done t _ _
      simp
    | cons x rest ih =>
      intro done t hl ht
      have hx := hround done x rest hl t ht
      cases hfx : f t x with
      | none =>
        rw [hfx] at hx
        simp only [List.foldlM_cons, hfx, Option.bind_eq_bind, Option.bind_none, Option.isSome_none,
          Bool.false_eq_true, false_iff]
        intro hall
        exact absurd (hx.mpr (by simpa using hall [] x rest rfl)) Bool.false_ne_true
      | some t' =>
        have hpass : P done x := hx.mp (by rw [hfx]; rfl)
        rw [List.foldlM_cons, hfx, Option.bind_eq_bind, Option.bind_some,
          ih (done ++ [x]) t' (by simp [hl]) (hstep done x rest hl t t' ht hfx)]
        constructor
        · intro hall pre y post hsplit
          cases pre with
          | nil =>
            obtain ⟨rfl, -⟩ := List.cons_eq_cons.mp hsplit
            simpa using hpass
          | cons z pre =>
            obtain ⟨rfl, hrest⟩ := List.cons_eq_cons.mp hsplit
            simpa using hall pre y post hrest
        · intro hall pre y post hsplit
          simpa using hall (x :: pre) y post (by rw [hsplit]; rfl)
  simpa using hgeneral l [] s rfl hs

end Lib
