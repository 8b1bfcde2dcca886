import Mathlib.Data.List.Basic
import Mathlib.Order.Basic

/-!
# Streams of frames

A frame is a header of fixed length that says how long the body behind it is. The stream is cut one letter at a
time; whatever is fed in larger pieces can be compared with that.
-/

namespace Lib

universe u

variable {α : Type u}

structure Framing (α : Type u) where
  header : Nat
  /-- The length of the body, read off the header. -/
  body : List α → Nat
  limit : Nat
  header_pos : 0 < header

/-- A stream that is cut: the frames that are whole and what is there of the next one. -/
structure Split (α : Type u) where
  whole : List (List α)
  part : List α

namespace Split

def letters (s : Split α) : List α := s.whole.flatten ++ s.part

end Split

namespace Framing

variable (F : Framing α)

/-- The length of the body of a frame that begins with `part`. -/
def bodySize (part : List α) : Nat := F.body (part.take F.header)

def feed (s : Split α) (a : α) : Option (Split α) :=
  if (s.part ++ [a]).length < F.header then some ⟨s.whole, s.part ++ [a]⟩
  else if F.limit < F.bodySize (s.part ++ [a]) then none
  else if (s.part ++ [a]).length = F.header + F.bodySize (s.part ++ [a]) then some ⟨s.whole ++ [s.part ++ [a]], []⟩
  else some ⟨s.whole, s.part ++ [a]⟩

def feedAll (s : Split α) (as : List α) : Option (Split α) := as.foldlM F.feed s

/-- As long as its header says. -/
def Shaped (f : List α) : Prop := F.header ≤ f.length ∧ f.length = F.header + F.bodySize f

theorem bodySize_append {part : List α} (h : F.header ≤ part.length) (rest : List α) :
    F.bodySize (part ++ rest) = F.bodySize part := by
  rw [bodySize, bodySize, List.take_append_of_le_length h]

@[simp] theorem feedAll_nil (s : Split α) : F.feedAll s [] = some s := rfl

theorem feedAll_cons (s : Split α) (a : α) (as : List α) :
    F.feedAll s (a :: as) = (F.feed s a).bind fun s' => F.feedAll s' as := rfl

theorem feedAll_append (s : Split α) (as bs : List α) :
    F.feedAll s (as ++ bs) = (F.feedAll s as).bind fun s' => F.feedAll s' bs := by
  induction as generalizing s with
  | nil => rfl
  | cons a as ih =>
    rw [List.cons_append, feedAll_cons, feedAll_cons, Option.bind_assoc]
    simp only [ih]

/-- Too little for the header is only kept. -/
theorem feedAll_short (s : Split α) (as : List α) (h : s.part.length + as.length < F.header) :
    F.feedAll s as = some ⟨s.whole, s.part ++ as⟩ := by
  induction as generalizing s with
  | nil => simp
  | cons a as ih =>
    rw [List.length_cons] at h
    have hfeed : F.feed s a = some ⟨s.whole, s.part ++ [a]⟩ := by
      rw [feed, if_pos (by simp only [List.length_append, List.length_singleton]; omega)]
    rw [feedAll_cons, hfeed, Option.bind_some, ih _ (by simp only [List.length_append, List.length_singleton]; omega)]
    simp

/-- The letters that fill up the header. -/
theorem feedAll_header (s : Split α) (as : List α) (hne : as ≠ [])
    (h : s.part.length + as.length = F.header) :
    F.feedAll s as =
      if F.limit < F.bodySize (s.part ++ as) then none
      else if F.bodySize (s.part ++ as) = 0 then some ⟨s.whole ++ [s.part ++ as], []⟩
      else some ⟨s.whole, s.part ++ as⟩ := by
  have hlast := List.dropLast_append_getLast hne
  have hlen : as.dropLast.length + 1 = as.length := by
    rw [List.length_dropLast]
    have := List.length_pos_iff.mpr hne
    omega
  have hshort : s.part.length + as.dropLast.length < F.header := by omega
  rw [← hlast, feedAll_append, F.feedAll_short s _ hshort, Option.bind_some, feedAll_cons]
  simp only [feed, List.append_assoc, hlast]
  have hlong : (s.part ++ as).length = F.header := by rw [List.length_append, h]
  rw [if_neg (by omega), hlong]
  split_ifs with h1 h2 h3 h4
  · rfl
  · rfl
  · omega
  · omega
  · rfl

/-- The letters of a body that is not complete with them. -/
theorem feedAll_body (s : Split α) (as : List α) (hheader : F.header ≤ s.part.length)
    (hlimit : ¬F.limit < F.bodySize s.part) (h : s.part.length + as.length < F.header + F.bodySize s.part) :
    F.feedAll s as = some ⟨s.whole, s.part ++ as⟩ := by
  induction as generalizing s with
  | nil => simp
  | cons a as ih =>
    rw [List.length_cons] at h
    have hsize := F.bodySize_append hheader [a]
    have hfeed : F.feed s a = some ⟨s.whole, s.part ++ [a]⟩ := by
      rw [feed, hsize, List.length_append, List.length_singleton, if_neg (by omega), if_neg hlimit, if_neg (by omega)]
    rw [feedAll_cons, hfeed, Option.bind_some]
    rw [ih _ (by simp only [List.length_append]; omega) (by rwa [hsize])
      (by rw [hsize, List.length_append, List.length_singleton]; omega)]
    simp

theorem feedAll_body_full (s : Split α) (as : List α) (hne : as ≠ []) (hheader : F.header ≤ s.part.length)
    (hlimit : ¬F.limit < F.bodySize s.part) (h : s.part.length + as.length = F.header + F.bodySize s.part) :
    F.feedAll s as = some ⟨s.whole ++ [s.part ++ as], []⟩ := by
  have hlast := List.dropLast_append_getLast hne
  have hlen : as.dropLast.length + 1 = as.length := by
    rw [List.length_dropLast]
    have := List.length_pos_iff.mpr hne
    omega
  have hsize := F.bodySize_append hheader as
  rw [← hlast, feedAll_append, F.feedAll_body s _ hheader hlimit (by omega), Option.bind_some, feedAll_cons]
  simp only [feed, List.append_assoc, hlast]
  rw [hsize, List.length_append, if_neg (by omega), if_neg hlimit, if_pos (by omega)]
  rfl

/-- A stream that is cut so that every whole frame is as long as its header says and within the limit. -/
structure Cut (s : Split α) : Prop where
  shaped : ∀ f ∈ s.whole, F.Shaped f ∧ ¬F.limit < F.bodySize f
  open_part : s.part.length < F.header ∨ ¬F.limit < F.bodySize s.part ∧ s.part.length < F.header + F.bodySize s.part

theorem feed_cut {s s' : Split α} {a : α} (hs : F.Cut s) (h : F.feed s a = some s') :
    F.Cut s' ∧ s'.letters = s.letters ++ [a] ∧ s.whole <+: s'.whole := by
  rw [feed] at h
  split_ifs at h with hshort hlimit hfull
  · obtain rfl := Option.some.inj h
    exact ⟨⟨hs.shaped, .inl hshort⟩, by simp [Split.letters], List.prefix_rfl⟩
  · obtain rfl := Option.some.inj h
    refine ⟨⟨?_, .inl F.header_pos⟩, by simp [Split.letters], List.prefix_append _ _⟩
    intro f hf
    rw [List.mem_append, List.mem_singleton] at hf
    cases hf with
    | inl hold => exact hs.shaped f hold
    | inr hnew =>
      rw [hnew]
      exact ⟨⟨by omega, hfull⟩, hlimit⟩
  · obtain rfl := Option.some.inj h
    have hlen : (s.part ++ [a]).length = s.part.length + 1 := by simp
    have hroom : (s.part ++ [a]).length < F.header + F.bodySize (s.part ++ [a]) := by
      by_cases hheader : F.header ≤ s.part.length
      · rw [F.bodySize_append hheader] at hfull ⊢
        cases hs.open_part with
        | inl hbefore => omega
        | inr hinside =>
          have hinside := hinside.2
          omega
      · omega
    exact ⟨⟨hs.shaped, .inr ⟨hlimit, hroom⟩⟩, by simp [Split.letters], List.prefix_rfl⟩

theorem feedAll_cut {s s' : Split α} {as : List α} (hs : F.Cut s) (h : F.feedAll s as = some s') :
    F.Cut s' ∧ s'.letters = s.letters ++ as ∧ s.whole <+: s'.whole := by
  induction as generalizing s with
  | nil =>
    obtain rfl := Option.some.inj h
    exact ⟨hs, by simp, List.prefix_rfl⟩
  | cons a as ih =>
    rw [feedAll_cons, Option.bind_eq_some_iff] at h
    obtain ⟨s₁, hfeed, hrest⟩ := h
    have hstep := F.feed_cut hs hfeed
    have hrun := ih hstep.1 hrest
    refine ⟨hrun.1, ?_, hstep.2.2.trans hrun.2.2⟩
    rw [hrun.2.1, hstep.2.1, List.append_assoc]
    rfl

/-- Frames that are as long as their headers say are found again at the front of any stream that begins with them. -/
theorem shaped_unique {f g : List α} (hf : F.Shaped f) (hg : F.Shaped g) {x y : List α} (h : f ++ x = g ++ y) :
    f = g ∧ x = y := by
  have hhead : f.take F.header = g.take F.header := by
    have hfront := congrArg (List.take F.header) h
    rwa [List.take_append_of_le_length hf.1, List.take_append_of_le_length hg.1] at hfront
  have hlen : f.length = g.length := by
    rw [hf.2, hg.2, bodySize, bodySize, hhead]
  exact List.append_inj h hlen

end Framing

end Lib
