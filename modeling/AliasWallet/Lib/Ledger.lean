import Mathlib.Algebra.Order.BigOperators.Group.Finset
import Mathlib.Algebra.Ring.Int.Defs

/-!
# Totals over maps

The worth of all entries of a map over finitely many keys, how it changes with one entry, and the
values of a list that are still open by the marks of a second list.
-/

namespace Lib

section Total

variable {K V : Type} [Fintype K] [DecidableEq K] (f : V → Int)

def worth (e : Option V) : Int := (e.map f).getD 0

def total (m : K → Option V) : Int := ∑ k, worth f (m k)

omit [DecidableEq K] in
theorem total_none : total f (fun _ : K => none) = 0 := by
  simp [total, worth]

theorem total_update (m : K → Option V) (k : K) (e : Option V) :
    total f (Function.update m k e) = total f m - worth f (m k) + worth f e := by
  have hrest : ∑ i ∈ Finset.univ.erase k, worth f (Function.update m k e i) =
      ∑ i ∈ Finset.univ.erase k, worth f (m i) := by
    apply Finset.sum_congr rfl
    intro i hi
    rw [Function.update_of_ne (Finset.ne_of_mem_erase hi)]
  have hnew := Finset.sum_erase_add Finset.univ (fun i => worth f (Function.update m k e i))
    (Finset.mem_univ k)
  have hold := Finset.sum_erase_add Finset.univ (fun i => worth f (m i)) (Finset.mem_univ k)
  rw [Function.update_self] at hnew
  unfold total
  omega

omit [DecidableEq K] in
theorem total_nonneg (m : K → Option V) (h : ∀ k e, m k = some e → 0 ≤ f e) : 0 ≤ total f m := by
  apply Finset.sum_nonneg
  intro k _
  cases hk : m k with
  | none => simp [worth]
  | some e => simpa [worth] using h k e hk

end Total

section Open

variable {A M : Type} (p : A → Bool) (isOpen : M → Bool)

/-- The elements of the first list that satisfy `p` and have an open mark. -/
def openPart (as : List A) (ms : List M) : List A :=
  ((as.zip ms).filter fun e => isOpen e.2 && p e.1).map Prod.fst

theorem openPart_cons (a : A) (as : List A) (m : M) (ms : List M) :
    openPart p isOpen (a :: as) (m :: ms) =
      (if isOpen m && p a then [a] else []) ++ openPart p isOpen as ms := by
  by_cases h : isOpen m && p a
  · simp [openPart, h]
  · simp [openPart, h]

theorem mem_of_mem_openPart {a : A} {as : List A} {ms : List M} (h : a ∈ openPart p isOpen as ms) :
    a ∈ as := by
  obtain ⟨e, he, rfl⟩ := List.mem_map.mp h
  exact (List.of_mem_zip (List.mem_filter.mp he).1).1

/-- Fresh marks leave every element open. -/
theorem openPart_replicate (as : List A) (m : M) (hm : isOpen m) :
    openPart p isOpen as (List.replicate as.length m) = as.filter p := by
  induction as with
  | nil => rfl
  | cons a as ih =>
    rw [List.length_cons, List.replicate_succ, openPart_cons, ih]
    by_cases ha : p a
    · simp [ha, hm]
    · simp [ha]

theorem openPart_eq_nil (as : List A) (ms : List M) (h : ∀ m ∈ ms, ¬ isOpen m) :
    openPart p isOpen as ms = [] := by
  rw [openPart, List.map_eq_nil_iff, List.filter_eq_nil_iff]
  intro e he
  have hclosed := h e.2 (List.of_mem_zip he).2
  simp [hclosed]

/-- Closing one mark takes one element out. -/
theorem sum_openPart_set (f : A → Int) (as : List A) (ms : List M) (n : Nat) (a : A) (m m' : M)
    (ha : as[n]? = some a) (hp : p a) (hm : ms[n]? = some m) (hopen : isOpen m) (hclosed : ¬ isOpen m') :
    ((openPart p isOpen as (ms.set n m')).map f).sum = ((openPart p isOpen as ms).map f).sum - f a := by
  induction as generalizing ms n with
  | nil => cases ha
  | cons x as ih =>
    cases ms with
    | nil => cases hm
    | cons y ms =>
      cases n with
      | zero =>
        obtain rfl : x = a := by simpa using ha
        obtain rfl : y = m := by simpa using hm
        simp [openPart_cons, hp, hopen, hclosed]
      | succ n =>
        have hrest := ih ms n (by simpa using ha) (by simpa using hm)
        rw [List.set_cons_succ, openPart_cons, openPart_cons, List.map_append, List.map_append,
          List.sum_append, List.sum_append, hrest]
        omega

end Open

end Lib
