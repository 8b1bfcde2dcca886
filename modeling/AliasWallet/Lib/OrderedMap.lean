import Mathlib.Data.List.Nodup
import Mathlib.Order.Lattice

/-!
# Ordered maps

A map as the list of its entries with ascending keys. Two maps that hold the same value under every key are equal.
-/

namespace Lib

universe u v

/-- Each key once, the least in front. -/
structure OrderedMap (K : Type u) (V : Type v) [LinearOrder K] where
  entries : List (K × V)
  sorted : entries.Pairwise fun e e' => e.1 < e'.1
  deriving DecidableEq

/-- The place of an entry, which takes that of one with the same key. -/
def orderedPut {K : Type u} {V : Type v} [LinearOrder K] (k : K) (v : V) : List (K × V) → List (K × V)
  | [] => [(k, v)]
  | e :: l => if k < e.1 then (k, v) :: e :: l else if k = e.1 then (k, v) :: l else e :: orderedPut k v l

namespace OrderedMap

variable {K : Type u} {V : Type v} [LinearOrder K] {m m' : OrderedMap K V} {k k' : K} {v : V} {e : K × V}
  {l : List (K × V)}

theorem mem_orderedPut (h : l.Pairwise fun e e' => e.1 < e'.1) :
    e ∈ orderedPut k v l ↔ e = (k, v) ∨ e ∈ l ∧ e.1 ≠ k := by
  induction l with
  | nil => simp [orderedPut]
  | cons c l ih =>
    have hrest := List.pairwise_cons.mp h
    rw [orderedPut]
    by_cases hlt : k < c.1
    · have hother : e ∈ c :: l → e.1 ≠ k := by
        intro he
        cases List.mem_cons.mp he with
        | inl heq => exact heq ▸ hlt.ne'
        | inr hmem => exact (hlt.trans (hrest.1 e hmem)).ne'
      rw [if_pos hlt, List.mem_cons, and_iff_left_of_imp hother]
    rw [if_neg hlt]
    by_cases heq : k = c.1
    · have hother : e ∈ l → e.1 ≠ k := fun he => heq ▸ (hrest.1 e he).ne'
      have hfirst : ¬ (e = c ∧ e.1 ≠ k) := fun hc => hc.2 (hc.1 ▸ heq.symm)
      rw [if_pos heq, List.mem_cons, List.mem_cons, or_and_right, or_iff_right hfirst, and_iff_left_of_imp hother]
    · have hfirst : e = c → e.1 ≠ k := fun hc => hc ▸ Ne.symm heq
      rw [if_neg heq, List.mem_cons, ih hrest.2, List.mem_cons, or_and_right, and_iff_left_of_imp hfirst, or_left_comm]

theorem orderedPut_sorted (h : l.Pairwise fun e e' => e.1 < e'.1) :
    (orderedPut k v l).Pairwise fun e e' => e.1 < e'.1 := by
  induction l with
  | nil => exact List.pairwise_singleton _ _
  | cons c l ih =>
    have hrest := List.pairwise_cons.mp h
    rw [orderedPut]
    by_cases hlt : k < c.1
    · rw [if_pos hlt]
      apply List.Pairwise.cons _ h
      intro b hb
      cases List.mem_cons.mp hb with
      | inl heq => exact heq ▸ hlt
      | inr hmem => exact hlt.trans (hrest.1 b hmem)
    rw [if_neg hlt]
    by_cases heq : k = c.1
    · rw [if_pos heq]
      apply List.Pairwise.cons _ hrest.2
      intro b hb
      exact heq ▸ hrest.1 b hb
    · rw [if_neg heq]
      apply List.Pairwise.cons _ (ih hrest.2)
      intro b hb
      cases (mem_orderedPut hrest.2).mp hb with
      | inl hb => exact hb ▸ lt_of_le_of_ne (not_lt.mp hlt) (Ne.symm heq)
      | inr hb => exact hrest.1 b hb.1

def empty : OrderedMap K V := ⟨[], List.Pairwise.nil⟩

def put (m : OrderedMap K V) (k : K) (v : V) : OrderedMap K V := ⟨orderedPut k v m.entries, orderedPut_sorted m.sorted⟩

def get? (m : OrderedMap K V) (k : K) : Option V := (m.entries.find? fun e => e.1 = k).map Prod.snd

@[simp] theorem mem_put : e ∈ (m.put k v).entries ↔ e = (k, v) ∨ e ∈ m.entries ∧ e.1 ≠ k := mem_orderedPut m.sorted

/-- An entry is decided by its key. -/
theorem eq_of_key {e' : K × V} (he : e ∈ m.entries) (he' : e' ∈ m.entries) (hkey : e.1 = e'.1) : e = e' := by
  have hnodup : (m.entries.map Prod.fst).Nodup := by
    rw [List.Nodup, List.pairwise_map]
    exact m.sorted.imp ne_of_lt
  exact List.inj_on_of_nodup_map hnodup he he' hkey

theorem get?_eq_some_iff : m.get? k = some v ↔ (k, v) ∈ m.entries := by
  rw [get?, Option.map_eq_some_iff]
  constructor
  · intro h
    obtain ⟨e, hfind, hv⟩ := h
    have hk : e.1 = k := by simpa using List.find?_some hfind
    have heq : e = (k, v) := Prod.ext hk hv
    exact heq ▸ List.mem_of_find?_eq_some hfind
  · intro hmem
    cases hfind : m.entries.find? fun e => e.1 = k with
    | none => exact absurd (by simp) (List.find?_eq_none.mp hfind (k, v) hmem)
    | some e =>
      have hk : e.1 = k := by simpa using List.find?_some hfind
      have heq : e = (k, v) := eq_of_key (List.mem_of_find?_eq_some hfind) hmem hk
      exact ⟨e, rfl, by rw [heq]⟩

@[simp] theorem get?_put_self : (m.put k v).get? k = some v := get?_eq_some_iff.mpr (mem_put.mpr (.inl rfl))

theorem get?_put_of_ne (h : k' ≠ k) : (m.put k v).get? k' = m.get? k' := by
  apply Option.ext
  intro a
  rw [get?_eq_some_iff, get?_eq_some_iff, mem_put]
  constructor
  · intro hmem
    cases hmem with
    | inl heq => exact absurd (congrArg Prod.fst heq) h
    | inr hold => exact hold.1
  · exact fun hmem => .inr ⟨hmem, h⟩

/-- The values decide the map. -/
theorem ext_get? (h : ∀ k, m.get? k = m'.get? k) : m = m' := by
  have hmem : ∀ e, e ∈ m.entries ↔ e ∈ m'.entries := by
    intro e
    cases e with
    | mk k v => rw [← get?_eq_some_iff, ← get?_eq_some_iff, h]
  have hm : m.entries.Nodup := m.sorted.imp fun hlt heq => hlt.ne (congrArg Prod.fst heq)
  have hm' : m'.entries.Nodup := m'.sorted.imp fun hlt heq => hlt.ne (congrArg Prod.fst heq)
  have hperm : m.entries.Perm m'.entries := (List.perm_ext_iff_of_nodup hm hm').mpr hmem
  have hlists : m.entries = m'.entries :=
    hperm.eq_of_pairwise (fun a b _ _ hab hba => absurd hab (lt_asymm hba)) m.sorted m'.sorted
  cases m
  cases m'
  cases hlists
  rfl

/-- A loop over entries that may write a new value under the key of the one it is at. -/
def updates (f : K → V → Option V) (l : List (K × V)) (m : OrderedMap K V) : OrderedMap K V :=
  l.foldl (fun m e => (f e.1 e.2).elim m (m.put e.1)) m

theorem get?_updates_of_notMem {f : K → V → Option V} (h : ∀ e ∈ l, e.1 ≠ k) : (updates f l m).get? k = m.get? k := by
  induction l generalizing m with
  | nil => rfl
  | cons e l ih =>
    have hk : e.1 ≠ k := h e List.mem_cons_self
    rw [updates, List.foldl_cons]
    show (updates f l _).get? k = m.get? k
    rw [ih fun e he => h e (List.mem_cons_of_mem _ he)]
    cases f e.1 e.2 with
    | none => rfl
    | some v => exact get?_put_of_ne hk.symm

/-- Every value changes. -/
def mapValues (g : K → V → V) (m : OrderedMap K V) : OrderedMap K V where
  entries := m.entries.map fun e => (e.1, g e.1 e.2)
  sorted := List.pairwise_map.mpr m.sorted

theorem get?_mapValues {g : K → V → V} : (m.mapValues g).get? k = (m.get? k).map (g k) := by
  rw [get?, get?, mapValues, List.find?_map, Option.map_map, Option.map_map]
  apply Option.map_congr
  intro e he
  have hk : e.1 = k := by simpa using List.find?_some he
  rw [Function.comp_apply, Function.comp_apply, hk]

/-- The loop over all entries changes each value for itself. -/
theorem updates_entries {f : K → V → Option V} :
    updates f m.entries m = m.mapValues fun k v => (f k v).getD v := by
  have hloop : ∀ l : List (K × V), l.Pairwise (fun e e' => e.1 < e'.1) → ∀ m' : OrderedMap K V, ∀ k v, (k, v) ∈ l →
      m'.get? k = some v → (updates f l m').get? k = some ((f k v).getD v) := by
    intro l
    induction l with
    | nil => exact fun _ _ _ _ hmem => absurd hmem List.not_mem_nil
    | cons e l ih =>
      intro hsorted m' k v hmem hget
      have hrest := List.pairwise_cons.mp hsorted
      rw [updates, List.foldl_cons]
      show (updates f l _).get? k = _
      cases List.mem_cons.mp hmem with
      | inl heq =>
        subst heq
        rw [get?_updates_of_notMem fun e he => (hrest.1 e he).ne']
        show (((f k v).elim m' (m'.put k)).get? k) = _
        cases f k v with
        | none => exact hget
        | some v' => exact get?_put_self
      | inr hlater =>
        apply ih hrest.2 _ _ _ hlater
        have hk : k ≠ e.1 := (hrest.1 (k, v) hlater).ne'
        cases f e.1 e.2 with
        | none => exact hget
        | some v' => exact (get?_put_of_ne hk).trans hget
  apply ext_get?
  intro k
  rw [get?_mapValues]
  cases hget : m.get? k with
  | none =>
    rw [get?_updates_of_notMem, hget, Option.map_none]
    intro e he hk
    subst hk
    rw [get?_eq_some_iff.mpr (show (e.1, e.2) ∈ m.entries from he)] at hget
    cases hget
  | some v => exact hloop m.entries m.sorted m k v (get?_eq_some_iff.mp hget) hget

/-- A second change finds nothing to do. -/
theorem mapValues_mapValues {g : K → V → V} (h : ∀ k v, g k (g k v) = g k v) :
    (m.mapValues g).mapValues g = m.mapValues g := by
  apply ext_get?
  intro k
  rw [get?_mapValues, get?_mapValues, Option.map_map]
  apply Option.map_congr
  intro v _
  exact h k v

end OrderedMap

end Lib
