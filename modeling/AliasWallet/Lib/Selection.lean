import AliasWallet.Lib.OrderedSet
import Mathlib.Data.List.Forall2

/-!
# Selection by keys

From a set of items, the least one that fits is taken for each key, until there are enough. What a selection leaves out
is never needed later: merging selections in any order and grouping selects what the items together do.
-/

namespace Lib

universe u v w

variable {σ : Type u} {κ : Type v} [LinearOrder σ]

/-- The least item that fits a key. -/
def leastFit (fits : σ → κ → Bool) (S : OrderedSet σ) (k : κ) : Option σ := S.elems.find? fun s => fits s k

/-- The items of the first `m` keys that have one. -/
def select (fits : σ → κ → Bool) (m : Nat) (keys : List κ) (S : OrderedSet σ) : List σ :=
  (keys.filterMap (leastFit fits S)).take m

section Select

variable {fits : σ → κ → Bool} {m : Nat} {k : κ} {keys : List κ} {s : σ} {S T A B : OrderedSet σ}

theorem leastFit_eq_some_iff : leastFit fits S k = some s ↔ IsLeast {t | t ∈ S ∧ fits t k = true} s :=
  OrderedSet.find?_eq_some_iff

theorem leastFit_eq_none_iff : leastFit fits S k = none ↔ ∀ s ∈ S, fits s k = false := by
  rw [leastFit, List.find?_eq_none]
  simp only [Bool.not_eq_true]
  rfl

theorem leastFit_fits (h : leastFit fits S k = some s) : fits s k = true := (leastFit_eq_some_iff.mp h).1.2

theorem leastFit_mem (h : leastFit fits S k = some s) : s ∈ S := (leastFit_eq_some_iff.mp h).1.1

@[simp] theorem select_nil : select fits m [] S = [] := List.take_nil

@[simp] theorem select_zero : select fits 0 keys S = [] := List.take_zero

theorem select_cons_none (h : leastFit fits S k = none) : select fits m (k :: keys) S = select fits m keys S := by
  rw [select, List.filterMap_cons_none h]
  rfl

theorem select_cons_some (h : leastFit fits S k = some s) :
    select fits (m + 1) (k :: keys) S = s :: select fits m keys S := by
  rw [select, List.filterMap_cons_some h, List.take_succ_cons]
  rfl

theorem mem_select (h : s ∈ select fits m keys S) : s ∈ S ∧ ∃ k ∈ keys, fits s k = true := by
  obtain ⟨k, hk, hleast⟩ := List.mem_filterMap.mp (List.mem_of_mem_take h)
  exact ⟨leastFit_mem hleast, k, hk, leastFit_fits hleast⟩

theorem select_length (fits : σ → κ → Bool) (m : Nat) (keys : List κ) (S : OrderedSet σ) :
    (select fits m keys S).length = min m (keys.countP fun k => S.elems.any fun s => fits s k) := by
  have hcount : (keys.filterMap (leastFit fits S)).length = keys.countP fun k => S.elems.any fun s => fits s k := by
    rw [List.length_filterMap_eq_countP]
    apply List.countP_congr
    intro k _
    rw [leastFit, List.find?_isSome, List.any_eq_true]
  rw [select, List.length_take, hcount]

/-- The items go to keys in the order of the keys. -/
theorem select_sublistForall₂ (fits : σ → κ → Bool) (m : Nat) (keys : List κ) (S : OrderedSet σ) :
    List.SublistForall₂ (fun s k => fits s k = true) (select fits m keys S) keys := by
  induction keys generalizing m with
  | nil =>
    rw [select_nil]
    exact .nil
  | cons k keys ih =>
    cases m with
    | zero =>
      rw [select_zero]
      exact .nil
    | succ m =>
      cases hleast : leastFit fits S k with
      | none =>
        rw [select_cons_none hleast]
        exact (ih (m + 1)).cons_right
      | some s =>
        rw [select_cons_some hleast]
        exact (ih m).cons (leastFit_fits hleast)

/-- An item that is the least of more is the least of fewer. -/
theorem leastFit_of_subset (hsub : ∀ t ∈ S, t ∈ T) (hs : s ∈ S) (h : leastFit fits T k = some s) :
    leastFit fits S k = some s := by
  rw [leastFit_eq_some_iff] at h ⊢
  exact ⟨⟨hs, h.1.2⟩, fun t ht => h.2 ⟨hsub t ht.1, ht.2⟩⟩

/-- Together with others, the selected items do for all: `S` has those of `A` that `P` holds, `T` has all of `A`. -/
theorem select_eq_of_selected {P : σ → Prop} (hS : ∀ s, s ∈ S ↔ P s ∨ s ∈ B) (hT : ∀ s, s ∈ T ↔ s ∈ A ∨ s ∈ B)
    (hsub : ∀ s, P s → s ∈ A) (hsel : ∀ s ∈ select fits m keys A, P s) :
    select fits m keys S = select fits m keys T := by
  have hST : ∀ t ∈ S, t ∈ T := fun t ht => (hT t).mpr (((hS t).mp ht).imp_left (hsub t))
  have hAT : ∀ t ∈ A, t ∈ T := fun t ht => (hT t).mpr (.inl ht)
  induction keys generalizing m with
  | nil => rfl
  | cons k keys ih =>
    cases m with
    | zero => rw [select_zero, select_zero]
    | succ m =>
      -- what the keys behind `k` still select from `A`
      have hlater : ∀ s ∈ select fits m keys A, P s := by
        intro s hs
        apply hsel s
        cases hA : leastFit fits A k with
        | none =>
          rw [select_cons_none hA]
          exact List.take_subset_take_left _ (Nat.le_succ m) hs
        | some a =>
          rw [select_cons_some hA]
          exact List.mem_cons_of_mem a hs
      cases hleast : leastFit fits T k with
      | none =>
        have hnone : ∀ {U : OrderedSet σ}, (∀ t ∈ U, t ∈ T) → leastFit fits U k = none := fun hU =>
          leastFit_eq_none_iff.mpr fun t ht => leastFit_eq_none_iff.mp hleast t (hU t ht)
        rw [select_cons_none hleast, select_cons_none (hnone hST)]
        apply ih
        rw [select_cons_none (hnone hAT)] at hsel
        exact hsel
      | some s =>
        have hs : s ∈ S := by
          apply (hS s).mpr
          cases (hT s).mp (leastFit_mem hleast) with
          | inr hB => exact .inr hB
          | inl hA =>
            have hfirst := leastFit_of_subset hAT hA hleast
            rw [select_cons_some hfirst] at hsel
            exact .inl (hsel s List.mem_cons_self)
        rw [select_cons_some hleast, select_cons_some (leastFit_of_subset hST hs hleast), ih hlater]

end Select

/-- An order and grouping of merges; what is merged stands at the leaves. -/
inductive Grouping (β : Type w)
  | single (b : β)
  | join (left right : Grouping β)

namespace Grouping

variable {β : Type w}

def leaves : Grouping β → List β
  | single b => [b]
  | join left right => left.leaves ++ right.leaves

theorem leaves_length_pos (t : Grouping β) : 0 < t.leaves.length := by
  induction t with
  | single b => exact Nat.one_pos
  | join left right ihl _ =>
    rw [leaves, List.length_append]
    exact Nat.add_pos_left ihl _

def eval (op : β → β → β) : Grouping β → β
  | single b => b
  | join left right => op (left.eval op) (right.eval op)

/-- A list is merged from the left into what is there. -/
def ofList (start : Grouping β) (l : List β) : Grouping β := l.foldl (fun t b => join t (single b)) start

theorem leaves_ofList (start : Grouping β) (l : List β) : (ofList start l).leaves = start.leaves ++ l := by
  induction l generalizing start with
  | nil => exact (List.append_nil _).symm
  | cons b l ih => exact (ih (join start (single b))).trans (List.append_assoc _ _ _)

theorem eval_ofList (op : β → β → β) (start : Grouping β) (l : List β) :
    (ofList start l).eval op = l.foldl op (start.eval op) := by
  induction l generalizing start with
  | nil => rfl
  | cons b l ih => exact ih (join start (single b))

theorem ofList_join (left right : Grouping β) (l : List β) :
    ∃ left' right', ofList (join left right) l = join left' right' := by
  induction l generalizing left right with
  | nil => exact ⟨left, right, rfl⟩
  | cons b l ih => exact ih (join left right) (single b)

end Grouping

/-- A merge of two values takes the selected items of both, and nothing else. -/
structure SelectingMerge {β : Type w} (fits : σ → κ → Bool) (m : Nat) (keys : List κ) (items : β → OrderedSet σ)
    (Good : β → Prop) (make : List σ → β) (op : β → β → β) : Prop where
  good : ∀ {a b}, Good a → Good b → Good (op a b)
  merge : ∀ {a b}, Good a → Good b → op a b = make (select fits m keys ((items a).insertAll (items b).elems))
  items_make : ∀ {a b} s, Good a → Good b →
    (s ∈ items (op a b) ↔ s ∈ select fits m keys ((items a).insertAll (items b).elems))

namespace SelectingMerge

variable {β : Type w} {fits : σ → κ → Bool} {m : Nat} {keys : List κ} {items : β → OrderedSet σ} {Good : β → Prop}
  {make : List σ → β} {op : β → β → β}

/-- The items of a list of values. -/
def gather (items : β → OrderedSet σ) (l : List β) : OrderedSet σ :=
  OrderedSet.empty.insertAll (l.flatMap fun b => (items b).elems)

theorem mem_gather {l : List β} {s : σ} : s ∈ gather items l ↔ ∃ b ∈ l, s ∈ items b := by
  rw [gather, OrderedSet.mem_insertAll, List.mem_flatMap]
  exact or_iff_right OrderedSet.not_mem_empty

theorem gather_perm {l l' : List β} (h : l.Perm l') : gather items l = gather items l' := by
  apply OrderedSet.ext_mem
  intro s
  rw [mem_gather, mem_gather]
  constructor
  · intro hs
    obtain ⟨b, hb, hs⟩ := hs
    exact ⟨b, h.mem_iff.mp hb, hs⟩
  · intro hs
    obtain ⟨b, hb, hs⟩ := hs
    exact ⟨b, h.mem_iff.mpr hb, hs⟩

theorem eval_good (h : SelectingMerge fits m keys items Good make op) (t : Grouping β) (ht : ∀ b ∈ t.leaves, Good b) :
    Good (t.eval op) := by
  induction t with
  | single b => exact ht b List.mem_cons_self
  | join left right ihl ihr =>
    rw [Grouping.leaves, List.forall_mem_append] at ht
    exact h.good (ihl ht.1) (ihr ht.2)

/-- Whatever joins later, the value stands for the leaves. -/
def StandsFor (fits : σ → κ → Bool) (m : Nat) (keys : List κ) (items : β → OrderedSet σ) (b : β) (l : List β) : Prop :=
  ∀ S T B : OrderedSet σ, (∀ s, s ∈ S ↔ s ∈ items b ∨ s ∈ B) → (∀ s, s ∈ T ↔ (∃ b ∈ l, s ∈ items b) ∨ s ∈ B) →
    select fits m keys S = select fits m keys T

theorem standsFor_singleton (b : β) : StandsFor fits m keys items b [b] := by
  intro S T B hS hT
  apply congrArg
  apply OrderedSet.ext_mem
  intro s
  rw [hS, hT]
  simp only [List.mem_singleton, exists_eq_left]

/-- Two values that stand for their lists stand for both together. -/
theorem select_append {a b : β} {l l' : List β} (ha : StandsFor fits m keys items a l)
    (hb : StandsFor fits m keys items b l') {S T B : OrderedSet σ}
    (hS : ∀ s, s ∈ S ↔ (s ∈ items a ∨ s ∈ items b) ∨ s ∈ B)
    (hT : ∀ s, s ∈ T ↔ (∃ b ∈ l ++ l', s ∈ items b) ∨ s ∈ B) :
    select fits m keys S = select fits m keys T := by
  -- the items of `l` in place of those of `a`
  let half := B.insertAll ((l.flatMap fun b => (items b).elems) ++ (items b).elems)
  have hhalf : ∀ s, s ∈ half ↔ s ∈ B ∨ (∃ b ∈ l, s ∈ items b) ∨ s ∈ items b := by
    intro s
    rw [OrderedSet.mem_insertAll, List.mem_append, List.mem_flatMap]
    rfl
  calc select fits m keys S
      = select fits m keys half := by
        apply ha S half (B.insertAll (items b).elems)
        · intro s
          rw [hS, OrderedSet.mem_insertAll, or_assoc, or_comm (a := s ∈ B)]
          rfl
        · intro s
          rw [hhalf, OrderedSet.mem_insertAll, or_left_comm]
          rfl
    _ = select fits m keys T := by
        apply hb half T (B.insertAll (l.flatMap fun b => (items b).elems))
        · intro s
          rw [hhalf, OrderedSet.mem_insertAll, List.mem_flatMap, or_comm (a := s ∈ items b), or_assoc]
          rfl
        · intro s
          rw [hT, OrderedSet.mem_insertAll, List.mem_flatMap]
          simp only [List.mem_append, or_and_right, exists_or]
          rw [or_right_comm, or_comm, or_comm (a := s ∈ B)]
          rfl

/-- What the merges drop is not needed later. -/
theorem eval_standsFor (h : SelectingMerge fits m keys items Good make op) (t : Grouping β)
    (ht : ∀ b ∈ t.leaves, Good b) : StandsFor fits m keys items (t.eval op) t.leaves := by
  induction t with
  | single b => exact standsFor_singleton b
  | join left right ihl ihr =>
    rw [Grouping.leaves, List.forall_mem_append] at ht
    have hleft := h.eval_good left ht.1
    have hright := h.eval_good right ht.2
    intro S T B hS hT
    let A := (items (left.eval op)).insertAll (items (right.eval op)).elems
    have hA : ∀ s, s ∈ A ↔ s ∈ items (left.eval op) ∨ s ∈ items (right.eval op) := fun s => OrderedSet.mem_insertAll
    have hboth : ∀ s, s ∈ A.insertAll B.elems ↔ s ∈ A ∨ s ∈ B := fun s => OrderedSet.mem_insertAll
    calc select fits m keys S
        = select fits m keys (A.insertAll B.elems) := by
          apply select_eq_of_selected (A := A) (B := B) (P := fun s => s ∈ select fits m keys A) _ hboth
          · exact fun s hs => (mem_select hs).1
          · exact fun s hs => hs
          · intro s
            rw [hS]
            exact or_congr_left (h.items_make s hleft hright)
      _ = select fits m keys T := by
          apply select_append (ihl ht.1) (ihr ht.2) (B := B) _ hT
          intro s
          rw [hboth, hA]

/-- The result of merges is that of all the values together, in whatever order and grouping they were merged. -/
theorem eval_join (h : SelectingMerge fits m keys items Good make op) (left right : Grouping β) {l : List β}
    (hperm : (Grouping.join left right).leaves.Perm l) (hl : ∀ b ∈ l, Good b) :
    (Grouping.join left right).eval op = make (select fits m keys (gather items l)) := by
  have hsides : ∀ b ∈ left.leaves ++ right.leaves, Good b := fun b hb => hl b (hperm.mem_iff.mp hb)
  rw [List.forall_mem_append] at hsides
  rw [Grouping.eval, h.merge (h.eval_good left hsides.1) (h.eval_good right hsides.2), ← gather_perm hperm]
  apply congrArg
  apply select_append (h.eval_standsFor left hsides.1) (h.eval_standsFor right hsides.2) (B := OrderedSet.empty)
  · intro s
    rw [OrderedSet.mem_insertAll]
    exact (or_iff_left OrderedSet.not_mem_empty).symm
  · intro s
    rw [mem_gather, Grouping.leaves]
    exact (or_iff_left OrderedSet.not_mem_empty).symm

/-- The values of a list, merged from the left into one without items. -/
theorem foldl_eq (h : SelectingMerge fits m keys items Good make op) {e : β} (he : Good e) (hempty : ∀ s, s ∉ items e)
    {l l' : List β} (hperm : l'.Perm l) (hne : l ≠ []) (hl : ∀ b ∈ l, Good b) :
    l'.foldl op e = make (select fits m keys (gather items l)) := by
  cases l' with
  | nil => exact absurd hperm.nil_eq.symm hne
  | cons b l' =>
    obtain ⟨left, right, htree⟩ := Grouping.ofList_join (.single e) (.single b) l'
    have hleaves : (Grouping.join left right).leaves.Perm (e :: l) := by
      rw [← htree, Grouping.leaves_ofList]
      exact hperm.cons e
    have heval := h.eval_join left right hleaves (List.forall_mem_cons.mpr ⟨he, hl⟩)
    rw [← htree, Grouping.eval_ofList] at heval
    have hgather : gather items (e :: l) = gather items l := by
      apply OrderedSet.ext_mem
      intro s
      rw [mem_gather, mem_gather, List.exists_mem_cons_iff]
      exact or_iff_right (hempty s)
    rw [hgather] at heval
    exact heval

end SelectingMerge

end Lib
