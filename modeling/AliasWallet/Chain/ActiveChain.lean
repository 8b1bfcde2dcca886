import AliasWallet.Chain.State

/-!
# The active chain by height (`CChain`)

`SetTip` rewrites the entries from the new tip downwards and stops at the first one that is right. An entry
that is right vouches for all entries below it.
-/

namespace AliasWallet
open Lib

section Ancestors

/-- The blocks from the first one up to `pindex`. -/
def ancestors : CBlockIndex → List CBlockIndex
  | [] => []
  | b :: pprev => ancestors pprev ++ [b :: pprev]

@[simp] theorem ancestors_length (pindex : CBlockIndex) : (ancestors pindex).length = pindex.length := by
  induction pindex with
  | nil => rfl
  | cons b pprev ih => rw [ancestors, List.length_append, ih, List.length_singleton, List.length_cons]

/-- The entry at a height, and what lies below it. -/
theorem ancestors_take {pindex q : CBlockIndex} {i : Nat} (h : (ancestors pindex)[i]? = some q) :
    q.length = i + 1 ∧ q <:+ pindex ∧ (ancestors pindex).take (i + 1) = ancestors q := by
  induction pindex with
  | nil => cases h
  | cons b pprev ih =>
    rw [ancestors] at h ⊢
    rcases Nat.lt_or_ge i (ancestors pprev).length with hlt | hge
    · rw [List.getElem?_append_left hlt] at h
      obtain ⟨hlen, hsuffix, htake⟩ := ih h
      refine ⟨hlen, hsuffix.trans (List.suffix_cons b pprev), ?_⟩
      rw [List.take_append_of_le_length (by omega), htake]
    · rw [List.getElem?_append_right hge] at h
      obtain ⟨hi, hq⟩ := List.getElem?_eq_some_iff.mp h
      rw [List.getElem_singleton] at hq
      rw [List.length_singleton, ancestors_length] at hi
      rw [ancestors_length] at hge
      obtain rfl : i = pprev.length := by omega
      subst hq
      refine ⟨List.length_cons, List.suffix_rfl, ?_⟩
      rw [List.take_of_length_le, ancestors]
      rw [List.length_append, ancestors_length, List.length_singleton]

/-- The entry at a height is what that many blocks are left of. -/
theorem ancestors_get (pindex : CBlockIndex) (i : Nat) (hi : i < pindex.length) :
    (ancestors pindex)[i]? = some (pindex.drop (pindex.length - (i + 1))) := by
  obtain ⟨q, hq⟩ : ∃ q, (ancestors pindex)[i]? = some q :=
    ⟨_, List.getElem?_eq_getElem (by rwa [ancestors_length])⟩
  obtain ⟨hlen, hsuffix, -⟩ := ancestors_take hq
  rw [hq, Option.some.injEq, ← hlen]
  exact List.suffix_iff_eq_drop.mp hsuffix

end Ancestors

namespace CChain

section SetTip

/-- `std::vector::resize` on the entries; new ones are null. -/
def resizeChain (vChain : List CBlockIndex) (n : Nat) : List CBlockIndex :=
  vChain.take n ++ List.replicate (n - vChain.length) []

/-- The loop of `SetTip`. -/
def setTipLoop : CBlockIndex → List CBlockIndex → List CBlockIndex
  | [], vChain => vChain
  | b :: pprev, vChain =>
    let nHeight := (CBlockIndex.nHeight (b :: pprev)).toNat
    if vChain.getD nHeight [] ≠ b :: pprev then setTipLoop pprev (vChain.set nHeight (b :: pprev))
    else vChain

/-- `CChain::SetTip`. -/
def setTip (vChain : List CBlockIndex) (pindex : CBlockIndex) : List CBlockIndex :=
  if pindex = [] then []
  else setTipLoop pindex (resizeChain vChain (CBlockIndex.nHeight pindex + 1).toNat)

/-- `CChain::operator[]`. -/
def entryAt (vChain : List CBlockIndex) (nHeight : Int) : CBlockIndex :=
  if nHeight < 0 ∨ nHeight ≥ vChain.length then [] else vChain.getD nHeight.toNat []

/-- `CChain::Contains`; the block is not null. -/
def contains (vChain : List CBlockIndex) (pindex : CBlockIndex) : Bool :=
  entryAt vChain (CBlockIndex.nHeight pindex) = pindex

/-- `CChain::Next`. -/
def next (vChain : List CBlockIndex) (pindex : CBlockIndex) : CBlockIndex :=
  if contains vChain pindex then entryAt vChain (CBlockIndex.nHeight pindex + 1) else []

/-- What an entry that is not null vouches for. -/
def Vouched (vChain : List CBlockIndex) : Prop :=
  ∀ i q, vChain[i]? = some q → q ≠ [] → vChain.take (i + 1) = ancestors q

/-- The entries below the first one that is right need no change. -/
theorem setTipLoop_eq (pindex : CBlockIndex) (low high : List CBlockIndex) (hlen : low.length = pindex.length)
    (hlow : Vouched low) : setTipLoop pindex (low ++ high) = ancestors pindex ++ high := by
  induction pindex generalizing low high with
  | nil =>
    rw [List.eq_nil_of_length_eq_zero hlen]
    rfl
  | cons b pprev ih =>
    rw [List.length_cons] at hlen
    have hheight : (CBlockIndex.nHeight (b :: pprev)).toNat = pprev.length := by
      rw [CBlockIndex.nHeight, List.length_cons]
      omega
    have hlt : pprev.length < low.length := by omega
    rw [setTipLoop, hheight]
    split
    · obtain ⟨front, last, rfl⟩ : ∃ front last, low = front ++ [last] := by
        refine ⟨low.dropLast, low.getLast ?_, (List.dropLast_append_getLast ?_).symm⟩ <;>
          exact List.length_pos_iff.mp (by omega)
      have hfront : front.length = pprev.length := by
        rw [List.length_append, List.length_singleton] at hlen
        omega
      have hset : (front ++ [last] ++ high).set pprev.length (b :: pprev) =
          front ++ ((b :: pprev) :: high) := by
        rw [List.append_assoc, List.set_append_right _ _ (by omega), hfront, Nat.sub_self]
        rfl
      rw [hset, ih front _ hfront, ancestors, List.append_assoc, List.singleton_append]
      intro i q hq hne
      obtain ⟨hi, -⟩ := List.getElem?_eq_some_iff.mp hq
      have htake := hlow i q (by rwa [List.getElem?_append_left hi]) hne
      rwa [List.take_append_of_le_length (by omega)] at htake
    · next hright =>
      rw [not_not, List.getD_eq_getElem?_getD, List.getElem?_append_left hlt,
        List.getElem?_eq_getElem hlt, Option.getD_some] at hright
      have htake := hlow pprev.length (b :: pprev) (by rw [List.getElem?_eq_getElem hlt, hright])
        (List.cons_ne_nil b pprev)
      rw [List.take_of_length_le (by omega)] at htake
      rw [htake]

/-- The kept entries of another tip vouch for those below. -/
theorem vouched_resizeChain (pindex : CBlockIndex) (n : Nat) : Vouched (resizeChain (ancestors pindex) n) := by
  intro i q hq hne
  rw [resizeChain] at hq ⊢
  rcases Nat.lt_or_ge i ((ancestors pindex).take n).length with hlt | hge
  · rw [List.getElem?_append_left hlt, List.getElem?_take_of_lt (by rw [List.length_take] at hlt; omega)] at hq
    obtain ⟨-, -, htake⟩ := ancestors_take hq
    rw [List.take_append_of_le_length (by omega), List.take_take, min_eq_left, htake]
    rw [List.length_take] at hlt
    omega
  · rw [List.getElem?_append_right hge] at hq
    exact absurd (List.eq_of_mem_replicate (List.mem_of_getElem? hq)) hne

/-- One call moves the chain to the new tip. -/
theorem setTip_ancestors (pindexOld pindexNew : CBlockIndex) :
    setTip (ancestors pindexOld) pindexNew = ancestors pindexNew := by
  unfold setTip
  split
  · next hnull => rw [hnull, ancestors]
  · have hlen : (resizeChain (ancestors pindexOld) (CBlockIndex.nHeight pindexNew + 1).toNat).length =
        pindexNew.length := by
      rw [resizeChain, List.length_append, List.length_take, List.length_replicate, CBlockIndex.nHeight]
      omega
    have h := setTipLoop_eq pindexNew _ [] hlen (vouched_resizeChain pindexOld _)
    rwa [List.append_nil, List.append_nil] at h

/-- After any calls the entries are those of the last tip. -/
theorem foldl_setTip (tips : List CBlockIndex) (pindex : CBlockIndex) :
    (tips ++ [pindex]).foldl setTip [] = ancestors pindex := by
  have hrun : ∃ pindexOld, tips.foldl setTip [] = ancestors pindexOld := by
    induction tips using List.reverseRecOn with
    | nil => exact ⟨[], rfl⟩
    | append_singleton tips tip ih =>
      obtain ⟨pindexOld, hold⟩ := ih
      refine ⟨tip, ?_⟩
      rw [List.foldl_append, hold, List.foldl_cons, setTip_ancestors, List.foldl_nil]
  obtain ⟨pindexOld, hold⟩ := hrun
  rw [List.foldl_append, hold, List.foldl_cons, setTip_ancestors, List.foldl_nil]

end SetTip

section Queries

theorem entryAt_ancestors (pindex : CBlockIndex) (i : Nat) :
    entryAt (ancestors pindex) i = if i < pindex.length then pindex.drop (pindex.length - (i + 1)) else [] := by
  unfold entryAt
  rw [ancestors_length]
  split
  · rw [if_neg (by omega)]
  · rw [if_pos (by omega), Int.toNat_natCast, List.getD_eq_getElem?_getD,
      ancestors_get pindex i (by omega), Option.getD_some]

theorem contains_ancestors (pindex q : CBlockIndex) (hne : q ≠ []) :
    contains (ancestors pindex) q = true ↔ q <:+ pindex := by
  have hpos := List.length_pos_iff.mpr hne
  have hheight : CBlockIndex.nHeight q = ((q.length - 1 : Nat) : Int) := by
    rw [CBlockIndex.nHeight]
    omega
  rw [contains, decide_eq_true_iff, hheight, entryAt_ancestors, Nat.sub_add_cancel hpos]
  constructor
  · intro h
    split at h
    · rw [← h]
      exact List.drop_suffix _ _
    · exact absurd h.symm hne
  · intro h
    have hle := h.length_le
    rw [if_pos (by omega)]
    exact (List.suffix_iff_eq_drop.mp h).symm

/-- The successor of a block of the chain is the one block of the chain on top of it. -/
theorem next_ancestors (pindex q : CBlockIndex) (hne : q ≠ []) (b : BlockNode) (q' : CBlockIndex) :
    next (ancestors pindex) q = b :: q' ↔ q' = q ∧ b :: q <:+ pindex := by
  have hheight : CBlockIndex.nHeight q + 1 = ((q.length : Nat) : Int) := by
    rw [CBlockIndex.nHeight]
    omega
  unfold next
  rw [hheight, entryAt_ancestors]
  by_cases hin : q <:+ pindex
  · rw [if_pos ((contains_ancestors pindex q hne).mpr hin)]
    have hdrop := List.suffix_iff_eq_drop.mp hin
    constructor
    · intro h
      split at h
      · have hsuffix : b :: q' <:+ pindex := by
          rw [← h]
          exact List.drop_suffix _ _
        have hlen := congrArg List.length h
        rw [List.length_drop, List.length_cons] at hlen
        have heq : q' = q := by
          apply List.IsSuffix.eq_of_length_le
          · exact List.suffix_of_suffix_length_le ((List.suffix_cons b q').trans hsuffix) hin (by omega)
          · omega
        exact ⟨heq, heq ▸ hsuffix⟩
      · cases h
    · rintro ⟨rfl, hsuffix⟩
      have hle := hsuffix.length_le
      rw [List.length_cons] at hle
      rw [if_pos (by omega)]
      exact (List.suffix_iff_eq_drop.mp hsuffix).symm
  · rw [if_neg (by rwa [contains_ancestors pindex q hne])]
    constructor
    · intro h
      cases h
    · rintro ⟨rfl, hsuffix⟩
      exact absurd ((List.suffix_cons b _).trans hsuffix) hin

/-- After any calls of `SetTip` the entries are the ancestors of the tip by height, and the queries answer
by membership and succession in that chain. -/
theorem setTip_complete (tips : List CBlockIndex) (pindex : CBlockIndex) :
    let vChain := (tips ++ [pindex]).foldl setTip []
    (vChain.length : Int) = CBlockIndex.nHeight pindex + 1 ∧
      (∀ i, i < pindex.length → vChain[i]? = some (pindex.drop (pindex.length - (i + 1)))) ∧
      (∀ q, q ≠ [] → (contains vChain q = true ↔ q <:+ pindex)) ∧
      ∀ q, q ≠ [] → ∀ b q', next vChain q = b :: q' ↔ q' = q ∧ b :: q <:+ pindex := by
  intro vChain
  have hchain : vChain = ancestors pindex := foldl_setTip tips pindex
  rw [hchain]
  refine ⟨?_, ancestors_get pindex, contains_ancestors pindex, fun q hne b q' => next_ancestors pindex q hne b q'⟩
  rw [ancestors_length, CBlockIndex.nHeight]
  omega

end Queries

end CChain

end AliasWallet
