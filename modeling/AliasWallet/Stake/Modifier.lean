import AliasWallet.Crypto.Concrete
import AliasWallet.Stake.Difficulty

/-!
# The stake modifier (`ComputeNextStakeModifier`, `ComputeNextStakeModifierThin`)

Sixty-four rounds select blocks of the selection interval, each one the block with the smallest
selection hash among those up to the end of its section. The thin index does the same on a chain that
may be cut off at its rear.
-/

namespace AliasWallet
open Lib

/-- Time to elapse before a new modifier is computed. -/
def nModifierInterval : Nat := 10 * 60

def MODIFIER_INTERVAL_RATIO : Nat := 3

section Interval

/-- `GetStakeModifierSelectionIntervalSection`. -/
def getStakeModifierSelectionIntervalSection (nSection : Nat) : Nat :=
  nModifierInterval * 63 / (63 + (63 - nSection) * ( MODIFIER_INTERVAL_RATIO - 1))

/-- `GetStakeModifierSelectionInterval`. -/
def getStakeModifierSelectionInterval : Nat :=
  ((List.range 64).map getStakeModifierSelectionIntervalSection).sum

end Interval

section Select

variable (hash : HashFn) (mapIndex : UInt256 → Option IndexEntry)

/-- Back to the last block that generated a modifier, or to the first block. -/
def lastGenerated : IndexPtr → IndexPtr
  | [] => []
  | [e] => [e]
  | e :: e' :: pprev =>
    if e.generatedStakeModifier then e :: e' :: pprev else lastGenerated (e' :: pprev)

/-- `GetLastStakeModifier` and its thin copy: the modifier and the time of its block. -/
def getLastStakeModifier (pindex : IndexPtr) : Option (UInt64 × Int) :=
  match lastGenerated pindex with
  | [] => none
  | e :: _ => if e.generatedStakeModifier then some (e.nStakeModifier, e.getBlockTime) else none

/-- The hash by which a candidate competes; a staked block is favoured by 32 bits. -/
def hashSelection (nStakeModifierPrev : UInt64) (e : IndexEntry) : UInt256 :=
  let h := hash (uint256Bytes e.hashProof ++ leBytes 8 nStakeModifierPrev.toNat)
  if e.isProofOfStake then h >>> 32 else h

/-- The loop of `SelectBlockFromCandidates` over the candidates, with the best one so far. -/
def selectFrom (mapSelectedBlocks : List IndexEntry) (nSelectionIntervalStop : Int)
    (nStakeModifierPrev : UInt64) :
    List (Int × UInt256) → Option (UInt256 × IndexEntry) → Option IndexEntry
  | [], best => best.map Prod.snd
  | item :: items, best =>
    match mapIndex item.2 with
    | none => none
    | some pindex =>
      if best.isSome ∧ pindex.getBlockTime > nSelectionIntervalStop then best.map Prod.snd
      else if mapSelectedBlocks.any fun e => e.hash == pindex.hash then
        selectFrom mapSelectedBlocks nSelectionIntervalStop nStakeModifierPrev items best
      else
        let h := hashSelection hash nStakeModifierPrev pindex
        let best := match best with
          | some (hashBest, e) => if h < hashBest then some (h, pindex) else some (hashBest, e)
          | none => some (h, pindex)
        selectFrom mapSelectedBlocks nSelectionIntervalStop nStakeModifierPrev items best

/-- `SelectBlockFromCandidates`, for either index. -/
def selectBlockFromCandidates (vSortedByTimestamp : List (Int × UInt256))
    (mapSelectedBlocks : List IndexEntry) (nSelectionIntervalStop : Int) (nStakeModifierPrev : UInt64) :
    Option IndexEntry :=
  selectFrom hash mapIndex mapSelectedBlocks nSelectionIntervalStop nStakeModifierPrev
    vSortedByTimestamp none

end Select

section Compute

variable (hash : HashFn) (mapIndex : UInt256 → Option IndexEntry)

/-- What the rounds carry: the bound on the time, the modifier so far and the selected blocks. -/
structure Selection where
  nSelectionIntervalStop : Int
  nStakeModifierNew : UInt64
  mapSelectedBlocks : List IndexEntry

/-- One round. -/
def selectRound (vSortedByTimestamp : List (Int × UInt256)) (nStakeModifier : UInt64) (s : Selection)
    (nRound : Nat) : Option Selection := do
  let nSelectionIntervalStop :=
    s.nSelectionIntervalStop + getStakeModifierSelectionIntervalSection nRound
  let pindex ← selectBlockFromCandidates hash mapIndex vSortedByTimestamp s.mapSelectedBlocks
    nSelectionIntervalStop nStakeModifier
  return { nSelectionIntervalStop
           nStakeModifierNew :=
             s.nStakeModifierNew ||| (pindex.getStakeEntropyBit.toUInt64 <<< nRound.toUInt64)
           mapSelectedBlocks := s.mapSelectedBlocks ++ [pindex] }

/-- `nSelectionIntervalStart` for the last block. -/
def selectionIntervalStart (last : IndexEntry) : Int :=
  last.getBlockTime / nModifierInterval * nModifierInterval - getStakeModifierSelectionInterval

/-- The blocks of the selection interval, back from the last one. -/
def candidateBlocks (pindexPrev : IndexPtr) : List IndexEntry :=
  match pindexPrev with
  | [] => []
  | last :: _ => pindexPrev.takeWhile fun e => decide (selectionIntervalStart last ≤ e.getBlockTime)

/-- The order of `std::pair<int64_t, uint256>`. -/
def candidateLe (a b : Int × UInt256) : Prop := a.1 < b.1 ∨ a.1 = b.1 ∧ a.2 ≤ b.2

instance : DecidableRel candidateLe := fun a b =>
  inferInstanceAs (Decidable (a.1 < b.1 ∨ a.1 = b.1 ∧ a.2 ≤ b.2))

/-- `vSortedByTimestamp`. -/
def sortedCandidates (pindexPrev : IndexPtr) : List (Int × UInt256) :=
  ((candidateBlocks pindexPrev).map fun e => (e.getBlockTime, e.hash)).reverse.insertionSort candidateLe

/-- The rounds. -/
def selectBlocks (pindexPrev : IndexPtr) (last : IndexEntry) (nStakeModifier : UInt64) :
    Option Selection :=
  let vSortedByTimestamp := sortedCandidates pindexPrev
  (List.range (min 64 vSortedByTimestamp.length)).foldlM
    (selectRound hash mapIndex vSortedByTimestamp nStakeModifier) ⟨selectionIntervalStart last, 0, []⟩

/-- Both functions: the modifier and whether it was generated, or `none` where they return false. -/
def nextStakeModifier (pindexPrev : IndexPtr) : Option (UInt64 × Bool) :=
  match pindexPrev with
  | [] => some (0, true)
  | last :: _ => do
    let (nStakeModifier, nModifierTime) ← getLastStakeModifier pindexPrev
    if nModifierTime / nModifierInterval ≥ last.getBlockTime / nModifierInterval then
      return (nStakeModifier, false)
    let s ← selectBlocks hash mapIndex pindexPrev last nStakeModifier
    return (s.nStakeModifierNew, true)

/-- `ComputeNextStakeModifier`. -/
def computeNextStakeModifier (mapBlockIndex : UInt256 → Option IndexEntry) (pindexPrev : IndexPtr) :
    Option (UInt64 × Bool) := nextStakeModifier hash mapBlockIndex pindexPrev

/-- `ComputeNextStakeModifierThin`; `pprev` of the rear of the window is null. -/
def computeNextStakeModifierThin (mapBlockThinIndex : UInt256 → Option IndexEntry)
    (pindexPrev : IndexPtr) : Option (UInt64 × Bool) := nextStakeModifier hash mapBlockThinIndex pindexPrev

end Compute

section Window

variable (hash : HashFn)

theorem getLastStakeModifier_eq (pindex : IndexPtr) :
    getLastStakeModifier pindex =
      (pindex.find? fun e => e.generatedStakeModifier).map
        fun e => (e.nStakeModifier, e.getBlockTime) := by
  unfold getLastStakeModifier
  induction pindex using lastGenerated.induct with
  | case1 => rfl
  | case2 e => cases he : e.generatedStakeModifier <;> simp [lastGenerated, he]
  | case3 e e' pprev he => simp [lastGenerated, he]
  | case4 e e' pprev he ih =>
    rw [lastGenerated, if_neg he, ih, List.find?_cons_of_neg he]

/-- The window keeps the last modifier when it keeps a block that generated one. -/
theorem getLastStakeModifier_take {full : IndexPtr} {m : Nat}
    (hmod : full.any (fun e => e.generatedStakeModifier) →
      (full.take m).any fun e => e.generatedStakeModifier) :
    getLastStakeModifier (full.take m) = getLastStakeModifier full := by
  rw [getLastStakeModifier_eq, getLastStakeModifier_eq]
  congr 1
  by_cases hany : full.any fun e => e.generatedStakeModifier
  · have hsome := List.find?_isSome.mpr (List.any_eq_true.mp (hmod hany))
    obtain ⟨e, he⟩ := Option.isSome_iff_exists.mp hsome
    conv_rhs => rw [← List.take_append_drop m full, List.find?_append, he]
    rw [he]
    rfl
  · have hfull : ∀ e ∈ full, ¬ e.generatedStakeModifier := by
      intro e he hgen
      exact hany (List.any_eq_true.mpr ⟨e, he, hgen⟩)
    rw [List.find?_eq_none.mpr hfull, List.find?_eq_none]
    intro e he
    exact hfull e (List.mem_of_mem_take he)

/-- The last block is always a candidate. -/
theorem candidateBlocks_cons (last : IndexEntry) (pprev : IndexPtr) :
    candidateBlocks (last :: pprev) = last :: pprev.takeWhile
      fun e => decide (selectionIntervalStart last ≤ e.getBlockTime) := by
  have hlast : selectionIntervalStart last ≤ last.getBlockTime := by
    unfold selectionIntervalStart nModifierInterval
    omega
  simp [candidateBlocks, hlast]

theorem candidateBlocks_take {full : IndexPtr} {m : Nat}
    (hm : (candidateBlocks full).length ≤ m) :
    candidateBlocks (full.take m) = candidateBlocks full := by
  cases full with
  | nil => simp
  | cons last pprev =>
    obtain ⟨m, rfl⟩ : ∃ m', m = m' + 1 := by
      rw [candidateBlocks_cons, List.length_cons] at hm
      exact Nat.exists_eq_add_one.mpr (by omega)
    rw [List.take_succ_cons]
    rw [candidateBlocks_cons, List.length_cons] at hm
    rw [candidateBlocks_cons, candidateBlocks_cons, ← List.take_takeWhile,
      List.take_of_length_le (by omega)]

theorem candidateBlocks_sublist (pindexPrev : IndexPtr) :
    (candidateBlocks pindexPrev).Sublist pindexPrev := by
  cases pindexPrev with
  | nil => exact List.Sublist.refl _
  | cons last pprev => exact List.takeWhile_sublist _

theorem candidateBlocks_subset (pindexPrev : IndexPtr) :
    candidateBlocks pindexPrev ⊆ pindexPrev :=
  (candidateBlocks_sublist pindexPrev).subset

theorem mem_sortedCandidates {pindexPrev : IndexPtr} {item : Int × UInt256} :
    item ∈ sortedCandidates pindexPrev ↔
      ∃ e ∈ candidateBlocks pindexPrev, (e.getBlockTime, e.hash) = item := by
  simp [sortedCandidates, (List.perm_insertionSort _ _).mem_iff]

/-- A selection reads the index at the candidates only. -/
theorem selectFrom_congr {mapIndex mapIndex' : UInt256 → Option IndexEntry}
    (mapSelectedBlocks : List IndexEntry) (nSelectionIntervalStop : Int)
    (nStakeModifierPrev : UInt64) (items : List (Int × UInt256)) (best : Option (UInt256 × IndexEntry))
    (hmap : ∀ item ∈ items, mapIndex item.2 = mapIndex' item.2) :
    selectFrom hash mapIndex mapSelectedBlocks nSelectionIntervalStop nStakeModifierPrev items best =
      selectFrom hash mapIndex' mapSelectedBlocks nSelectionIntervalStop nStakeModifierPrev items
        best := by
  induction items generalizing best with
  | nil => rfl
  | cons item items ih =>
    have hitem := hmap item List.mem_cons_self
    have ih := fun best => ih best fun item h => hmap item (List.mem_cons_of_mem _ h)
    simp only [selectFrom, hitem, ih]

/-- The two functions agree when the window keeps the candidates and the last modifier. -/
theorem nextStakeModifier_take {mapBlockIndex mapBlockThinIndex : UInt256 → Option IndexEntry}
    {full : IndexPtr} {m : Nat} (hfull : ∀ e ∈ full, mapBlockIndex e.hash = some e)
    (hthin : ∀ e ∈ full.take m, mapBlockThinIndex e.hash = some e)
    (hm : (candidateBlocks full).length ≤ m)
    (hmod : full.any (fun e => e.generatedStakeModifier) →
      (full.take m).any fun e => e.generatedStakeModifier) :
    nextStakeModifier hash mapBlockThinIndex (full.take m) =
      nextStakeModifier hash mapBlockIndex full := by
  have hcand := candidateBlocks_take hm
  have hsorted : sortedCandidates (full.take m) = sortedCandidates full := by
    rw [sortedCandidates, sortedCandidates, hcand]
  have hmap : ∀ item ∈ sortedCandidates full, mapBlockThinIndex item.2 = mapBlockIndex item.2 := by
    intro item hitem
    obtain ⟨e, he, rfl⟩ := mem_sortedCandidates.mp hitem
    have hwindow : e ∈ full.take m := candidateBlocks_subset _ (hcand ▸ he)
    rw [hthin e hwindow, hfull e (List.mem_of_mem_take hwindow)]
  have hround : selectRound hash mapBlockThinIndex (sortedCandidates full) =
      selectRound hash mapBlockIndex (sortedCandidates full) := by
    funext nStakeModifier s nRound
    unfold selectRound selectBlockFromCandidates
    simp only [selectFrom_congr hash _ _ _ _ _ hmap]
  have hlast := getLastStakeModifier_take hmod
  cases full with
  | nil => simp [nextStakeModifier]
  | cons last pprev =>
    obtain ⟨m, rfl⟩ : ∃ m', m = m' + 1 := by
      rw [candidateBlocks_cons, List.length_cons] at hm
      exact Nat.exists_eq_add_one.mpr (by omega)
    rw [List.take_succ_cons] at *
    unfold nextStakeModifier selectBlocks
    simp only [hlast, hsorted, hround]

end Window

section Rounds

variable (hash : HashFn) {mapIndex : UInt256 → Option IndexEntry} {mapSelectedBlocks : List IndexEntry}
  {nSelectionIntervalStop : Int} {nStakeModifierPrev : UInt64}

/-- No block of the list has the hash of this one. -/
def Unselected (mapSelectedBlocks : List IndexEntry) (e : IndexEntry) : Prop :=
  ∀ s ∈ mapSelectedBlocks, s.hash ≠ e.hash

theorem unselected_iff (e : IndexEntry) :
    Unselected mapSelectedBlocks e ↔ ¬ mapSelectedBlocks.any fun s => s.hash == e.hash := by
  simp [Unselected]

/-- What the loop returns is the best block so far or an unselected candidate. -/
theorem selectFrom_some {items : List (Int × UInt256)} {best : Option (UInt256 × IndexEntry)}
    {e : IndexEntry}
    (he : selectFrom hash mapIndex mapSelectedBlocks nSelectionIntervalStop nStakeModifierPrev items
      best = some e) :
    best.map Prod.snd = some e ∨
      ∃ item ∈ items, mapIndex item.2 = some e ∧ Unselected mapSelectedBlocks e := by
  induction items generalizing best with
  | nil => exact .inl he
  | cons item items ih =>
    rw [selectFrom] at he
    cases hitem : mapIndex item.2 with
    | none => simp [hitem] at he
    | some pindex =>
      simp only [hitem] at he
      split at he
      · exact .inl he
      split at he
      · rcases ih he with hbest | ⟨item', hmem, hrest⟩
        · exact .inl hbest
        · exact .inr ⟨item', List.mem_cons_of_mem _ hmem, hrest⟩
      · rename_i hnew
        rcases ih he with hbest | ⟨item', hmem, hrest⟩
        · have hthis : pindex = e → ∃ item' ∈ item :: items, mapIndex item'.2 = some e ∧
              Unselected mapSelectedBlocks e := by
            rintro rfl
            exact ⟨item, List.mem_cons_self, hitem, (unselected_iff _).mpr hnew⟩
          cases best with
          | none =>
            right
            apply hthis
            simpa using hbest
          | some b =>
            simp only at hbest
            split at hbest
            · right
              apply hthis
              simpa using hbest
            · exact .inl hbest
        · exact .inr ⟨item', List.mem_cons_of_mem _ hmem, hrest⟩

/-- The loop returns a block when it has one already or meets an unselected candidate. -/
theorem selectFrom_isSome {items : List (Int × UInt256)} {best : Option (UInt256 × IndexEntry)}
    (hmap : ∀ item ∈ items, (mapIndex item.2).isSome)
    (hex : best.isSome ∨
      ∃ item ∈ items, ∃ e, mapIndex item.2 = some e ∧ Unselected mapSelectedBlocks e) :
    (selectFrom hash mapIndex mapSelectedBlocks nSelectionIntervalStop nStakeModifierPrev items
      best).isSome := by
  induction items generalizing best with
  | nil =>
    rcases hex with hbest | ⟨item, hmem, _⟩
    · simpa [selectFrom] using hbest
    · simp at hmem
  | cons item items ih =>
    obtain ⟨pindex, hitem⟩ := Option.isSome_iff_exists.mp (hmap item List.mem_cons_self)
    have hmap' : ∀ item ∈ items, (mapIndex item.2).isSome := by
      intro item' h
      exact hmap item' (List.mem_cons_of_mem _ h)
    rw [selectFrom]
    simp only [hitem]
    split
    · rename_i hstop
      simpa using hstop.1
    split
    · rename_i hold
      apply ih hmap'
      rcases hex with hbest | ⟨item', hmem, e, he, hnew⟩
      · exact .inl hbest
      · rcases List.mem_cons.mp hmem with rfl | hmem
        · rw [hitem, Option.some.injEq] at he
          subst he
          exact absurd hold ((unselected_iff _).mp hnew)
        · exact .inr ⟨item', hmem, e, he, hnew⟩
    · apply ih hmap'
      left
      cases best with
      | none => rfl
      | some b =>
        simp only
        split <;> rfl

variable {pindexPrev : IndexPtr}

/-- A selection finds an unselected candidate whenever there is one. -/
theorem selectBlockFromCandidates_unselected
    (hfile : ∀ e ∈ pindexPrev, mapIndex e.hash = some e) (nSelectionIntervalStop : Int)
    (nStakeModifierPrev : UInt64)
    (hex : ∃ e ∈ candidateBlocks pindexPrev, Unselected mapSelectedBlocks e) :
    ∃ e ∈ candidateBlocks pindexPrev, Unselected mapSelectedBlocks e ∧
      selectBlockFromCandidates hash mapIndex (sortedCandidates pindexPrev) mapSelectedBlocks
        nSelectionIntervalStop nStakeModifierPrev = some e := by
  have hitem : ∀ item ∈ sortedCandidates pindexPrev,
      ∃ e ∈ candidateBlocks pindexPrev, mapIndex item.2 = some e := by
    intro item hitem
    obtain ⟨e, he, rfl⟩ := mem_sortedCandidates.mp hitem
    exact ⟨e, he, hfile e (candidateBlocks_subset _ he)⟩
  have hsome : (selectFrom hash mapIndex mapSelectedBlocks nSelectionIntervalStop nStakeModifierPrev
      (sortedCandidates pindexPrev) none).isSome := by
    apply selectFrom_isSome
    · intro item h
      obtain ⟨e, _, he⟩ := hitem item h
      rw [he]
      rfl
    · right
      obtain ⟨e, he, hnew⟩ := hex
      exact ⟨(e.getBlockTime, e.hash), mem_sortedCandidates.mpr ⟨e, he, rfl⟩, e,
        hfile e (candidateBlocks_subset _ he), hnew⟩
  obtain ⟨e, he⟩ := Option.isSome_iff_exists.mp hsome
  rcases selectFrom_some hash he with hbest | ⟨item, hmem, hmap, hnew⟩
  · simp at hbest
  · obtain ⟨e', he', hmap'⟩ := hitem item hmem
    rw [hmap, Option.some.injEq] at hmap'
    subst hmap'
    exact ⟨e, he', hnew, he⟩

/-- While fewer blocks than there are candidates are selected, one of them is not. -/
theorem exists_unselected (hnodup : (pindexPrev.map IndexEntry.hash).Nodup)
    (hlen : mapSelectedBlocks.length < (candidateBlocks pindexPrev).length) :
    ∃ e ∈ candidateBlocks pindexPrev, Unselected mapSelectedBlocks e := by
  by_contra hall
  simp only [Unselected, not_exists, not_and, not_forall, not_not] at hall
  have hsub : (candidateBlocks pindexPrev).map IndexEntry.hash ⊆
      mapSelectedBlocks.map IndexEntry.hash := by
    intro h hmem
    obtain ⟨e, he, rfl⟩ := List.mem_map.mp hmem
    obtain ⟨s, hs, heq⟩ := hall e he
    exact List.mem_map.mpr ⟨s, hs, heq⟩
  have hcand : ((candidateBlocks pindexPrev).map IndexEntry.hash).Nodup :=
    hnodup.sublist ((candidateBlocks_sublist pindexPrev).map _)
  have hle := (List.subperm_of_subset hcand hsub).length_le
  simp only [List.length_map] at hle
  omega

end Rounds

section Fair

variable (hash : HashFn) (mapIndex : UInt256 → Option IndexEntry) (pindexPrev : IndexPtr)
  (last : IndexEntry) (nStakeModifier : UInt64)

/-- `nSelectionIntervalStop` after a number of rounds. -/
def sectionStop (n : Nat) : Int :=
  selectionIntervalStart last +
    ((List.range n).map fun r => (getStakeModifierSelectionIntervalSection r : Int)).sum

/-- What holds after `n` rounds. -/
structure FairRounds (n : Nat) (s : Selection) : Prop where
  nSelectionIntervalStop : s.nSelectionIntervalStop = sectionStop last n
  rounds : s.mapSelectedBlocks.length = n
  chosen : ∀ r e, s.mapSelectedBlocks[r]? = some e →
    selectBlockFromCandidates hash mapIndex (sortedCandidates pindexPrev)
      (s.mapSelectedBlocks.take r) (sectionStop last (r + 1)) nStakeModifier = some e
  unselected : ∀ r e, s.mapSelectedBlocks[r]? = some e →
    e ∈ candidateBlocks pindexPrev ∧ Unselected (s.mapSelectedBlocks.take r) e
  bit : ∀ r e, s.mapSelectedBlocks[r]? = some e →
    s.nStakeModifierNew.toNat.testBit r = (e.getStakeEntropyBit == 1)
  rest : ∀ r, n ≤ r → s.nStakeModifierNew.toNat.testBit r = false

variable {hash mapIndex pindexPrev last nStakeModifier}

theorem getStakeEntropyBit_cases (e : IndexEntry) :
    e.getStakeEntropyBit = 0 ∨ e.getStakeEntropyBit = 1 := by
  have hlt : e.getStakeEntropyBit.toNat < 2 := by
    simp only [IndexEntry.getStakeEntropyBit, IndexEntry.BLOCK_STAKE_ENTROPY, UInt32.toNat_shiftRight,
      UInt32.toNat_and, Nat.shiftRight_and_distrib]
    exact Nat.lt_succ_of_le Nat.and_le_right
  rcases Nat.lt_succ_iff.mp hlt |>.lt_or_eq with h | h
  · exact .inl (UInt32.toNat_inj.mp (by simpa using h))
  · exact .inr (UInt32.toNat_inj.mp h)

/-- The bit that a round adds. -/
theorem testBit_or_entropyBit (nStakeModifierNew : UInt64) (e : IndexEntry) {n : Nat} (hn : n < 64)
    (r : Nat) :
    (nStakeModifierNew ||| (e.getStakeEntropyBit.toUInt64 <<< n.toUInt64)).toNat.testBit r =
      (nStakeModifierNew.toNat.testBit r || (decide (r = n) && e.getStakeEntropyBit == 1)) := by
  have hmod : n.toUInt64.toNat % 64 = n := by
    simp only [UInt64.toNat_ofNat']
    omega
  rw [UInt64.toNat_or, Nat.testBit_or, UInt64.toNat_shiftLeft, hmod]
  congr 1
  rcases getStakeEntropyBit_cases e with he | he
  · simp [he]
  · have hpow : 1 <<< n % 2 ^ 64 = 2 ^ n := by
      rw [Nat.one_shiftLeft, Nat.mod_eq_of_lt (Nat.pow_lt_pow_right (by omega) hn)]
    have hone : (UInt32.toUInt64 1).toNat = 1 := rfl
    rw [he, hone, hpow, Nat.testBit_two_pow]
    simp [eq_comm]

theorem fairRounds_zero :
    FairRounds hash mapIndex pindexPrev last nStakeModifier 0 ⟨selectionIntervalStart last, 0, []⟩ where
  nSelectionIntervalStop := by simp [sectionStop]
  rounds := rfl
  chosen := by simp
  unselected := by simp
  bit := by simp
  rest := by simp

/-- A further round. -/
theorem FairRounds.selectRound (hfile : ∀ e ∈ pindexPrev, mapIndex e.hash = some e)
    (hnodup : (pindexPrev.map IndexEntry.hash).Nodup) {n : Nat} {s : Selection}
    (hfair : FairRounds hash mapIndex pindexPrev last nStakeModifier n s) (hn : n < 64)
    (hcand : n < (candidateBlocks pindexPrev).length) :
    ∃ s', AliasWallet.selectRound hash mapIndex (sortedCandidates pindexPrev) nStakeModifier s n =
        some s' ∧ FairRounds hash mapIndex pindexPrev last nStakeModifier (n + 1) s' := by
  have hstop : s.nSelectionIntervalStop + getStakeModifierSelectionIntervalSection n =
      sectionStop last (n + 1) := by
    rw [hfair.nSelectionIntervalStop, sectionStop, sectionStop, List.range_succ]
    simp [add_assoc]
  have hlen : s.mapSelectedBlocks.length < (candidateBlocks pindexPrev).length := by
    rw [hfair.rounds]
    exact hcand
  obtain ⟨e, hmem, hnew, he⟩ := selectBlockFromCandidates_unselected hash hfile
    (sectionStop last (n + 1)) nStakeModifier (exists_unselected hnodup hlen)
  refine ⟨_, by rw [AliasWallet.selectRound, hstop, he]; rfl, ?_⟩
  -- a round that was over keeps its block, and the blocks selected before it
  have hsplit : ∀ r e', (s.mapSelectedBlocks ++ [e])[r]? = some e' →
      (r < n ∧ s.mapSelectedBlocks[r]? = some e' ∧
        (s.mapSelectedBlocks ++ [e]).take r = s.mapSelectedBlocks.take r) ∨
      (r = n ∧ e' = e ∧ (s.mapSelectedBlocks ++ [e]).take r = s.mapSelectedBlocks) := by
    intro r e' hr
    rw [List.getElem?_append, hfair.rounds] at hr
    split at hr
    · rename_i hlt
      exact .inl ⟨hlt, hr, List.take_append_of_le_length (by rw [hfair.rounds]; omega)⟩
    · rename_i hge
      obtain ⟨hrn, heq⟩ : r = n ∧ e' = e := by
        rw [List.getElem?_singleton] at hr
        split at hr
        · simp only [Option.some.injEq] at hr
          exact ⟨by omega, hr.symm⟩
        · simp at hr
      exact .inr ⟨hrn, heq, by rw [hrn, ← hfair.rounds, List.take_left']; rfl⟩
  exact
  { nSelectionIntervalStop := rfl
    rounds := by simp [hfair.rounds]
    chosen := by
      intro r e' hr
      rcases hsplit r e' hr with ⟨_, hold, htake⟩ | ⟨rfl, rfl, htake⟩
      · rw [htake]
        exact hfair.chosen r e' hold
      · rw [htake]
        exact he
    unselected := by
      intro r e' hr
      rcases hsplit r e' hr with ⟨_, hold, htake⟩ | ⟨rfl, rfl, htake⟩
      · rw [htake]
        exact hfair.unselected r e' hold
      · rw [htake]
        exact ⟨hmem, hnew⟩
    bit := by
      intro r e' hr
      rw [testBit_or_entropyBit _ _ hn]
      rcases hsplit r e' hr with ⟨hlt, hold, _⟩ | ⟨rfl, rfl, _⟩
      · rw [hfair.bit r e' hold, decide_eq_false (by omega)]
        simp
      · rw [hfair.rest r le_rfl]
        simp
    rest := by
      intro r hr
      rw [testBit_or_entropyBit _ _ hn, hfair.rest r (by omega), decide_eq_false (by omega)]
      rfl }

variable (hash last nStakeModifier) in
/-- All rounds go through. -/
theorem exists_fairRounds (hfile : ∀ e ∈ pindexPrev, mapIndex e.hash = some e)
    (hnodup : (pindexPrev.map IndexEntry.hash).Nodup) (n : Nat)
    (hn : n ≤ min 64 (candidateBlocks pindexPrev).length) :
    ∃ s, (List.range n).foldlM
        (selectRound hash mapIndex (sortedCandidates pindexPrev) nStakeModifier)
        ⟨selectionIntervalStart last, 0, []⟩ = some s ∧
      FairRounds hash mapIndex pindexPrev last nStakeModifier n s := by
  induction n with
  | zero => exact ⟨_, rfl, fairRounds_zero⟩
  | succ n ih =>
    obtain ⟨s, hs, hfair⟩ := ih (by omega)
    obtain ⟨s', hs', hfair'⟩ := hfair.selectRound hfile hnodup (by omega) (by omega)
    refine ⟨s', ?_, hfair'⟩
    rw [List.range_succ, List.foldlM_append, hs]
    simpa using hs'

theorem length_sortedCandidates (pindexPrev : IndexPtr) :
    (sortedCandidates pindexPrev).length = (candidateBlocks pindexPrev).length := by
  simp [sortedCandidates]

end Fair

section Agreement

/-- A window of the newest blocks of a full chain, in a node whose indexes file them. -/
structure ThinWindow (mapBlockIndex mapBlockThinIndex : UInt256 → Option IndexEntry) (full : IndexPtr)
    (m : Nat) : Prop where
  nodup : (full.map IndexEntry.hash).Nodup
  filed : ∀ e ∈ full, mapBlockIndex e.hash = some e
  thinFiled : ∀ e ∈ full.take m, mapBlockThinIndex e.hash = some e
  /-- The window holds the whole selection interval. -/
  interval : (candidateBlocks full).length ≤ m

/-- How the modifier after a chain is computed. -/
structure SelectsFairly (hash : HashFn) (mapIndex : UInt256 → Option IndexEntry)
    (pindexPrev : IndexPtr) : Prop where
  /-- A selection does not fail while an unselected candidate remains. -/
  remain : ∀ mapSelectedBlocks nSelectionIntervalStop nStakeModifierPrev,
    (∃ e ∈ candidateBlocks pindexPrev, Unselected mapSelectedBlocks e) →
      ∃ e ∈ candidateBlocks pindexPrev, Unselected mapSelectedBlocks e ∧
        selectBlockFromCandidates hash mapIndex (sortedCandidates pindexPrev) mapSelectedBlocks
          nSelectionIntervalStop nStakeModifierPrev = some e
  /-- The last modifier while it is not old enough, then a new one from all the rounds. -/
  result : ∀ last pprev nStakeModifier nModifierTime, pindexPrev = last :: pprev →
    getLastStakeModifier pindexPrev = some (nStakeModifier, nModifierTime) →
    (nModifierTime / nModifierInterval ≥ last.getBlockTime / nModifierInterval ∧
      nextStakeModifier hash mapIndex pindexPrev = some (nStakeModifier, false)) ∨
    (nModifierTime / nModifierInterval < last.getBlockTime / nModifierInterval ∧
      ∃ s, nextStakeModifier hash mapIndex pindexPrev = some (s.nStakeModifierNew, true) ∧
        FairRounds hash mapIndex pindexPrev last nStakeModifier
          (min 64 (candidateBlocks pindexPrev).length) s)

theorem selectsFairly (hash : HashFn) {mapIndex : UInt256 → Option IndexEntry} {pindexPrev : IndexPtr}
    (hfile : ∀ e ∈ pindexPrev, mapIndex e.hash = some e)
    (hnodup : (pindexPrev.map IndexEntry.hash).Nodup) : SelectsFairly hash mapIndex pindexPrev where
  remain mapSelectedBlocks nSelectionIntervalStop nStakeModifierPrev hex :=
    selectBlockFromCandidates_unselected hash hfile _ _ hex
  result := by
    rintro last pprev nStakeModifier nModifierTime rfl hlast
    by_cases hage : nModifierTime / nModifierInterval ≥ last.getBlockTime / nModifierInterval
    · left
      refine ⟨hage, ?_⟩
      simp [nextStakeModifier, hlast, hage]
    · right
      obtain ⟨s, hs, hfair⟩ := exists_fairRounds hash last nStakeModifier hfile hnodup _ le_rfl
      refine ⟨not_le.mp hage, s, ?_, hfair⟩
      simp [nextStakeModifier, hlast, hage, selectBlocks, length_sortedCandidates, hs]

/-- The two functions agree on a window that also keeps the last block with a modifier. Where they
compute a new modifier, every round succeeds and adds the entropy bit of a block not selected yet. -/
theorem computeNextStakeModifierThin_eq (hash : HashFn)
    (mapBlockIndex mapBlockThinIndex : UInt256 → Option IndexEntry) (full : IndexPtr) (m : Nat)
    (hwindow : ThinWindow mapBlockIndex mapBlockThinIndex full m)
    (hmod : full.any (fun e => e.generatedStakeModifier) →
      (full.take m).any fun e => e.generatedStakeModifier) :
    computeNextStakeModifierThin hash mapBlockThinIndex (full.take m) =
        computeNextStakeModifier hash mapBlockIndex full ∧
      SelectsFairly hash mapBlockIndex full ∧ SelectsFairly hash mapBlockThinIndex (full.take m) := by
  refine ⟨nextStakeModifier_take hash hwindow.filed hwindow.thinFiled hwindow.interval hmod,
    selectsFairly hash hwindow.filed hwindow.nodup, selectsFairly hash hwindow.thinFiled ?_⟩
  exact hwindow.nodup.sublist ((List.take_sublist m full).map _)

/-- An index that files the blocks of a chain. -/
def indexOf (chain : IndexPtr) (h : UInt256) : Option IndexEntry := chain.find? fun e => e.hash == h

/-- A block of a test chain that generated a modifier. -/
def modifierEntry (nHeight : Nat) (nTime : UInt32) : IndexEntry :=
  { workEntry nHeight nTime with nFlags := IndexEntry.BLOCK_STAKE_MODIFIER }

/-- After a break of a day the selection interval holds the last block only. A window of that one block
has no modifier to start from. -/
theorem shortWindow_loses_modifier :
    ¬ ∀ (mapBlockIndex mapBlockThinIndex : UInt256 → Option IndexEntry) (full : IndexPtr) (m : Nat),
      ThinWindow mapBlockIndex mapBlockThinIndex full m →
        computeNextStakeModifierThin sha256d mapBlockThinIndex (full.take m) =
          computeNextStakeModifier sha256d mapBlockIndex full := by
  intro hall
  have hsame := hall (indexOf [workEntry 1 1600100000, modifierEntry 0 1600000000])
    (indexOf [workEntry 1 1600100000]) [workEntry 1 1600100000, modifierEntry 0 1600000000] 1
    ⟨by decide +kernel, by decide +kernel, by decide +kernel, by decide +kernel⟩
  revert hsame
  decide +kernel

/-- Two blocks out of three are the whole interval and the last modifier. -/
theorem twoBlocks_modifier :
    computeNextStakeModifierThin sha256d (indexOf [workEntry 2 1600002000, modifierEntry 1 1600001000])
        [workEntry 2 1600002000, modifierEntry 1 1600001000] =
      computeNextStakeModifier sha256d
        (indexOf [workEntry 2 1600002000, modifierEntry 1 1600001000, modifierEntry 0 1599000000])
        [workEntry 2 1600002000, modifierEntry 1 1600001000, modifierEntry 0 1599000000] :=
  (computeNextStakeModifierThin_eq sha256d
    (indexOf [workEntry 2 1600002000, modifierEntry 1 1600001000, modifierEntry 0 1599000000])
    (indexOf [workEntry 2 1600002000, modifierEntry 1 1600001000])
    [workEntry 2 1600002000, modifierEntry 1 1600001000, modifierEntry 0 1599000000] 2
    ⟨by decide +kernel, by decide +kernel, by decide +kernel, by decide +kernel⟩ (by decide)).1

end Agreement

end AliasWallet
