import AliasWallet.Wallet.AvailableCoins

/-!
# The heights at which a denomination was spent in full (`UpdateAnonStats`, `RemoveAnonStats`)

The record on disk holds a list of heights for each denomination. A block that is connected puts its height in front;
one that is disconnected takes away the height that the statistics in memory name.
-/

namespace AliasWallet

/-- `CAnonOutputCount`, as the statistics in memory use it. -/
structure AnonStat extends MixinCount where
  nLastHeight : Int
  nStakes : Int
  nCompromisedHeight : Int

def AnonStat.zero : AnonStat := ⟨⟨⟨0, 0, 0, 0⟩, 0, 0⟩, 0, 0, 0⟩

structure CAnonBlockStat where
  nSpends : UInt16
  nOutputs : UInt16
  nStakingOutputs : UInt16
  nCompromisedOutputs : UInt16

/-- `map[key] = value`, for a map by ascending keys. -/
def mapAssign {K V : Type} [DecidableEq K] [LT K] [DecidableLT K] (key : K) (value : V) : List (K × V) → List (K × V)
  | [] => [(key, value)]
  | e :: map =>
    if e.1 = key then (key, value) :: map
    else if key < e.1 then (key, value) :: e :: map
    else e :: mapAssign key value map

abbrev MapAnonOutputStats := List (Int64 × AnonStat)

abbrev MapAnonBlockStat := List (Int64 × CAnonBlockStat)

/-- The record of compromised heights, null where there is none; the statistics in memory, and whether they have to be
built again; and the height of the best block. -/
structure AnonStats where
  compromisedAnonHeights : Option (Int64 → List Int)
  mapAnonOutputStats : MapAnonOutputStats
  mapAnonBlockStats : List (Int × MapAnonBlockStat)
  fStaleAnonCache : Bool
  nBestHeight : Int

def nMaxAnonBlockCache : Nat := 1000

/-- `mapAnonOutputStats[nValue]`; a missing entry is zero. -/
def statOf (stats : MapAnonOutputStats) (nValue : Int64) : AnonStat := (stats.lookup nValue).getD AnonStat.zero

/-- The insertion in descending order, where the height is not found. -/
def insertHeight (nBlockHeight : Int) (vCompromisedHeights : List Int) : List Int :=
  if nBlockHeight ∈ vCompromisedHeights then vCompromisedHeights
  else
    vCompromisedHeights.takeWhile (· > nBlockHeight) ++
      nBlockHeight :: vCompromisedHeights.dropWhile (· > nBlockHeight)

/-- The outputs of a block that become mature (`sign` is `1`), or cease to be (`-1`). -/
def matureOutputs (sign nMatureHeight : Int) (stats : MapAnonOutputStats) (e : Int64 × CAnonBlockStat) :
    MapAnonOutputStats :=
  let count := statOf stats e.1
  let nMixinsUpdate := if count.nCompromisedHeight - MIN_ANON_SPEND_DEPTH < nMatureHeight
    then e.2.nOutputs - e.2.nCompromisedOutputs else 0
  mapAssign e.1 { count with
    nMixins := count.nMixins + sign * nMixinsUpdate.toNat
    nMature := count.nMature + sign * e.2.nOutputs.toNat } stats

/-- The outputs of coinstakes, and all outputs as mixins for staking. -/
def matureStakes (sign nMatureStakeHeight : Int) (stats : MapAnonOutputStats) (e : Int64 × CAnonBlockStat) :
    MapAnonOutputStats :=
  let count := statOf stats e.1
  let fMixins := decide (count.nCompromisedHeight - MIN_ANON_SPEND_DEPTH < nMatureStakeHeight)
  let nMixinsUpdate := if fMixins then e.2.nStakingOutputs else 0
  let nMixinsStakingUpdate := if fMixins then e.2.nStakingOutputs + e.2.nOutputs - e.2.nCompromisedOutputs else 0
  mapAssign e.1 { count with
    nMixins := count.nMixins + sign * nMixinsUpdate.toNat
    nMixinsStaking := count.nMixinsStaking + sign * nMixinsStakingUpdate.toNat
    nMature := count.nMature + sign * e.2.nStakingOutputs.toNat } stats

namespace AnonStats

variable (p : ChainParams) (s : AnonStats)

/-- The stored list of a denomination. -/
def heights (nValue : Int64) : List Int := s.compromisedAnonHeights.elim [] (· nValue)

/-- The statistics of a mature block, where its height is one. A missing block makes the cache stale and ends the
call. -/
def matureBlock (nHeight : Int) (f : MapAnonOutputStats → Int64 × CAnonBlockStat → MapAnonOutputStats) :
    AnonStats × Bool :=
  if nHeight > 0 then
    match s.mapAnonBlockStats.lookup nHeight with
    | none => ({ s with fStaleAnonCache := true }, true)
    | some mapBlock => ({ s with mapAnonOutputStats := mapBlock.foldl f s.mapAnonOutputStats }, false)
  else (s, false)

/-- Both kinds of maturity, and what follows where no block is missing. -/
def matureBlocks (sign nBlockHeight : Int) (rest : AnonStats → AnonStats) : AnonStats :=
  if s.fStaleAnonCache then s
  else
    let nMatureHeight := nBlockHeight - MIN_ANON_SPEND_DEPTH + 1
    match s.matureBlock nMatureHeight (matureOutputs sign nMatureHeight) with
    | (s, true) => s
    | (s, false) =>
      let nMatureStakeHeight := nBlockHeight - p.getAnonStakeMinConfirmations + 1
      match s.matureBlock nMatureStakeHeight (matureStakes sign nMatureStakeHeight) with
      | (s, true) => s
      | (s, false) => rest s

/-- The counts of a denomination with those of the block. -/
def addBlockStat (nBlockHeight : Int) (count : AnonStat) (stat : CAnonBlockStat) : AnonStat :=
  let nNewAnons := stat.nOutputs + stat.nStakingOutputs
  { count with
    nSpends := count.nSpends + stat.nSpends.toNat
    nExists := count.nExists + nNewAnons.toNat
    nStakes := count.nStakes + stat.nStakingOutputs.toNat
    nLastHeight := if nNewAnons > 0 ∧ count.nLastHeight < nBlockHeight then nBlockHeight else count.nLastHeight }

/-- One denomination in the first loop of `UpdateAnonStats`. -/
def updateValue (nBlockHeight : Int) (s : AnonStats) (e : Int64 × CAnonBlockStat) : AnonStats :=
  let count := addBlockStat nBlockHeight (statOf s.mapAnonOutputStats e.1) e.2
  let s := { s with mapAnonOutputStats := mapAssign e.1 count s.mapAnonOutputStats }
  if count.nMature ≠ 0 ∧ e.2.nSpends ≠ 0 ∧ count.nMature - count.nSpends ≤ 0 then
    { s with
      fStaleAnonCache := true
      compromisedAnonHeights :=
        -- the record is written only where the height is new
        if nBlockHeight ∈ s.heights e.1 then s.compromisedAnonHeights
        else some (Function.update s.heights e.1 (insertHeight nBlockHeight (s.heights e.1))) }
  else s

/-- `mapAnonBlockStats.erase` of the oldest blocks beyond the size of the cache. -/
def trimBlockStats : AnonStats :=
  { s with mapAnonBlockStats := s.mapAnonBlockStats.drop (s.mapAnonBlockStats.length - nMaxAnonBlockCache) }

/-- `UpdateAnonStats` for the next block, with the statistics of the block that its transactions left. -/
def updateAnonStats (mapAnonBlockStat : MapAnonBlockStat) : AnonStats :=
  let nBlockHeight := s.nBestHeight + 1
  let s := { s with
    mapAnonBlockStats := mapAssign nBlockHeight mapAnonBlockStat s.mapAnonBlockStats
    nBestHeight := nBlockHeight }
  (mapAnonBlockStat.foldl (updateValue nBlockHeight) s).matureBlocks p 1 nBlockHeight trimBlockStats

/-- One denomination in the first loop of `RemoveAnonStats`; null where there is no record. -/
def removeValue (nBlockHeight : Int) (s : AnonStats) (e : Int64 × AnonStat) : Option AnonStats :=
  if e.2.nCompromisedHeight ≥ nBlockHeight then
    s.compromisedAnonHeights.map fun mapCompromisedHeights => { s with
      fStaleAnonCache := true
      compromisedAnonHeights := some (Function.update mapCompromisedHeights e.1
        ((mapCompromisedHeights e.1).filter fun h => h ≠ e.2.nCompromisedHeight)) }
  else some s

/-- `RemoveAnonStats` for the best block; null is an error. -/
def removeAnonStats : Option AnonStats :=
  let nBlockHeight := s.nBestHeight
  (s.mapAnonOutputStats.foldlM (removeValue nBlockHeight) s).map fun s =>
    { s.matureBlocks p (-1) nBlockHeight fun s =>
        { s with mapAnonBlockStats := s.mapAnonBlockStats.filter fun e => e.1 ≠ nBlockHeight } with
      nBestHeight := nBlockHeight - 1 }

/-- `CacheAnonStats`, with the counts of the outputs and spends on disk. The zero entries that it starts with are left
out, as a missing entry is zero. -/
def cacheAnonStats (lOutputCounts : MapAnonOutputStats) (mapAnonBlockStats : List (Int × MapAnonBlockStat)) :
    AnonStats :=
  { s with
    mapAnonOutputStats := lOutputCounts.map fun e =>
      (e.1, { e.2 with nCompromisedHeight := (s.heights e.1).head?.getD 0 })
    mapAnonBlockStats
    fStaleAnonCache := false }

/-- No block of the chain has written the record yet. -/
def init (nBestHeight : Nat) : AnonStats := ⟨none, [], [], true, nBestHeight⟩

/-- The statistics in memory name the height of the best block for each denomination whose list has it. -/
def CacheCurrent (s : AnonStats) : Prop :=
  ∀ nValue, s.nBestHeight ∈ s.heights nValue →
    ∃ e ∈ s.mapAnonOutputStats, e.1 = nValue ∧ e.2.nCompromisedHeight = s.nBestHeight

end AnonStats

/-- Runs in which the calls of `RemoveAnonStats` meet a condition, with the lists that were stored before each block of
the chain was connected. The cache may be marked as stale, and built again, at any time. -/
inductive AnonRun (p : ChainParams) (allowed : AnonStats → Prop) : List (Int64 → List Int) → AnonStats → Prop
  | init (nBestHeight : Nat) : AnonRun p allowed [] (AnonStats.init nBestHeight)
  | update {stored : List (Int64 → List Int)} {s : AnonStats} (mapAnonBlockStat : MapAnonBlockStat) :
      AnonRun p allowed stored s → AnonRun p allowed (s.heights :: stored) (s.updateAnonStats p mapAnonBlockStat)
  | remove {before : Int64 → List Int} {stored : List (Int64 → List Int)} {s s' : AnonStats} :
      AnonRun p allowed (before :: stored) s → allowed s → s.removeAnonStats p = some s' → AnonRun p allowed stored s'
  | cache {stored : List (Int64 → List Int)} {s : AnonStats} (lOutputCounts : MapAnonOutputStats)
      (mapAnonBlockStats : List (Int × MapAnonBlockStat)) : AnonRun p allowed stored s →
      AnonRun p allowed stored (s.cacheAnonStats lOutputCounts mapAnonBlockStats)
  | stale {stored : List (Int64 → List Int)} {s : AnonStats} : AnonRun p allowed stored s →
      AnonRun p allowed stored { s with fStaleAnonCache := true }

section Heights

open AnonStats

variable {p : ChainParams} {s : AnonStats}

theorem mem_mapAssign {K V : Type} [DecidableEq K] [LT K] [DecidableLT K] {key : K} {value : V} {map : List (K × V)}
    {e : K × V} (h : e ∈ mapAssign key value map) : e = (key, value) ∨ e ∈ map := by
  induction map with
  | nil => exact Or.inl (List.mem_singleton.mp h)
  | cons e' map ih =>
    rw [mapAssign] at h
    split at h
    · exact (List.mem_cons.mp h).imp_right (List.mem_cons_of_mem _)
    · split at h
      · exact List.mem_cons.mp h
      · cases List.mem_cons.mp h with
        | inl hhead => exact Or.inr (hhead ▸ List.mem_cons_self)
        | inr htail => exact (ih htail).imp_right (List.mem_cons_of_mem _)

/-- Every entry names a height that meets a condition, and so does zero. -/
theorem statOf_compromised {P : Int → Prop} (hzero : P 0) {stats : MapAnonOutputStats}
    (h : ∀ e ∈ stats, P e.2.nCompromisedHeight) (nValue : Int64) : P (statOf stats nValue).nCompromisedHeight := by
  rw [statOf]
  cases hlookup : stats.lookup nValue with
  | none => exact hzero
  | some count =>
    obtain ⟨before, after, rfl, -⟩ := List.lookup_eq_some_iff.mp hlookup
    exact h (nValue, count) (List.mem_append_right _ List.mem_cons_self)

theorem foldl_compromised {P : Int → Prop} (hzero : P 0)
    {f : MapAnonOutputStats → Int64 × CAnonBlockStat → MapAnonOutputStats}
    (hf : ∀ stats e, ∃ count, f stats e = mapAssign e.1 count stats ∧
      count.nCompromisedHeight = (statOf stats e.1).nCompromisedHeight)
    (mapBlock : MapAnonBlockStat) {stats : MapAnonOutputStats} (h : ∀ e ∈ stats, P e.2.nCompromisedHeight) :
    ∀ e ∈ mapBlock.foldl f stats, P e.2.nCompromisedHeight := by
  induction mapBlock generalizing stats with
  | nil => exact h
  | cons e mapBlock ih =>
    refine ih fun e' he' => ?_
    obtain ⟨count, heq, hcount⟩ := hf stats e
    rw [heq] at he'
    cases mem_mapAssign he' with
    | inl hnew =>
      rw [hnew, hcount]
      exact statOf_compromised hzero h e.1
    | inr hold => exact h e' hold

/-- The record and the height stay, and the heights in the statistics at zero. -/
structure SameRecord (s s' : AnonStats) : Prop where
  record : s'.compromisedAnonHeights = s.compromisedAnonHeights
  best : s'.nBestHeight = s.nBestHeight
  zero : (∀ e ∈ s.mapAnonOutputStats, e.2.nCompromisedHeight = 0) →
    ∀ e ∈ s'.mapAnonOutputStats, e.2.nCompromisedHeight = 0

theorem SameRecord.refl (s : AnonStats) : SameRecord s s := ⟨rfl, rfl, id⟩

theorem SameRecord.trans {s s' s'' : AnonStats} (h : SameRecord s s') (h' : SameRecord s' s'') : SameRecord s s'' :=
  ⟨h'.record.trans h.record, h'.best.trans h.best, fun hzero => h'.zero (h.zero hzero)⟩

theorem SameRecord.heights {s s' : AnonStats} (h : SameRecord s s') : s'.heights = s.heights := by
  funext nValue
  rw [AnonStats.heights, AnonStats.heights, h.record]

theorem matureBlock_same (s : AnonStats) (nHeight : Int)
    {f : MapAnonOutputStats → Int64 × CAnonBlockStat → MapAnonOutputStats}
    (hf : ∀ stats e, ∃ count, f stats e = mapAssign e.1 count stats ∧
      count.nCompromisedHeight = (statOf stats e.1).nCompromisedHeight) :
    SameRecord s (s.matureBlock nHeight f).1 := by
  rw [matureBlock]
  split
  · split
    · exact ⟨rfl, rfl, id⟩
    · exact ⟨rfl, rfl, fun hzero => foldl_compromised (P := (· = 0)) rfl hf _ hzero⟩
  · exact SameRecord.refl s

theorem matureBlocks_same (s : AnonStats) (sign nBlockHeight : Int) (rest : AnonStats → AnonStats)
    (hrest : ∀ s, SameRecord s (rest s)) : SameRecord s (s.matureBlocks p sign nBlockHeight rest) := by
  have houtputs := matureBlock_same s (nBlockHeight - MIN_ANON_SPEND_DEPTH + 1)
    (f := matureOutputs sign (nBlockHeight - MIN_ANON_SPEND_DEPTH + 1)) fun _ _ => ⟨_, rfl, rfl⟩
  rw [matureBlocks]
  split
  · exact SameRecord.refl s
  · dsimp only
    generalize s.matureBlock _ (matureOutputs sign _) = r at houtputs ⊢
    obtain ⟨s₁, fMissing⟩ := r
    cases fMissing with
    | true => exact houtputs
    | false =>
      have hstakes := matureBlock_same s₁ (nBlockHeight - p.getAnonStakeMinConfirmations + 1)
        (f := matureStakes sign (nBlockHeight - p.getAnonStakeMinConfirmations + 1)) fun _ _ => ⟨_, rfl, rfl⟩
      dsimp only
      generalize s₁.matureBlock _ (matureStakes sign _) = r at hstakes ⊢
      obtain ⟨s₂, fMissing⟩ := r
      cases fMissing with
      | true => exact houtputs.trans hstakes
      | false => exact (houtputs.trans hstakes).trans (hrest s₂)

/-- Each list is the stored one, or has the height in front of it. -/
def Between (before : Int64 → List Int) (nBlockHeight : Int) (heights : Int64 → List Int) : Prop :=
  ∀ nValue, heights nValue = before nValue ∨ heights nValue = nBlockHeight :: before nValue

theorem insertHeight_above {nBlockHeight : Int} {l : List Int} (h : ∀ x ∈ l, x < nBlockHeight) :
    insertHeight nBlockHeight l = nBlockHeight :: l := by
  have hnot : nBlockHeight ∉ l := fun hin => lt_irrefl _ (h _ hin)
  have htake : l.takeWhile (· > nBlockHeight) = [] := by
    cases l with
    | nil => rfl
    | cons x l => exact List.takeWhile_cons_of_neg (by simpa using (h x List.mem_cons_self).le)
  have hdrop : l.dropWhile (· > nBlockHeight) = l := by
    cases l with
    | nil => rfl
    | cons x l => exact List.dropWhile_cons_of_neg (by simpa using (h x List.mem_cons_self).le)
  rw [insertHeight, if_neg hnot, htake, hdrop, List.nil_append]

/-- What `UpdateAnonStats` does to one denomination: nothing, or its height is new and goes in front. -/
theorem updateValue_between {before : Int64 → List Int} {nBlockHeight : Int}
    (hbelow : ∀ nValue, ∀ x ∈ before nValue, x < nBlockHeight) (hs : Between before nBlockHeight s.heights)
    (e : Int64 × CAnonBlockStat) : Between before nBlockHeight (updateValue nBlockHeight s e).heights := by
  rw [updateValue]
  dsimp only
  split
  · split
    · exact hs
    case isFalse hnew =>
      intro nValue
      have hlist : s.heights e.1 = before e.1 :=
        (hs e.1).resolve_right fun hfront => hnew (show nBlockHeight ∈ s.heights e.1 from hfront ▸ List.mem_cons_self)
      by_cases hvalue : nValue = e.1
      · subst hvalue
        right
        show Function.update s.heights e.1 _ e.1 = _
        rw [Function.update_self]
        have hfront := insertHeight_above (hbelow e.1)
        rw [← hlist] at hfront ⊢
        exact hfront
      · show Function.update s.heights e.1 _ nValue = _ ∨ Function.update s.heights e.1 _ nValue = _
        rw [Function.update_of_ne hvalue]
        exact hs nValue
  · exact hs

theorem updateValue_best (nBlockHeight : Int) (s : AnonStats) (e : Int64 × CAnonBlockStat) :
    (updateValue nBlockHeight s e).nBestHeight = s.nBestHeight := by
  rw [updateValue]
  dsimp only
  split <;> rfl

/-- Where there is no record, the statistics name no height. -/
def NoRecordNoHeight (s : AnonStats) : Prop :=
  s.compromisedAnonHeights = none → ∀ e ∈ s.mapAnonOutputStats, e.2.nCompromisedHeight = 0

theorem NoRecordNoHeight.updateValue (h : NoRecordNoHeight s) (nBlockHeight : Int) (e : Int64 × CAnonBlockStat) :
    NoRecordNoHeight (updateValue nBlockHeight s e) := by
  let count := addBlockStat nBlockHeight (statOf s.mapAnonOutputStats e.1) e.2
  have hassign : NoRecordNoHeight { s with mapAnonOutputStats := mapAssign e.1 count s.mapAnonOutputStats } := by
    intro hnone e' he'
    cases mem_mapAssign he' with
    | inl hnew =>
      rw [hnew]
      exact statOf_compromised (P := (· = 0)) rfl (h hnone) e.1
    | inr hold => exact h hnone e' hold
  rw [AnonStats.updateValue]
  dsimp only
  split
  · intro hnone
    refine hassign ?_
    split at hnone
    · exact hnone
    · cases hnone
  · exact hassign

theorem NoRecordNoHeight.same {s s' : AnonStats} (h : NoRecordNoHeight s) (hsame : SameRecord s s') :
    NoRecordNoHeight s' := fun hnone => hsame.zero (h (hsame.record ▸ hnone))

/-- The denominations of a block, one after the other. -/
theorem foldl_updateValue {before : Int64 → List Int} {nBlockHeight : Int}
    (hbelow : ∀ nValue, ∀ x ∈ before nValue, x < nBlockHeight) (l : MapAnonBlockStat)
    (hs : Between before nBlockHeight s.heights) (hzero : NoRecordNoHeight s) :
    Between before nBlockHeight (l.foldl (updateValue nBlockHeight) s).heights ∧
      NoRecordNoHeight (l.foldl (updateValue nBlockHeight) s) ∧
      (l.foldl (updateValue nBlockHeight) s).nBestHeight = s.nBestHeight := by
  induction l generalizing s with
  | nil => exact ⟨hs, hzero, rfl⟩
  | cons e l ih =>
    obtain ⟨hbetween, hnone, hbest⟩ := ih (updateValue_between hbelow hs e) (hzero.updateValue nBlockHeight e)
    exact ⟨hbetween, hnone, hbest.trans (updateValue_best nBlockHeight s e)⟩

theorem filter_front {nBlockHeight h : Int} {l : List Int} (hbelow : ∀ x ∈ l, x < nBlockHeight)
    (hge : h ≥ nBlockHeight) : l.filter (fun x => x ≠ h) = l :=
  List.filter_eq_self.mpr fun x hx => decide_eq_true (ne_of_lt (lt_of_lt_of_le (hbelow x hx) hge))

/-- What `RemoveAnonStats` does to one denomination: it takes the height of the block away, or it does nothing. -/
theorem removeValue_spec {before : Int64 → List Int} {s s' : AnonStats} {nBlockHeight : Int}
    (hbelow : ∀ nValue, ∀ x ∈ before nValue, x < nBlockHeight) (hs : Between before nBlockHeight s.heights)
    {e : Int64 × AnonStat} (hremove : removeValue nBlockHeight s e = some s') (nValue : Int64) :
    s'.heights nValue =
      if e.1 = nValue ∧ e.2.nCompromisedHeight = nBlockHeight then before nValue else s.heights nValue := by
  rw [removeValue] at hremove
  split at hremove
  case isTrue hge =>
    obtain ⟨mapHeights, hrecord, rfl⟩ := Option.map_eq_some_iff.mp hremove
    have hheights : s.heights = mapHeights := by
      funext nValue
      rw [AnonStats.heights, hrecord]
      rfl
    rw [← hheights]
    show Function.update s.heights e.1 _ nValue = _
    by_cases hvalue : e.1 = nValue
    · subst hvalue
      rw [Function.update_self]
      by_cases htop : e.2.nCompromisedHeight = nBlockHeight
      · rw [if_pos ⟨rfl, htop⟩, htop]
        cases hs e.1 with
        | inl hsame => rw [hsame, filter_front (hbelow e.1) le_rfl]
        | inr hfront => rw [hfront, List.filter_cons_of_neg (by simp), filter_front (hbelow e.1) le_rfl]
      · rw [if_neg fun h => htop h.2]
        cases hs e.1 with
        | inl hsame => rw [hsame, filter_front (hbelow e.1) hge]
        | inr hfront =>
          rw [hfront, List.filter_cons_of_pos (by simpa using Ne.symm htop), filter_front (hbelow e.1) hge]
    · rw [Function.update_of_ne (Ne.symm hvalue), if_neg fun h => hvalue h.1]
  case isFalse hlt =>
    rw [← Option.some.inj hremove, if_neg fun h => hlt (le_of_eq h.2.symm)]

theorem removeValue_same {s s' : AnonStats} {nBlockHeight : Int} {e : Int64 × AnonStat}
    (hremove : removeValue nBlockHeight s e = some s') :
    s'.mapAnonOutputStats = s.mapAnonOutputStats ∧
      (s'.compromisedAnonHeights = none ↔ s.compromisedAnonHeights = none) := by
  rw [removeValue] at hremove
  split at hremove
  · obtain ⟨mapHeights, hrecord, rfl⟩ := Option.map_eq_some_iff.mp hremove
    exact ⟨rfl, by rw [hrecord]; exact iff_of_false (Option.some_ne_none _) (Option.some_ne_none _)⟩
  · rw [← Option.some.inj hremove]
    exact ⟨rfl, Iff.rfl⟩

/-- The statistics, one after the other. -/
theorem foldlM_removeValue {before : Int64 → List Int} {nBlockHeight : Int}
    (hbelow : ∀ nValue, ∀ x ∈ before nValue, x < nBlockHeight) (l : MapAnonOutputStats) {s s' : AnonStats}
    (hs : Between before nBlockHeight s.heights) (hremove : l.foldlM (removeValue nBlockHeight) s = some s')
    (nValue : Int64) :
    s'.heights nValue = if ∃ e ∈ l, e.1 = nValue ∧ e.2.nCompromisedHeight = nBlockHeight then before nValue
      else s.heights nValue := by
  induction l generalizing s with
  | nil =>
    rw [← Option.some.inj hremove, if_neg]
    rintro ⟨e, he, -⟩
    exact List.not_mem_nil he
  | cons e l ih =>
    rw [List.foldlM_cons, Option.bind_eq_bind, Option.bind_eq_some_iff] at hremove
    obtain ⟨s₁, hfirst, hrest⟩ := hremove
    have hstep := removeValue_spec hbelow hs hfirst
    have hbetween : Between before nBlockHeight s₁.heights := by
      intro v
      rw [hstep v]
      split
      · exact Or.inl rfl
      · exact hs v
    rw [ih hbetween hrest, hstep nValue]
    by_cases hlater : ∃ e ∈ l, e.1 = nValue ∧ e.2.nCompromisedHeight = nBlockHeight
    · rw [if_pos hlater, if_pos (List.exists_mem_cons_of_exists hlater)]
    · rw [if_neg hlater]
      by_cases hhead : e.1 = nValue ∧ e.2.nCompromisedHeight = nBlockHeight
      · rw [if_pos hhead, if_pos ⟨e, List.mem_cons_self, hhead⟩]
      · rw [if_neg hhead, if_neg]
        rintro ⟨e', he', hboth⟩
        cases List.mem_cons.mp he' with
        | inl heq => exact hhead (heq ▸ hboth)
        | inr hin => exact hlater ⟨e', hin, hboth⟩

theorem foldlM_removeValue_same (nBlockHeight : Int) (l : MapAnonOutputStats) {s s' : AnonStats}
    (hremove : l.foldlM (removeValue nBlockHeight) s = some s') :
    s'.mapAnonOutputStats = s.mapAnonOutputStats ∧
      (s'.compromisedAnonHeights = none ↔ s.compromisedAnonHeights = none) := by
  induction l generalizing s with
  | nil =>
    rw [← Option.some.inj hremove]
    exact ⟨rfl, Iff.rfl⟩
  | cons e l ih =>
    rw [List.foldlM_cons, Option.bind_eq_bind, Option.bind_eq_some_iff] at hremove
    obtain ⟨s₁, hfirst, hrest⟩ := hremove
    have hstep := removeValue_same hfirst
    have hlater := ih hrest
    exact ⟨hlater.1.trans hstep.1, hlater.2.trans hstep.2⟩

/-- The first loop of `RemoveAnonStats` ends without an error. -/
theorem foldlM_removeValue_isSome {nBlockHeight : Int} (hpos : 0 < nBlockHeight) (l : MapAnonOutputStats)
    {s : AnonStats} (h : s.compromisedAnonHeights = none → ∀ e ∈ l, e.2.nCompromisedHeight = 0) :
    ∃ s', l.foldlM (removeValue nBlockHeight) s = some s' := by
  induction l generalizing s with
  | nil => exact ⟨s, rfl⟩
  | cons e l ih =>
    have hfirst : ∃ s₁, removeValue nBlockHeight s e = some s₁ := by
      rw [removeValue]
      split
      case isTrue hge =>
        cases hrecord : s.compromisedAnonHeights with
        | none =>
          rw [h hrecord e List.mem_cons_self] at hge
          exact absurd hge (not_le.mpr hpos)
        | some mapHeights => exact ⟨_, rfl⟩
      · exact ⟨_, rfl⟩
    obtain ⟨s₁, hs₁⟩ := hfirst
    have hrecord := (removeValue_same hs₁).2
    obtain ⟨s', hs'⟩ := ih fun hnone e' he' => h (hrecord.mp hnone) e' (List.mem_cons_of_mem _ he')
    refine ⟨s', ?_⟩
    rw [List.foldlM_cons, hs₁]
    exact hs'

/-- The stored lists, block by block: each block has put its height in front, or nothing. -/
def Linked (heights : Int64 → List Int) (nBestHeight : Int) : List (Int64 → List Int) → Prop
  | [] => 0 ≤ nBestHeight ∧ ∀ nValue, heights nValue = []
  | before :: stored => Between before nBestHeight heights ∧ Linked before (nBestHeight - 1) stored

theorem Linked.best {heights : Int64 → List Int} {nBestHeight : Int} {stored : List (Int64 → List Int)}
    (h : Linked heights nBestHeight stored) : stored.length ≤ nBestHeight := by
  induction stored generalizing heights nBestHeight with
  | nil => exact h.1
  | cons before stored ih =>
    have hrest := ih h.2
    rw [List.length_cons]
    push_cast
    omega

theorem Linked.spec {heights : Int64 → List Int} {nBestHeight : Int} {stored : List (Int64 → List Int)}
    (h : Linked heights nBestHeight stored) (nValue : Int64) :
    (heights nValue).Pairwise (· > ·) ∧ ∀ x ∈ heights nValue, x ≤ nBestHeight := by
  induction stored generalizing heights nBestHeight with
  | nil =>
    rw [h.2 nValue]
    exact ⟨List.Pairwise.nil, fun x hx => absurd hx List.not_mem_nil⟩
  | cons before stored ih =>
    obtain ⟨hsorted, hle⟩ := ih h.2
    have hlt : ∀ x ∈ before nValue, x < nBestHeight := fun x hx => Int.lt_of_le_sub_one (hle x hx)
    cases h.1 nValue with
    | inl hsame =>
      rw [hsame]
      exact ⟨hsorted, fun x hx => (hlt x hx).le⟩
    | inr hfront =>
      rw [hfront]
      exact ⟨List.pairwise_cons.mpr ⟨hlt, hsorted⟩, List.forall_mem_cons.mpr ⟨le_rfl, fun x hx => (hlt x hx).le⟩⟩

theorem Linked.below {before heights : Int64 → List Int} {nBestHeight : Int} {stored : List (Int64 → List Int)}
    (h : Linked heights nBestHeight (before :: stored)) (nValue : Int64) : ∀ x ∈ before nValue, x < nBestHeight :=
  fun x hx => Int.lt_of_le_sub_one ((h.2.spec nValue).2 x hx)

/-- Disconnecting the best block ends without an error, and restores the lists from before it exactly where the
statistics in memory name its height for every list that has it. -/
theorem removeAnonStats_restores {before : Int64 → List Int} {stored : List (Int64 → List Int)}
    (hlinked : Linked s.heights s.nBestHeight (before :: stored)) (hzero : NoRecordNoHeight s) :
    ∃ s', s.removeAnonStats p = some s' ∧ s'.nBestHeight = s.nBestHeight - 1 ∧ NoRecordNoHeight s' ∧
      (s'.heights = before ↔ s.CacheCurrent) := by
  have hpos : 0 < s.nBestHeight := by
    have hbest := hlinked.best
    rw [List.length_cons] at hbest
    omega
  obtain ⟨s₁, hs₁⟩ := foldlM_removeValue_isSome hpos s.mapAnonOutputStats hzero
  have hvalues := foldlM_removeValue hlinked.below s.mapAnonOutputStats hlinked.1 hs₁
  obtain ⟨hstats, hrecord⟩ := foldlM_removeValue_same s.nBestHeight s.mapAnonOutputStats hs₁
  have hsame := matureBlocks_same (p := p) s₁ (-1) s.nBestHeight (fun s' =>
    { s' with mapAnonBlockStats := s'.mapAnonBlockStats.filter fun e => e.1 ≠ s.nBestHeight }) fun s' => ⟨rfl, rfl, id⟩
  refine ⟨_, by rw [removeAnonStats, hs₁]; rfl, rfl, ?_, ?_⟩
  · intro hnone
    exact hsame.zero (hstats ▸ hzero (hrecord.mp (hsame.record ▸ hnone)))
  · change (AnonStats.matureBlocks p s₁ (-1) s.nBestHeight _).heights = before ↔ _
    rw [hsame.heights]
    have hnot : ∀ nValue, s.nBestHeight ∉ before nValue := fun nValue hin => lt_irrefl _ (hlinked.below nValue _ hin)
    constructor
    · intro heq nValue hin
      by_contra hnone
      have hkept := hvalues nValue
      rw [if_neg hnone, heq] at hkept
      exact hnot nValue (hkept ▸ hin)
    · intro hcurrent
      funext nValue
      rw [hvalues nValue]
      split
      · rfl
      case isFalse hnone =>
        refine (hlinked.1 nValue).resolve_right fun hfront => hnone (hcurrent nValue ?_)
        rw [hfront]
        exact List.mem_cons_self

theorem trimBlockStats_same (s : AnonStats) : SameRecord s s.trimBlockStats := by
  rw [trimBlockStats]
  generalize s.mapAnonBlockStats.drop _ = blocks
  exact ⟨rfl, rfl, id⟩

theorem updateAnonStats_linked {stored : List (Int64 → List Int)} (hlinked : Linked s.heights s.nBestHeight stored)
    (hzero : NoRecordNoHeight s) (m : MapAnonBlockStat) :
    Linked (s.updateAnonStats p m).heights (s.updateAnonStats p m).nBestHeight (s.heights :: stored) ∧
      NoRecordNoHeight (s.updateAnonStats p m) := by
  have hbelow : ∀ nValue, ∀ x ∈ s.heights nValue, x < s.nBestHeight + 1 := fun nValue x hx =>
    Int.lt_add_one_of_le ((hlinked.spec nValue).2 x hx)
  have hbetween : Between s.heights (s.nBestHeight + 1) s.heights := fun nValue => Or.inl rfl
  obtain ⟨hvalues, hnone, hbest⟩ := foldl_updateValue (s := { s with
    mapAnonBlockStats := mapAssign (s.nBestHeight + 1) m s.mapAnonBlockStats
    nBestHeight := s.nBestHeight + 1 }) hbelow m hbetween hzero
  have hsame := matureBlocks_same (p := p) (m.foldl (updateValue (s.nBestHeight + 1)) { s with
    mapAnonBlockStats := mapAssign (s.nBestHeight + 1) m s.mapAnonBlockStats
    nBestHeight := s.nBestHeight + 1 }) 1 (s.nBestHeight + 1) trimBlockStats trimBlockStats_same
  have hheight : (s.updateAnonStats p m).nBestHeight = s.nBestHeight + 1 := hsame.best.trans hbest
  have hlists : (s.updateAnonStats p m).heights = _ := hsame.heights
  refine ⟨⟨?_, ?_⟩, hnone.same hsame⟩
  · rw [hheight, hlists]
    exact hvalues
  · rw [hheight, Int.add_sub_cancel]
    exact hlinked

theorem AnonRun.linked {stored : List (Int64 → List Int)} (hrun : AnonRun p CacheCurrent stored s) :
    Linked s.heights s.nBestHeight stored ∧ NoRecordNoHeight s := by
  induction hrun with
  | init nBestHeight => exact ⟨⟨Int.natCast_nonneg _, fun nValue => rfl⟩, fun _ e he => absurd he List.not_mem_nil⟩
  | update m _ ih => exact updateAnonStats_linked ih.1 ih.2 m
  | remove _ hcurrent hremove ih =>
    obtain ⟨s', hs', hbest, hzero, hrestored⟩ := removeAnonStats_restores (p := p) ih.1 ih.2
    obtain rfl := Option.some.inj (hs'.symm.trans hremove)
    refine ⟨?_, hzero⟩
    rw [hrestored.mpr hcurrent, hbest]
    exact ih.1.2
  | @cache stored s counts blocks _ ih =>
    refine ⟨ih.1, fun hnone e he => ?_⟩
    obtain ⟨e', -, rfl⟩ := List.mem_map.mp he
    have hlist : s.heights e'.1 = [] := by
      rw [AnonStats.heights, show s.compromisedAnonHeights = none from hnone]
      rfl
    show (s.heights e'.1).head?.getD 0 = 0
    rw [hlist]
    rfl
  | stale _ ih => exact ih

/-- In a run whose disconnected blocks find the statistics up to date, every list is strictly descending up to the best
height; and the best block, when disconnected, leaves the lists from before it exactly where the statistics are up to
date again. -/
theorem compromisedHeights_restored (p : ChainParams) (stored : List (Int64 → List Int)) (s : AnonStats)
    (hrun : AnonRun p CacheCurrent stored s) :
    (∀ nValue, (s.heights nValue).Pairwise (· > ·) ∧ ∀ h ∈ s.heights nValue, h ≤ s.nBestHeight) ∧
      ∀ before rest, stored = before :: rest →
        ∃ s', s.removeAnonStats p = some s' ∧ (s'.heights = before ↔ s.CacheCurrent) := by
  obtain ⟨hlinked, hzero⟩ := hrun.linked
  refine ⟨hlinked.spec, ?_⟩
  rintro before rest rfl
  obtain ⟨s', hs', -, -, hrestored⟩ := removeAnonStats_restores (p := p) hlinked hzero
  exact ⟨s', hs', hrestored⟩

/-- One of the outputs of a denomination is spent in a block. -/
def spentStat : MapAnonBlockStat := [(5, ⟨1, 0, 0, 0⟩)]

/-- The counts where as many outputs of the denomination are spent, and one more is mature. -/
def spentCount (nSpends : Int) : MapAnonOutputStats :=
  [(5, { AnonStat.zero with nMature := nSpends + 1, nSpends := nSpends })]

/-- The last output is spent at the height 1001, and the statistics are built again. -/
def spentStats : AnonStats :=
  (((AnonStats.init 1000).cacheAnonStats (spentCount 0) []).updateAnonStats mainParams spentStat).cacheAnonStats
    (spentCount 1) []

/-- Another output becomes mature, and is spent at the height 1002. -/
def spentAgain : AnonStats := (spentStats.updateAnonStats mainParams spentStat).cacheAnonStats (spentCount 2) []

theorem spentStats_run (allowed : AnonStats → Prop) : AnonRun mainParams allowed [fun _ => []] spentStats :=
  ((AnonRun.init 1000).cache (spentCount 0) []).update spentStat |>.cache (spentCount 1) []

theorem compromisedHeights_restored_spent :
    ∃ s', spentStats.removeAnonStats mainParams = some s' ∧ (s'.heights = (fun _ => []) ↔ spentStats.CacheCurrent) :=
  (compromisedHeights_restored mainParams _ spentStats (spentStats_run CacheCurrent)).2 _ [] rfl

/-- Both blocks are disconnected one after the other; the list of the denomination keeps the height of the first. -/
theorem height_left_behind :
    ∃ s s' s'', AnonRun mainParams (fun _ => True) [spentStats.heights, fun _ => []] s ∧
      s.removeAnonStats mainParams = some s' ∧ s'.removeAnonStats mainParams = some s'' ∧
      AnonRun mainParams (fun _ => True) [] s'' ∧ s''.nBestHeight = 1000 ∧ s''.heights 5 = [1001] := by
  have hrun : AnonRun mainParams (fun _ => True) [spentStats.heights, fun _ => []] spentAgain :=
    ((spentStats_run _).update spentStat).cache (spentCount 2) []
  have hlast : ∃ s' s'', spentAgain.removeAnonStats mainParams = some s' ∧
      s'.removeAnonStats mainParams = some s'' ∧ s''.nBestHeight = 1000 ∧ s''.heights 5 = [1001] :=
    ⟨_, _, rfl, rfl, rfl, by decide +kernel⟩
  obtain ⟨s', s'', hs', hs'', hbest, hlist⟩ := hlast
  exact ⟨spentAgain, s', s'', hrun, hs', hs'', (hrun.remove trivial hs').remove trivial hs'', hbest, hlist⟩

end Heights

end AliasWallet
