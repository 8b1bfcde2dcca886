import AliasWallet.Core.Block

/-!
# Target difficulty of full and thin nodes (`GetNextTargetRequired`, `GetNextTargetRequiredThin`)

Two copies of one rule. Only the one for full nodes limits the actual spacing to ten target spacings
once protocol V3 is in force.
-/

namespace AliasWallet
open Lib

section Entries

/-- The fields that the retarget and stake modifier rules read. `CBlockIndex` and `CBlockThinIndex`
have them under the same names. -/
structure IndexEntry where
  hash : UInt256
  nHeight : Int
  nTime : UInt32
  nBits : UInt32
  nFlags : UInt32
  nStakeModifier : UInt64
  hashProof : UInt256
  deriving DecidableEq, Repr

namespace IndexEntry

variable (e : IndexEntry)

def BLOCK_PROOF_OF_STAKE : UInt32 := 1

def BLOCK_STAKE_ENTROPY : UInt32 := 2

def BLOCK_STAKE_MODIFIER : UInt32 := 4

def isProofOfStake : Bool := e.nFlags &&& BLOCK_PROOF_OF_STAKE != 0

def getStakeEntropyBit : UInt32 := (e.nFlags &&& BLOCK_STAKE_ENTROPY) >>> 1

def generatedStakeModifier : Bool := e.nFlags &&& BLOCK_STAKE_MODIFIER != 0

def getBlockTime : Int := e.nTime.toNat

end IndexEntry

/-- A pointer into an index: the entry and, behind it, what `pprev` leads to. -/
abbrev IndexPtr := List IndexEntry

end Entries

/-- The limits of proof of stake, beside the other parameters. -/
structure StakeParams extends ChainParams where
  bnProofOfStakeLimit : Nat
  bnProofOfStakeLimitV2 : Nat

def mainStakeParams : StakeParams :=
  { mainParams with
    bnProofOfStakeLimit := (2 ^ 256 - 1) / 2 ^ 20
    bnProofOfStakeLimitV2 := (2 ^ 256 - 1) / 2 ^ 48 }

def testNetStakeParams : StakeParams :=
  { testNetParams with
    bnProofOfStakeLimit := (2 ^ 256 - 1) / 2 ^ 20
    bnProofOfStakeLimitV2 := (2 ^ 256 - 1) / 2 ^ 46 }

def regTestStakeParams : StakeParams :=
  { regTestParams with
    bnProofOfStakeLimit := (2 ^ 256 - 1) / 2 ^ 20
    bnProofOfStakeLimitV2 := (2 ^ 256 - 1) / 2 ^ 46 }

/-- `ProofOfStakeLimit`. -/
def StakeParams.proofOfStakeLimit (p : StakeParams) (nHeight : Int) : Nat :=
  if p.isProtocolV2 nHeight then p.bnProofOfStakeLimitV2 else p.bnProofOfStakeLimit

def TARGET_BLOCK_TIME : Nat := 96

/-- `GetTargetSpacing`. -/
def getTargetSpacing (p : StakeParams) (nHeight nBlockTime : Int) : Nat :=
  if p.isProtocolV2 nHeight then if p.isForkV3 nBlockTime then TARGET_BLOCK_TIME else 64 else 60

def nTargetTimespan : Int := 24 * 60 * 60

/-- `CBigNum::GetCompact` of a number that is not negative: the length of its mpi, which keeps the top
bit free for the sign, and the first three bytes. -/
def getCompact (n : Nat) : UInt32 :=
  if n = 0 then 0
  else
    let nSize := n.size / 8 + 1
    let mantissa := if nSize ≥ 3 then n / 256 ^ (nSize - 3) else n * 256 ^ (3 - nSize)
    (nSize * 2 ^ 24 + mantissa).toUInt32

section Retarget

variable (p : StakeParams)

/-- `GetLastBlockIndex`, for both indexes: back to a block of the type, or to the first block. -/
def lastOfType (fProofOfStake : Bool) : IndexPtr → IndexPtr
  | [] => []
  | [e] => [e]
  | e :: e' :: pprev =>
    if e.isProofOfStake = fProofOfStake then e :: e' :: pprev else lastOfType fProofOfStake (e' :: pprev)

def getLastBlockIndex (pindex : IndexPtr) (fProofOfStake : Bool) : IndexPtr :=
  lastOfType fProofOfStake pindex

def getLastBlockThinIndex (pindex : IndexPtr) (fProofOfStake : Bool) : IndexPtr :=
  lastOfType fProofOfStake pindex

/-- The end of both functions: the target of `nBits` moved toward the spacing, within the limit. -/
def retarget (bnTargetLimit : Nat) (nBits : UInt32) (nTargetSpacing nActualSpacing : Int) : Nat :=
  let nInterval := nTargetTimespan / nTargetSpacing
  let bnNew := (setCompact nBits *
    ((nInterval - 1) * nTargetSpacing + nActualSpacing + nActualSpacing)).tdiv
      ((nInterval + 1) * nTargetSpacing)
  if bnNew ≤ 0 ∨ bnNew > bnTargetLimit then bnTargetLimit else bnNew.toNat

/-- `bnTargetLimit`; the stake limit reads the height through the pointer, so a null pointer is not
defined. -/
def targetLimit (pindexLast : IndexPtr) (fProofOfStake : Bool) : Option Nat :=
  if fProofOfStake then pindexLast.head?.map fun e => p.proofOfStakeLimit e.nHeight
  else some p.bnProofOfWorkLimit

/-- `GetNextTargetRequired`; `none` where a null pointer is read. -/
def getNextTargetRequired (pindexLast : IndexPtr) (fProofOfStake : Bool) : Option UInt32 := do
  let bnTargetLimit ← targetLimit p pindexLast fProofOfStake
  match pindexLast with
  | [] => return getCompact bnTargetLimit
  | last :: _ =>
    match getLastBlockIndex pindexLast fProofOfStake with
    | prev :: e :: pprev =>
      match getLastBlockIndex (e :: pprev) fProofOfStake with
      | prevPrev :: _ :: _ =>
        let nTargetSpacing : Int := getTargetSpacing p last.nHeight last.getBlockTime
        let nActualSpacing := prev.getBlockTime - prevPrev.getBlockTime
        let nActualSpacing := if nActualSpacing < 0 then nTargetSpacing else nActualSpacing
        let nActualSpacing :=
          if p.isProtocolV3 last.nHeight then
            if nActualSpacing > nTargetSpacing * 10 then nTargetSpacing * 10 else nActualSpacing
          else nActualSpacing
        return getCompact (retarget bnTargetLimit prev.nBits nTargetSpacing nActualSpacing)
      | _ => return getCompact bnTargetLimit
    | _ => return getCompact bnTargetLimit

/-- `GetNextTargetRequiredThin`. -/
def getNextTargetRequiredThin (pindexLast : IndexPtr) (fProofOfStake : Bool) : Option UInt32 := do
  let bnTargetLimit ← targetLimit p pindexLast fProofOfStake
  match pindexLast with
  | [] => return getCompact bnTargetLimit
  | last :: _ =>
    match getLastBlockThinIndex pindexLast fProofOfStake with
    | prev :: e :: pprev =>
      match getLastBlockThinIndex (e :: pprev) fProofOfStake with
      | prevPrev :: _ :: _ =>
        let nTargetSpacing : Int := getTargetSpacing p last.nHeight last.getBlockTime
        let nActualSpacing := prev.getBlockTime - prevPrev.getBlockTime
        let nActualSpacing := if nActualSpacing < 0 then nTargetSpacing else nActualSpacing
        return getCompact (retarget bnTargetLimit prev.nBits nTargetSpacing nActualSpacing)
      | _ => return getCompact bnTargetLimit
    | _ => return getCompact bnTargetLimit

end Retarget

section Agreement

variable (p : StakeParams) (fProofOfStake : Bool)

/-- The same block in the full and in the thin index, as far as the difficulty goes. -/
structure SameHeader (e e' : IndexEntry) : Prop where
  nHeight : e'.nHeight = e.nHeight
  nTime : e'.nTime = e.nTime
  nBits : e'.nBits = e.nBits
  isProofOfStake : e'.isProofOfStake = e.isProofOfStake

/-- The last block and the last two of the type, where no early return is taken. -/
def retargetBlocks (pindexLast : IndexPtr) : Option (IndexEntry × IndexEntry × IndexEntry) :=
  match pindexLast with
  | [] => none
  | last :: _ =>
    match lastOfType fProofOfStake pindexLast with
    | prev :: e :: pprev =>
      match lastOfType fProofOfStake (e :: pprev) with
      | prevPrev :: _ :: _ => some (last, prev, prevPrev)
      | _ => none
    | _ => none

/-- The spacing that the full node uses, from the time between two blocks. -/
def clampedSpacing (last : IndexEntry) (gap : Int) : Int :=
  if p.isProtocolV3 last.nHeight then
    if gap > getTargetSpacing p last.nHeight last.getBlockTime * 10
    then getTargetSpacing p last.nHeight last.getBlockTime * 10 else gap
  else gap

/-- The time between two blocks; one that goes back counts as the target spacing. -/
def actualSpacing (last prev prevPrev : IndexEntry) : Int :=
  if prev.getBlockTime - prevPrev.getBlockTime < 0 then getTargetSpacing p last.nHeight last.getBlockTime
  else prev.getBlockTime - prevPrev.getBlockTime

/-- Both functions are the limit, or the retargeted value for the spacing that they use. -/
private theorem targetRequired_cases (pindexLast : IndexPtr)
    (spacing : IndexEntry → IndexEntry → IndexEntry → Int) (bnTargetLimit : Nat) :
    (match pindexLast with
      | [] => some (getCompact bnTargetLimit)
      | last :: _ =>
        match lastOfType fProofOfStake pindexLast with
        | prev :: e :: pprev =>
          match lastOfType fProofOfStake (e :: pprev) with
          | prevPrev :: _ :: _ => some (getCompact (retarget bnTargetLimit prev.nBits
              (getTargetSpacing p last.nHeight last.getBlockTime) (spacing last prev prevPrev)))
          | _ => some (getCompact bnTargetLimit)
        | _ => some (getCompact bnTargetLimit)) =
      some (match retargetBlocks fProofOfStake pindexLast with
        | some (last, prev, prevPrev) => getCompact (retarget bnTargetLimit prev.nBits
            (getTargetSpacing p last.nHeight last.getBlockTime) (spacing last prev prevPrev))
        | none => getCompact bnTargetLimit) := by
  cases pindexLast with
  | nil => rfl
  | cons last rest =>
    simp only [retargetBlocks]
    cases lastOfType fProofOfStake (last :: rest) with
    | nil => rfl
    | cons prev l =>
      cases l with
      | nil => rfl
      | cons e pprev =>
        simp only
        cases lastOfType fProofOfStake (e :: pprev) with
        | nil => rfl
        | cons prevPrev l' =>
          cases l' with
          | nil => rfl
          | cons e' pprev' => rfl

theorem getNextTargetRequired_eq (pindexLast : IndexPtr) :
    getNextTargetRequired p pindexLast fProofOfStake =
      (targetLimit p pindexLast fProofOfStake).bind fun bnTargetLimit =>
        some (match retargetBlocks fProofOfStake pindexLast with
          | some (last, prev, prevPrev) => getCompact (retarget bnTargetLimit prev.nBits
              (getTargetSpacing p last.nHeight last.getBlockTime)
              (clampedSpacing p last (actualSpacing p last prev prevPrev)))
          | none => getCompact bnTargetLimit) := by
  unfold getNextTargetRequired
  congr 1
  funext bnTargetLimit
  exact targetRequired_cases p fProofOfStake pindexLast
    (fun last prev prevPrev => clampedSpacing p last (actualSpacing p last prev prevPrev)) bnTargetLimit

theorem getNextTargetRequiredThin_eq (pindexLast : IndexPtr) :
    getNextTargetRequiredThin p pindexLast fProofOfStake =
      (targetLimit p pindexLast fProofOfStake).bind fun bnTargetLimit =>
        some (match retargetBlocks fProofOfStake pindexLast with
          | some (last, prev, prevPrev) => getCompact (retarget bnTargetLimit prev.nBits
              (getTargetSpacing p last.nHeight last.getBlockTime) (actualSpacing p last prev prevPrev))
          | none => getCompact bnTargetLimit) := by
  unfold getNextTargetRequiredThin
  congr 1
  funext bnTargetLimit
  exact targetRequired_cases p fProofOfStake pindexLast (actualSpacing p) bnTargetLimit

/-- The search for the last block of a type ends at the same block in both indexes. -/
theorem lastOfType_sameHeader {full thin : IndexPtr} (h : List.Forall₂ SameHeader full thin) :
    List.Forall₂ SameHeader (lastOfType fProofOfStake full) (lastOfType fProofOfStake thin) := by
  induction h with
  | nil => exact List.Forall₂.nil
  | cons he hrest ih =>
    cases hrest with
    | nil => exact List.Forall₂.cons he List.Forall₂.nil
    | cons he' hrest' =>
      simp only [lastOfType, he.isProofOfStake]
      split
      · exact List.Forall₂.cons he (List.Forall₂.cons he' hrest')
      · exact ih

theorem retargetBlocks_sameHeader {full thin : IndexPtr} (h : List.Forall₂ SameHeader full thin) :
    retargetBlocks fProofOfStake full = none ∧ retargetBlocks fProofOfStake thin = none ∨
      ∃ last prev prevPrev last' prev' prevPrev',
        retargetBlocks fProofOfStake full = some (last, prev, prevPrev) ∧
        retargetBlocks fProofOfStake thin = some (last', prev', prevPrev') ∧
        SameHeader last last' ∧ SameHeader prev prev' ∧ SameHeader prevPrev prevPrev' := by
  have hfirst := lastOfType_sameHeader fProofOfStake h
  cases h with
  | nil => exact Or.inl ⟨rfl, rfl⟩
  | @cons last last' l l' hlast hrest =>
    simp only [retargetBlocks]
    generalize lastOfType fProofOfStake (last :: l) = first at *
    generalize lastOfType fProofOfStake (last' :: l') = first' at *
    cases hfirst with
    | nil => exact Or.inl ⟨rfl, rfl⟩
    | cons hprev hbelow =>
      cases hbelow with
      | nil => exact Or.inl ⟨rfl, rfl⟩
      | @cons e e' m m' he hbelow' =>
        have hsecond := lastOfType_sameHeader fProofOfStake (List.Forall₂.cons he hbelow')
        simp only
        generalize lastOfType fProofOfStake (e :: m) = second at *
        generalize lastOfType fProofOfStake (e' :: m') = second' at *
        cases hsecond with
        | nil => exact Or.inl ⟨rfl, rfl⟩
        | cons hprevPrev hend =>
          cases hend with
          | nil => exact Or.inl ⟨rfl, rfl⟩
          | cons he₁ hend' => exact Or.inr ⟨_, _, _, _, _, _, rfl, rfl, hlast, hprev, hprevPrev⟩

/-- The functions read the entries through what the two indexes share. -/
theorem getNextTargetRequiredThin_sameHeader {full thin : IndexPtr}
    (h : List.Forall₂ SameHeader full thin) :
    getNextTargetRequiredThin p thin fProofOfStake = getNextTargetRequiredThin p full fProofOfStake := by
  have hlimit : targetLimit p thin fProofOfStake = targetLimit p full fProofOfStake := by
    cases h with
    | nil => rfl
    | cons hlast hrest => simp [targetLimit, hlast.nHeight]
  rw [getNextTargetRequiredThin_eq, getNextTargetRequiredThin_eq, hlimit]
  rcases retargetBlocks_sameHeader fProofOfStake h with ⟨hfull, hthin⟩ |
    ⟨last, prev, prevPrev, last', prev', prevPrev', hfull, hthin, hlast, hprev, hprevPrev⟩
  · rw [hfull, hthin]
  · rw [hfull, hthin]
    simp only [actualSpacing, IndexEntry.getBlockTime, hlast.nHeight, hlast.nTime, hprev.nTime,
      hprev.nBits, hprevPrev.nTime]
    rfl

/-- Where the limit on the spacing takes effect, the target comes out the same without it: both are
cut at the limit of the network, or the rounding of the compact form hides the difference. -/
def LimitNeutral (pindexLast : IndexPtr) : Prop :=
  ∀ bnTargetLimit last prev prevPrev, targetLimit p pindexLast fProofOfStake = some bnTargetLimit →
    retargetBlocks fProofOfStake pindexLast = some (last, prev, prevPrev) →
    p.isProtocolV3 last.nHeight →
    prev.getBlockTime - prevPrev.getBlockTime >
      getTargetSpacing p last.nHeight last.getBlockTime * 10 →
    getCompact (retarget bnTargetLimit prev.nBits (getTargetSpacing p last.nHeight last.getBlockTime)
        (prev.getBlockTime - prevPrev.getBlockTime)) =
      getCompact (retarget bnTargetLimit prev.nBits (getTargetSpacing p last.nHeight last.getBlockTime)
        (getTargetSpacing p last.nHeight last.getBlockTime * 10))

/-- The thin node asks for the target of the full node exactly when the limit on the spacing, which it
lacks, makes no difference. -/
theorem getNextTargetRequiredThin_eq_iff {full thin : IndexPtr} (h : List.Forall₂ SameHeader full thin) :
    getNextTargetRequiredThin p thin fProofOfStake = getNextTargetRequired p full fProofOfStake ↔
      LimitNeutral p fProofOfStake full := by
  rw [getNextTargetRequiredThin_sameHeader p fProofOfStake h, getNextTargetRequiredThin_eq,
    getNextTargetRequired_eq, LimitNeutral]
  cases hlimit : targetLimit p full fProofOfStake with
  | none => simp
  | some bnTargetLimit =>
    cases hblocks : retargetBlocks fProofOfStake full with
    | none => simp
    | some blocks =>
      obtain ⟨last, prev, prevPrev⟩ := blocks
      simp only [Option.bind_some, Option.some.injEq, Prod.mk.injEq]
      constructor
      · rintro heq _ _ _ _ rfl ⟨rfl, rfl, rfl⟩ hv3 hgap
        have hactual : actualSpacing p last prev prevPrev = prev.getBlockTime - prevPrev.getBlockTime := by
          apply if_neg
          omega
        rw [hactual, clampedSpacing, if_pos hv3, if_pos hgap] at heq
        exact heq
      · intro hneutral
        have hneutral' := hneutral bnTargetLimit last prev prevPrev rfl ⟨rfl, rfl, rfl⟩
        by_cases hv3 : p.isProtocolV3 last.nHeight
        · rw [clampedSpacing, if_pos hv3]
          split
          · rename_i hlong
            have hgap : prev.getBlockTime - prevPrev.getBlockTime >
                getTargetSpacing p last.nHeight last.getBlockTime * 10 := by
              unfold actualSpacing at hlong
              split at hlong
              · omega
              · exact hlong
            have hactual : actualSpacing p last prev prevPrev =
                prev.getBlockTime - prevPrev.getBlockTime := by
              apply if_neg
              omega
            rw [hactual]
            exact hneutral' hv3 hgap
          · rfl
        · rw [clampedSpacing, if_neg hv3]

end Agreement

section Scene

/-- A block of proof of work in a test chain, by its height and time. -/
def workEntry (nHeight : Nat) (nTime : UInt32) : IndexEntry where
  hash := nHeight.toUInt32.toBitVec.setWidth 256
  nHeight
  nTime
  nBits := 0x1e0fffff
  nFlags := 0
  nStakeModifier := 0
  hashProof := 0

/-- Four blocks, the last of which took `gap` seconds. -/
def workChain (gap : UInt32) : IndexPtr :=
  [workEntry 3 (1600000200 + gap), workEntry 2 1600000200, workEntry 1 1600000100, workEntry 0 1600000000]

/-- After a break of ten thousand seconds the thin node asks for another target. -/
theorem longBreak_targets_differ :
    ¬ ∀ full thin fProofOfStake, List.Forall₂ SameHeader full thin →
      getNextTargetRequiredThin regTestStakeParams thin fProofOfStake =
        getNextTargetRequired regTestStakeParams full fProofOfStake := by
  intro hall
  have hsame := hall (workChain 10000) (workChain 10000) false
    (List.forall₂_same.mpr fun _ _ => ⟨rfl, rfl, rfl, rfl⟩)
  revert hsame
  decide +kernel

/-- A block in time does not differ. -/
theorem steadyBlock_targets_agree :
    getNextTargetRequiredThin regTestStakeParams (workChain 96) false =
      getNextTargetRequired regTestStakeParams (workChain 96) false := by
  apply (getNextTargetRequiredThin_eq_iff regTestStakeParams false
    (List.forall₂_same.mpr fun _ _ => ⟨rfl, rfl, rfl, rfl⟩)).mpr
  intro bnTargetLimit last prev prevPrev _ hblocks _ hgap
  have hknown : retargetBlocks false (workChain 96) = some (workEntry 3 1600000296,
      workEntry 3 1600000296, workEntry 2 1600000200) := by decide
  rw [hknown, Option.some.injEq, Prod.mk.injEq, Prod.mk.injEq] at hblocks
  obtain ⟨rfl, rfl, rfl⟩ := hblocks
  exact absurd hgap (by decide)

end Scene

end AliasWallet
