import AliasWallet.Chain.BlockIndex
import AliasWallet.Chain.ConcreteNode
import AliasWallet.Stake.KernelModifier

/-!
# Checking a stake (`CheckProofOfStake`, `CheckAnonProofOfStake`, `CheckKernel`)

The node reads the kernel's transaction through its index, which belongs to the active chain, and asks
for its depth below the block that the stake extends. `CheckKernel` is what the wallet asks before it
builds a coinstake.
-/

namespace AliasWallet
open Lib

/-- The fields of the block index that only staking reads, by block hash. -/
structure StakeRecords where
  nStakeModifier : UInt256 → UInt64
  bnStakeModifierV2 : UInt256 → UInt256
  /-- The block and, after it, what `pnext` leads to. -/
  nextPtr : UInt256 → Option NextPtr

structure CStakeModifier where
  nModifier : UInt64
  bnModifierV2 : UInt256
  nHeight : Int
  nTime : UInt32
  deriving DecidableEq, Repr

def StakeRecords.stakeModifier (r : StakeRecords) (pindexPrev : CBlockIndex) : CStakeModifier where
  nModifier := r.nStakeModifier (CBlockIndex.getBlockHash pindexPrev)
  bnModifierV2 := r.bnStakeModifierV2 (CBlockIndex.getBlockHash pindexPrev)
  nHeight := CBlockIndex.nHeight pindexPrev
  nTime := (pindexPrev.head?.map BlockNode.nTime).getD 0

section KernelHash

variable (p : ChainParams) (hash : HashFn)

/-- `GetWeight`. -/
def getWeight (nIntervalBeginning nIntervalEnd : Int) : Int :=
  nIntervalEnd - nIntervalBeginning - p.nStakeMinAge

/-- `CheckStakeKernelHashV1`: `hashProofOfStake` where it returns true. The block time and the age are
added as unsigned numbers, and the divisions of `CBigNum` truncate. -/
def checkStakeKernelHashV1 (r : StakeRecords) (H : BlockHash) (nBits : UInt32) (blockFrom : CBlock)
    (nTxPrevOffset : UInt32) (txPrev : CTransaction) (txout : CTxOut) (prevout : COutPoint)
    (nTimeTx : UInt32) : Option UInt256 := do
  if nTimeTx < txPrev.nTime then none
  if blockFrom.nTime + p.nStakeMinAge.toUInt32 > nTimeTx then none
  let bnCoinDayWeight :=
    ((txout.nValue.toInt * getWeight p txPrev.nTime.toNat nTimeTx.toNat).tdiv COIN.toInt).tdiv (24 * 60 * 60)
  let modifier ← getKernelStakeModifier r.nextPtr (blockFrom.getHash H)
  let hashProofOfStake := hash (leBytes 8 modifier.nStakeModifier.toNat ++ uint32Bytes blockFrom.nTime ++
    uint32Bytes nTxPrevOffset ++ uint32Bytes txPrev.nTime ++ uint32Bytes prevout.n ++ uint32Bytes nTimeTx)
  if (hashProofOfStake.toNat : Int) > bnCoinDayWeight * setCompact nBits then none
  else some hashProofOfStake

/-- `CheckStakeKernelHashV2`. -/
def checkStakeKernelHashV2 (stakeMod : CStakeModifier) (nBits nTimeBlockFrom : UInt32)
    (txPrev : CTransaction) (txout : CTxOut) (prevout : COutPoint) (nTimeTx : UInt32) : Option UInt256 :=
  if nTimeTx < txPrev.nTime then none
  else
    let bnTarget := setCompact nBits * txout.nValue.toInt
    let modifierBytes :=
      if p.isProtocolV3 stakeMod.nHeight then uint256Bytes stakeMod.bnModifierV2
      else leBytes 8 stakeMod.nModifier.toNat ++ uint32Bytes nTimeBlockFrom
    let hashProofOfStake := hash (modifierBytes ++ uint32Bytes txPrev.nTime ++ prevout.bytes ++
      uint32Bytes nTimeTx)
    if (hashProofOfStake.toNat : Int) < bnTarget then some hashProofOfStake else none

/-- `CheckAnonStakeKernelHash`; the key image is serialised as a vector. -/
def checkAnonStakeKernelHash (stakeMod : CStakeModifier) (nBits : UInt32) (anonValue : Int64)
    (anonKeyImage : Bytes) (nTimeTx : UInt32) : Option UInt256 :=
  let bnTarget := setCompact nBits * anonValue.toInt
  let hashProofOfStake := hash (uint256Bytes stakeMod.bnModifierV2 ++
    (compactSize anonKeyImage.length ++ anonKeyImage) ++ uint32Bytes nTimeTx)
  if (hashProofOfStake.toNat : Int) < bnTarget then some hashProofOfStake else none

end KernelHash

/-- The reasons for which the checks return false. -/
inductive StakeError where
  | notCoinStake
  | readTxPrev
  | alreadyUsed
  | signature
  | readBlock
  | depth
  | minAge
  | kernel
  | notProtocolV3
  | notForkV3
  | noAnonInput
  | noAnonOutput
  | ringSize
  | keyImageSpent
  | anonInput (e : AnonInputError)
  deriving DecidableEq, Repr

section Check

variable {Pt L : Type} (env : NodeEnv Pt L) (r : StakeRecords) (n : Node L) (pindexPrev : CBlockIndex)
  (nBits : UInt32)

/-- `CTransaction::ReadFromDisk(txdb, prevout, txindex)`, with the output. -/
def readPrevout (prevout : COutPoint) : Option (CTransaction × CTxIndex × CTxOut) := do
  let txindex ← n.disk.txIndex prevout.hash
  let txPrev ← env.readTx txindex.pos
  let txout ← txPrev.vout[prevout.n.toNat]?
  return (txPrev, txindex, txout)

/-- `CheckStakeKernelHash`. -/
def checkStakeKernelHash (blockFrom : CBlock) (txindex : CTxIndex) (txPrev : CTransaction) (txout : CTxOut)
    (prevout : COutPoint) (nTimeTx : UInt32) : Option UInt256 :=
  if env.p.isProtocolV2 (CBlockIndex.nHeight pindexPrev + 1) then
    checkStakeKernelHashV2 env.p env.C.hash (r.stakeModifier pindexPrev) nBits blockFrom.nTime txPrev txout
      prevout nTimeTx
  else
    checkStakeKernelHashV1 env.p env.C.hash r env.H nBits blockFrom
      (txindex.pos.nTxPos - txindex.pos.nBlockPos) txPrev txout prevout nTimeTx

/-- `vSpent[prevout.n]`; an index entry has a mark for each output. -/
def CTxIndex.spentMark (txindex : CTxIndex) (prevout : COutPoint) : CDiskTxPos :=
  (txindex.vSpent[prevout.n.toNat]?).getD CDiskTxPos.null

/-- A spend of the kernel in a block below the new one. A spending block that cannot be read or is not
in the index is ignored. -/
def usedBefore (spent : CDiskTxPos) : Bool :=
  !spent.isNull &&
    match env.readBlock spent.nFile spent.nBlockPos with
    | none => false
    | some block =>
      match n.chain.mapBlockIndex (block.getHash env.H) with
      | none => false
      | some pindex => decide (CBlockIndex.nHeight pindex < CBlockIndex.nHeight pindexPrev + 1)

/-- Depth or age, by the protocol of the block that the stake extends. -/
def maturityError (block : CBlock) (txindex : CTxIndex) (nTime : UInt32) : Option StakeError :=
  if env.p.isProtocolV3 (CBlockIndex.nHeight pindexPrev) then
    if CBlockIndex.isConfirmedInNPrevBlocks txindex pindexPrev
      (env.p.getStakeMinConfirmations nTime.toNat - 1) then some .depth else none
  else if block.nTime.toNat + env.p.nStakeMinAge > nTime.toNat then some .minAge else none

/-- The last part of `CheckProofOfStake`: maturity and kernel hash. -/
def checkStakeMaturity (txPrev : CTransaction) (txindex : CTxIndex) (txout : CTxOut) (prevout : COutPoint)
    (nTime : UInt32) : Except StakeError UInt256 :=
  match env.readBlock txindex.pos.nFile txindex.pos.nBlockPos with
  | none => .error .readBlock
  | some block =>
    match maturityError env pindexPrev block txindex nTime with
    | some e => .error e
    | none =>
      match checkStakeKernelHash env r pindexPrev nBits block txindex txPrev txout prevout nTime with
      | some hashProofOfStake => .ok hashProofOfStake
      | none => .error .kernel

/-- `CheckAnonProofOfStake`: `hashProofOfStake`, or why it returns false. -/
def checkAnonProofOfStake (tx : CTransaction) : Except StakeError UInt256 := do
  let some txin := tx.vin.head? | throw .notCoinStake
  if ¬ tx.isAnonCoinStake then throw .notCoinStake
  if ¬ env.p.isProtocolV3 (CBlockIndex.nHeight pindexPrev + 1) then throw .notProtocolV3
  if ¬ env.p.isForkV3 tx.nTime.toNat then throw .notForkV3
  if ¬ txin.isAnonInput then throw .noAnonInput
  if ¬ (tx.vout[1]?.elim false CTxOut.isAnonOutput) then throw .noAnonOutput
  let vchImage := txin.extractKeyImage
  if txin.extractRingSize ≠ MIN_RING_SIZE then throw .ringSize
  let view := env.anonView n.chain n.pool n.disk n.disk.txIndex
  -- spends in later blocks, by this very input or of an unknown transaction do not count
  if (view.getKeyImage vchImage).elim false fun spentKeyImage =>
      spentKeyImage.nBlockHeight < CBlockIndex.nHeight pindexPrev + 1 &&
        !(spentKeyImage.txnHash == env.txid tx && spentKeyImage.inputNo == 0) &&
        view.txnHashInSystem spentKeyImage.txnHash then throw .keyImageSpent
  match checkAnonInputAB env.p env.E env.C.hash view tx txin 0 MIN_RING_SIZE vchImage with
  | .error e => throw (.anonInput e)
  | .ok nCoinValue =>
    match checkAnonStakeKernelHash env.C.hash (r.stakeModifier pindexPrev) nBits nCoinValue vchImage tx.nTime with
    | some hashProofOfStake => return hashProofOfStake
    | none => throw .kernel

/-- The tests of `CheckProofOfStake` on the kernel of a transparent coinstake. -/
def checkKernelInput (tx : CTransaction) (txin : CTxIn) : Except StakeError UInt256 :=
  match readPrevout env n txin.prevout with
  | none => .error .readTxPrev
  | some (txPrev, txindex, txout) =>
    if usedBefore env n pindexPrev (txindex.spentMark txin.prevout) then
      .error .alreadyUsed
    else if ¬ verifySignature env.p env.C tx 0 SCRIPT_VERIFY_NONE txPrev then .error .signature
    else checkStakeMaturity env r pindexPrev nBits txPrev txindex txout txin.prevout tx.nTime

/-- `CheckProofOfStake`: `hashProofOfStake`, or why it returns false. -/
def checkProofOfStake (tx : CTransaction) : Except StakeError UInt256 :=
  if tx.nVersion = ANON_TXN_VERSION then checkAnonProofOfStake env r n pindexPrev nBits tx
  else if ¬ tx.isCoinStake then .error .notCoinStake
  else
    match tx.vin with
    | txin :: _ => checkKernelInput env r n pindexPrev nBits tx txin
    | [] => .error .notCoinStake

/-- `CheckKernel`; the time is signed and wide, and narrowed for the kernel hash. -/
def checkKernel (nTime : Int) (prevout : COutPoint) : Bool :=
  match readPrevout env n prevout with
  | none => false
  | some (txPrev, txindex, txout) =>
    match env.readBlock txindex.pos.nFile txindex.pos.nBlockPos with
    | none => false
    | some block =>
      let mature :=
        if env.p.isProtocolV3 (CBlockIndex.nHeight pindexPrev + 1) then
          !CBlockIndex.isConfirmedInNPrevBlocks txindex pindexPrev (env.p.getStakeMinConfirmations nTime - 1)
        else decide ((block.nTime.toNat + env.p.nStakeMinAge : Int) ≤ nTime)
      mature && (checkStakeKernelHash env r pindexPrev nBits block txindex txPrev txout prevout
        (UInt32.ofNat (nTime % 2 ^ 32).toNat)).isSome

end Check

section Agreement

variable {Pt L : Type} (env : NodeEnv Pt L) (r : StakeRecords) (n : Node L) (pindexPrev : CBlockIndex)
  (nBits : UInt32)

/-- What `CheckKernel` has found where it accepts. -/
theorem checkKernel_eq_true {nTime : UInt32} {prevout : COutPoint}
    (h : checkKernel env r n pindexPrev nBits nTime.toNat prevout = true) :
    ∃ txPrev txindex txout block, readPrevout env n prevout = some (txPrev, txindex, txout) ∧
      env.readBlock txindex.pos.nFile txindex.pos.nBlockPos = some block ∧
      (if env.p.isProtocolV3 (CBlockIndex.nHeight pindexPrev + 1) then
        CBlockIndex.isConfirmedInNPrevBlocks txindex pindexPrev
          (env.p.getStakeMinConfirmations nTime.toNat - 1) = false
      else block.nTime.toNat + env.p.nStakeMinAge ≤ nTime.toNat) ∧
      (checkStakeKernelHash env r pindexPrev nBits block txindex txPrev txout prevout nTime).isSome := by
  have hnarrow : UInt32.ofNat ((nTime.toNat : Int) % 2 ^ 32).toNat = nTime := by
    have hlt := nTime.toNat_lt
    have hmod : ((nTime.toNat : Int) % 2 ^ 32).toNat = nTime.toNat := by omega
    rw [hmod]
    exact UInt32.ofNat_toNat
  simp only [checkKernel, hnarrow] at h
  cases hprev : readPrevout env n prevout with
  | none => simp [hprev] at h
  | some found =>
    obtain ⟨txPrev, txindex, txout⟩ := found
    rw [hprev] at h
    cases hblock : env.readBlock txindex.pos.nFile txindex.pos.nBlockPos with
    | none => simp [hblock] at h
    | some block =>
      simp only [hblock, Bool.and_eq_true] at h
      refine ⟨txPrev, txindex, txout, block, rfl, hblock, ?_, h.2⟩
      have hmature := h.1
      split at hmature
      · rename_i hV3
        rw [if_pos hV3]
        simpa using hmature
      · rename_i hV3
        rw [if_neg hV3]
        have hage := of_decide_eq_true hmature
        omega

/-- The coinstake passes on maturity and kernel hash. -/
def AcceptsKernel (tx : CTransaction) (txin : CTxIn) : Prop :=
  ∃ txPrev txindex txout hashProofOfStake, readPrevout env n txin.prevout = some (txPrev, txindex, txout) ∧
    checkStakeMaturity env r pindexPrev nBits txPrev txindex txout txin.prevout tx.nTime =
      .ok hashProofOfStake

/-- `CheckProofOfStake` of a transparent coinstake accepts what is neither spent nor badly signed and
passes on maturity and kernel hash. -/
theorem checkProofOfStake_ok_iff (tx : CTransaction) (txin : CTxIn) (vin : List CTxIn)
    (hvin : tx.vin = txin :: vin) (hversion : tx.nVersion ≠ ANON_TXN_VERSION) (hstake : tx.isCoinStake) :
    (∃ hashProofOfStake, checkProofOfStake env r n pindexPrev nBits tx = .ok hashProofOfStake) ↔
      (∃ txPrev txindex txout, readPrevout env n txin.prevout = some (txPrev, txindex, txout) ∧
        usedBefore env n pindexPrev (txindex.spentMark txin.prevout) = false ∧
        verifySignature env.p env.C tx 0 SCRIPT_VERIFY_NONE txPrev = true) ∧
      AcceptsKernel env r n pindexPrev nBits tx txin := by
  simp only [checkProofOfStake, hversion, hstake, hvin, if_false, not_true_eq_false, checkKernelInput,
    AcceptsKernel]
  cases hprev : readPrevout env n txin.prevout with
  | none => simp
  | some found =>
    obtain ⟨txPrev, txindex, txout⟩ := found
    cases hused : usedBefore env n pindexPrev (txindex.spentMark txin.prevout) with
    | true => simp [hused]
    | false =>
      cases hsig : verifySignature env.p env.C tx 0 SCRIPT_VERIFY_NONE txPrev with
      | false => simp [hused, hsig]
      | true => simp [hused, hsig]

/-- The wallet's test and the node's: where `CheckKernel` accepts a kernel, `CheckProofOfStake` passes a
coinstake on it for that time if and only if protocol V3 does not begin right at the new block, or the
kernel meets the minimum age anyway. -/
theorem checkKernel_agrees_iff (tx : CTransaction) (txin : CTxIn) (vin : List CTxIn)
    (hvin : tx.vin = txin :: vin) (hversion : tx.nVersion ≠ ANON_TXN_VERSION) (hstake : tx.isCoinStake)
    (hkernel : checkKernel env r n pindexPrev nBits tx.nTime.toNat txin.prevout = true) :
    (∃ txPrev txindex txout block, readPrevout env n txin.prevout = some (txPrev, txindex, txout) ∧
      env.readBlock txindex.pos.nFile txindex.pos.nBlockPos = some block ∧
      (AcceptsKernel env r n pindexPrev nBits tx txin ↔
        (CBlockIndex.nHeight pindexPrev = env.p.nFirstPosv3Block →
          block.nTime.toNat + env.p.nStakeMinAge ≤ tx.nTime.toNat))) ∧
    ((∃ hashProofOfStake, checkProofOfStake env r n pindexPrev nBits tx = .ok hashProofOfStake) ↔
      (∃ txPrev txindex txout, readPrevout env n txin.prevout = some (txPrev, txindex, txout) ∧
        usedBefore env n pindexPrev (txindex.spentMark txin.prevout) = false ∧
        verifySignature env.p env.C tx 0 SCRIPT_VERIFY_NONE txPrev = true) ∧
      AcceptsKernel env r n pindexPrev nBits tx txin) := by
  refine ⟨?_, checkProofOfStake_ok_iff env r n pindexPrev nBits tx txin vin hvin hversion hstake⟩
  obtain ⟨txPrev, txindex, txout, block, hprev, hblock, hmature, hhash⟩ :=
    checkKernel_eq_true env r n pindexPrev nBits hkernel
  refine ⟨txPrev, txindex, txout, block, hprev, hblock, ?_⟩
  obtain ⟨hashProofOfStake, hproof⟩ := Option.isSome_iff_exists.mp hhash
  -- the kernel hash is the same computation in both, so maturity decides
  have haccepts : AcceptsKernel env r n pindexPrev nBits tx txin ↔
      maturityError env pindexPrev block txindex tx.nTime = none := by
    simp only [AcceptsKernel, hprev, Option.some.injEq, Prod.mk.injEq]
    cases herror : maturityError env pindexPrev block txindex tx.nTime with
    | some e => simp [checkStakeMaturity, hblock, herror]
    | none => simp [checkStakeMaturity, hblock, herror, hproof]
  rw [haccepts, maturityError]
  simp only [ChainParams.isProtocolV3, decide_eq_true_eq] at hmature ⊢
  by_cases hbefore : CBlockIndex.nHeight pindexPrev > env.p.nFirstPosv3Block
  · rw [if_pos (by omega)] at hmature
    have hne : CBlockIndex.nHeight pindexPrev ≠ env.p.nFirstPosv3Block := by omega
    simp [hbefore, hmature, hne]
  · by_cases hlast : CBlockIndex.nHeight pindexPrev = env.p.nFirstPosv3Block
    · simp [hlast]
    · rw [if_neg (by omega)] at hmature
      simp [hbefore, hlast, hmature]

end Agreement

section Scene

def kernelTx : CTransaction where
  nVersion := 1
  nTime := minedTime 0
  vin := [⟨⟨1, 0⟩, [], 0xFFFFFFFF⟩]
  vout := [⟨1500000 * COIN, [0x51]⟩]
  nLockTime := 0

def kernelFile : BlockFile := [(8, sealedBlock 0 (minedTime 0) 0 [kernelTx])]

/-- The last block before protocol V3 of the test network, five hundred blocks above the kernel. -/
def lastBeforeV3 : CBlockIndex := List.replicate 500 (minedNode 1 9 1) ++ [minedNode 0 8 0]

def kernelNode : Node Unit where
  disk := ⟨kernelFile.txIndex, fun _ => none, fun _ => none, none⟩
  pool := CTxMemPool.empty
  chain := singleChain lastBeforeV3 1530002000
  loc := ()
  supply _ := ⟨0, 0, 0⟩

def noRecords : StakeRecords := ⟨fun _ => 0, fun _ => 0, fun _ => none⟩

def kernelInput : CTxIn := ⟨⟨kernelTx.getHash sha256d, 0⟩, [], 0xFFFFFFFF⟩

/-- A coinstake on the kernel. -/
def kernelStake (nTime : UInt32) : CTransaction where
  nVersion := 1
  nTime
  vin := [kernelInput]
  vout := [⟨0, []⟩, ⟨1500000 * COIN, [0x51]⟩]
  nLockTime := 0

/-- A kernel of more than fifteen minutes is accepted by both. -/
theorem oldKernel_agrees :
    AcceptsKernel (fileNode testNetParams kernelFile) noRecords kernelNode lastBeforeV3 0x1b03ffff
      (kernelStake (minedTime 20)) kernelInput := by
  obtain ⟨⟨txPrev, txindex, txout, block, hprev, hblock, hiff⟩, -⟩ :=
    checkKernel_agrees_iff (fileNode testNetParams kernelFile) noRecords kernelNode lastBeforeV3 0x1b03ffff
      (kernelStake (minedTime 20)) kernelInput [] rfl (by decide) (by decide +kernel) (by decide +kernel)
  have htime : ((readPrevout (fileNode testNetParams kernelFile) kernelNode kernelInput.prevout).bind fun e =>
      kernelFile.readBlock e.2.1.pos.nFile e.2.1.pos.nBlockPos).map CBlock.nTime = some (minedTime 0) := by
    decide +kernel
  rw [hprev] at htime
  have hread : kernelFile.readBlock txindex.pos.nFile txindex.pos.nBlockPos = some block := hblock
  rw [Option.bind_some, hread, Option.map_some, Option.some.injEq] at htime
  apply hiff.mpr
  intro _
  rw [htime]
  decide

/-- A younger one, deep enough for the protocol of the new block, is accepted by `CheckKernel` only. -/
theorem youngKernel_disagrees :
    checkKernel (fileNode testNetParams kernelFile) noRecords kernelNode lastBeforeV3 0x1b03ffff
        (kernelStake (minedTime 10)).nTime.toNat kernelInput.prevout = true ∧
      checkProofOfStake (fileNode testNetParams kernelFile) noRecords kernelNode lastBeforeV3 0x1b03ffff
        (kernelStake (minedTime 10)) = .error .minAge := by
  decide +kernel

end Scene

end AliasWallet
