import AliasWallet.Chain.BlockTemplate
import AliasWallet.Chain.SpendMarks
import AliasWallet.Chain.AcceptBlock
import AliasWallet.Stake.Difficulty
import AliasWallet.Stake.ProofOfStake

/-!
# Stakes on forks (`AcceptBlock`)

A staked block is stored once its kernel has passed `CheckProofOfStake` and the walk over the forked blocks
below it. The kernel is looked up in the index of the active chain, so that both miss a kernel that was
created above the fork: it is no ancestor's, and no depth is found for it.
-/

namespace AliasWallet
open Lib

section Checkpoints

/-- `mapCheckpoints`. The test network has none. -/
def mapCheckpoints (p : ChainParams) : List (Int × UInt256) :=
  if p.fTestNet then []
  else
    [(0, 0x000001fd6111f0d71d90b7d8c827c6028dbc867f6c527d90794a0d22f68fecd4),
     (10000, 0x89fa592395c4fff97e04ade632dfc33bee19fc46d489abf51331ee68a20ad19d),
     (15000, 0xb54f2cc3bc31a0f7110ef5f95a1c00744793f5419b1d43044fe393a777edca39),
     (20000, 0x87294db40d1af9101876293140cb2d82aef893881fbdb2a48ef0b0e062b6966a),
     (25000, 0x70aaaf2d6dd706fa4689a5e6e17994342e661ea37f72333e63534cf0cc3d7dc1),
     (100000, 0x4f61bb5f1b22065242784fdb0232ed6ef66ec3e5049d412038f4753dca931cd1),
     (200000, 0x62f50e7c60480ded7aceed530a6d2f2b204647443425316e5f5714da489d55e3),
     (300000, 0xe355a6acab9a5a8ae5f5ba0336e3efd40145726106dd1a33a314a86a1dfb8fca),
     (400000, 0xe09449a9923e5f99d224fbc088ae5c79c6fa2caf511c2a702c27d2afa570b9b7),
     (500000, 0x3797b3133f61859680141058755cc8224db7b17f6c06f9228b7e2fd7b7e48cf5),
     (600000, 0x6b8e1852d66a954e94ee85b239ca1a04ee18f676e8ed6b9980f2eb0ccfa0ca9e),
     (700000, 0x501b1398372508e8806f49de18a579d482895331b958dda932f0ec451a590497),
     (800000, 0xa502c68dc02f39237b2d961ade76d403869939004965eff53d529d436b117c3a),
     (900000, 0x79ae3d0df2e1fc905781ce893d3ead49799f8100c606ae613389dd3f7c1161f2),
     (1000000, 0x9e2738c1c40209ee73a9ca0ea1edaa3610d768007b614fb334bdbcb46d2d1991),
     (1100000, 0x33dfe0abae17bc1cff0a8f3d3f9c4471666d9092182963baa61a2cb3d0ad9283),
     (1200000, 0x135c94cb8cdf81173ceb6d01f98df1b74ab0bf95aa3553a2158fef3bc733794d),
     (1232433, 0x5a17e0f06d3863b5678b5f24b4b1e203dc0d94ec55b4f41f5d9d2a961686b0c2),
     (1245000, 0xa0cd983150296cb14d2e4006464a1b0814bd53bf76f35f00cf8d0530dd0f511e)]

/-- `CheckHardened`. -/
def checkHardened (p : ChainParams) (nHeight : Int) (hash : UInt256) : Bool :=
  match (mapCheckpoints p).lookup nHeight with
  | none => true
  | some checkpoint => hash == checkpoint

def nCheckpointSpan : Int := 500

/-- The walk of `AutoSelectSyncCheckpoint` back from the best block. -/
def autoSelectSyncCheckpoint (nBestHeight : Int) : CBlockIndex → CBlockIndex
  | [] => []
  | [b] => [b]
  | b :: b' :: pprev =>
    if CBlockIndex.nHeight (b :: b' :: pprev) + nCheckpointSpan > nBestHeight then
      autoSelectSyncCheckpoint nBestHeight (b' :: pprev)
    else b :: b' :: pprev

/-- `CheckSync` of a full node. -/
def checkSync (c : ChainState) (nHeight : Int) : Bool :=
  decide (CBlockIndex.nHeight (autoSelectSyncCheckpoint c.nBestHeight c.pindexBest) < nHeight)

/-- `chainActive.Contains`: the block of the best chain at that height. -/
def ChainState.activeContains (c : ChainState) (pindex : CBlockIndex) : Bool :=
  c.pindexBest.drop (c.pindexBest.length - pindex.length) == pindex

theorem ChainState.activeContains_iff (c : ChainState) (pindex : CBlockIndex) :
    c.activeContains pindex = true ↔ pindex <:+ c.pindexBest := by
  rw [ChainState.activeContains, beq_iff_eq, List.suffix_iff_eq_drop, eq_comm]

end Checkpoints

section Accept

/-- `CScript() << nHeight`: small numbers are opcodes, others bytes with room for a sign. -/
def CScript.pushHeight (nHeight : Nat) : Bytes :=
  if 1 ≤ nHeight ∧ nHeight ≤ 16 then [(0x50 + nHeight).toUInt8]
  else
    let vch := if nHeight = 0 then [] else leBytes (nHeight.size / 8 + 1) nHeight
    vch.length.toUInt8 :: vch

def STAKE_TIMESTAMP_MASK : UInt32 := 15

/-- `CheckCoinStakeTimestamp`. -/
def checkCoinStakeTimestamp (p : ChainParams) (nHeight : Int) (nTimeBlock nTimeTx : UInt32) : Bool :=
  nTimeBlock == nTimeTx && (!p.isProtocolV2 nHeight || nTimeTx &&& STAKE_TIMESTAMP_MASK == 0)

/-- The fields of the block index that `AcceptBlock` reads beside those of the node, by block hash. -/
structure AcceptRecords extends StakeRecords where
  nBits : UInt256 → UInt32
  nFlags : UInt256 → UInt32
  hashProof : UInt256 → UInt256

/-- A pointer as `GetNextTargetRequired` follows it. -/
def AcceptRecords.indexPtr (r : AcceptRecords) : CBlockIndex → IndexPtr
  | [] => []
  | b :: pprev =>
    ⟨b.hash, pprev.length, b.nTime, r.nBits b.hash, r.nFlags b.hash, r.nStakeModifier b.hash,
      r.hashProof b.hash⟩ :: r.indexPtr pprev

def CURRENT_VERSION : Int32 := 7

/-- The exits of `AcceptBlock` before it writes the block. -/
inductive AcceptError where
  | unknownVersion
  | alreadyInIndex
  | prevNotFound
  | oldVersion
  | newVersion
  | proofOfWorkHeight
  | coinbaseTimestamp
  | coinstakeTimestamp
  | target
  | timestamp
  | nonFinal
  | hardenedCheckpoint
  | proofOfStake (e : StakeError)
  | syncCheckpoint
  | coinbaseHeight
  | reindexing
  | readForked
  | spentInForked
  | diskSpace
  deriving DecidableEq, Repr

variable {Pt L : Type} (env : NodeEnv Pt L) (limits : Nat × Nat) (r : AcceptRecords) (n : Node L)
  (block : CBlock)

/-- The tests between the look-up of the previous block and the proof of stake. -/
def headerError (pindexPrev : CBlockIndex) : Option AcceptError :=
  let nHeight := CBlockIndex.nHeight pindexPrev + 1
  let p : StakeParams := ⟨env.p, limits.1, limits.2⟩
  let nBlockTime := if block.nTime = 0 then n.chain.nAdjustedTime else block.nTime.toNat
  if env.p.isProtocolV2 nHeight ∧ block.nVersion < 7 then some .oldVersion
  else if ¬ env.p.isProtocolV2 nHeight ∧ block.nVersion > 6 then some .newVersion
  else if ¬ block.isProofOfStake ∧ nHeight > env.p.nLastPOWBlock then some .proofOfWorkHeight
  else if block.nTime.toNat > futureDrift env.p ((block.vtx.head?.map CTransaction.nTime).getD 0).toNat nHeight
    then some .coinbaseTimestamp
  else if block.isProofOfStake ∧
      ¬ checkCoinStakeTimestamp env.p nHeight block.nTime ((block.vtx[1]?.map CTransaction.nTime).getD 0)
    then some .coinstakeTimestamp
  else if getNextTargetRequired p (r.indexPtr pindexPrev) block.isProofOfStake ≠ some block.nBits then
    some .target
  else if ¬ acceptTimestamp env.p pindexPrev block.nTime then some .timestamp
  else if ¬ block.vtx.all (CTransaction.isFinal nHeight nBlockTime) then some .nonFinal
  else if ¬ checkHardened env.p nHeight (block.getHash env.H) then some .hardenedCheckpoint
  else none

/-- `hashProof`. -/
def acceptProof (pindexPrev : CBlockIndex) : Except AcceptError UInt256 :=
  if block.isProofOfStake then
    match block.vtx[1]? with
    | none => .ok 0
    | some tx =>
      match checkProofOfStake env r.toStakeRecords n pindexPrev block.nBits tx with
      | .error e => .error (.proofOfStake e)
      | .ok hashProof => .ok hashProof
  else .ok (block.getHash env.H)

/-- Whether an input of a forked block is the kernel of the new one. An input of the other kind is passed
over. -/
def spendsKernel (isAnonCoinStake : Bool) (kernel txin : CTxIn) : Bool :=
  txin.isAnonInput == isAnonCoinStake &&
    if isAnonCoinStake then kernel.extractKeyImage == txin.extractKeyImage else kernel.prevout == txin.prevout

/-- The walk over the forked blocks, from the previous block down to the active chain. -/
def forkedError (isAnonCoinStake : Bool) (kernel : CTxIn) : CBlockIndex → Option AcceptError
  | [] => none
  | b :: pprev =>
    if n.chain.activeContains (b :: pprev) then none
    else
      match env.readFromDisk (b :: pprev) with
      | none => some .readForked
      | some bl =>
        if bl.vtx.any fun t => t.vin.any (spendsKernel isAnonCoinStake kernel) then some .spentInForked
        else forkedError isAnonCoinStake kernel pprev

/-- The end of the checks, for a block whose proof is known. -/
def acceptFork (fReindexing fDiskSpace : Bool) (pindexPrev : CBlockIndex) (hashProof : UInt256) :
    Except AcceptError UInt256 :=
  let expect := CScript.pushHeight pindexPrev.length
  let scriptSig := ((block.vtx.head?.bind fun tx => tx.vin.head?).map CTxIn.scriptSig).getD []
  let forked :=
    if block.isProofOfStake then
      block.kernelInput.bind fun kernel => forkedError env n block.isProofOfAnonStake kernel pindexPrev
    else none
  if ¬ checkSync n.chain (CBlockIndex.nHeight pindexPrev + 1) then .error .syncCheckpoint
  else if scriptSig.take expect.length ≠ expect then .error .coinbaseHeight
  else if fReindexing then .error .reindexing
  else
    match forked with
    | some e => .error e
    | none => if fDiskSpace then .ok hashProof else .error .diskSpace

/-- `AcceptBlock` up to `WriteToDisk`, with `hashProof`. `CheckBlock` has seen to the coinbase. -/
def acceptBlock (fReindexing fDiskSpace : Bool) : Except AcceptError UInt256 :=
  if block.nVersion > CURRENT_VERSION then .error .unknownVersion
  else if (n.chain.mapBlockIndex (block.getHash env.H)).isSome then .error .alreadyInIndex
  else
    match n.chain.mapBlockIndex block.hashPrevBlock with
    | none => .error .prevNotFound
    | some pindexPrev =>
      match headerError env limits r n block pindexPrev with
      | some e => .error e
      | none =>
        match acceptProof env r n block pindexPrev with
        | .error e => .error e
        | .ok hashProof => acceptFork env n block fReindexing fDiskSpace pindexPrev hashProof

end Accept

section Spec

variable {Pt L : Type} (env : NodeEnv Pt L) (limits : Nat × Nat) (r : AcceptRecords) (n : Node L)
  (block : CBlock)

/-- What a block that is stored has passed of the tests on its stake. -/
theorem acceptBlock_stake {fReindexing fDiskSpace : Bool} {hashProof : UInt256}
    (h : acceptBlock env limits r n block fReindexing fDiskSpace = .ok hashProof) (hstake : block.isProofOfStake) :
    ∃ pindexPrev tx0 tx vtx kernel vin, n.chain.mapBlockIndex block.hashPrevBlock = some pindexPrev ∧
      block.vtx = tx0 :: tx :: vtx ∧ tx.isCoinStake ∧ tx.vin = kernel :: vin ∧
      checkProofOfStake env r.toStakeRecords n pindexPrev block.nBits tx = .ok hashProof ∧
      forkedError env n block.isProofOfAnonStake kernel pindexPrev = none := by
  obtain ⟨tx0, tx, vtx, hvtx, hcoin⟩ : ∃ tx0 tx vtx, block.vtx = tx0 :: tx :: vtx ∧ tx.isCoinStake := by
    unfold CBlock.isProofOfStake at hstake
    split at hstake
    · exact ⟨_, _, _, ‹_›, hstake⟩
    · cases hstake
  obtain ⟨kernel, vin, hvin⟩ : ∃ kernel vin, tx.vin = kernel :: vin := by
    unfold CTransaction.isCoinStake at hcoin
    split at hcoin
    · exact ⟨_, _, ‹_›⟩
    · cases hcoin
  have hkernel : block.kernelInput = some kernel := by simp [CBlock.kernelInput, hvtx, hvin]
  unfold acceptBlock at h
  split at h
  · cases h
  split at h
  · cases h
  cases hprev : n.chain.mapBlockIndex block.hashPrevBlock with
  | none => simp [hprev] at h
  | some pindexPrev =>
    simp only [hprev] at h
    cases hheader : headerError env limits r n block pindexPrev with
    | some e => simp [hheader] at h
    | none =>
      simp only [hheader, acceptProof, hstake, if_true, hvtx, List.getElem?_cons_succ,
        List.getElem?_cons_zero] at h
      cases hcheck : checkProofOfStake env r.toStakeRecords n pindexPrev block.nBits tx with
      | error e => simp [hcheck] at h
      | ok hashProof' =>
        simp only [hcheck, acceptFork, hstake, if_true, hkernel, Option.bind_some] at h
        split at h
        · cases h
        split at h
        · cases h
        split at h
        · cases h
        cases hforked : forkedError env n block.isProofOfAnonStake kernel pindexPrev with
        | some e => simp [hforked] at h
        | none =>
          simp only [hforked] at h
          split at h
          · obtain rfl : hashProof' = hashProof := by simpa using h
            exact ⟨pindexPrev, tx0, tx, vtx, kernel, vin, rfl, hvtx, hcoin, hvin, hcheck, hforked⟩
          · cases h

/-- The walk has read every block above the active chain, and found no spend of the kernel. -/
theorem forkedError_eq_none (isAnonCoinStake : Bool) (kernel : CTxIn) (pindex : CBlockIndex)
    (h : forkedError env n isAnonCoinStake kernel pindex = none) (q : CBlockIndex) (hq : q <:+ pindex)
    (hforked : ¬ q <:+ n.chain.pindexBest) :
    ∀ tx ∈ blockTxs env q, ∀ txin ∈ tx.vin, ¬ spendsKernel isAnonCoinStake kernel txin := by
  induction pindex with
  | nil =>
    rw [List.suffix_nil.mp hq] at hforked
    exact absurd List.nil_suffix hforked
  | cons b pprev ih =>
    rw [forkedError] at h
    by_cases hactive : n.chain.activeContains (b :: pprev)
    · exact absurd (hq.trans ((n.chain.activeContains_iff _).mp hactive)) hforked
    · rw [if_neg hactive] at h
      cases hread : env.readFromDisk (b :: pprev) with
      | none => simp [hread] at h
      | some bl =>
        simp only [hread] at h
        split at h
        · cases h
        · rename_i hnone
          obtain rfl | htail := List.suffix_cons_iff.mp hq
          · intro tx htx txin htxin hspends
            rw [blockTxs, hread] at htx
            exact hnone (List.any_eq_true.mpr ⟨tx, htx, List.any_eq_true.mpr ⟨txin, htxin, hspends⟩⟩)
          · exact ih h htail

/-- The kernel of a stake on top of a block: created in an ancestor, deep enough, and spent by no ancestor
from there on. -/
def GenuineStake (pindexPrev : CBlockIndex) (prevout : COutPoint) (nTime : UInt32) : Prop :=
  ∃ b pprev, b :: pprev <:+ pindexPrev ∧
    (∃ tx ∈ blockTxs env (b :: pprev), env.txid tx = prevout.hash ∧ prevout.n.toNat < tx.vout.length) ∧
    env.p.getStakeMinConfirmations nTime.toNat ≤
      CBlockIndex.nHeight pindexPrev + 1 - CBlockIndex.nHeight (b :: pprev) ∧
    ∀ q, q <:+ pindexPrev → b :: pprev <:+ q → ∀ tx ∈ blockTxs env q,
      ¬ tx.Spends prevout.hash prevout.n.toNat

/-- The index has the kernel in an ancestor of the new block. -/
def KernelBelow (pindexPrev : CBlockIndex) (prevout : COutPoint) : Prop :=
  ∀ e, n.disk.txIndex prevout.hash = some e → ∃ b pprev, b :: pprev <:+ pindexPrev ∧ InBlock e b

/-- In the forked blocks only anonymous transactions have an anonymous input in place of the kernel. -/
def NoLookalike (pindexPrev : CBlockIndex) (prevout : COutPoint) : Prop :=
  ∀ q, q <:+ pindexPrev → ¬ q <:+ n.chain.pindexBest → ∀ tx ∈ blockTxs env q, ∀ txin ∈ tx.vin,
    txin.prevout = prevout → txin.isAnonInput → tx.skipsInput txin

/-- A block that is not among the last `nMaxDepth` is at least that deep. -/
theorem depth_of_notConfirmed (e : CTxIndex) (pindexFrom : CBlockIndex) (nMaxDepth : Int) (b : BlockNode)
    (pprev : CBlockIndex) (hsuffix : b :: pprev <:+ pindexFrom) (hblock : InBlock e b)
    (h : CBlockIndex.isConfirmedInNPrevBlocks e pindexFrom nMaxDepth = false) :
    nMaxDepth ≤ CBlockIndex.nHeight pindexFrom - CBlockIndex.nHeight (b :: pprev) := by
  obtain ⟨pre, rfl⟩ := hsuffix
  have hdeep : nMaxDepth.toNat ≤ pre.length := by
    by_contra hlt
    have hmem : b ∈ (pre ++ b :: pprev).take nMaxDepth.toNat := by
      rw [List.take_append, List.mem_append]
      refine Or.inr ?_
      obtain ⟨k, hk⟩ : ∃ k, nMaxDepth.toNat - pre.length = k + 1 :=
        ⟨nMaxDepth.toNat - pre.length - 1, by omega⟩
      rw [hk, List.take_succ_cons]
      exact List.mem_cons_self
    rw [CBlockIndex.isConfirmedInNPrevBlocks, List.any_eq_false] at h
    apply h b hmem
    simp [hblock.1, hblock.2]
  simp only [CBlockIndex.nHeight, List.length_append]
  omega

/-- The index entry and the transaction that `CheckProofOfStake` reads. -/
theorem readPrevout_eq_some {prevout : COutPoint} {txPrev : CTransaction} {e : CTxIndex} {txout : CTxOut}
    (h : readPrevout env n prevout = some (txPrev, e, txout)) :
    n.disk.txIndex prevout.hash = some e ∧ env.readTx e.pos = some txPrev ∧
      prevout.n.toNat < txPrev.vout.length := by
  simp only [readPrevout, Option.bind_eq_bind, Option.bind_eq_some_iff, Option.pure_def, Option.some.injEq,
    Prod.mk.injEq] at h
  obtain ⟨e', he', txPrev', htxPrev', txout', htxout', rfl, rfl, rfl⟩ := h
  refine ⟨he', htxPrev', ?_⟩
  exact (List.getElem?_eq_some_iff.mp htxout').1

/-- A mark of an active block below the new one makes the kernel count as used. -/
theorem usedBefore_of_mark {m : UInt256 → Option CBlockIndex} (hfiles : FilesSound env)
    (hstored : IndexStored env m) (hmap : n.chain.mapBlockIndex = m) (pindexPrev : CBlockIndex) (b : BlockNode)
    (pprev : CBlockIndex) (hfiled : Filed m (b :: pprev)) (hbelow : b :: pprev <:+ pindexPrev) (nTxPos : UInt32) :
    usedBefore env n pindexPrev (posThisTx (b :: pprev) nTxPos) = true := by
  have hnull := posThisTx_notNull hfiles hstored hfiled nTxPos
  have hfound := hfiled (List.cons_ne_nil b pprev)
  obtain ⟨bl, hread, hhash⟩ := hstored _ b pprev hfound
  have hread' : env.readBlock (posThisTx (b :: pprev) nTxPos).nFile (posThisTx (b :: pprev) nTxPos).nBlockPos =
      some bl := hread
  have hindex : n.chain.mapBlockIndex (bl.getHash env.H) = some (b :: pprev) := by
    rw [hmap, hhash]
    exact hfound
  have hle := hbelow.length_le
  rw [usedBefore, hread', Bool.eq_false_of_not_eq_true hnull]
  simp only [hindex, CBlockIndex.nHeight, Bool.not_false, Bool.true_and]
  apply decide_eq_true
  omega

theorem spendsKernel_of_prevout (kernel txin : CTxIn) (hplain : ¬ txin.isAnonInput)
    (hprevout : txin.prevout = kernel.prevout) : spendsKernel false kernel txin := by
  simp [spendsKernel, hplain, hprevout]

/-- A transparent stake that is stored, on top of protocol V3: the entry of its kernel, whose mark and depth
are in order, and a clean walk. -/
theorem acceptBlock_kernel {fReindexing fDiskSpace : Bool} {hashProof : UInt256} {pindexPrev : CBlockIndex}
    {tx0 tx : CTransaction} {vtx : List CTransaction} {kernel : CTxIn} {vin : List CTxIn}
    (haccept : acceptBlock env limits r n block fReindexing fDiskSpace = .ok hashProof)
    (hstake : block.isProofOfStake) (hprev : n.chain.mapBlockIndex block.hashPrevBlock = some pindexPrev)
    (hvtx : block.vtx = tx0 :: tx :: vtx) (hvin : tx.vin = kernel :: vin)
    (htransparent : tx.nVersion ≠ ANON_TXN_VERSION)
    (hV3 : env.p.isProtocolV3 (CBlockIndex.nHeight pindexPrev)) :
    ∃ txPrev e, n.disk.txIndex kernel.prevout.hash = some e ∧ env.readTx e.pos = some txPrev ∧
      kernel.prevout.n.toNat < txPrev.vout.length ∧
      usedBefore env n pindexPrev (e.spentMark kernel.prevout) = false ∧
      CBlockIndex.isConfirmedInNPrevBlocks e pindexPrev
        (env.p.getStakeMinConfirmations tx.nTime.toNat - 1) = false ∧
      forkedError env n false kernel pindexPrev = none := by
  obtain ⟨pindexPrev', tx0', tx', vtx', kernel', vin', hprev', hvtx', hcoin, hvin', hcheck, hforked⟩ :=
    acceptBlock_stake env limits r n block haccept hstake
  obtain rfl : pindexPrev' = pindexPrev := Option.some.inj (hprev'.symm.trans hprev)
  obtain ⟨rfl, rfl⟩ : tx' = tx ∧ kernel' = kernel := by
    rw [hvtx] at hvtx'
    obtain ⟨-, h⟩ := List.cons.inj hvtx'
    obtain ⟨rfl, -⟩ := List.cons.inj h
    rw [hvin] at hvin'
    exact ⟨rfl, (List.cons.inj hvin').1.symm⟩
  have hanon : block.isProofOfAnonStake = false := by
    simp [CBlock.isProofOfAnonStake, hvtx, CTransaction.isAnonCoinStake, htransparent]
  rw [hanon] at hforked
  obtain ⟨⟨txPrev, e, txout, hread, hused, -⟩, txPrev₁, e₁, txout₁, hashProof₁, hread₁, hmature⟩ :=
    (checkProofOfStake_ok_iff env r.toStakeRecords n pindexPrev' block.nBits tx' kernel' vin hvin htransparent
      hcoin).mp ⟨hashProof, hcheck⟩
  rw [hread, Option.some.injEq, Prod.mk.injEq, Prod.mk.injEq] at hread₁
  obtain ⟨rfl, rfl, rfl⟩ := hread₁
  obtain ⟨hentry, hreadTx, hrange⟩ := readPrevout_eq_some env n hread
  refine ⟨txPrev, e, hentry, hreadTx, hrange, hused, ?_, hforked⟩
  unfold checkStakeMaturity at hmature
  cases hbl : env.readBlock e.pos.nFile e.pos.nBlockPos with
  | none => simp [hbl] at hmature
  | some bl =>
    cases hconfirmed : CBlockIndex.isConfirmedInNPrevBlocks e pindexPrev'
        (env.p.getStakeMinConfirmations tx'.nTime.toNat - 1) with
    | false => rfl
    | true => simp [hbl, maturityError, hV3, hconfirmed] at hmature

/-- No block from the kernel's on spends it: on the active chain the spend has left its mark, and off it
the walk has seen it. -/
theorem kernel_unspent (hfiles : FilesSound env) (hindex : IndexInv env n)
    (hstored : IndexStored env n.chain.mapBlockIndex)
    (hmarks : IndexMarked env n.disk.txIndex n.chain.pindexBest) {pindexPrev : CBlockIndex}
    (hfiled : Filed n.chain.mapBlockIndex pindexPrev) {kernel : CTxIn} {e : CTxIndex}
    (hentry : n.disk.txIndex kernel.prevout.hash = some e) {b : BlockNode} {pprev : CBlockIndex}
    (hactive : b :: pprev <:+ n.chain.pindexBest) (hblock : InBlock e b)
    (hused : usedBefore env n pindexPrev (e.spentMark kernel.prevout) = false)
    (hforked : forkedError env n false kernel pindexPrev = none)
    (hplain : NoLookalike env n pindexPrev kernel.prevout) (q : CBlockIndex) (hq : q <:+ pindexPrev)
    (habove : b :: pprev <:+ q) (tx : CTransaction) (htx : tx ∈ blockTxs env q) :
    ¬ tx.Spends kernel.prevout.hash kernel.prevout.n.toNat := by
  intro hspends
  cases q with
  | nil => exact absurd (List.suffix_nil.mp habove) (List.cons_ne_nil _ _)
  | cons b' pprev' =>
    by_cases hmain : b' :: pprev' <:+ n.chain.pindexBest
    · obtain ⟨nTxPos, hmark⟩ := hmarks.marked _ e hentry b pprev hactive hblock b' pprev' hmain habove tx htx _
        hspends
      rw [CTxIndex.spentMark, hmark, Option.getD_some, usedBefore_of_mark env n hfiles hstored rfl pindexPrev b'
        pprev' (hfiled.suffix hindex.closed hq) hq nTxPos] at hused
      cases hused
    · obtain ⟨-, txin, htxin, hskip, hhash, hn⟩ := hspends
      have hprevout : txin.prevout = kernel.prevout :=
        congrArg₂ COutPoint.mk hhash (UInt32.toNat_inj.mp hn)
      apply forkedError_eq_none env n false kernel pindexPrev hforked _ hq hmain tx htx txin htxin
      apply spendsKernel_of_prevout kernel txin _ hprevout
      intro hlook
      exact hskip (hplain _ hq hmain tx htx txin htxin hprevout hlook)

/-- No fake stake is stored: in a run whose postponed blocks pass, a transparent stake that `AcceptBlock`
goes on to write has a genuine kernel, if the index has the kernel below the new block, protocol V3 was in
force before it, and no forked block hides a spend of the kernel behind the form of an anonymous input. -/
theorem acceptedStake_genuine (hfiles : FilesSound env) (hn : Reachable env (PostponedBlocksPass env) n)
    (fReindexing fDiskSpace : Bool) (hashProof : UInt256) (pindexPrev : CBlockIndex) (tx0 tx : CTransaction)
    (vtx : List CTransaction) (kernel : CTxIn) (vin : List CTxIn)
    (haccept : acceptBlock env limits r n block fReindexing fDiskSpace = .ok hashProof)
    (hstake : block.isProofOfStake) (hprev : n.chain.mapBlockIndex block.hashPrevBlock = some pindexPrev)
    (hvtx : block.vtx = tx0 :: tx :: vtx) (hvin : tx.vin = kernel :: vin)
    (htransparent : tx.nVersion ≠ ANON_TXN_VERSION)
    (hV3 : env.p.isProtocolV3 (CBlockIndex.nHeight pindexPrev))
    (hbelow : KernelBelow n pindexPrev kernel.prevout)
    (hplain : NoLookalike env n pindexPrev kernel.prevout) :
    GenuineStake env pindexPrev kernel.prevout tx.nTime := by
  obtain ⟨txPrev, e, hentry, hreadTx, hrange, hused, hdepth, hforked⟩ :=
    acceptBlock_kernel env limits r n block haccept hstake hprev hvtx hvin htransparent hV3
  have hindex := hn.index env
  have hstored := (hn.storedInv env).stored
  have hmarks := hn.indexMarked env hfiles
  have hfiled : Filed n.chain.mapBlockIndex pindexPrev := by
    intro _
    rwa [(hindex.closed.entry _ _ hprev).2]
  -- the block of the entry is on both chains
  obtain ⟨b, pprev, hactive, hblock, txKernel, htxKernel, hhash, hreadKernel, -⟩ := hmarks.located _ e hentry
  obtain ⟨b₁, pprev₁, hsuffix, hblock₁⟩ := hbelow e hentry
  have hsame : b₁ :: pprev₁ = b :: pprev :=
    hstored.eq_of_pos env (hfiled.suffix hindex.closed hsuffix) (hindex.filed.suffix hindex.closed hactive)
      (hblock₁.1.symm.trans hblock.1) (hblock₁.2.symm.trans hblock.2)
  rw [hsame] at hsuffix
  obtain rfl : txPrev = txKernel := Option.some.inj (hreadTx.symm.trans hreadKernel)
  refine ⟨b, pprev, hsuffix, ⟨txPrev, htxKernel, hhash, hrange⟩, ?_, ?_⟩
  · have hdeep := depth_of_notConfirmed e pindexPrev _ b pprev hsuffix hblock hdepth
    omega
  · exact kernel_unspent env n hfiles hindex hstored hmarks hfiled hentry hactive hblock hused hforked hplain

end Spec

section Scene

/-- The genesis block of the regression test network; its transaction is never read. -/
def regGenesis : CBlock := { testGenesis with nNonce := 2 }

def heightCoinBase (nHeight : Nat) (nExtra : UInt8) (vout : List CTxOut) : CTransaction where
  nVersion := 1
  nTime := minedTime nHeight
  vin := [⟨.null, CScript.pushHeight nHeight ++ [nExtra], 0xFFFFFFFF⟩]
  vout
  nLockTime := 0

def wealthyCoinBase : CTransaction := heightCoinBase 1 0 [⟨20000000 * COIN, [0x51]⟩]

/-- A first block with a large output. -/
def wealthyFirst : CBlock :=
  sealedBlock regTestParams.hashGenesisBlock (minedTime 1) 0 [wealthyCoinBase]

/-- Another first block. -/
def forkedFirst : CBlock :=
  sealedBlock regTestParams.hashGenesisBlock (minedTime 1) 0 [heightCoinBase 1 1 [⟨0, []⟩]]

def forkedFile : BlockFile :=
  [(minedPos 0, regGenesis), (minedPos 1, wealthyFirst), (minedPos 2, forkedFirst)]

/-- A node on the file; scrypt is known on the genesis block. -/
def regNode (p : ChainParams) : NodeEnv Secp256k1.Point Unit :=
  { fileNode p forkedFile with
    scryptBlockHash := fun header => if header = regGenesis.headerBytes then p.hashGenesisBlock else 0 }

def wealthyInput : CTxIn := ⟨⟨wealthyCoinBase.getHash sha256d, 0⟩, [], 0xFFFFFFFF⟩

/-- A coinstake on the large output. -/
def wealthyStake : CTransaction where
  nVersion := 1
  nTime := minedTime 2
  vin := [wealthyInput]
  vout := [⟨0, []⟩, ⟨20000000 * COIN, [0x51]⟩]
  nLockTime := 0

/-- A staked block. The output outweighs the target, so that every hash meets it. -/
def stakedBlock (hashPrevBlock : UInt256) : CBlock :=
  { sealedBlock hashPrevBlock (minedTime 2) 0 [heightCoinBase 2 0 [⟨0, []⟩], wealthyStake] with
    nBits := getCompact ((2 ^ 256 - 1) / 2 ^ 46) }

def regRecords : AcceptRecords :=
  { noRecords with nBits := fun _ => 0x207fffff, nFlags := fun _ => 0, hashProof := fun _ => 0 }

def regLimits : Nat × Nat := ((2 ^ 256 - 1) / 2 ^ 20, (2 ^ 256 - 1) / 2 ^ 46)

def aloneNode (p : ChainParams) : Node Unit :=
  (addToBlockIndex (regNode p) (freshNode CTxMemPool.empty () (fun _ => ⟨0, 0, 0⟩) 1530002000) regGenesis 1
    (minedPos 0)).1

/-- The large output is on the active chain. -/
def wealthyNode (p : ChainParams) : Node Unit :=
  (addToBlockIndex (regNode p) (aloneNode p) wealthyFirst 1 (minedPos 1)).1

/-- The other first block has arrived later. -/
def forkedNode (p : ChainParams) : Node Unit :=
  (addToBlockIndex (regNode p) (wealthyNode p) forkedFirst 1 (minedPos 2)).1

/-- The entries of the two first blocks. -/
def wealthyIndex (p : ChainParams) : CBlockIndex :=
  newIndex (regNode p) (aloneNode p).chain wealthyFirst 1 (minedPos 1)

def forkedIndex (p : ChainParams) : CBlockIndex :=
  newIndex (regNode p) (wealthyNode p).chain forkedFirst 1 (minedPos 2)

private theorem regNode_eval (p : ChainParams) : regNode p =
    { evalFileNode p forkedFile with
      scryptBlockHash := fun header => if header = regGenesis.headerBytes then p.hashGenesisBlock else 0 } := by
  rw [regNode, fileNode_eq_eval]

private theorem regNode_filesSound (p : ChainParams) : FilesSound (regNode p) := by
  rintro ⟨hash, nFile, nBlockPos, nTime, nChainTrust⟩ pprev block hread
  change (if nFile = 1 then forkedFile.lookup nBlockPos else none) = some block at hread
  obtain ⟨rfl, hlookup⟩ : nFile = 1 ∧ forkedFile.lookup nBlockPos = some block := by
    split at hread
    · exact ⟨‹_›, hread⟩
    · cases hread
  obtain ⟨l₁, l₂, hfile, -⟩ := List.lookup_eq_some_iff.mp hlookup
  have hmem : (nBlockPos, block) ∈ forkedFile := by
    rw [hfile]
    exact List.mem_append_right _ List.mem_cons_self
  have hcases : (nBlockPos = minedPos 0 ∧ block = regGenesis) ∨
      (nBlockPos = minedPos 1 ∧ block = wealthyFirst) ∨ (nBlockPos = minedPos 2 ∧ block = forkedFirst) := by
    simpa only [forkedFile, List.mem_cons, Prod.mk.injEq, List.not_mem_nil, or_false] using hmem
  obtain ⟨rfl, rfl⟩ | ⟨rfl, rfl⟩ | ⟨rfl, rfl⟩ := hcases
  · refine ⟨?_, ?_, trivial⟩
    · change ¬ CDiskTxPos.isNull ⟨1, minedPos 0, 0⟩
      decide
    · change minedPos 0 ≠ 1
      decide
  · refine ⟨?_, ?_, ?_⟩
    · change ¬ CDiskTxPos.isNull ⟨1, minedPos 1, 0⟩
      decide
    · change minedPos 1 ≠ 1
      decide
    · change forkedFile.readTx ⟨1, minedPos 1, minedPos 1 + 81⟩ = some wealthyCoinBase ∧ True
      decide +kernel
  · refine ⟨?_, ?_, ?_⟩
    · change ¬ CDiskTxPos.isNull ⟨1, minedPos 2, 0⟩
      decide
    · change minedPos 2 ≠ 1
      decide
    · change forkedFile.readTx ⟨1, minedPos 2, minedPos 2 + 81⟩ = some (heightCoinBase 1 1 [⟨0, []⟩]) ∧ True
      decide +kernel

/-- The network with kernels of any depth. -/
def shallowParams : ChainParams := { regTestParams with nStakeMinConfirmationsLegacy := 1 }

private theorem wealthyNode_reachable (p : ChainParams) (hp : p = regTestParams ∨ p = shallowParams) :
    Reachable (regNode p) (PostponedBlocksPass (regNode p)) (wealthyNode p) := by
  have halone : Reachable (regNode p) (PostponedBlocksPass (regNode p)) (aloneNode p) := by
    refine Reachable.addToBlockIndex _ (Reachable.fresh _ _ _ _) regGenesis 1 (minedPos 0) ?_ ?_ ?_
    · obtain rfl | rfl := hp
      · exact ⟨by decide +kernel, rfl, by decide +kernel, Or.inl ⟨rfl, by decide +kernel, rfl⟩⟩
      · exact ⟨by decide +kernel, rfl, by decide +kernel, Or.inl ⟨rfl, by decide +kernel, rfl⟩⟩
    · obtain rfl | rfl := hp <;> decide +kernel
    · intro hgenesis
      exact absurd (by obtain rfl | rfl := hp <;> decide +kernel) hgenesis
  refine Reachable.addToBlockIndex _ halone wealthyFirst 1 (minedPos 1) ?_ ?_ ?_
  · obtain rfl | rfl := hp
    · exact ⟨by decide +kernel, by decide +kernel, by decide +kernel, Or.inr (by decide +kernel)⟩
    · exact ⟨by decide +kernel, by decide +kernel, by decide +kernel, Or.inr (by decide +kernel)⟩
  · obtain rfl | rfl := hp <;> decide +kernel
  · intro _ hside
    exact absurd (by obtain rfl | rfl := hp <;> decide +kernel) hside

private theorem forkedNode_reachable :
    Reachable (regNode regTestParams) (PostponedBlocksPass (regNode regTestParams)) (forkedNode regTestParams) := by
  refine Reachable.addSideBlock _ (wealthyNode_reachable _ (Or.inl rfl)) forkedFirst 1 (minedPos 2) ?_ ?_
  · exact ⟨by decide +kernel, by decide +kernel, by decide +kernel, Or.inr (by decide +kernel)⟩
  · decide +kernel

/-- A kernel that is deep enough on the chain it was created on. -/
theorem wealthyStake_genuine :
    GenuineStake (regNode shallowParams) (wealthyIndex shallowParams) wealthyInput.prevout (minedTime 2) := by
  have hok : (acceptBlock (regNode shallowParams) regLimits regRecords (wealthyNode shallowParams)
      (stakedBlock (wealthyFirst.getHash (regNode shallowParams).H)) false true).isOk := by
    simp only [wealthyNode, aloneNode, regNode_eval, forkedFile, wealthyFirst, forkedFirst, stakedBlock,
      wealthyStake, wealthyInput, sealedBlock_eq_eval, sha256d_eq_eval]
    decide +kernel
  obtain ⟨hashProof, haccept⟩ : ∃ hashProof, acceptBlock (regNode shallowParams) regLimits regRecords
      (wealthyNode shallowParams) (stakedBlock (wealthyFirst.getHash (regNode shallowParams).H)) false true =
        .ok hashProof := by
    revert hok
    generalize acceptBlock (regNode shallowParams) regLimits regRecords (wealthyNode shallowParams)
      (stakedBlock (wealthyFirst.getHash (regNode shallowParams).H)) false true = result
    intro hok
    cases result with
    | error e => cases hok
    | ok hashProof => exact ⟨hashProof, rfl⟩
  have hbelow : KernelBelow (wealthyNode shallowParams) (wealthyIndex shallowParams) wealthyInput.prevout := by
    intro e he
    have hpos : ((wealthyNode shallowParams).disk.txIndex wealthyInput.prevout.hash).map
        (fun e => (e.pos.nFile, e.pos.nBlockPos)) = some (1, minedPos 1) := by
      decide +kernel
    rw [he, Option.map_some, Option.some.injEq, Prod.mk.injEq] at hpos
    exact ⟨_, _, List.suffix_refl _, hpos⟩
  have hplain : NoLookalike (regNode shallowParams) (wealthyNode shallowParams) (wealthyIndex shallowParams)
      wealthyInput.prevout := by
    intro q hq hforked
    have hbest : (wealthyNode shallowParams).chain.pindexBest = wealthyIndex shallowParams := by decide +kernel
    rw [hbest] at hforked
    exact absurd hq hforked
  exact acceptedStake_genuine (regNode shallowParams) regLimits regRecords (wealthyNode shallowParams) _
    (regNode_filesSound _) (wealthyNode_reachable _ (Or.inr rfl)) false true hashProof _ _ wealthyStake []
    wealthyInput [] haccept (by decide +kernel) (by decide +kernel) rfl rfl (by decide) (by decide +kernel) hbelow
    hplain

/-- A stake on the other first block with the output of the active one is stored. -/
theorem forkedStake_fake :
    Reachable (regNode regTestParams) (PostponedBlocksPass (regNode regTestParams)) (forkedNode regTestParams) ∧
      (acceptBlock (regNode regTestParams) regLimits regRecords (forkedNode regTestParams)
        (stakedBlock (forkedFirst.getHash (regNode regTestParams).H)) false true).isOk ∧
      (stakedBlock (forkedFirst.getHash (regNode regTestParams).H)).isProofOfStake ∧
      regTestParams.isProtocolV3 (CBlockIndex.nHeight (forkedIndex regTestParams) + 1) ∧
      (forkedNode regTestParams).chain.mapBlockIndex (forkedFirst.getHash (regNode regTestParams).H) =
        some (forkedIndex regTestParams) ∧
      ¬ GenuineStake (regNode regTestParams) (forkedIndex regTestParams) wealthyInput.prevout (minedTime 2) := by
  have hok : (acceptBlock (regNode regTestParams) regLimits regRecords (forkedNode regTestParams)
      (stakedBlock (forkedFirst.getHash (regNode regTestParams).H)) false true).isOk := by
    simp only [forkedNode, wealthyNode, aloneNode, regNode_eval, forkedFile, wealthyFirst, forkedFirst,
      stakedBlock, wealthyStake, wealthyInput, sealedBlock_eq_eval, sha256d_eq_eval]
    decide +kernel
  refine ⟨forkedNode_reachable, hok, by decide +kernel, by decide +kernel, by decide +kernel, ?_⟩
  rintro ⟨b, pprev, hsuffix, ⟨tx, htx, hid, -⟩, -⟩
  have hmem : b :: pprev ∈ (forkedIndex regTestParams).tails := (List.mem_tails _ _).mpr hsuffix
  have hnone : ((forkedIndex regTestParams).tails.flatMap (blockTxs (regNode regTestParams))).all
      (fun tx => tx.getHash sha256d != wealthyInput.prevout.hash) = true := by
    decide +kernel
  have hne := List.all_eq_true.mp hnone tx (List.mem_flatMap.mpr ⟨_, hmem, htx⟩)
  exact absurd hid (bne_iff_ne.mp hne)

end Scene

end AliasWallet
