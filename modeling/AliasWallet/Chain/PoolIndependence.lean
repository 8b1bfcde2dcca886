import AliasWallet.Chain.ConnectSpec
import AliasWallet.Chain.ConcreteNode

/-!
# The memory pool in block acceptance

`CheckAnonInputs` reaches the pool through `GetKeyImage` and `TxnHashInSystem`. A pooled transaction
that claims a key image of the block makes `ConnectBlock` reject it, and nothing else of the pool
does.
-/

namespace AliasWallet
open Lib

section Claims

variable {Pt L : Type} (env : NodeEnv Pt L) (c : ChainState) (pool : CTxMemPool) (s : Session L)
  (tx : CTransaction)

/-- Through the pool the image counts as spent by another transaction: one in the pool, or one of
the main chain whose record only the pool has. -/
def poolClaims (txin : CTxIn) : Bool :=
  match getKeyImage s.disk pool txin.extractKeyImage with
  | none => false
  | some ski =>
    ski.txnHash != env.txid tx &&
      (pool.contains ski.txnHash || (s.disk.keyImages txin.extractKeyImage).isNone &&
        env.txnHashInSystem c CTxMemPool.empty s.readTxIndex ski.txnHash)

/-- The pool claims no image of the transaction. -/
def poolNeutralTx : Bool :=
  tx.isCoinBase || tx.nVersion != ANON_TXN_VERSION ||
    tx.vin.all fun txin => !txin.isAnonInput || !poolClaims env c pool s tx txin

@[simp] theorem contains_empty (hash : UInt256) : CTxMemPool.empty.contains hash = false := rfl

@[simp] theorem getKeyImage_empty (disk : Disk) (keyImage : Bytes) :
    getKeyImage disk CTxMemPool.empty keyImage = disk.keyImages keyImage := by
  simp [getKeyImage, CTxMemPool.empty]

theorem txnHashInSystem_pool (hash : UInt256) :
    env.txnHashInSystem c pool s.readTxIndex hash =
      (pool.contains hash || env.txnHashInSystem c CTxMemPool.empty s.readTxIndex hash) := by
  simp [NodeEnv.txnHashInSystem]

/-- The test for a spent image, through the pool and without it. -/
theorem keyImageFree_pool (txin : CTxIn) :
    keyImageFree env.C.hash (sessionView env c pool s) tx true txin =
      (keyImageFree env.C.hash (sessionView env c CTxMemPool.empty s) tx true txin &&
        !poolClaims env c pool s tx txin) := by
  simp only [keyImageFree, poolClaims, sessionView, NodeEnv.anonView, getKeyImage_empty,
    txnHashInSystem_pool env c pool s, Bool.true_and]
  cases hdisk : s.disk.keyImages txin.extractKeyImage with
  | none =>
    simp only [getKeyImage, hdisk, Option.none_or]
    cases pool.mapKeyImage txin.extractKeyImage with
    | none => rfl
    | some ski =>
      simp only [NodeEnv.txid, Option.isNone_none, Bool.true_and, bne]
      cases ski.txnHash == tx.getHash env.C.hash <;> simp
  | some ski =>
    simp only [getKeyImage, hdisk, Option.some_or, NodeEnv.txid, bne]
    cases ski.txnHash == tx.getHash env.C.hash <;>
      cases pool.contains ski.txnHash <;> simp

/-- Past the test for a spent image nothing of `CheckAnonInputs` looks at the pool. -/
theorem checkAnonInput_pool (preimage : UInt256) (txin : CTxIn) (i : Nat) :
    (checkAnonInput env.p env.E env.C.hash (sessionView env c pool s) tx true preimage txin i).toOption =
      if poolClaims env c pool s tx txin then none
      else (checkAnonInput env.p env.E env.C.hash (sessionView env c CTxMemPool.empty s) tx true preimage
        txin i).toOption := by
  have hAB : ∀ nRingSize vchImage,
      checkAnonInputAB env.p env.E env.C.hash (sessionView env c pool s) tx txin i nRingSize vchImage =
        checkAnonInputAB env.p env.E env.C.hash (sessionView env c CTxMemPool.empty s) tx txin i
          nRingSize vchImage := fun _ _ => rfl
  have hplain : ∀ nRingSize vchImage, checkAnonInputPlain env.p env.E env.C.hash
      (sessionView env c pool s) tx preimage txin i nRingSize vchImage =
        checkAnonInputPlain env.p env.E env.C.hash (sessionView env c CTxMemPool.empty s) tx preimage
          txin i nRingSize vchImage := fun _ _ => rfl
  unfold checkAnonInput
  rw [keyImageFree_pool env c pool s tx txin]
  simp only [hAB, hplain]
  cases keyImageFree env.C.hash (sessionView env c CTxMemPool.empty s) tx true txin with
  | false => simp [bind, Except.bind, throw, throwThe, MonadExceptOf.throw, Except.toOption]
  | true =>
    cases poolClaims env c pool s tx txin with
    | false => simp
    | true => simp [bind, Except.bind, throw, throwThe, MonadExceptOf.throw, Except.toOption]

private theorem checkAnonInputsFrom_pool (preimage : UInt256) (vin : List CTxIn) (i : Nat)
    (nSumValue : Int64) :
    (checkAnonInputsFrom env.p env.E env.C.hash (sessionView env c pool s) tx true preimage vin i
        nSumValue).toOption =
      if vin.all fun txin => !txin.isAnonInput || !poolClaims env c pool s tx txin then
        (checkAnonInputsFrom env.p env.E env.C.hash (sessionView env c CTxMemPool.empty s) tx true
          preimage vin i nSumValue).toOption
      else none := by
  induction vin generalizing i nSumValue with
  | nil => simp [checkAnonInputsFrom]
  | cons txin vin ih =>
    unfold checkAnonInputsFrom
    by_cases hanon : txin.isAnonInput
    · rw [if_pos hanon, if_pos hanon, toOption_bind, toOption_bind,
        checkAnonInput_pool env c pool s tx preimage txin i]
      cases hclaims : poolClaims env c pool s tx txin with
      | true => simp [hanon, hclaims]
      | false =>
        cases (checkAnonInput env.p env.E env.C.hash (sessionView env c CTxMemPool.empty s) tx true
            preimage txin i).toOption with
        | none => simp
        | some nCoinValue => simpa [hanon, hclaims] using ih (i + 1) (nSumValue + nCoinValue)
    · simpa [hanon] using ih (i + 1) nSumValue

/-- The value of the anonymous inputs, through the pool and without it. -/
theorem anonValueIn_pool (hbase : ¬ tx.isCoinBase) :
    anonValueIn env tx (sessionView env c pool s) =
      if poolNeutralTx env c pool s tx
      then anonValueIn env tx (sessionView env c CTxMemPool.empty s) else none := by
  unfold anonValueIn poolNeutralTx
  by_cases hversion : tx.nVersion = ANON_TXN_VERSION
  · unfold checkAnonInputs
    cases getTxnPreImage env.C.hash tx with
    | none => simp [hversion, Except.toOption]
    | some preimage => simpa [hversion, hbase] using checkAnonInputsFrom_pool env c pool s tx preimage tx.vin 0 0
  · simp [hversion]

end Claims

section Independence

variable {Pt L : Type} (env : NodeEnv Pt L) (c : ChainState) (pool : CTxMemPool) (s : Session L)
  (block : CBlock) (pindex : CBlockIndex) (fJustCheck : Bool)

/-- Positions on disk are not the one that refers to the memory pool. -/
structure OnDisk : Prop where
  indexed : AllEntries (fun _ e => e.pos ≠ CDiskTxPos.inMemoryPool) s.readTxIndex
  block : ∀ b ∈ pindex.head?, b.nBlockPos ≠ CDiskTxPos.inMemoryPool.nBlockPos

theorem posThisTx_ne (hdisk : OnDisk s pindex) (nTxPos : UInt32) :
    posThisTx pindex nTxPos ≠ CDiskTxPos.inMemoryPool := by
  intro h
  cases pindex with
  | nil => simp [posThisTx, CDiskTxPos.inMemoryPool] at h
  | cons b pprev =>
    apply hdisk.block b rfl
    rw [← h]
    rfl

/-- `FetchInputs` of a block reads only what is on disk. -/
theorem fetchInputs_pool (tx : CTransaction) (mapTestPool : MapTestPool) (hdisk : OnDisk s pindex)
    (hmap : AllEntries (fun _ e => e.pos ≠ CDiskTxPos.inMemoryPool) mapTestPool) :
    fetchInputs env pool s.readTxIndex true tx mapTestPool =
      fetchInputs env CTxMemPool.empty s.readTxIndex true tx mapTestPool := by
  have hround : fetchInput env pool s.readTxIndex true tx mapTestPool =
      fetchInput env CTxMemPool.empty s.readTxIndex true tx mapTestPool := by
    funext inputs txin
    simp only [fetchInput, if_true]
    cases hentry : (mapTestPool txin.prevout.hash).or (s.readTxIndex txin.prevout.hash) with
    | none => rfl
    | some txindex =>
      have hpos : txindex.pos ≠ CDiskTxPos.inMemoryPool := by
        cases Option.or_eq_some_iff.mp hentry with
        | inl hqueued => exact hmap _ _ hqueued
        | inr hstored => exact hdisk.indexed _ _ hstored.2
      simp [readTxPrev, hpos]
  unfold fetchInputs
  rw [hround]

theorem connectInputs_pool (tx : CTransaction) (inputs : MapPrevTx) (mapTestPool : MapTestPool)
    (pos : CDiskTxPos) (flags : ScriptFlags) (hbase : ¬ tx.isCoinBase) :
    connectInputs env c pindex tx (sessionView env c pool s) inputs mapTestPool pos true flags =
      if poolNeutralTx env c pool s tx then
        connectInputs env c pindex tx (sessionView env c CTxMemPool.empty s) inputs mapTestPool pos true
          flags
      else none := by
  unfold connectInputs
  rw [anonValueIn_pool env c pool s tx hbase]
  cases poolNeutralTx env c pool s tx with
  | true => simp
  | false => simp [hbase]

/-- A round of `ConnectBlock` behind the gate that the pool closes. -/
theorem connectTx_pool (t : BlockTotals) (tx : CTransaction) (hdisk : OnDisk s pindex)
    (hmap : AllEntries (fun _ e => e.pos ≠ CDiskTxPos.inMemoryPool) t.mapQueuedChanges) :
    connectTx env c pool s pindex fJustCheck t tx =
      if poolNeutralTx env c pool s tx
      then connectTx env c CTxMemPool.empty s pindex fJustCheck t tx else none := by
  by_cases hbase : tx.isCoinBase
  · simp [connectTx, poolNeutralTx, hbase]
  · unfold connectTx connectTxInputs
    simp only [hbase, fetchInputs_pool env pool s pindex tx t.mapQueuedChanges hdisk hmap,
      anonValueIn_pool env c pool s tx hbase, connectInputs_pool env c pool s pindex tx _ _ _ _ hbase]
    cases poolNeutralTx env c pool s tx with
    | true => simp
    | false => simp

theorem connectTx_onDisk (t t' : BlockTotals) (tx : CTransaction) (hdisk : OnDisk s pindex)
    (hmap : AllEntries (fun _ e => e.pos ≠ CDiskTxPos.inMemoryPool) t.mapQueuedChanges)
    (h : connectTx env c pool s pindex fJustCheck t tx = some t') :
    AllEntries (fun _ e => e.pos ≠ CDiskTxPos.inMemoryPool) t'.mapQueuedChanges := by
  obtain ⟨-, q, hq, hcases⟩ := connectTx_eq_some env c pool s pindex fJustCheck t t' tx h
  rw [hq]
  have hnew : (CTxIndex.new (posThisTx pindex t.nTxPos) tx.vout.length).pos ≠
      CDiskTxPos.inMemoryPool := posThisTx_ne s pindex hdisk t.nTxPos
  refine AllEntries.update ?_ _ hnew
  cases hcases with
  | inl hbase =>
    rw [hbase.2]
    exact hmap
  | inr hinputs =>
    obtain ⟨-, inputs, hconnected⟩ := hinputs
    have hfetched := fetchInputs_pos env pool s.readTxIndex tx t.mapQueuedChanges
      (fun _ pos => pos ≠ CDiskTxPos.inMemoryPool) inputs (fun hash e _ => hdisk.indexed hash e) hmap
      hconnected.fetched
    exact connectInputs_pos env c tx true _ _ (fun _ pos => pos ≠ CDiskTxPos.inMemoryPool) pindex _
      inputs _ q hfetched hmap hconnected.connected

/-- The pool claims no image of the block. -/
def PoolNeutral : Prop := ∀ tx ∈ block.vtx, poolNeutralTx env c pool s tx

instance : Decidable (PoolNeutral env c pool s block) :=
  inferInstanceAs (Decidable (∀ tx ∈ block.vtx, poolNeutralTx env c pool s tx))

/-- With a pool `ConnectBlock` accepts what it accepts without one, unless the pool claims an
image. -/
theorem connectBlock_pool (hdisk : OnDisk s pindex) :
    (connectBlock env c pool fJustCheck s block pindex).2 =
      ((connectBlock env c CTxMemPool.empty fJustCheck s block pindex).2 &&
        decide (PoolNeutral env c pool s block)) := by
  rw [connectBlock_accepts, connectBlock_accepts]
  have hfold := foldlM_gated (fun tx => poolNeutralTx env c pool s tx = true)
    (fun t : BlockTotals => AllEntries (fun _ e => e.pos ≠ CDiskTxPos.inMemoryPool) t.mapQueuedChanges)
    block.vtx (initTotals block pindex fJustCheck) AllEntries.none
    (f := connectTx env c pool s pindex fJustCheck)
    (g := connectTx env c CTxMemPool.empty s pindex fJustCheck)
    (fun t tx _ ht => connectTx_pool env c pool s pindex fJustCheck t tx hdisk ht)
    (fun t tx _ t' ht h => connectTx_onDisk env c CTxMemPool.empty s pindex fJustCheck t t' tx hdisk ht h)
  unfold checkTransactions
  rw [hfold]
  by_cases hneutral : PoolNeutral env c pool s block
  · have hall : ∀ tx ∈ block.vtx, poolNeutralTx env c pool s tx = true := hneutral
    rw [if_pos hall]
    simp [hneutral]
  · have hnot : ¬ ∀ tx ∈ block.vtx, poolNeutralTx env c pool s tx = true := hneutral
    rw [if_neg hnot]
    simp [hneutral]

theorem connectBlock_rejected (hdisk : OnDisk s pindex) (hclaims : ¬ PoolNeutral env c pool s block) :
    (connectBlock env c pool fJustCheck s block pindex).2 = false := by
  rw [connectBlock_pool env c pool s block pindex fJustCheck hdisk]
  simp [hclaims]

/-- Two pools give the same answer exactly when the block is rejected without a pool, or both claim
an image of it, or neither does. -/
theorem connectBlock_pool_iff (pool₁ pool₂ : CTxMemPool) (hdisk : OnDisk s pindex) :
    (connectBlock env c pool₁ fJustCheck s block pindex).2 =
        (connectBlock env c pool₂ fJustCheck s block pindex).2 ↔
      ((connectBlock env c CTxMemPool.empty fJustCheck s block pindex).2 →
        (PoolNeutral env c pool₁ s block ↔ PoolNeutral env c pool₂ s block)) := by
  rw [connectBlock_pool env c pool₁ s block pindex fJustCheck hdisk,
    connectBlock_pool env c pool₂ s block pindex fJustCheck hdisk]
  cases (connectBlock env c CTxMemPool.empty fJustCheck s block pindex).2 with
  | false => simp
  | true => simp

end Independence

section Conflict

def spendState : ChainState := singleChain (minedIndex 12) 1530002000

/-- A pool that holds `tx`, with the record that the wallet makes of its image. -/
def poolWith (tx : CTransaction) : CTxMemPool :=
  { CTxMemPool.empty.addUnchecked (tx.getHash sha256d) tx with
    mapKeyImage := fun keyImage =>
      if tx.vin.any fun txin => txin.extractKeyImage == keyImage
      then some ⟨tx.getHash sha256d, 0, 5 * COIN, 0⟩ else none }

private theorem spend_onDisk : OnDisk minedSession spendIndex := by
  constructor
  · intro hash e he hpos
    have hread : minedSession.readTxIndex = minedFile.txIndex := by
      unfold minedSession minedDisk Session.readTxIndex
      simp only [TxBatch.empty, Patch.read_empty]
    rw [hread] at he
    have hmem := BlockFile.txIndex_pos minedFile hash e he
    rw [hpos] at hmem
    revert hmem
    decide +kernel
  · intro b hb
    obtain rfl := Option.some.inj hb
    decide

/-- A valid block is rejected because of a pooled transaction. -/
theorem pooledConflict_rejects :
    (connectBlock (testNode minedFile) spendState CTxMemPool.empty false minedSession spendBlock
        spendIndex).2 = true ∧
      (connectBlock (testNode minedFile) spendState (poolWith secondSpend) false minedSession spendBlock
        spendIndex).2 = false := by
  have hclaims : ¬ PoolNeutral (testNode minedFile) spendState (poolWith secondSpend) minedSession
      spendBlock := by
    simp only [minedSession, minedDisk, poolWith, spendBlock, testNode_eq_eval, minedFile_eq_eval,
      minedBlock_eq_eval, BlockFile.txIndex_eq_eval, sha256d_eq_eval]
    decide +kernel
  refine ⟨?_, ?_⟩
  · simp only [minedSession, minedDisk, spendBlock, testNode_eq_eval, minedFile_eq_eval,
      minedBlock_eq_eval, BlockFile.txIndex_eq_eval, sha256d_eq_eval]
    decide +kernel
  · exact connectBlock_rejected _ _ _ _ _ _ false spend_onDisk hclaims

/-- A pool that holds the same spend as the block changes nothing. -/
theorem pooledSpend_accepts :
    (connectBlock (testNode minedFile) spendState CTxMemPool.empty false minedSession spendBlock
        spendIndex).2 =
      (connectBlock (testNode minedFile) spendState (poolWith firstSpend) false minedSession spendBlock
        spendIndex).2 := by
  have hempty : PoolNeutral (testNode minedFile) spendState CTxMemPool.empty minedSession spendBlock := by
    simp only [minedSession, minedDisk, spendBlock, testNode_eq_eval, minedFile_eq_eval,
      minedBlock_eq_eval, BlockFile.txIndex_eq_eval, sha256d_eq_eval]
    decide +kernel
  have hsame : PoolNeutral (testNode minedFile) spendState (poolWith firstSpend) minedSession
      spendBlock := by
    simp only [minedSession, minedDisk, poolWith, spendBlock, testNode_eq_eval, minedFile_eq_eval,
      minedBlock_eq_eval, BlockFile.txIndex_eq_eval, sha256d_eq_eval]
    decide +kernel
  exact (connectBlock_pool_iff _ _ _ _ _ false _ _ spend_onDisk).mpr fun _ =>
    ⟨fun _ => hsame, fun _ => hempty⟩

end Conflict

end AliasWallet
