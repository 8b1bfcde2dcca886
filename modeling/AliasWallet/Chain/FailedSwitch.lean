import AliasWallet.Chain.BestChain
import AliasWallet.Chain.ConnectSpec
import AliasWallet.Chain.ConcreteNode
import AliasWallet.Wallet.AnonSpec

/-!
# A failed chain switch

`TxnAbort` drops the index changes, but the wallet has already written the key images and anonymous
outputs of the blocks that were handed to it. After a failure the two maps are what these calls left.
-/

namespace AliasWallet
open Lib

/-- A block handed to the wallet. -/
inductive WalletCall
  | disconnect (block : CBlock) (pindex : CBlockIndex)
  | connect (block : CBlock) (pindex : CBlockIndex)

def WalletCall.block : WalletCall → CBlock
  | .disconnect block _ => block
  | .connect block _ => block

section Calls

variable {Pt L : Type} (env : NodeEnv Pt L) (c : ChainState) (pool : CTxMemPool)

/-- What the wallet does with a block, on the database and its own records. -/
def runCall (s : Disk × L) : WalletCall → Disk × L
  | .disconnect block pindex =>
    let (disk, loc) := block.vtx.foldl (syncDisconnect env pool) s
    (disk, (env.wallet.removeAnonStats loc (CBlockIndex.nHeight pindex)).getD loc)
  | .connect block pindex =>
    let loc := env.wallet.cacheAnonStats s.2 s.1 (CBlockIndex.nHeight pindex.tail)
    let (disk, loc) := block.vtx.foldl
      (syncConnect env c pool (getBlockHeightFromHash c (block.getHash env.H))) (s.1, loc)
    (disk, env.wallet.updateAnonStats loc (CBlockIndex.nHeight pindex))

/-- The call that `DisconnectBlock` makes, once its inputs are disconnected. -/
def disconnectCall (s : Session L) (block : CBlock) (pindex : CBlockIndex) : List WalletCall :=
  match block.vtx.reverse.foldlM (fun b tx => disconnectInputs env.C.hash s.disk.txIndex tx b)
      s.batch.txIndex with
  | none => []
  | some _ => [.disconnect block pindex]

/-- The call that `ConnectBlock` makes, once all is checked. -/
def connectCall (s : Session L) (block : CBlock) (pindex : CBlockIndex) : List WalletCall :=
  if (connectBlock env c pool false s block pindex).2 then [.connect block pindex] else []

/-- The calls of a loop over blocks, up to and with the one in which it fails. -/
def loopCalls (f : Session L → CBlock → CBlockIndex → Session L × Bool)
    (calls : Session L → CBlock → CBlockIndex → List WalletCall) :
    List CBlockIndex → Session L → List WalletCall
  | [], _ => []
  | pindex :: rest, s =>
    match env.readFromDisk pindex with
    | none => []
    | some block =>
      calls s block pindex ++
        match f s block pindex with
        | (s, true) => loopCalls f calls rest s
        | (_, false) => []

/-- The blocks that the wallet got from the loops of `Reorganize`. -/
def switchCalls (n : Node L) (vDisconnect vConnect : List CBlockIndex) : List WalletCall :=
  let f := disconnectBlock env n.pool
  loopCalls env f (disconnectCall env) vDisconnect n.txnBegin ++
    match forEachBlock env f vDisconnect n.txnBegin with
    | (s, true) => loopCalls env (connectBlock env n.chain n.pool false)
        (connectCall env n.chain n.pool) vConnect s
    | (_, false) => []

/-- The blocks that the wallet got from a call of `SetBestChain` that fails. -/
def handedOver (n : Node L) (block : CBlock) (pindexNew : CBlockIndex) : List WalletCall :=
  if block.hashPrevBlock = n.chain.hashBestChain then []
  else
    let pindexIntermediate := (postponed (CBlockIndex.nChainTrust n.chain.pindexBest) pindexNew).1
    match findFork n.chain.pindexBest pindexIntermediate with
    | none => []
    | some pfork =>
      switchCalls env n (branchAbove n.chain.pindexBest pfork)
        (branchAbove pindexIntermediate pfork).reverse

/-- The database after the calls. -/
def replay (n : Node L) (calls : List WalletCall) : Disk :=
  (calls.foldl (runCall env n.chain n.pool) (n.disk, n.loc)).1

end Calls

section Loops

variable {Pt L : Type} (env : NodeEnv Pt L) (c : ChainState) (pool : CTxMemPool)

/-- A step over a block does to the database what its wallet calls do, and to the wallet's own
records as well, if it succeeds. -/
def MadeOfCalls (f : Session L → CBlock → CBlockIndex → Session L × Bool)
    (calls : Session L → CBlock → CBlockIndex → List WalletCall) : Prop :=
  ∀ s block pindex,
    (f s block pindex).1.disk =
        ((calls s block pindex).foldl (runCall env c pool) (s.disk, s.loc)).1 ∧
      ((f s block pindex).2 = true → (f s block pindex).1.loc =
        ((calls s block pindex).foldl (runCall env c pool) (s.disk, s.loc)).2)

theorem disconnectBlock_calls : MadeOfCalls env c pool (disconnectBlock env pool) (disconnectCall env) := by
  intro s block pindex
  simp only [disconnectBlock, disconnectCall]
  cases block.vtx.reverse.foldlM (fun b tx => disconnectInputs env.C.hash s.disk.txIndex tx b)
      s.batch.txIndex with
  | none => simp
  | some txIndex =>
    simp only [List.foldl_cons, List.foldl_nil, runCall]
    cases env.wallet.removeAnonStats (block.vtx.foldl (syncDisconnect env pool) (s.disk, s.loc)).2
        (CBlockIndex.nHeight pindex) with
    | none => simp
    | some loc => simp

theorem connectBlock_calls :
    MadeOfCalls env c pool (connectBlock env c pool false) (connectCall env c pool) := by
  intro s block pindex
  unfold connectCall
  rcases connectBlock_cases env c pool s block pindex with ⟨t, -, hconnect⟩ | ⟨loc, hconnect⟩
  · rw [hconnect]
    simp [runCall, recordBlock]
  · rw [hconnect]
    simp

/-- A loop does to the database what its wallet calls do. -/
theorem forEachBlock_calls (f : Session L → CBlock → CBlockIndex → Session L × Bool)
    (calls : Session L → CBlock → CBlockIndex → List WalletCall) (hf : MadeOfCalls env c pool f calls)
    (l : List CBlockIndex) (s : Session L) :
    (forEachBlock env f l s).1.disk =
        ((loopCalls env f calls l s).foldl (runCall env c pool) (s.disk, s.loc)).1 ∧
      ((forEachBlock env f l s).2 = true → (forEachBlock env f l s).1.loc =
        ((loopCalls env f calls l s).foldl (runCall env c pool) (s.disk, s.loc)).2) := by
  induction l generalizing s with
  | nil => simp [forEachBlock, loopCalls]
  | cons pindex rest ih =>
    unfold forEachBlock loopCalls
    cases env.readFromDisk pindex with
    | none => simp
    | some block =>
      have hone := hf s block pindex
      cases hround : f s block pindex with
      | mk s₁ fOk =>
        rw [hround] at hone
        cases fOk with
        | false => simpa [hround] using hone.1
        | true =>
          have hstate : (s₁.disk, s₁.loc) =
              (calls s block pindex).foldl (runCall env c pool) (s.disk, s.loc) :=
            Prod.ext hone.1 (hone.2 rfl)
          simp only [hround, List.foldl_append, ← hstate]
          exact ih s₁

/-- The calls leave the transaction index alone. -/
theorem runCalls_txIndex (calls : List WalletCall) (s : Disk × L) :
    (calls.foldl (runCall env c pool) s).1.txIndex = s.1.txIndex := by
  induction calls generalizing s with
  | nil => rfl
  | cons call calls ih =>
    rw [List.foldl_cons, ih]
    cases call with
    | disconnect block pindex => exact foldl_syncDisconnect_txIndex env pool block.vtx s
    | connect block pindex => exact foldl_syncConnect_txIndex env c pool _ block.vtx _

end Loops

section Failure

variable {Pt L : Type} (env : NodeEnv Pt L) (n : Node L)

/-- The key images, the anonymous outputs and the transaction index are those of before. -/
structure SamePersisted (d d' : Disk) : Prop where
  keyImages : d'.keyImages = d.keyImages
  anonOutputs : d'.anonOutputs = d.anonOutputs
  txIndex : d'.txIndex = d.txIndex

theorem switchBranch_disk (vDisconnect vConnect : List CBlockIndex) :
    (switchBranch env n vDisconnect vConnect).1.disk =
      replay env n (switchCalls env n vDisconnect vConnect) := by
  have hdisconnect := forEachBlock_calls env n.chain n.pool _ _
    (disconnectBlock_calls env n.chain n.pool) vDisconnect n.txnBegin
  simp only [switchBranch, switchCalls, replay]
  cases hloop : forEachBlock env (disconnectBlock env n.pool) vDisconnect n.txnBegin with
  | mk s fOk =>
    rw [hloop] at hdisconnect
    cases fOk with
    | false => simpa [Node.txnBegin] using hdisconnect.1
    | true =>
      have hstate : (s.disk, s.loc) = (loopCalls env (disconnectBlock env n.pool) (disconnectCall env)
          vDisconnect n.txnBegin).foldl (runCall env n.chain n.pool) (n.disk, n.loc) :=
        Prod.ext hdisconnect.1 (hdisconnect.2 rfl)
      rw [List.foldl_append, ← hstate]
      exact (forEachBlock_calls env n.chain n.pool _ _ (connectBlock_calls env n.chain n.pool)
        vConnect s).1

theorem setBestChainInner_failed_disk (block : CBlock) (pindexNew : CBlockIndex)
    (hfail : (setBestChainInner env n block pindexNew).2 = false) :
    (setBestChainInner env n block pindexNew).1.disk = n.disk := by
  unfold setBestChainInner at hfail ⊢
  rcases connectBlock_cases env n.chain n.pool n.txnBegin block pindexNew with
    ⟨t, -, hconnect⟩ | ⟨loc, hconnect⟩
  · simp [hconnect] at hfail
  · rw [hconnect]
    rfl

theorem reorganize_failed_disk (pindexNew pfork : CBlockIndex)
    (hfork : findFork n.chain.pindexBest pindexNew = some pfork)
    (hfail : (reorganize env n pindexNew).2 = false) :
    (reorganize env n pindexNew).1.disk = replay env n (switchCalls env n
      (branchAbove n.chain.pindexBest pfork) (branchAbove pindexNew pfork).reverse) := by
  have hswitch := switchBranch_disk env n (branchAbove n.chain.pindexBest pfork)
    (branchAbove pindexNew pfork).reverse
  simp only [reorganize, hfork] at hfail ⊢
  cases hloops : switchBranch env n (branchAbove n.chain.pindexBest pfork)
      (branchAbove pindexNew pfork).reverse with
  | mk s fOk =>
    rw [hloops] at hswitch
    cases fOk with
    | true => simp [hloops] at hfail
    | false => exact hswitch

/-- Nothing is handed over before a direct extension is checked. -/
theorem handedOver_of_extends (block : CBlock) (pindexNew : CBlockIndex)
    (hextends : block.hashPrevBlock = n.chain.hashBestChain) :
    handedOver env n block pindexNew = [] := if_pos hextends

/-- Blocks without anonymous transactions leave no trace. -/
theorem runCalls_of_transparent (calls : List WalletCall) (s : Disk × L)
    (hplain : ∀ call ∈ calls, ∀ tx ∈ call.block.vtx, tx.nVersion ≠ ANON_TXN_VERSION) :
    (calls.foldl (runCall env n.chain n.pool) s).1 = s.1 := by
  induction calls generalizing s with
  | nil => rfl
  | cons call calls ih =>
    rw [List.foldl_cons, ih _ fun c hc => hplain c (List.mem_cons_of_mem call hc)]
    have hcall := hplain call List.mem_cons_self
    cases call with
    | disconnect block pindex =>
      exact foldl_syncDisconnect_transparent env n.pool block.vtx s hcall
    | connect block pindex =>
      exact foldl_syncConnect_transparent env n.chain n.pool _ block.vtx _ hcall

/-- The database after a failed call is what the wallet calls made of it. -/
theorem setBestChain_failed_disk (block : CBlock) (pindexNew : CBlockIndex)
    (hfail : (setBestChain env n block pindexNew).2 = false) :
    (setBestChain env n block pindexNew).1.disk = replay env n (handedOver env n block pindexNew) := by
  simp only [setBestChain, handedOver] at hfail ⊢
  by_cases hgenesis : n.chain.pindexGenesisBlock = [] ∧ block.getHash env.H = env.p.hashGenesisBlock
  · simp [hgenesis] at hfail
  · by_cases hextends : block.hashPrevBlock = n.chain.hashBestChain
    · simp only [hgenesis, hextends, if_false, if_true] at hfail ⊢
      have hinner := setBestChainInner_failed_disk env n block pindexNew
      cases hcall : setBestChainInner env n block pindexNew with
      | mk n' fOk =>
        rw [hcall] at hinner
        cases fOk with
        | true => simp [hcall] at hfail
        | false => exact hinner rfl
    · simp only [hgenesis, hextends, if_false] at hfail ⊢
      have hreorganize := reorganize_failed_disk env n
        (postponed (CBlockIndex.nChainTrust n.chain.pindexBest) pindexNew).1
      cases hcall : reorganize env n
          (postponed (CBlockIndex.nChainTrust n.chain.pindexBest) pindexNew).1 with
      | mk n' fOk =>
        rw [hcall] at hreorganize
        cases fOk with
        | true => simp [hcall] at hfail
        | false =>
          cases hfork : findFork n.chain.pindexBest
              (postponed (CBlockIndex.nChainTrust n.chain.pindexBest) pindexNew).1 with
          | some pfork => exact hreorganize pfork hfork rfl
          | none =>
            rw [reorganize, hfork] at hcall
            cases hcall
            rfl

end Failure

section Scene

/-- A block on height 12 whose coinbase pays too much, and a block on top of it. -/
def overpaidBlock : CBlock := minedBlock (minedHash 12) 13 1 1 2 []

def overpaidHash : UInt256 := 0x76c3879c9dfdc1ca1e445ecb21ccbbe6907eecb5fba99823364f83d4455a566f

def overpaidIndex : CBlockIndex := minedNode overpaidHash 100008 13 :: minedIndex 12

def overpaidNext : CBlock := minedBlock overpaidHash 14 1 0 2 []

def overpaidNextIndex : CBlockIndex :=
  minedNode 0x2811b03b624ab58d1105c8dbf99370ab33741ac59cc9b9605e41e36d5f650793 102008 14 :: overpaidIndex

def switchFile : BlockFile :=
  minedFile ++ [(minedPos 13, spendBlock), (100008, overpaidBlock), (102008, overpaidNext)]

def coinImage : Bytes := beBytes 33 0x034bc2d2f82f5b3e751e64c20972e5d8800b8cb4d5194cb3ad76cb04bc3af3d71b

/-- The node after block 13 with the spend of the coin. -/
def spentNode : Node Unit where
  disk := { minedDisk with
    txIndex := BlockFile.txIndex (minedFile ++ [(minedPos 13, spendBlock)])
    keyImages := fun k => if k = coinImage then some ⟨firstSpend.getHash sha256d, 0, 5 * COIN, 13⟩ else none }
  pool := CTxMemPool.empty
  chain := singleChain spendIndex 1530002000
  loc := ()
  supply _ := ⟨0, 0, 0⟩

/-- The node at height 12. -/
def unspentNode : Node Unit where
  disk := minedDisk
  pool := CTxMemPool.empty
  chain := singleChain (minedIndex 12) 1530002000
  loc := ()
  supply _ := ⟨0, 0, 0⟩

end Scene

end AliasWallet
