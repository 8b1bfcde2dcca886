import AliasWallet.Chain.ConnectBlock

/-!
# The best chain (`SetBestChain`, `SetBestChainInner`, `Reorganize`)

The index changes of a call wait in one batch; the block index in memory follows after the commit.
The best height that the checks read is that of the old tip until the call ends.
-/

namespace AliasWallet
open Lib

structure Node (L : Type) where
  disk : Disk
  pool : CTxMemPool
  chain : ChainState
  loc : L
  supply : UInt256 → Supply

/-- `pprev->pnext = pnext`. -/
def ChainState.setNext (c : ChainState) (pprev : CBlockIndex) (pnext : Option UInt256) : ChainState :=
  match pprev with
  | [] => c
  | b :: _ => { c with pnext := Function.update c.pnext b.hash pnext }

namespace Node

variable {L : Type} (n : Node L)

/-- `TxnBegin`. -/
def txnBegin : Session L := ⟨n.disk, TxBatch.empty, n.loc, n.supply⟩

/-- `TxnAbort`: what was written past the batch stays. -/
def txnAbort (wallet : WalletOps L) (s : Session L) : Node L :=
  { n with disk := s.disk, loc := wallet.abort n.loc s.loc, supply := s.supply }

/-- `WriteHashBestChain` and `TxnCommit`. -/
def txnCommit (s : Session L) (hash : UInt256) : Node L :=
  { n with
    disk := TxBatch.commit { s.batch with hashBestChain := some hash } s.disk
    loc := s.loc
    supply := s.supply }

end Node

section Fork

/-- The search for the fork; the inner loop takes `plonger` down to the height of `pfork`. -/
def findFork : CBlockIndex → CBlockIndex → Option CBlockIndex
  | [], _ => none
  | b :: pprev, plonger =>
    let plonger := plonger.drop (plonger.length - (pprev.length + 1))
    if plonger = b :: pprev then some plonger else findFork pprev plonger

/-- The blocks from `pindex` down to the fork, which is left out. -/
def branchAbove (pindex pfork : CBlockIndex) : List CBlockIndex :=
  pindex.tails.take (pindex.length - pfork.length)

/-- `pindexIntermediate`, and `vpindexSecondary` in the order of connection. -/
def postponed (nBestChainTrust : Nat) : CBlockIndex → CBlockIndex × List CBlockIndex
  | [] => ([], [])
  | b :: pprev =>
    if pprev ≠ [] ∧ CBlockIndex.nChainTrust pprev > nBestChainTrust then
      let (pindexIntermediate, vpindexSecondary) := postponed nBestChainTrust pprev
      (pindexIntermediate, vpindexSecondary ++ [b :: pprev])
    else (b :: pprev, [])

end Fork

section BestChain

variable {Pt L : Type} (env : NodeEnv Pt L)

/-- Reads one block after the other and hands it on, up to the first failure. -/
def forEachBlock (f : Session L → CBlock → CBlockIndex → Session L × Bool) :
    List CBlockIndex → Session L → Session L × Bool
  | [], s => (s, true)
  | pindex :: rest, s =>
    match env.readFromDisk pindex with
    | none => (s, false)
    | some block =>
      match f s block pindex with
      | (s, true) => forEachBlock f rest s
      | (s, false) => (s, false)

/-- `vResurrect`. -/
def resurrected (vDisconnect : List CBlockIndex) : List CTransaction :=
  vDisconnect.reverse.flatMap fun pindex =>
    if CBlockIndex.nHeight pindex > env.p.totalBlocksEstimate then
      ((env.readFromDisk pindex).elim [] CBlock.vtx).filter fun tx => !(tx.isCoinBase || tx.isCoinStake)
    else []

/-- `vDelete`. -/
def deleted (vConnect : List CBlockIndex) : List CTransaction :=
  vConnect.flatMap fun pindex => (env.readFromDisk pindex).elim [] CBlock.vtx

/-- The pool after a reorganisation. -/
def reorganizePool (loc : L) (pool : CTxMemPool) (vDisconnect vConnect : List CBlockIndex) :
    CTxMemPool :=
  let pool := (resurrected env vDisconnect).foldl (fun pool tx =>
    pool.acceptToMemoryPool env.p env.C.hash tx (env.wallet.acceptToMemoryPool loc pool tx)) pool
  (deleted env vConnect).foldl (fun pool tx =>
    (pool.remove env.C.hash tx).removeConflicts env.C.hash tx) pool

/-- The pointers `pnext` after a reorganisation. -/
def reorganizeNext (c : ChainState) (vDisconnect vConnect : List CBlockIndex) : ChainState :=
  vConnect.foldl (fun c pindex => c.setNext pindex.tail (some (CBlockIndex.getBlockHash pindex)))
    (vDisconnect.foldl (fun c pindex => c.setNext pindex.tail none) c)

/-- The two loops of `Reorganize` over the blocks. -/
def switchBranch (n : Node L) (vDisconnect vConnect : List CBlockIndex) : Session L × Bool :=
  match forEachBlock env (disconnectBlock env n.pool) vDisconnect n.txnBegin with
  | (s, true) => forEachBlock env (connectBlock env n.chain n.pool false) vConnect s
  | (s, false) => (s, false)

/-- `Reorganize`, with the `TxnAbort` of its caller. -/
def reorganize (n : Node L) (pindexNew : CBlockIndex) : Node L × Bool :=
  match findFork n.chain.pindexBest pindexNew with
  | none => (n.txnAbort env.wallet n.txnBegin, false)
  | some pfork =>
    let vDisconnect := branchAbove n.chain.pindexBest pfork
    let vConnect := (branchAbove pindexNew pfork).reverse
    match switchBranch env n vDisconnect vConnect with
    | (s, false) => (n.txnAbort env.wallet s, false)
    | (s, true) =>
      let n := n.txnCommit s (CBlockIndex.getBlockHash pindexNew)
      ({ n with
        chain := reorganizeNext n.chain vDisconnect vConnect
        pool := reorganizePool env n.loc n.pool vDisconnect vConnect }, true)

/-- `SetBestChainInner`. -/
def setBestChainInner (n : Node L) (block : CBlock) (pindexNew : CBlockIndex) : Node L × Bool :=
  match connectBlock env n.chain n.pool false n.txnBegin block pindexNew with
  | (s, false) => (n.txnAbort env.wallet s, false)
  | (s, true) =>
    let n := n.txnCommit s (block.getHash env.H)
    ({ n with
      chain := n.chain.setNext pindexNew.tail (some (CBlockIndex.getBlockHash pindexNew))
      pool := block.vtx.foldl (CTxMemPool.remove · env.C.hash) n.pool }, true)

/-- The postponed blocks; a failure only ends the loop. -/
def connectPostponed : List CBlockIndex → Node L → Node L
  | [], n => n
  | pindex :: rest, n =>
    match env.readFromDisk pindex with
    | none => n
    | some block =>
      match setBestChainInner env n block pindex with
      | (n, true) => connectPostponed rest n
      | (n, false) => n

/-- The end of `SetBestChain`: `pindexNew` is the best block. -/
def newBest (n : Node L) (pindexNew : CBlockIndex) : Node L :=
  { n with
    chain := { n.chain with pindexBest := pindexNew }
    loc := env.wallet.cacheAnonStats n.loc n.disk (CBlockIndex.nHeight pindexNew) }

/-- `SetBestChain`. -/
def setBestChain (n : Node L) (block : CBlock) (pindexNew : CBlockIndex) : Node L × Bool :=
  let hash := block.getHash env.H
  if n.chain.pindexGenesisBlock = [] ∧ hash = env.p.hashGenesisBlock then
    let n := { n with
      disk := { n.disk with hashBestChain := some hash }
      chain := { n.chain with pindexGenesisBlock := pindexNew } }
    (newBest env n pindexNew, true)
  else if block.hashPrevBlock = n.chain.hashBestChain then
    match setBestChainInner env n block pindexNew with
    | (n, true) => (newBest env n pindexNew, true)
    | (n, false) => (n, false)
  else
    let (pindexIntermediate, vpindexSecondary) :=
      postponed (CBlockIndex.nChainTrust n.chain.pindexBest) pindexNew
    match reorganize env n pindexIntermediate with
    | (n, true) => (newBest env (connectPostponed env vpindexSecondary n) pindexNew, true)
    | (n, false) => (n, false)

end BestChain

end AliasWallet
