import AliasWallet.Lib.Patch
import AliasWallet.Core.Block
import AliasWallet.Anon.CheckInputs
import AliasWallet.Script.Interpreter

/-!
# The state of a full node

What is persisted (`txdb`), the block index in memory, the memory pool, and the parts that block
connection only calls: the wallet's own records and the cache of anonymous statistics.
-/

namespace AliasWallet
open Lib

structure CDiskTxPos where
  nFile : UInt32
  nBlockPos : UInt32
  nTxPos : UInt32
  deriving DecidableEq, Repr

namespace CDiskTxPos

def null : CDiskTxPos := ⟨0xFFFFFFFF, 0, 0⟩

def isNull (pos : CDiskTxPos) : Bool := pos.nFile == 0xFFFFFFFF

/-- The position that refers to the memory pool. -/
def inMemoryPool : CDiskTxPos := ⟨1, 1, 1⟩

end CDiskTxPos

structure CTxIndex where
  pos : CDiskTxPos
  vSpent : List CDiskTxPos
  deriving DecidableEq, Repr

def CTxIndex.new (pos : CDiskTxPos) (nOutputs : Nat) : CTxIndex :=
  ⟨pos, List.replicate nOutputs CDiskTxPos.null⟩

/-- The persisted maps. -/
structure Disk where
  txIndex : UInt256 → Option CTxIndex
  keyImages : Bytes → Option CKeyImageSpent
  anonOutputs : Bytes → Option CAnonOutput
  hashBestChain : Option UInt256

/-- The batch of the handle that `SetBestChain` passes down. Key images and anonymous outputs are
never written through it. -/
structure TxBatch where
  txIndex : Patch UInt256 CTxIndex
  hashBestChain : Option UInt256

namespace TxBatch

def empty : TxBatch := ⟨Patch.empty, none⟩

/-- `TxnCommit`. -/
def commit (b : TxBatch) (d : Disk) : Disk :=
  { d with txIndex := b.txIndex.read d.txIndex, hashBestChain := b.hashBestChain.or d.hashBestChain }

end TxBatch

/-- A block in the block index. The amounts that `ConnectBlock` computes are kept apart. -/
structure BlockNode where
  hash : UInt256
  nFile : UInt32
  nBlockPos : UInt32
  nTime : UInt32
  nChainTrust : Nat
  deriving DecidableEq, Repr

/-- A `CBlockIndex*`: the block and, behind it, what `pprev` leads to; the null pointer is empty. -/
abbrev CBlockIndex := List BlockNode

namespace CBlockIndex

def nHeight (pindex : CBlockIndex) : Int := (pindex.length : Int) - 1

def getBlockHash (pindex : CBlockIndex) : UInt256 := (pindex.head?.map BlockNode.hash).getD 0

def nChainTrust (pindex : CBlockIndex) : Nat := (pindex.head?.map BlockNode.nChainTrust).getD 0

def getBlockTime (pindex : CBlockIndex) : Int := (pindex.head?.map fun b => b.nTime.toNat).getD 0

/-- `IsConfirmedInNPrevBlocks`; the first `nMaxDepth` blocks back from `pindexFrom`. -/
def isConfirmedInNPrevBlocks (txindex : CTxIndex) (pindexFrom : CBlockIndex) (nMaxDepth : Int) :
    Bool :=
  (pindexFrom.take nMaxDepth.toNat).any fun b =>
    b.nBlockPos == txindex.pos.nBlockPos && b.nFile == txindex.pos.nFile

end CBlockIndex

structure Supply where
  nMint : Int64
  nMoneySupply : Int64
  nAnonSupply : Int64
  deriving DecidableEq, Repr

/-- The block index in memory, and the clock. -/
structure ChainState where
  pindexBest : CBlockIndex
  pindexGenesisBlock : CBlockIndex
  mapBlockIndex : UInt256 → Option CBlockIndex
  pnext : UInt256 → Option UInt256
  nAdjustedTime : Int

namespace ChainState

variable (c : ChainState)

def nBestHeight : Int := CBlockIndex.nHeight c.pindexBest

def hashBestChain : UInt256 := CBlockIndex.getBlockHash c.pindexBest

/-- `IsInMainChain`. -/
def isInMainChain (pindex : CBlockIndex) : Bool :=
  (c.pnext (CBlockIndex.getBlockHash pindex)).isSome || pindex == c.pindexBest

end ChainState

structure CTxMemPool where
  mapTx : List (UInt256 × CTransaction)
  mapNextTx : COutPoint → Option UInt256
  mapKeyImage : Bytes → Option CKeyImageSpent

namespace CTxMemPool

def empty : CTxMemPool := ⟨[], fun _ => none, fun _ => none⟩

variable (m : CTxMemPool)

def lookup (hash : UInt256) : Option CTransaction := m.mapTx.lookup hash

def contains (hash : UInt256) : Bool := (m.lookup hash).isSome

/-- `addUnchecked`. -/
def addUnchecked (hash : UInt256) (tx : CTransaction) : CTxMemPool where
  mapTx := (hash, tx) :: m.mapTx.filter fun e => e.1 != hash
  mapNextTx o := if tx.vin.any fun txin => txin.prevout == o then some hash else m.mapNextTx o
  mapKeyImage := m.mapKeyImage

/-- What `remove` takes out of the maps for one transaction. -/
def eraseTx (hash : UInt256) (tx : CTransaction) : CTxMemPool where
  mapTx := m.mapTx.filter fun e => e.1 != hash
  mapNextTx o := if tx.vin.any fun txin => txin.prevout == o then none else m.mapNextTx o
  mapKeyImage k :=
    if tx.nVersion == ANON_TXN_VERSION &&
      tx.vin.any fun txin => txin.isAnonInput && txin.extractKeyImage == k
    then none else m.mapKeyImage k

/-- `remove(tx, false)`. -/
def remove (hash : HashFn) (tx : CTransaction) : CTxMemPool :=
  if m.contains (tx.getHash hash) then m.eraseTx (tx.getHash hash) tx else m

/-- `remove(tx, true)`: the spenders of the outputs first. The depth is bounded by the pool. -/
def removeRecursive (hash : HashFn) : Nat → CTxMemPool → CTransaction → CTxMemPool
  | 0, m, _ => m
  | n + 1, m, tx =>
    let txid := tx.getHash hash
    if m.contains txid then
      let m := (List.range tx.vout.length).foldl (fun m i =>
        match (m.mapNextTx ⟨txid, i.toUInt32⟩).bind m.lookup with
        | some spender => removeRecursive hash n m spender
        | none => m) m
      m.eraseTx txid tx
    else m

/-- `removeConflicts`. -/
def removeConflicts (hash : HashFn) (tx : CTransaction) : CTxMemPool :=
  tx.vin.foldl (fun m txin =>
    match (m.mapNextTx txin.prevout).bind m.lookup with
    | some txConflict =>
      if txConflict = tx then m else removeRecursive hash (m.mapTx.length + 1) m txConflict
    | none => m) m

/-- `AcceptToMemoryPool`. `fRest` is the verdict of the tests that read more than the transaction and the
maps: whether it is standard and not in `txdb` yet, and whether its inputs, its fee and its signatures
pass. -/
def acceptToMemoryPool (p : ChainParams) (hash : HashFn) (tx : CTransaction) (fRest : Bool) :
    CTxMemPool :=
  if tx.checkTransaction p && !tx.isCoinBase && !tx.isCoinStake && !m.contains (tx.getHash hash) &&
    (tx.vin.all fun txin => (m.mapNextTx txin.prevout).isNone) && fRest
  then m.addUnchecked (tx.getHash hash) tx else m

end CTxMemPool

/-- The wallet's own records and the cache of anonymous statistics, as block connection uses them.
What they do with a transaction or a block is left open. -/
structure WalletOps (L : Type) where
  readOldOutputLink : L → Bytes → Option Bytes
  /-- `ReadOwnedAnonOutput`: the outpoint of the record. -/
  readOwnedAnonOutput : L → Bytes → Option COutPoint
  /-- `mapWallet.find`: the number of outputs of the transaction. -/
  findWalletTx : L → UInt256 → Option Nat
  /-- `CacheAnonStats` where the cache is stale. -/
  cacheAnonStats : L → Disk → Int → L
  /-- `AddToWalletIfInvolvingMe`; the flag says whether `ProcessAnonTransaction` succeeded. -/
  addToWallet : L → CTransaction → Bool → L
  updateAnonStats : L → Int → L
  /-- `UndoAnonTransaction` and `DisableTransaction`; the flag is the result of the former. -/
  undo : L → CTransaction → Bool → L
  /-- `RemoveAnonStats`. -/
  removeAnonStats : L → Int → Option L
  /-- The state after `TxnAbort`, from those at `TxnBegin` and now. -/
  abort : L → L → L
  /-- What the last tests of `AcceptToMemoryPool` say of a transaction that was disconnected. -/
  acceptToMemoryPool : L → CTxMemPool → CTransaction → Bool

/-- What a node is built on: parameters, primitives, block files and its wallet. -/
structure NodeEnv (Pt L : Type) where
  p : ChainParams
  E : Curve Pt
  C : ScriptCrypto
  scryptBlockHash : Bytes → UInt256
  /-- The block that the file holds at a position. -/
  readBlock : UInt32 → UInt32 → Option CBlock
  readTx : CDiskTxPos → Option CTransaction
  wallet : WalletOps L

namespace NodeEnv

variable {Pt L : Type} (env : NodeEnv Pt L)

def H : BlockHash := ⟨env.C.hash, env.scryptBlockHash⟩

def txid (tx : CTransaction) : UInt256 := tx.getHash env.C.hash

/-- `CBlock::ReadFromDisk(pindex)`. -/
def readFromDisk (pindex : CBlockIndex) : Option CBlock := do
  let b ← pindex.head?
  let block ← env.readBlock b.nFile b.nBlockPos
  if (block.isProofOfStake || checkProofOfWork env.p (block.getHash env.H) block.nBits) &&
    block.getHash env.H == b.hash then some block else none

/-- `GetDepthInMainChainFromIndex`. -/
def getDepthInMainChain (c : ChainState) (txindex : CTxIndex) : Int :=
  match env.readBlock txindex.pos.nFile txindex.pos.nBlockPos with
  | none => 0
  | some block =>
    match c.mapBlockIndex (block.getHash env.H) with
    | none => 0
    | some pindex =>
      if c.isInMainChain pindex then 1 + c.nBestHeight - CBlockIndex.nHeight pindex else 0

/-- `TxnHashInSystem`; `readTxIndex` is that of the handle. -/
def txnHashInSystem (c : ChainState) (pool : CTxMemPool) (readTxIndex : UInt256 → Option CTxIndex)
    (txnHash : UInt256) : Bool :=
  pool.contains txnHash ||
    match readTxIndex txnHash with
    | some txindex => decide (env.getDepthInMainChain c txindex > 0)
    | none => false

end NodeEnv

/-- `GetKeyImage`: the database first, then the pool. -/
def getKeyImage (disk : Disk) (pool : CTxMemPool) (keyImage : Bytes) : Option CKeyImageSpent :=
  (disk.keyImages keyImage).or (pool.mapKeyImage keyImage)

/-- What `CheckAnonInputs` sees through a handle. -/
def NodeEnv.anonView {Pt L : Type} (env : NodeEnv Pt L) (c : ChainState) (pool : CTxMemPool)
    (disk : Disk) (readTxIndex : UInt256 → Option CTxIndex) : AnonView where
  getKeyImage := getKeyImage disk pool
  txnHashInSystem := env.txnHashInSystem c pool readTxIndex
  readAnonOutput := disk.anonOutputs
  nBestHeight := c.nBestHeight

end AliasWallet
