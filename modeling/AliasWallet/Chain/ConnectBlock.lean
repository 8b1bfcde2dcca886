import AliasWallet.Chain.ConnectInputs
import AliasWallet.Wallet.AnonTransaction

/-!
# Connecting and disconnecting a block

`ConnectBlock` first checks every transaction without writing, then writes the index changes into
the batch and hands the transactions to the wallet, which persists key images and anonymous outputs
on its own. `DisconnectBlock` takes both back.
-/

namespace AliasWallet
open Lib

/-- What `SetBestChain` carries through its calls. -/
structure Session (L : Type) where
  disk : Disk
  batch : TxBatch
  loc : L
  supply : UInt256 → Supply

namespace Session

variable {L : Type} (s : Session L)

/-- `ReadTxIndex` through the handle of the session. -/
def readTxIndex : UInt256 → Option CTxIndex := s.batch.txIndex.read s.disk.txIndex

end Session

/-- The running totals of `ConnectBlock`. -/
structure BlockTotals where
  mapQueuedChanges : MapTestPool
  nTxPos : UInt32
  nFees : Int64
  nAnonIn : Int64
  nAnonOut : Int64
  nValueIn : Int64
  nValueOut : Int64
  nStakeReward : Int64
  nSigOps : Nat

def GetSizeOfCompactSize (n : Nat) : Nat := (compactSize n).length

/-- The flags that `ConnectBlock` passes to `ConnectInputs`. -/
def blockScriptFlags (p : ChainParams) (nHeight : Int) : ScriptFlags :=
  let fV3 := p.isProtocolV3 nHeight
  { p2sh := false, discourageUpgradableNops := false, nullDummy := fV3, strictEnc := fV3
    allowEmptySig := fV3, fixHashType := fV3, checkLockTimeVerify := fV3 }

section Rewards

variable (p : ChainParams)

/-- `GetProofOfWorkReward`. -/
def getProofOfWorkReward (nHeight : Int) : Int64 :=
  if nHeight = 1 then (if p.fTestNet then 2000000 else 20000000) * COIN else 0

/-- `IsForkV4SupplyIncrease`; a chain without a second block has no time to compare. -/
def isForkV4SupplyIncrease (pindexPrev : CBlockIndex) : Bool :=
  decide (CBlockIndex.getBlockTime pindexPrev ≥ p.nForkV4Time) &&
    decide (CBlockIndex.getBlockTime pindexPrev.tail < p.nForkV4Time)

def supplyIncrease : Int64 := (if p.fTestNet then 300000 else 3000000) * COIN

/-- `GetProofOfStakeReward`. -/
def getProofOfStakeReward (pindexPrev : CBlockIndex) (nMoneySupply nCoinAge nFees : Int64) : Int64 :=
  let nSubsidy :=
    if isForkV4SupplyIncrease p pindexPrev then supplyIncrease p
    else if p.isProtocolV3 (CBlockIndex.nHeight pindexPrev) then
      if p.isForkV3 (CBlockIndex.getBlockTime pindexPrev) then p.nStakeReward
      else nMoneySupply / COIN * COIN_YEAR_REWARD / (365 * 24 * (60 * 60 / 64))
    else nCoinAge * COIN_YEAR_REWARD * 33 / (365 * 33 + 8)
  nSubsidy + nFees

/-- `GetProofOfAnonStakeReward`. -/
def getProofOfAnonStakeReward (pindexPrev : CBlockIndex) (nFees : Int64) : Int64 :=
  (if isForkV4SupplyIncrease p pindexPrev then supplyIncrease p else p.nAnonStakeReward) + nFees

end Rewards

section Check

variable {Pt L : Type} (env : NodeEnv Pt L) (c : ChainState) (pool : CTxMemPool) (s : Session L)
  (block : CBlock) (pindex : CBlockIndex) (fJustCheck : Bool)

/-- The rule against overwriting a transaction that is not completely spent. -/
def overwritesUnspent (hashTx : UInt256) : Bool :=
  match s.readTxIndex hashTx with
  | some txindexOld => txindexOld.vSpent.any CDiskTxPos.isNull
  | none => false

def posThisTx (nTxPos : UInt32) : CDiskTxPos :=
  match pindex with
  | b :: _ => ⟨b.nFile, b.nBlockPos, nTxPos⟩
  | [] => ⟨0, 0, nTxPos⟩

/-- The view of the anonymous records that the checks of this session have. -/
def sessionView : AnonView := env.anonView c pool s.disk s.readTxIndex

/-- The part of a round for a transaction with inputs. -/
def connectTxInputs (tx : CTransaction) (pos : CDiskTxPos) (t : BlockTotals) :
    Option BlockTotals := do
  let inputs ← fetchInputs env pool s.readTxIndex true tx t.mapQueuedChanges
  let nSigOps := t.nSigOps + getP2SHSigOpCount inputs tx
  if nSigOps > MAX_BLOCK_SIGOPS then none
  let nTxAnonOut := if tx.nVersion = ANON_TXN_VERSION
    then ((tx.vout.filter CTxOut.isAnonOutput).map CTxOut.nValue).sum else 0
  let nTxAnonIn ← anonValueIn env tx (sessionView env c pool s)
  let nTxValueIn := getValueIn inputs tx + nTxAnonIn
  let nTxValueOut := tx.getValueOut
  let mapQueuedChanges ← connectInputs env c pindex tx (sessionView env c pool s) inputs
    t.mapQueuedChanges pos true (blockScriptFlags env.p (CBlockIndex.nHeight pindex))
  return { t with
    mapQueuedChanges
    nSigOps
    nAnonIn := t.nAnonIn + nTxAnonIn
    nAnonOut := t.nAnonOut + nTxAnonOut
    nValueIn := t.nValueIn + nTxValueIn
    nValueOut := t.nValueOut + nTxValueOut
    nFees := if tx.isCoinStake then t.nFees else t.nFees + (nTxValueIn - nTxValueOut)
    nStakeReward := if tx.isCoinStake then nTxValueOut - nTxValueIn else t.nStakeReward }

/-- One round of the loop of `ConnectBlock`. -/
def connectTx (t : BlockTotals) (tx : CTransaction) : Option BlockTotals := do
  let hashTx := env.txid tx
  if overwritesUnspent s hashTx then none
  let nSigOps := t.nSigOps + tx.getLegacySigOpCount
  if nSigOps > MAX_BLOCK_SIGOPS then none
  let pos := posThisTx pindex t.nTxPos
  let t := { t with nSigOps, nTxPos := if fJustCheck then t.nTxPos else t.nTxPos + tx.size.toUInt32 }
  let t ← if tx.isCoinBase then some { t with nValueOut := t.nValueOut + tx.getValueOut }
    else connectTxInputs env c pool s pindex tx pos t
  return { t with
    mapQueuedChanges := Function.update t.mapQueuedChanges hashTx
      (some (CTxIndex.new pos tx.vout.length)) }

def initTotals : BlockTotals where
  mapQueuedChanges _ := none
  nTxPos :=
    if fJustCheck then 1
    else (posThisTx pindex 0).nBlockPos + 80 + (GetSizeOfCompactSize block.vtx.length).toUInt32
  nFees := 0
  nAnonIn := 0
  nAnonOut := 0
  nValueIn := 0
  nValueOut := 0
  nStakeReward := 0
  nSigOps := 0

/-- The coin age of one input in cent-seconds; `none` where `GetCoinAge` fails. -/
def coinAgeOf (pindexPrev : CBlockIndex) (tx : CTransaction) (txin : CTxIn) : Option Int :=
  match s.readTxIndex txin.prevout.hash with
  | none => some 0
  | some txindex =>
    match env.readTx txindex.pos with
    | none => some 0
    | some txPrev => do
      -- `ReadFromDisk` with an outpoint also fails where the output does not exist
      let some txout := txPrev.vout[txin.prevout.n.toNat]? | some 0
      if tx.nTime < txPrev.nTime then none
      let nAge : Int := txout.nValue.toInt * (tx.nTime.toNat - txPrev.nTime.toNat : Nat) / CENT.toInt
      if env.p.isProtocolV3 (CBlockIndex.nHeight pindexPrev) then
        if CBlockIndex.isConfirmedInNPrevBlocks txindex pindexPrev
            (env.p.getStakeMinConfirmations tx.nTime.toNat - 1) then some 0 else some nAge
      else
        let block ← env.readBlock txindex.pos.nFile txindex.pos.nBlockPos
        if block.nTime.toNat + env.p.nStakeMinAge > tx.nTime.toNat then some 0 else some nAge

/-- `GetCoinAge` in coin-days. -/
def getCoinAge (pindexPrev : CBlockIndex) (tx : CTransaction) : Option Int64 :=
  if tx.isCoinBase then some 0
  else do
    let ages ← tx.vin.mapM (coinAgeOf env s pindexPrev tx)
    return Int64.ofInt (ages.sum * CENT.toInt / COIN.toInt / (24 * 60 * 60))

/-- The reward rules of a staked block. -/
def checkStakeReward (tx1 : CTransaction) (t : BlockTotals) : Bool :=
  let pindexPrev := pindex.tail
  let nCoinAge := if env.p.isProtocolV3 (CBlockIndex.nHeight pindexPrev) then some 0
    else getCoinAge env s pindexPrev tx1
  match nCoinAge with
  | none => false
  | some nCoinAge =>
    let nMoneySupply := (s.supply (CBlockIndex.getBlockHash pindexPrev)).nMoneySupply
    let nCalculatedStakeReward :=
      if block.isProofOfAnonStake then getProofOfAnonStakeReward env.p pindexPrev t.nFees
      else getProofOfStakeReward env.p pindexPrev nMoneySupply nCoinAge t.nFees
    let fSupplyIncrease := isForkV4SupplyIncrease env.p pindexPrev
    let scriptPubKey :=
      if fSupplyIncrease then env.p.supplyIncreaseScript else env.p.devContributionScript
    let fContribution := fSupplyIncrease ||
      (env.p.isForkV2 block.nTime.toNat && decide (CBlockIndex.nHeight pindex % 6 = 0))
    decide (t.nStakeReward ≤ nCalculatedStakeReward) &&
      (!fContribution || (tx1.vout.drop 2).any fun txout =>
        txout.scriptPubKey == scriptPubKey && decide (txout.nValue ≥ nCalculatedStakeReward))

/-- The reward rules of `ConnectBlock`. -/
def checkReward (t : BlockTotals) : Bool :=
  match block.vtx with
  | tx0 :: rest =>
    if block.isProofOfStake then
      match rest with
      | tx1 :: _ => checkStakeReward env s block pindex tx1 t
      | [] => false
    else decide (tx0.getValueOut ≤ getProofOfWorkReward env.p (CBlockIndex.nHeight pindex))
  | [] => false

/-- The checks of `ConnectBlock`, which write nothing: the totals, or `none` where it returns
false. -/
def checkTransactions : Option BlockTotals := do
  let t ← block.vtx.foldlM (connectTx env c pool s pindex fJustCheck)
    (initTotals block pindex fJustCheck)
  if checkReward env s block pindex t then some t else none

end Check

section Connect

variable {Pt L : Type} (env : NodeEnv Pt L) (c : ChainState) (pool : CTxMemPool)

/-- The amounts that `ConnectBlock` stores in the block index. -/
def connectSupply (supply : UInt256 → Supply) (pindex : CBlockIndex) (t : BlockTotals) :
    UInt256 → Supply :=
  let prev : Supply := match pindex.tail with
    | [] => ⟨0, 0, 0⟩
    | pprev => supply (CBlockIndex.getBlockHash pprev)
  Function.update supply (CBlockIndex.getBlockHash pindex)
    { nMint := t.nValueOut - t.nValueIn + t.nFees
      nMoneySupply := prev.nMoneySupply + t.nValueOut - t.nValueIn
      nAnonSupply := prev.nAnonSupply + t.nAnonOut - t.nAnonIn }

/-- The session after the checks: batch, wallet and statistics. -/
def recordBlock (s : Session L) (block : CBlock) (pindex : CBlockIndex) (t : BlockTotals) :
    Session L :=
  let nBlockHeight := getBlockHeightFromHash c (block.getHash env.H)
  let (disk, loc) := block.vtx.foldl (syncConnect env c pool nBlockHeight) (s.disk, s.loc)
  { disk
    batch := { s.batch with txIndex := s.batch.txIndex.writeAll t.mapQueuedChanges }
    loc := env.wallet.updateAnonStats loc (CBlockIndex.nHeight pindex)
    supply := connectSupply s.supply pindex t }

/-- `ConnectBlock`. -/
def connectBlock (fJustCheck : Bool) (s : Session L) (block : CBlock) (pindex : CBlockIndex) :
    Session L × Bool :=
  if ¬ checkBlock env.p env.H c.nAdjustedTime c.nBestHeight (!fJustCheck) (!fJustCheck) block then
    (s, false)
  else
    let s := { s with loc :=
      env.wallet.cacheAnonStats s.loc s.disk (CBlockIndex.nHeight pindex.tail) }
    match checkTransactions env c pool s block pindex fJustCheck with
    | none => (s, false)
    | some t =>
      if fJustCheck then ({ s with supply := connectSupply s.supply pindex t }, true)
      else (recordBlock env c pool s block pindex t, true)

/-- `DisconnectBlock`. -/
def disconnectBlock (s : Session L) (block : CBlock) (pindex : CBlockIndex) : Session L × Bool :=
  match block.vtx.reverse.foldlM (fun b tx => disconnectInputs env.C.hash s.disk.txIndex tx b)
      s.batch.txIndex with
  | none => (s, false)
  | some txIndex =>
    let (disk, loc) := block.vtx.foldl (syncDisconnect env pool) (s.disk, s.loc)
    let s := { s with disk, loc, batch := { s.batch with txIndex } }
    match env.wallet.removeAnonStats loc (CBlockIndex.nHeight pindex) with
    | none => (s, false)
    | some loc => ({ s with loc }, true)

end Connect

end AliasWallet
