import AliasWallet.Chain.State

/-!
# Transparent inputs (`FetchInputs`, `ConnectInputs`, `DisconnectInputs`)

The functions read the transaction index through a handle, `readTxIndex`, and collect their changes
in the map `mapTestPool` of the block.
-/

namespace AliasWallet
open Lib

/-- The fetched previous transactions, with their index entries. -/
abbrev MapPrevTx := UInt256 → Option (CTxIndex × CTransaction)

/-- The proposed changes of the index. -/
abbrev MapTestPool := UInt256 → Option CTxIndex

section Fetch

variable {Pt L : Type} (env : NodeEnv Pt L) (pool : CTxMemPool)
  (readTxIndex : UInt256 → Option CTxIndex) (fBlock : Bool) (tx : CTransaction)

/-- The previous transaction for an index entry; the position `(1,1,1)` refers to the pool. -/
def readTxPrev (hash : UInt256) (txindex : CTxIndex) : Option CTransaction :=
  if txindex.pos = CDiskTxPos.inMemoryPool then pool.lookup hash else env.readTx txindex.pos

/-- One round of `FetchInputs`; `fBlock` stands for `fBlock || fMiner`. -/
def fetchInput (mapTestPool : MapTestPool) (inputs : MapPrevTx) (txin : CTxIn) : Option MapPrevTx :=
  let hash := txin.prevout.hash
  if tx.skipsInput txin || (inputs hash).isSome then some inputs
  else
    match (if fBlock then mapTestPool hash else none).or (readTxIndex hash) with
    | some txindex => do
      let txPrev ← readTxPrev env pool hash txindex
      return Function.update inputs hash (some (txindex, txPrev))
    | none =>
      if fBlock then none
      else do
        let txPrev ← pool.lookup hash
        return Function.update inputs hash
          (some (CTxIndex.new CDiskTxPos.null txPrev.vout.length, txPrev))

/-- The spent output exists in the previous transaction and in its index entry. -/
def prevoutInRange (inputs : MapPrevTx) (txin : CTxIn) : Bool :=
  match inputs txin.prevout.hash with
  | some (txindex, txPrev) =>
    decide (txin.prevout.n.toNat < txPrev.vout.length ∧ txin.prevout.n.toNat < txindex.vSpent.length)
  | none => false

/-- `FetchInputs`. -/
def fetchInputs (mapTestPool : MapTestPool) : Option MapPrevTx := do
  if tx.isCoinBase then return fun _ => none
  let inputs ← tx.vin.foldlM (fetchInput env pool readTxIndex fBlock tx mapTestPool) fun _ => none
  if tx.vin.all fun txin => tx.skipsInput txin || prevoutInRange inputs txin then some inputs else none

end Fetch

/-- `GetOutputFor`. -/
def getOutputFor (inputs : MapPrevTx) (txin : CTxIn) : Option CTxOut := do
  let (_, txPrev) ← inputs txin.prevout.hash
  txPrev.vout[txin.prevout.n.toNat]?

/-- The transparent inputs. -/
def CTransaction.transparentInputs (tx : CTransaction) : List CTxIn :=
  tx.vin.filter fun txin => !tx.skipsInput txin

/-- `GetValueIn`. -/
def getValueIn (inputs : MapPrevTx) (tx : CTransaction) : Int64 :=
  if tx.isCoinBase then 0
  else (tx.transparentInputs.map fun txin =>
    ((getOutputFor inputs txin).map CTxOut.nValue).getD 0).sum

/-- `GetP2SHSigOpCount`. -/
def getP2SHSigOpCount (inputs : MapPrevTx) (tx : CTransaction) : Nat :=
  if tx.isCoinBase then 0
  else (tx.transparentInputs.map fun txin =>
    match getOutputFor inputs txin with
    | some txout =>
      if CScript.isPayToScriptHash txout.scriptPubKey
      then CScript.getSigOpCountP2SH txout.scriptPubKey txin.scriptSig else 0
    | none => 0).sum

section Connect

variable {Pt L : Type} (env : NodeEnv Pt L) (c : ChainState) (pindexBlock : CBlockIndex)
  (tx : CTransaction)

/-- The inexpensive checks of `ConnectInputs` on one input, over `nValueIn`. -/
def checkInputValue (inputs : MapPrevTx) (nValueIn : Int64) (txin : CTxIn) : Option Int64 := do
  if tx.skipsInput txin then return nValueIn
  let (txindex, txPrev) ← inputs txin.prevout.hash
  let txout ← txPrev.vout[txin.prevout.n.toNat]?
  if txin.prevout.n.toNat ≥ txindex.vSpent.length then none
  if txPrev.nTime > tx.nTime then none
  if env.p.isProtocolV3 (CBlockIndex.nHeight pindexBlock) then
    if (txPrev.isCoinBase || txPrev.isCoinStake) ∧ CBlockIndex.isConfirmedInNPrevBlocks txindex
        pindexBlock (env.p.getStakeMinConfirmations tx.nTime.toNat - 1) then none
    if txout.isEmpty then none
  let nValueIn := nValueIn + txout.nValue
  if moneyRange txout.nValue && moneyRange nValueIn then some nValueIn else none

/-- Whether `ConnectInputs` verifies scripts: not below the last checkpoint. -/
def checksScripts (fBlock : Bool) : Bool :=
  !(fBlock && decide (c.nBestHeight < env.p.totalBlocksEstimate))

/-- The second loop of `ConnectInputs` on one input: conflict, script, and the spent mark. -/
def spendInput (fBlock : Bool) (flags : ScriptFlags) (posThisTx : CDiskTxPos)
    (s : MapPrevTx × MapTestPool) (e : CTxIn × Nat) : Option (MapPrevTx × MapTestPool) := do
  let (inputs, mapTestPool) := s
  let (txin, i) := e
  if tx.skipsInput txin then return s
  let hash := txin.prevout.hash
  let n := txin.prevout.n.toNat
  let (txindex, txPrev) ← inputs hash
  let spent ← txindex.vSpent[n]?
  if ¬ spent.isNull then none
  if checksScripts env c fBlock ∧ ¬ verifySignature env.p env.C tx i flags txPrev then none
  let txindex := { txindex with vSpent := txindex.vSpent.set n posThisTx }
  return (Function.update inputs hash (some (txindex, txPrev)),
    if fBlock then Function.update mapTestPool hash (some txindex) else mapTestPool)

/-- The fee rules at the end of `ConnectInputs`. -/
def checkFees (nValueIn : Int64) : Bool :=
  tx.isCoinStake ||
    let nValueOut := tx.getValueOut
    let nTxFee := nValueIn - nValueOut
    decide (nValueOut ≤ nValueIn) && decide (0 ≤ nTxFee) && decide (CTransaction.getMinFee env.p ≤ nTxFee) &&
      moneyRange nTxFee

/-- The value of the anonymous inputs; `none` where `CheckAnonInputs` returns false. -/
def anonValueIn (view : AnonView) : Option Int64 :=
  if tx.nVersion = ANON_TXN_VERSION
  then (checkAnonInputs env.p env.E env.C.hash view tx true).toOption else some 0

/-- `ConnectInputs`: the changed `mapTestPool`. -/
def connectInputs (view : AnonView) (inputs : MapPrevTx) (mapTestPool : MapTestPool)
    (posThisTx : CDiskTxPos) (fBlock : Bool) (flags : ScriptFlags) : Option MapTestPool := do
  if tx.isCoinBase then return mapTestPool
  let nValueIn ← tx.vin.foldlM (checkInputValue env pindexBlock tx inputs) 0
  let (_, mapTestPool) ← tx.vin.zipIdx.foldlM (spendInput env c tx fBlock flags posThisTx)
    (inputs, mapTestPool)
  let nSumAnon ← anonValueIn env tx view
  if checkFees env tx (nValueIn + nSumAnon) then some mapTestPool else none

end Connect

section Disconnect

/-- One input of `DisconnectInputs`, over the batch; a missing entry is only logged. -/
def disconnectInput (txIndex : UInt256 → Option CTxIndex) (batch : Patch UInt256 CTxIndex)
    (txin : CTxIn) : Option (Patch UInt256 CTxIndex) :=
  if txin.isAnonInput then some batch
  else
    match batch.read txIndex txin.prevout.hash with
    | none => some batch
    | some txindex =>
      if txin.prevout.n.toNat ≥ txindex.vSpent.length then none
      else some (batch.write txin.prevout.hash
        { txindex with vSpent := txindex.vSpent.set txin.prevout.n.toNat CDiskTxPos.null })

/-- `DisconnectInputs`. -/
def disconnectInputs (hash : HashFn) (txIndex : UInt256 → Option CTxIndex) (tx : CTransaction)
    (batch : Patch UInt256 CTxIndex) : Option (Patch UInt256 CTxIndex) := do
  let batch ← if tx.isCoinBase then some batch
    else tx.vin.foldlM (disconnectInput txIndex) batch
  return batch.erase (tx.getHash hash)

end Disconnect

end AliasWallet
