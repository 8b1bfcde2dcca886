import AliasWallet.Chain.State

/-!
# Recording and undoing anonymous transactions (`wallet.cpp`)

`ProcessAnonTransaction` runs in a batch of its own, which `AddToWalletIfInvolvingMe` commits or
drops at once. `UndoAnonTransaction` writes without a batch.
-/

namespace AliasWallet
open Lib

/-- The key images and anonymous outputs, persisted and pooled. -/
structure AnonStore where
  disk : Disk
  pool : CTxMemPool

namespace AnonStore

def writeAnonOutput (st : AnonStore) (pk : Bytes) (ao : CAnonOutput) : AnonStore :=
  { st with disk := { st.disk with
      anonOutputs := Function.update st.disk.anonOutputs pk (some ao) } }

/-- `WriteKeyImage`, or `insertKeyImage` for a transaction outside a block. -/
def writeKeyImage (st : AnonStore) (fInBlock : Bool) (vchImage : Bytes) (ski : CKeyImageSpent) :
    AnonStore :=
  if fInBlock then
    { st with disk := { st.disk with
        keyImages := Function.update st.disk.keyImages vchImage (some ski) } }
  else
    { st with pool := { st.pool with
        mapKeyImage := Function.update st.pool.mapKeyImage vchImage (some ski) } }

end AnonStore

section Process

variable {Pt L : Type} (env : NodeEnv Pt L) (c : ChainState) (loc : L) (fInBlock : Bool)
  (tx : CTransaction)

/-- `GetBlockHeightFromHash`. -/
def getBlockHeightFromHash (blockHash : UInt256) : Int :=
  ((c.mapBlockIndex blockHash).map CBlockIndex.nHeight).getD 0

/-- The old key image that `IsAnonCoinCompromised` computes; an error leaves it empty. -/
def oldKeyImage (pk : Bytes) : Bytes :=
  match getOldKeyImage env.E env.C.hash (cpubKeyBytes pk) [] with
  | .ok image => image
  | .error _ => []

/-- `IsAnonCoinCompromised`: the coin is spent openly, by this input or before. -/
def isAnonCoinCompromised (st : AnonStore) (pk vchSpentImage : Bytes) : Bool :=
  vchSpentImage == oldKeyImage env pk ||
    (getKeyImage st.disk st.pool (oldKeyImage env pk)).isSome

/-- One ring member; unlike `CheckAnonInputs` the depth does not look at `fCoinStake`. -/
def processRingMember (vchImage pPubkeys : Bytes) (nRingSize ri : Nat) (s : AnonStore × Int64) :
    Option (AnonStore × Int64) := do
  let (st, nCoinValue) := s
  let pk := slot EC_COMPRESSED_SIZE pPubkeys ri
  let key := cpubKeyBytes pk
  let ao ← st.disk.anonOutputs key
  let fCompromised := isAnonCoinCompromised env st pk vchImage
  let ao := if fCompromised then { ao with nCompromised := 1 } else ao
  let st := if fCompromised then st.writeAnonOutput key ao else st
  if fCompromised ∧ env.p.isProtocolV3 c.nBestHeight then none
  if nCoinValue ≠ -1 ∧ nCoinValue ≠ ao.nValue then none
  let minBlockHeight :=
    if tx.isAnonCoinStake then env.p.getAnonStakeMinConfirmations else MIN_ANON_SPEND_DEPTH
  if ao.nBlockHeight = 0 ∨ c.nBestHeight - ao.nBlockHeight + 1 < minBlockHeight then none
  if fInBlock ∧ nRingSize = 1 then
    return (st.writeAnonOutput key { ao with nCompromised := 1 }, ao.nValue)
  else
    return (st, ao.nValue)

/-- The members in order, from `nCoinValue = -1`. -/
def processRing (vchImage pPubkeys : Bytes) (nRingSize : Nat) (st : AnonStore) :
    Option (AnonStore × Int64) :=
  (List.range nRingSize).foldlM
    (fun s ri => processRingMember env c fInBlock tx vchImage pPubkeys nRingSize ri s) (st, -1)

/-- The image is recorded for another input whose transaction is known. -/
def spentElsewhere (st : AnonStore) (vchImage : Bytes) (i : Nat) : Bool :=
  match getKeyImage st.disk st.pool vchImage with
  | none => false
  | some ski =>
    !(ski.txnHash == env.txid tx && ski.inputNo == i) &&
      env.txnHashInSystem c st.pool st.disk.txIndex ski.txnHash

/-- An own coin must be in `mapWallet`. -/
def ownCoinKnown (vchImage : Bytes) : Bool :=
  match env.wallet.readOwnedAnonOutput loc vchImage with
  | none => true
  | some outpoint =>
    match env.wallet.findWalletTx loc outpoint.hash with
    | none => false
    | some nOutputs => decide (outpoint.n.toNat < nOutputs)

/-- One anonymous input of `ProcessAnonTransaction`. -/
def processAnonInput (nBlockHeight : Int) (txin : CTxIn) (i : Nat) (st : AnonStore) :
    Option AnonStore := do
  let s := txin.scriptSig
  let vchImage := txin.extractKeyImage
  if spentElsewhere env c tx st vchImage i then none
  let vchNewImage := (env.wallet.readOldOutputLink loc vchImage).getD vchImage
  if ¬ ownCoinKnown env loc vchNewImage then none
  let nRingSize := txin.extractRingSize
  let (nMinRingSize, nMaxRingSize) := getRingSizeMinMax env.p tx.nTime.toNat
  if nRingSize < nMinRingSize ∨ nRingSize > nMaxRingSize then none
  if ¬ isLayoutAB s nRingSize ∧
      s.length < 2 + (EC_COMPRESSED_SIZE + EC_SECRET_SIZE + EC_SECRET_SIZE) * nRingSize then none
  let (st, nCoinValue) ←
    processRing env c fInBlock tx vchImage (ringPubkeys s nRingSize) nRingSize st
  return st.writeKeyImage fInBlock vchImage
    { txnHash := env.txid tx, inputNo := i, nValue := nCoinValue, nBlockHeight }

/-- One anonymous output of `ProcessAnonTransaction`. -/
def processAnonOutput (nBlockHeight : Int) (txout : CTxOut) (i : Nat) (st : AnonStore) :
    Option AnonStore :=
  let key := cpubKeyBytes txout.extractAnonPk
  match st.disk.anonOutputs key with
  | some ao =>
    if fInBlock then
      some (st.writeAnonOutput key { ao with nBlockHeight, fCoinStake := tx.isCoinStake })
    else none
  | none =>
    some (st.writeAnonOutput key
      { outpoint := ⟨env.txid tx, i.toUInt32⟩, nValue := txout.nValue, nBlockHeight
        nCompromised := 0, fCoinStake := tx.isCoinStake })

/-- `ProcessAnonTransaction` on the persisted and pooled records. -/
def processAnonTransaction (nBlockHeight : Int) (st : AnonStore) : Option AnonStore := do
  let st ← tx.vin.zipIdx.foldlM (fun st e =>
    if e.1.isAnonInput then processAnonInput env c loc fInBlock tx nBlockHeight e.1 e.2 st
    else some st) st
  tx.vout.zipIdx.foldlM (fun st e =>
    if e.1.isAnonOutput then processAnonOutput env fInBlock tx nBlockHeight e.1 e.2 st
    else some st) st

end Process

section Undo

variable {Pt L : Type} (env : NodeEnv Pt L) (pool : CTxMemPool) (loc : L) (tx : CTransaction)

/-- One input of `UndoAnonTransaction`; the flag is false where the function returns. -/
def undoAnonInput (txin : CTxIn) (disk : Disk) : Disk × Bool :=
  let vchImage := txin.extractKeyImage
  match getKeyImage disk pool vchImage with
  | none => (disk, true)
  | some ski =>
    if ski.txnHash ≠ env.txid tx then (disk, true)
    else ({ disk with keyImages := Function.update disk.keyImages vchImage none },
      ownCoinKnown env loc vchImage)

def undoAnonInputs : List CTxIn → Disk → Disk × Bool
  | [], disk => (disk, true)
  | txin :: vin, disk =>
    if txin.isAnonInput then
      match undoAnonInput env pool loc tx txin disk with
      | (disk, true) => undoAnonInputs vin disk
      | (disk, false) => (disk, false)
    else undoAnonInputs vin disk

def undoAnonOutputs : List CTxOut → Disk → Disk × Bool
  | [], disk => (disk, true)
  | txout :: vout, disk =>
    if txout.isAnonOutput then
      let key := cpubKeyBytes txout.extractAnonPk
      match disk.anonOutputs key with
      | none => (disk, false)
      | some _ =>
        undoAnonOutputs vout
          { disk with anonOutputs := Function.update disk.anonOutputs key none }
    else undoAnonOutputs vout disk

/-- `UndoAnonTransaction` on the persisted records. -/
def undoAnonTransaction (disk : Disk) : Disk × Bool :=
  match undoAnonInputs env pool loc tx tx.vin disk with
  | (disk, true) => undoAnonOutputs tx.vout disk
  | (disk, false) => (disk, false)

end Undo

section Sync

variable {Pt L : Type} (env : NodeEnv Pt L) (c : ChainState) (pool : CTxMemPool)

/-- `SyncWithWallets(tx, this, true)` for a transaction of a connected block. -/
def syncConnect (nBlockHeight : Int) (s : Disk × L) (tx : CTransaction) : Disk × L :=
  if tx.nVersion = ANON_TXN_VERSION then
    match processAnonTransaction env c s.2 true tx nBlockHeight ⟨s.1, pool⟩ with
    | some st => (st.disk, env.wallet.addToWallet s.2 tx true)
    | none => (s.1, env.wallet.addToWallet s.2 tx false)
  else (s.1, env.wallet.addToWallet s.2 tx false)

/-- `SyncWithWallets(tx, this, false, false)` for a transaction of a disconnected block. -/
def syncDisconnect (s : Disk × L) (tx : CTransaction) : Disk × L :=
  if tx.nVersion = ANON_TXN_VERSION then
    let (disk, fOk) := undoAnonTransaction env pool s.2 tx s.1
    (disk, env.wallet.undo s.2 tx fOk)
  else (s.1, env.wallet.undo s.2 tx false)

end Sync

end AliasWallet
