import AliasWallet.Core.Params
import AliasWallet.Crypto.RingSigAB

/-!
# Checking anonymous inputs (`CTransaction::CheckAnonInputs`)

`AnonView` is what the check reads of the node. The two scriptSig layouts have their own loops over
the ring members; the AB loop alone looks at `nCompromised`.
-/

namespace AliasWallet
open Lib

structure CKeyImageSpent where
  txnHash : UInt256
  inputNo : Nat
  nValue : Int64
  nBlockHeight : Int
  deriving DecidableEq, Repr

structure CAnonOutput where
  outpoint : COutPoint
  nValue : Int64
  nBlockHeight : Int
  nCompromised : UInt8
  fCoinStake : Bool
  deriving DecidableEq, Repr

/-- What `CheckAnonInputs` reads: `GetKeyImage`, `TxnHashInSystem`, `ReadAnonOutput` and the global
best height. -/
structure AnonView where
  getKeyImage : Bytes → Option CKeyImageSpent
  txnHashInSystem : UInt256 → Bool
  readAnonOutput : Bytes → Option CAnonOutput
  nBestHeight : Int

/-- The reasons for which `CheckAnonInputs` returns false, with the input and the ring member. -/
inductive AnonInputError
  | preImage
  | alreadySpent (i : Nat)
  | ringSize (i nRingSize : Nat)
  | scriptSigTooSmall (i : Nat)
  | anonOutputNotFound (i ri : Nat)
  | amountMismatch (i ri : Nat)
  | depth (i ri : Nat)
  | compromised (i ri : Nat)
  | signature (i : Nat)
  deriving DecidableEq, Repr

section PreImage

/-- The bytes that `GetTxnPreImage` hashes for one input. -/
def preImageInput (txin : CTxIn) : Bytes :=
  txin.prevout.bytes ++ slice txin.scriptSig 2 (txin.extractRingSize * EC_COMPRESSED_SIZE)

def preImageBytes (tx : CTransaction) : Bytes :=
  int32Bytes tx.nVersion ++ uint32Bytes tx.nTime ++ tx.vin.flatMap preImageInput ++
    tx.vout.flatMap CTxOut.bytes ++ uint32Bytes tx.nLockTime

/-- `GetTxnPreImage`; it fails on an input whose scriptSig cannot hold its ring. -/
def getTxnPreImage (hash : HashFn) (tx : CTransaction) : Option UInt256 :=
  if tx.vin.all fun txin =>
      decide (2 + txin.extractRingSize * EC_COMPRESSED_SIZE ≤ txin.scriptSig.length)
  then some (hash (preImageBytes tx))
  else none

end PreImage

section Layouts

/-- The layout test: the length of an AB signature for a ring of two or more. -/
def isLayoutAB (s : Bytes) (nRingSize : Nat) : Bool :=
  decide (nRingSize > 1) &&
    decide (s.length = 2 + EC_SECRET_SIZE + (EC_SECRET_SIZE + EC_COMPRESSED_SIZE) * nRingSize)

def plainPubkeys (s : Bytes) : Bytes := s.drop 2

def plainSigc (s : Bytes) (nRingSize : Nat) : Bytes := s.drop (2 + EC_COMPRESSED_SIZE * nRingSize)

def plainSigr (s : Bytes) (nRingSize : Nat) : Bytes :=
  s.drop (2 + (EC_COMPRESSED_SIZE + EC_SECRET_SIZE) * nRingSize)

def abSigC (s : Bytes) : Bytes := slice s 2 EC_SECRET_SIZE

def abSigS (s : Bytes) : Bytes := s.drop (2 + EC_SECRET_SIZE)

def abPubkeys (s : Bytes) (nRingSize : Nat) : Bytes :=
  s.drop (2 + EC_SECRET_SIZE + EC_SECRET_SIZE * nRingSize)

/-- The public keys of the ring, wherever the layout puts them. -/
def ringPubkeys (s : Bytes) (nRingSize : Nat) : Bytes :=
  if isLayoutAB s nRingSize then abPubkeys s nRingSize else plainPubkeys s

end Layouts

section Check

variable {Pt : Type} (p : ChainParams) (E : Curve Pt) (hash : HashFn) (v : AnonView)
  (tx : CTransaction)

/-- `fCoinStake || IsAnonCoinStake() ? GetAnonStakeMinConfirmations() : MIN_ANON_SPEND_DEPTH`. -/
def minBlockHeight (ao : CAnonOutput) : Int :=
  if ao.fCoinStake || tx.isAnonCoinStake then p.getAnonStakeMinConfirmations
  else MIN_ANON_SPEND_DEPTH

/-- The member rules that both loops have: the output exists, all values agree (`-1` is no value
yet), and it is deep enough. -/
def checkRingMember (i : Nat) (pPubkeys : Bytes) (ri : Nat) (nCoinValue : Int64) :
    Except AnonInputError (CAnonOutput × Int64) := do
  let some ao := v.readAnonOutput (cpubKeyBytes (slot EC_COMPRESSED_SIZE pPubkeys ri))
    | throw (.anonOutputNotFound i ri)
  if nCoinValue ≠ -1 ∧ nCoinValue ≠ ao.nValue then throw (.amountMismatch i ri)
  if ao.nBlockHeight = 0 ∨ v.nBestHeight - ao.nBlockHeight + 1 < minBlockHeight p tx ao then
    throw (.depth i ri)
  return (ao, ao.nValue)

/-- The AB loop's member rules: after fork V3 no compromised output of a regular denomination. -/
def checkRingMemberAB (i : Nat) (pPubkeys : Bytes) (ri : Nat) (nCoinValue : Int64) :
    Except AnonInputError Int64 := do
  let (ao, nCoinValue) ← checkRingMember p v tx i pPubkeys ri nCoinValue
  if p.isForkV3 tx.nTime.toNat ∧ nCoinValue ≤ p.nMaxAnonOutput ∧ ao.nCompromised > 0 then
    throw (.compromised i ri)
  return nCoinValue

/-- `CheckAnonInputAB`: the ring's value. -/
def checkAnonInputAB (txin : CTxIn) (i nRingSize : Nat) (vchImage : Bytes) :
    Except AnonInputError Int64 := do
  let s := txin.scriptSig
  let nCoinValue ← forRange nRingSize (checkRingMemberAB p v tx i (abPubkeys s nRingSize)) (-1)
  match verifyRingSignatureAB E hash (hashToEC E hash (p.isProtocolV3 v.nBestHeight)) vchImage
      nRingSize (abPubkeys s nRingSize) (abSigC s) (abSigS s) with
  | .ok () => return nCoinValue
  | .error _ => throw (.signature i)

/-- The plain branch of `CheckAnonInputs`. -/
def checkAnonInputPlain (preimage : UInt256) (txin : CTxIn) (i nRingSize : Nat) (vchImage : Bytes) :
    Except AnonInputError Int64 := do
  let s := txin.scriptSig
  if s.length < 2 + (EC_COMPRESSED_SIZE + EC_SECRET_SIZE + EC_SECRET_SIZE) * nRingSize then
    throw (.scriptSigTooSmall i)
  let nCoinValue ← forRange nRingSize
    (fun ri nCoinValue => Prod.snd <$> checkRingMember p v tx i (plainPubkeys s) ri nCoinValue) (-1)
  match verifyRingSignature E hash (hashToEC E hash (p.isProtocolV3 v.nBestHeight)) vchImage
      preimage nRingSize (plainPubkeys s) (plainSigc s nRingSize) (plainSigr s nRingSize) with
  | .ok () => return nCoinValue
  | .error _ => throw (.signature i)

/-- A key image that another transaction spent stops the input, unless `fCheckExists` asks whether
that transaction is known and it is not. -/
def keyImageFree (fCheckExists : Bool) (txin : CTxIn) : Bool :=
  match v.getKeyImage txin.extractKeyImage with
  | none => true
  | some spentKeyImage =>
    spentKeyImage.txnHash == tx.getHash hash ||
      (fCheckExists && !v.txnHashInSystem spentKeyImage.txnHash)

/-- One anonymous input: its ring's value. -/
def checkAnonInput (fCheckExists : Bool) (preimage : UInt256) (txin : CTxIn) (i : Nat) :
    Except AnonInputError Int64 := do
  let vchImage := txin.extractKeyImage
  if ¬ keyImageFree hash v tx fCheckExists txin then throw (.alreadySpent i)
  let nRingSize := txin.extractRingSize
  let (nMinRingSize, nMaxRingSize) := getRingSizeMinMax p tx.nTime.toNat
  if nRingSize < nMinRingSize ∨ nRingSize > nMaxRingSize then throw (.ringSize i nRingSize)
  if isLayoutAB txin.scriptSig nRingSize then
    checkAnonInputAB p E hash v tx txin i nRingSize vchImage
  else
    checkAnonInputPlain p E hash v tx preimage txin i nRingSize vchImage

/-- The loop of `CheckAnonInputs` over the inputs from position `i` on. -/
def checkAnonInputsFrom (fCheckExists : Bool) (preimage : UInt256) :
    List CTxIn → Nat → Int64 → Except AnonInputError Int64
  | [], _, nSumValue => .ok nSumValue
  | txin :: vin, i, nSumValue => do
    if txin.isAnonInput then
      let nCoinValue ← checkAnonInput p E hash v tx fCheckExists preimage txin i
      checkAnonInputsFrom fCheckExists preimage vin (i + 1) (nSumValue + nCoinValue)
    else
      checkAnonInputsFrom fCheckExists preimage vin (i + 1) nSumValue

/-- `CheckAnonInputs`: `nSumValue`, or why the function returns false with `fInvalid` set. -/
def checkAnonInputs (fCheckExists : Bool) : Except AnonInputError Int64 :=
  match getTxnPreImage hash tx with
  | none => .error .preImage
  | some preimage => checkAnonInputsFrom p E hash v tx fCheckExists preimage tx.vin 0 0

end Check

end AliasWallet
