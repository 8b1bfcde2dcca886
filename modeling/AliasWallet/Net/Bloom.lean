import AliasWallet.Lib.BitSet
import AliasWallet.Lib.Murmur
import AliasWallet.Script.Interpreter
import AliasWallet.Script.Solver

/-!
# Bloom filters (`bloom.cpp`)

A peer sends a filter, adds keys to it, and asks for the transactions that are relevant to it. Every access to the bytes
of the filter is checked here, and so is the divisor of the hash.
-/

namespace AliasWallet
open Lib

def MAX_BLOOM_FILTER_SIZE : Nat := 36000

def MAX_HASH_FUNCS : Nat := 50

def BLOOM_UPDATE_ALL : UInt8 := 1

def BLOOM_UPDATE_P2PUBKEY_ONLY : UInt8 := 2

def BLOOM_UPDATE_MASK : UInt8 := 3

def BLOOM_ACCEPT_STEALTH : UInt8 := 4

structure CBloomFilter where
  vData : Bytes
  isFull : Bool
  isEmpty : Bool
  nHashFuncs : UInt32
  nTweak : UInt32
  nFlags : UInt8
  deriving DecidableEq, Repr

/-- `HasStealthOutput`: an output starts with `OP_RETURN` and an operand of the size of a public key. -/
def CTransaction.hasStealthOutput (tx : CTransaction) : Bool :=
  tx.vout.any fun txout =>
    if tx.nVersion = ANON_TXN_VERSION ∧ txout.isAnonOutput then false
    else
      match CScript.getOp txout.scriptPubKey with
      | none => false
      | some op =>
        if op.opcode ≠ OP_RETURN then false
        else
          match CScript.getOp op.rest with
          | none => false
          | some op => op.vch.length == EC_COMPRESSED_SIZE

namespace CBloomFilter

/-- The sizes that a peer may send. -/
def isWithinSizeConstraints (f : CBloomFilter) : Bool :=
  decide (f.vData.length ≤ MAX_BLOOM_FILTER_SIZE) && decide (f.nHashFuncs.toNat ≤ MAX_HASH_FUNCS)

/-- `Hash`; `none` where the divisor is zero. -/
def hash (f : CBloomFilter) (nHashNum : UInt32) (vDataToHash : Bytes) : Option UInt32 :=
  if f.vData.length * 8 = 0 then none
  else some (UInt32.ofNat ((murmurHash3 (nHashNum * 0xFBA4C795 + f.nTweak) vDataToHash).toNat % (f.vData.length * 8)))

/-- `UpdateEmptyFull`. -/
def updateEmptyFull (f : CBloomFilter) : CBloomFilter :=
  { f with
    isFull := f.vData.all (· == 0xff)
    isEmpty := f.vData.all (· == 0) }

/-- One round of the loop of `insert`. -/
def insertBit (vKey : Bytes) (f : CBloomFilter) (i : Nat) : Option CBloomFilter := do
  let nIndex ← f.hash (UInt32.ofNat i) vKey
  let vData ← setBit f.vData nIndex
  return { f with vData }

/-- `insert`. -/
def insert (f : CBloomFilter) (vKey : Bytes) : Option CBloomFilter :=
  if f.isFull then some f
  else do
    let f ← (List.range f.nHashFuncs.toNat).foldlM (insertBit vKey) f
    return { f with isEmpty := false }

/-- The loop of `contains`. -/
def containsLoop (f : CBloomFilter) (vKey : Bytes) : List Nat → Option Bool
  | [] => some true
  | i :: is => do
    let nIndex ← f.hash (UInt32.ofNat i) vKey
    if ← testBit f.vData nIndex then f.containsLoop vKey is else return false

/-- `contains`. -/
def contains (f : CBloomFilter) (vKey : Bytes) : Option Bool :=
  if f.isFull then some true
  else if f.isEmpty then some false
  else f.containsLoop vKey (List.range f.nHashFuncs.toNat)

/-- What is changed while a transaction is scanned. `inserted` holds the outpoints that were inserted; it is for the
proofs. -/
structure Scan where
  fFound : Bool
  filter : CBloomFilter
  inserted : List COutPoint

variable (hash160 : Bytes → Bytes) (txHash : HashFn)

/-- The update behind the first match in a script. -/
def updateFound (scriptPubKey : CScript) (outpoint : COutPoint) (scan : Scan) : Option Scan :=
  let matched := scan.filter.nFlags &&& BLOOM_UPDATE_MASK
  if matched = BLOOM_UPDATE_ALL then do
    return ⟨scan.fFound, ← scan.filter.insert outpoint.bytes, scan.inserted ++ [outpoint]⟩
  else if matched = BLOOM_UPDATE_P2PUBKEY_ONLY then
    let solved := solver scriptPubKey []
    if solved.result ∧ (solved.typeRet = .TX_PUBKEY ∨ solved.typeRet = .TX_MULTISIG) then do
      return ⟨scan.fFound, ← scan.filter.insert outpoint.bytes, scan.inserted ++ [outpoint]⟩
    else some scan
  else some scan

/-- The test of an operand of the size of a public key, as in a coinstake. -/
def foundHash160 (f : CBloomFilter) (data : Bytes) (fFound : Bool) : Option Bool :=
  if data.length = 33 then
    let dataHash160 := hash160 data
    if dataHash160.length ≠ 0 then do return (← f.contains dataHash160) || fFound else some fFound
  else some fFound

/-- The tests of one operand of an output script. -/
def foundIn (f : CBloomFilter) (data : Bytes) (fFound : Bool) : Option Bool := do
  let fFound ← foundHash160 hash160 f data fFound
  if !fFound && decide (data.length ≠ 0) then f.contains data else return fFound

/-- The loop over the operations of an output script. -/
def scanOutput (scriptPubKey : CScript) (outpoint : COutPoint) : List ScriptOp → Scan → Option Scan
  | [], scan => some scan
  | op :: ops, scan => do
    let fFound ← foundIn hash160 scan.filter op.vch scan.fFound
    if fFound then updateFound scriptPubKey outpoint { scan with fFound }
    else scanOutput scriptPubKey outpoint ops { scan with fFound }

/-- The loop over the operations of an input script. -/
def scanInputOps (f : CBloomFilter) : List ScriptOp → Option Bool
  | [] => some false
  | op :: ops =>
    if op.vch.length ≠ 0 then do
      if ← f.contains op.vch then return true else scanInputOps f ops
    else scanInputOps f ops

/-- The loop over the inputs. -/
def scanInputs (f : CBloomFilter) : List CTxIn → Option Bool
  | [] => some false
  | txin :: vin => do
    if ← f.contains txin.prevout.bytes then return true
    else if ← scanInputOps f (CScript.ops txin.scriptSig).1 then return true
    else scanInputs f vin

/-- The loop over the outputs. -/
def scanOutputs (hash : UInt256) : List (CTxOut × Nat) → Scan → Option Scan
  | [], scan => some scan
  | (txout, i) :: vout, scan => do
    let scan ← scanOutput hash160 txout.scriptPubKey ⟨hash, UInt32.ofNat i⟩ (CScript.ops txout.scriptPubKey).1 scan
    scanOutputs hash vout scan

/-- The test of the transaction itself. -/
def foundTx (f : CBloomFilter) (tx : CTransaction) : Option Bool :=
  if f.nFlags &&& BLOOM_ACCEPT_STEALTH ≠ 0 ∧ tx.hasStealthOutput = true then some true
  else f.contains (uint256Bytes (tx.getHash txHash))

/-- `IsRelevantAndUpdate`. -/
def isRelevantAndUpdate (f : CBloomFilter) (tx : CTransaction) : Option Scan :=
  if f.isFull then some ⟨true, f, []⟩
  else if f.isEmpty then some ⟨false, f, []⟩
  else do
    let fFound ← foundTx txHash f tx
    let scan ← scanOutputs hash160 (tx.getHash txHash) tx.vout.zipIdx ⟨fFound, f, []⟩
    if scan.fFound then return scan
    else return { scan with fFound := ← scanInputs scan.filter tx.vin }

end CBloomFilter

section Messages

/-- `filterload`: a filter that is too large is kept as well. -/
def filterLoad (thinStealth : Bool) (filter : CBloomFilter) : CBloomFilter :=
  let filter :=
    if !filter.isWithinSizeConstraints then filter
    else if filter.nFlags &&& BLOOM_ACCEPT_STEALTH ≠ 0 ∧ ¬thinStealth then
      { filter with nFlags := filter.nFlags &&& ~~~BLOOM_ACCEPT_STEALTH }
    else filter
  filter.updateEmptyFull

/-- `filteradd`, where the peer has a filter. -/
def filterAdd (f : CBloomFilter) (vData : Bytes) : Option CBloomFilter :=
  if vData.length > MAX_SCRIPT_ELEMENT_SIZE then some f
  else do
    if ← f.contains vData then return f
    else return (← f.insert vData).updateEmptyFull

end Messages

end AliasWallet
