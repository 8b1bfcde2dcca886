import AliasWallet.Crypto.Curve

/-!
# Transactions (`core.h`, `main.h`)

Outpoints, inputs and outputs with the machine types of the source, their serialisation, and the
anonymous inputs and outputs that hide in their scripts.
-/

namespace AliasWallet
open Lib

structure COutPoint where
  hash : UInt256
  n : UInt32
  deriving DecidableEq, Repr

structure CTxIn where
  prevout : COutPoint
  scriptSig : Bytes
  nSequence : UInt32
  deriving DecidableEq, Repr

structure CTxOut where
  nValue : Int64
  scriptPubKey : Bytes
  deriving DecidableEq, Repr

structure CTransaction where
  nVersion : Int32
  nTime : UInt32
  vin : List CTxIn
  vout : List CTxOut
  nLockTime : UInt32
  deriving DecidableEq, Repr

def OP_RETURN : UInt8 := 0x6a

def OP_ANON_MARKER : UInt8 := 0xb9

def MIN_ANON_OUT_SIZE : Nat := 1 + 1 + 1 + 33 + 1 + 33

def MIN_ANON_IN_SIZE : Nat := 2 + (33 + 32 + 32)

def ANON_TXN_VERSION : Int32 := 1000

section Serialisation

def uint32Bytes (n : UInt32) : Bytes := leBytes 4 n.toNat

def int32Bytes (n : Int32) : Bytes := leBytes 4 n.toBitVec.toNat

def int64Bytes (n : Int64) : Bytes := leBytes 8 n.toBitVec.toNat

/-- `WriteCompactSize`. -/
def compactSize (n : Nat) : Bytes :=
  if n < 253 then [UInt8.ofNat n]
  else if n ≤ 0xFFFF then 253 :: leBytes 2 n
  else if n ≤ 0xFFFFFFFF then 254 :: leBytes 4 n
  else 255 :: leBytes 8 n

def scriptBytes (s : Bytes) : Bytes := compactSize s.length ++ s

def COutPoint.bytes (o : COutPoint) : Bytes := uint256Bytes o.hash ++ uint32Bytes o.n

def CTxIn.bytes (txin : CTxIn) : Bytes :=
  txin.prevout.bytes ++ scriptBytes txin.scriptSig ++ uint32Bytes txin.nSequence

def CTxOut.bytes (txout : CTxOut) : Bytes :=
  int64Bytes txout.nValue ++ scriptBytes txout.scriptPubKey

def CTransaction.bytes (tx : CTransaction) : Bytes :=
  int32Bytes tx.nVersion ++ uint32Bytes tx.nTime ++
    (compactSize tx.vin.length ++ tx.vin.flatMap CTxIn.bytes) ++
    (compactSize tx.vout.length ++ tx.vout.flatMap CTxOut.bytes) ++ uint32Bytes tx.nLockTime

def CTransaction.getHash (hash : HashFn) (tx : CTransaction) : UInt256 := hash tx.bytes

end Serialisation

namespace COutPoint

def isNull (o : COutPoint) : Bool := o.hash == 0 && o.n == 0xFFFFFFFF

end COutPoint

namespace CTxIn

def isFinal (txin : CTxIn) : Bool := txin.nSequence == 0xFFFFFFFF

def isAnonInput (txin : CTxIn) : Bool :=
  decide (txin.scriptSig.length ≥ MIN_ANON_IN_SIZE) && txin.scriptSig[0]? == some OP_RETURN &&
    txin.scriptSig[1]? == some OP_ANON_MARKER

/-- `ExtractKeyImage`: the 32 bytes of the prevout's hash and the low byte of its index. -/
def extractKeyImage (txin : CTxIn) : Bytes :=
  uint256Bytes txin.prevout.hash ++ [UInt8.ofNat (txin.prevout.n.toNat % 256)]

def extractRingSize (txin : CTxIn) : Nat := txin.prevout.n.toNat / 2 ^ 16 % 2 ^ 16

end CTxIn

namespace CTxOut

def isEmpty (txout : CTxOut) : Bool := txout.nValue == 0 && txout.scriptPubKey.isEmpty

def isAnonOutput (txout : CTxOut) : Bool :=
  decide (txout.scriptPubKey.length ≥ MIN_ANON_OUT_SIZE) &&
    txout.scriptPubKey[0]? == some OP_RETURN && txout.scriptPubKey[1]? == some OP_ANON_MARKER

def extractAnonPk (txout : CTxOut) : Bytes := slice txout.scriptPubKey 3 EC_COMPRESSED_SIZE

end CTxOut

namespace CTransaction

def isCoinBase (tx : CTransaction) : Bool :=
  match tx.vin with
  | [txin] => txin.prevout.isNull && !tx.vout.isEmpty
  | _ => false

def isCoinStake (tx : CTransaction) : Bool :=
  match tx.vin, tx.vout with
  | txin :: _, txout :: _ :: _ => !txin.prevout.isNull && txout.isEmpty
  | _, _ => false

def isAnonCoinStake (tx : CTransaction) : Bool :=
  tx.nVersion == ANON_TXN_VERSION && tx.isCoinStake

/-- The anonymous inputs with their positions. -/
def anonInputs (tx : CTransaction) : List (CTxIn × Nat) :=
  tx.vin.zipIdx.filter fun p => p.1.isAnonInput

end CTransaction

/-- `CPubKey::GetLen`: the header byte decides how many bytes count. -/
def pubKeyLen (chHeader : UInt8) : Nat :=
  if chHeader = 2 ∨ chHeader = 3 then 33
  else if chHeader = 4 ∨ chHeader = 6 ∨ chHeader = 7 then 65
  else 0

/-- The bytes under which a `CPubKey` filled with `pk` is stored. A header of an uncompressed key
reaches past the 33 bytes that were filled in; the model reads zeros there. -/
def cpubKeyBytes (pk : Bytes) : Bytes :=
  match pk.head? with
  | some h => (pk ++ List.replicate 65 0).take (pubKeyLen h)
  | none => []

end AliasWallet
