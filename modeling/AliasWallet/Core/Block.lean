import AliasWallet.Core.Params
import AliasWallet.Script.Opcodes

/-!
# Blocks and the checks without context (`main.h`, `main.cpp`)

`CheckTransaction` and `CheckBlock`, which need nothing but the transaction or block, the clock and
the best height.
-/

namespace AliasWallet
open Lib

structure CBlock where
  nVersion : Int32
  hashPrevBlock : UInt256
  hashMerkleRoot : UInt256
  nTime : UInt32
  nBits : UInt32
  nNonce : UInt32
  vtx : List CTransaction
  vchBlockSig : Bytes
  deriving DecidableEq, Repr

def MAX_BLOCK_SIZE : Nat := 1000000

def MAX_BLOCK_SIZE_GEN : Nat := MAX_BLOCK_SIZE / 2

def MAX_BLOCK_SIGOPS : Nat := MAX_BLOCK_SIZE / 50

def MAX_MONEY : Int64 := 0x7FFFFFFFFFFFFFFF

def moneyRange (nValue : Int64) : Bool := decide (0 ≤ nValue ∧ nValue ≤ MAX_MONEY)

/-- The two hashes of block headers. -/
structure BlockHash where
  hash : HashFn
  scryptBlockHash : Bytes → UInt256

namespace CTransaction

variable (tx : CTransaction)

def size : Nat := tx.bytes.length

/-- `GetValueOut`; past `CheckTransaction` its range tests hold. -/
def getValueOut : Int64 := (tx.vout.map CTxOut.nValue).sum

def getLegacySigOpCount : Nat :=
  (tx.vin.map fun txin => CScript.getSigOpCount txin.scriptSig false).sum +
    (tx.vout.map fun txout => CScript.getSigOpCount txout.scriptPubKey false).sum

/-- An input that is skipped where transparent inputs are processed. -/
def skipsInput (txin : CTxIn) : Bool := tx.nVersion == ANON_TXN_VERSION && txin.isAnonInput

/-- The outpoint that `CheckTransaction` holds against duplicates: of an anonymous input only the
key image. -/
def uniqueOutPoint (txin : CTxIn) : COutPoint :=
  if tx.skipsInput txin then ⟨txin.prevout.hash, txin.prevout.n &&& 0xFF⟩ else txin.prevout

/-- The loop over the output values, with the sum so far. -/
def checkOutputs (fMarkers : Bool) : List CTxOut → Int64 → Bool
  | [], _ => true
  | txout :: vout, nValueOut =>
    (fMarkers || !txout.isEmpty) && decide (0 ≤ txout.nValue) && decide (txout.nValue ≤ MAX_MONEY) &&
      moneyRange (nValueOut + txout.nValue) && checkOutputs fMarkers vout (nValueOut + txout.nValue)

/-- The check of the anonymous outputs of an anonymous transaction. -/
def checkAnonOutputs (p : ChainParams) : Bool :=
  let anonOuts := tx.vout.filter CTxOut.isAnonOutput
  (anonOuts.all fun txout =>
      !(p.isForkV3 tx.nTime.toNat && decide (txout.nValue > p.nMaxAnonOutput))) &&
    decide (anonOuts.map fun txout => cpubKeyBytes txout.extractAnonPk).Nodup

/-- `CheckTransaction`. -/
def checkTransaction (p : ChainParams) : Bool :=
  !tx.vin.isEmpty && !tx.vout.isEmpty && decide (tx.size ≤ MAX_BLOCK_SIZE) &&
    checkOutputs (tx.isCoinBase || tx.isCoinStake) tx.vout 0 &&
    decide (tx.vin.map tx.uniqueOutPoint).Nodup &&
    (tx.nVersion != ANON_TXN_VERSION || tx.checkAnonOutputs p) &&
    if tx.isCoinBase then
      match tx.vin with
      | txin :: _ => decide (2 ≤ txin.scriptSig.length ∧ txin.scriptSig.length ≤ 100)
      | [] => false
    else tx.vin.all fun txin => !txin.prevout.isNull

/-- `GetMinFee()` with its default arguments `nBlockSize = 1`, `mode = GMF_BLOCK`, `nBytes = 0`. -/
def getMinFee (p : ChainParams) : Int64 :=
  if moneyRange p.nMinTxFee then p.nMinTxFee else MAX_MONEY

end CTransaction

namespace CBlock

variable (b : CBlock)

def headerBytes : Bytes :=
  int32Bytes b.nVersion ++ uint256Bytes b.hashPrevBlock ++ uint256Bytes b.hashMerkleRoot ++
    uint32Bytes b.nTime ++ uint32Bytes b.nBits ++ uint32Bytes b.nNonce

def bytes : Bytes :=
  b.headerBytes ++ (compactSize b.vtx.length ++ b.vtx.flatMap CTransaction.bytes) ++
    (compactSize b.vchBlockSig.length ++ b.vchBlockSig)

/-- `GetHash`: scrypt up to version 6. -/
def getHash (H : BlockHash) : UInt256 :=
  if b.nVersion > 6 then H.hash b.headerBytes else H.scryptBlockHash b.headerBytes

def isProofOfStake : Bool :=
  match b.vtx with
  | _ :: tx :: _ => tx.isCoinStake
  | _ => false

def isProofOfAnonStake : Bool :=
  match b.vtx with
  | _ :: tx :: _ => tx.isAnonCoinStake
  | _ => false

/-- One level of the merkle tree: neighbours are hashed, the last is paired with itself. -/
def merkleLevel (hash : HashFn) : List UInt256 → List UInt256
  | [] => []
  | [h] => [hash (uint256Bytes h ++ uint256Bytes h)]
  | h :: k :: hs => hash (uint256Bytes h ++ uint256Bytes k) :: merkleLevel hash hs

/-- The levels above `hs`; a level halves, so as many rounds as hashes are enough. -/
def merkleRootFrom (hash : HashFn) : Nat → List UInt256 → UInt256
  | _, [] => 0
  | _, [h] => h
  | 0, h :: _ => h
  | n + 1, hs => merkleRootFrom hash n (merkleLevel hash hs)

def buildMerkleTree (hash : HashFn) : UInt256 :=
  merkleRootFrom hash b.vtx.length (b.vtx.map (CTransaction.getHash hash))

end CBlock

/-- `CBigNum::SetCompact`: an mpi of `nCompact >> 24` bytes whose top bit is the sign. -/
def setCompact (nCompact : UInt32) : Int :=
  let nSize := nCompact.toNat / 2 ^ 24
  let word := nCompact.toNat % 2 ^ 24
  let mantissa := if nSize ≥ 3 then word * 256 ^ (nSize - 3) else word / 256 ^ (3 - nSize)
  let sign := 2 ^ (8 * nSize - 1)
  if nSize = 0 then 0
  else if mantissa ≥ sign then -((mantissa - sign : Nat) : Int) else mantissa

/-- `CheckProofOfWork`; `getuint256` keeps the low 256 bits. -/
def checkProofOfWork (p : ChainParams) (hash : UInt256) (nBits : UInt32) : Bool :=
  let bnTarget := setCompact nBits
  decide (0 < bnTarget) && decide (bnTarget ≤ p.bnProofOfWorkLimit) &&
    decide ((hash.toNat : Int) ≤ bnTarget)

/-- `FutureDrift`. -/
def futureDrift (p : ChainParams) (nTime nHeight : Int) : Int :=
  nTime + if p.isProtocolV2 nHeight then 15 else 10 * 60

/-- The rules that `CheckBlock` adds for a coinbase and, in a staked block, for a coinstake. -/
def checkBlockShape (b : CBlock) : Bool :=
  match b.vtx with
  | [] => false
  | tx0 :: rest =>
    tx0.isCoinBase && rest.all (fun tx => !tx.isCoinBase) &&
      (!b.isProofOfStake ||
        (match tx0.vout with
          | [txout] => txout.isEmpty
          | _ => false) && (rest.drop 1).all fun tx => !tx.isCoinStake)

/-- `CheckBlock(fCheckPOW, fCheckMerkleRoot, false)`, without the block signature, as `ConnectBlock`
calls it. -/
def checkBlock (p : ChainParams) (H : BlockHash) (nAdjustedTime nBestHeight : Int)
    (fCheckPOW fCheckMerkleRoot : Bool) (b : CBlock) : Bool :=
  !b.vtx.isEmpty && decide (b.vtx.length ≤ MAX_BLOCK_SIZE) && decide (b.bytes.length ≤ MAX_BLOCK_SIZE) &&
    (!fCheckPOW || b.isProofOfStake || checkProofOfWork p (b.getHash H) b.nBits) &&
    decide ((b.nTime.toNat : Int) ≤ futureDrift p nAdjustedTime (nBestHeight + 1)) &&
    checkBlockShape b &&
    (b.vtx.all fun tx => tx.checkTransaction p && decide (tx.nTime ≤ b.nTime)) &&
    decide (b.vtx.map (CTransaction.getHash H.hash)).Nodup &&
    decide ((b.vtx.map CTransaction.getLegacySigOpCount).sum ≤ MAX_BLOCK_SIGOPS) &&
    (!fCheckMerkleRoot || b.hashMerkleRoot == b.buildMerkleTree H.hash)

end AliasWallet
