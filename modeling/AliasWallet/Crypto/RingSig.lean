import AliasWallet.Crypto.Curve
import AliasWallet.Lib.Loop

/-!
# Key images and the plain ring signature (`ringsig.cpp`)

The functions run over a `Curve` and a hash. The random source is a tape with one entry for each
call of `RAND_bytes`, read through a position that the generators pass on.
-/

namespace AliasWallet
open Lib

/-- Why a ring-signature function does not return 0: `rv = 1`, `rv = 2`, or a failed `assert`. -/
inductive RingSigFailure
  | error
  | notVerified
  | assertFailed
  deriving DecidableEq, Repr

abbrev RingSigM := Except RingSigFailure

/-- A step that must yield a value; without one the function ends with `rv = 1`. -/
def orFail {α : Type} : Option α → RingSigM α
  | some a => .ok a
  | none => .error .error

/-- `tempData`: two compressed points, each of exactly 33 bytes. -/
def tempData {Pt : Type} (E : Curve Pt) (ptL ptR : Pt) : RingSigM Bytes :=
  if (E.point2oct ptL).length = EC_COMPRESSED_SIZE ∧ (E.point2oct ptR).length = EC_COMPRESSED_SIZE
  then .ok (E.point2oct ptL ++ E.point2oct ptR)
  else .error .error

/-- The result of each call of `RAND_bytes(_, 32)`; `none` is a call that failed. -/
abbrev RandTape := Nat → Option UInt256

def MIN_SECRET : Nat := 16000

def MAX_SECRET : Nat := 0xFFFFFFFFFFFFFFFFFFFFFFFFFFFFFFFEBAAEDCE6AF48A03BBFD25E8CD0364140

/-- At most `tries` calls of `RAND_bytes`, until one is inside the range of secrets. -/
def drawSecret (tape : RandTape) : Nat → Nat → RingSigM (Bytes × Nat)
  | 0, _ => .error .error
  | tries + 1, pos =>
    match tape pos with
    | none => .error .error
    | some test =>
      if MIN_SECRET < test.toNat ∧ test.toNat < MAX_SECRET then .ok (uint256Bytes test, pos + 1)
      else drawSecret tape tries (pos + 1)

def generateRandomSecret (tape : RandTape) (pos : Nat) : RingSigM (Bytes × Nat) :=
  drawSecret tape 32 pos

/-- `std::vector::resize`. -/
def resize (bs : Bytes) (n : Nat) : Bytes := bs.take n ++ List.replicate (n - bs.length) 0

section Points

variable {Pt : Type} (E : Curve Pt) (hash : HashFn)

/-- The first of the `x`-coordinates `bn`, `bn + 1`, … that lies on the curve. -/
def firstOnCurve : Nat → Nat → Option Pt
  | 0, _ => none
  | tries + 1, bn =>
    match E.setCompressedCoordinates bn with
    | some pt => some pt
    | none => firstOnCurve tries (bn + 1)

/-- `hashToEC`; `fV3` is `fNew || Params().IsProtocolV3(nBestHeight)`. -/
def hashToEC (fV3 : Bool) (p : Bytes) : Option Pt :=
  if fV3 then firstOnCurve E 100 (bnOfHash (hash p))
  else some (E.mul E.generator (bnOfHash (hash p)))

/-- A point as a bignum and from there as exactly 33 bytes. -/
def keyImageBytes (pt : Pt) : RingSigM Bytes :=
  let bnTmp := beNat (E.point2oct pt)
  if numBytes bnTmp = EC_COMPRESSED_SIZE then .ok (minBytes bnTmp) else .error .error

/-- `generateKeyImage`: the secret times the new hash point of the public key. -/
def generateKeyImage (publicKey secret : Bytes) : RingSigM Bytes := do
  if publicKey.length ≠ EC_COMPRESSED_SIZE then throw .error
  let hG ← orFail (hashToEC E hash true publicKey)
  keyImageBytes E (E.mul hG (beNat secret))

/-- `getOldKeyImage`: the public key times its own hash, written over the incoming `keyImage`.
Past the size test the function returns 0 also where a curve operation fails: an undecodable key
leaves `keyImage` as it came, a point without 33 bytes only resized. -/
def getOldKeyImage (publicKey keyImage : Bytes) : RingSigM Bytes :=
  if publicKey.length ≠ EC_COMPRESSED_SIZE then .error .error
  else match E.oct2point publicKey with
    | none => .ok keyImage
    | some ptPk =>
      match keyImageBytes E (E.mul ptPk (bnOfHash (hash publicKey))) with
      | .ok image => .ok image
      | .error _ => .ok (resize keyImage EC_COMPRESSED_SIZE)

end Points

section Plain

variable {Pt : Type} (E : Curve Pt) (hash : HashFn) (hp : Bytes → Option Pt)

/-- `L = c * P + r * G`. -/
def plainL (ptPk : Pt) (c r : Nat) : Pt := E.add (E.mul ptPk c) (E.mul E.generator r)

/-- `R = c * I + r * Hp(P)`. -/
def plainR (ptKi ptHp : Pt) (c r : Nat) : Pt := E.add (E.mul ptKi c) (E.mul ptHp r)

/-- The loop state of `generateRingSignature`. -/
structure PlainGen where
  pos : Nat
  bnSum : Nat
  ssCommitHash : Bytes
  pSigc : Bytes
  pSigr : Bytes

/-- One round of `generateRingSignature`. -/
def generateRingSignatureStep (tape : RandTape) (bnKS : Nat) (ptKi : Pt) (nSecretOffset : Nat)
    (pPubkeys : Bytes) (i : Nat) (st : PlainGen) : RingSigM PlainGen := do
  let pk := slot EC_COMPRESSED_SIZE pPubkeys i
  if i = nSecretOffset then
    let ptL := E.mul E.generator bnKS
    let ptT1 ← orFail (hp pk)
    let ptR := E.mul ptT1 bnKS
    let data ← tempData E ptL ptR
    return { st with ssCommitHash := st.ssCommitHash ++ data }
  else
    let (scData1, pos) ← generateRandomSecret tape st.pos
    let (scData2, pos) ← generateRandomSecret tape pos
    let ptPk ← orFail (E.bn2point (beNat pk))
    let ptL := plainL E ptPk (beNat scData1) (beNat scData2)
    let ptT3 ← orFail (hp pk)
    let ptR := plainR E ptKi ptT3 (beNat scData1) (beNat scData2)
    let data ← tempData E ptL ptR
    return {
      pos
      bnSum := (st.bnSum + beNat scData1) % E.order
      ssCommitHash := st.ssCommitHash ++ data
      pSigc := writeAt st.pSigc (i * EC_SECRET_SIZE) scData1
      pSigr := writeAt st.pSigr (i * EC_SECRET_SIZE) scData2 }

/-- `BN_bn2bin(bn, &buf[i * EC_SECRET_SIZE + (EC_SECRET_SIZE - nBytes)])`. -/
def writePadded (buf : Bytes) (i bn : Nat) : RingSigM Bytes :=
  if numBytes bn > EC_SECRET_SIZE then .error .error
  else .ok (writeAt buf (i * EC_SECRET_SIZE + (EC_SECRET_SIZE - numBytes bn)) (minBytes bn))

/-- `generateRingSignature`: the arrays `pSigc` and `pSigr`. -/
def generateRingSignature (tape : RandTape) (keyImage : Bytes) (txnHash : UInt256)
    (nRingSize nSecretOffset : Nat) (secret pPubkeys : Bytes) : RingSigM (Bytes × Bytes) := do
  let (scData1, pos) ← generateRandomSecret tape 0
  let bnKS := beNat scData1
  let ptKi ← orFail (E.oct2point keyImage)
  let st ← forRange nRingSize
    (generateRingSignatureStep E hp tape bnKS ptKi nSecretOffset pPubkeys)
    { pos
      bnSum := 0
      ssCommitHash := uint256Bytes txnHash
      pSigc := List.replicate (EC_SECRET_SIZE * nRingSize) 0
      pSigr := List.replicate (EC_SECRET_SIZE * nRingSize) 0 }
  let bnH := bnOfHash (hash st.ssCommitHash) % E.order
  let bnT := modSub bnH st.bnSum E.order
  let pSigc ← writePadded st.pSigc nSecretOffset bnT
  let bnR := modSub bnKS (bnT * beNat secret) E.order
  let pSigr ← writePadded st.pSigr nSecretOffset bnR
  return (pSigc, pSigr)

/-- One round of `verifyRingSignature` over `bnSum` and the commitment written so far. -/
def verifyRingSignatureStep (ptKi : Pt) (pPubkeys pSigc pSigr : Bytes) (i : Nat)
    (st : Nat × Bytes) : RingSigM (Nat × Bytes) := do
  let bnC := beNat (slot EC_SECRET_SIZE pSigc i)
  let bnR := beNat (slot EC_SECRET_SIZE pSigr i)
  let pk := slot EC_COMPRESSED_SIZE pPubkeys i
  let ptPk ← orFail (E.bn2point (beNat pk))
  let ptL := plainL E ptPk bnC bnR
  let ptT3 ← orFail (hp pk)
  let ptR := plainR E ptKi ptT3 bnC bnR
  let data ← tempData E ptL ptR
  return ((st.1 + bnC) % E.order, st.2 ++ data)

/-- `verifyRingSignature`: `.ok ()` is the return value 0. -/
def verifyRingSignature (keyImage : Bytes) (txnHash : UInt256) (nRingSize : Nat)
    (pPubkeys pSigc pSigr : Bytes) : RingSigM Unit := do
  let ptKi ← orFail (E.oct2point keyImage)
  let (bnSum, ssCommitHash) ← forRange nRingSize
    (verifyRingSignatureStep E hp ptKi pPubkeys pSigc pSigr) (0, uint256Bytes txnHash)
  let bnH := bnOfHash (hash ssCommitHash) % E.order
  let bnT := modSub bnH bnSum E.order
  if bnT ≠ 0 then throw .notVerified

end Plain

end AliasWallet
