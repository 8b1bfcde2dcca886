import AliasWallet.Crypto.RingSig

/-!
# The AB ring signature (`generateRingSignatureAB`, `verifyRingSignatureAB`)

One challenge and one response for each member. Generation starts behind the secret position and
wraps around the ring; verification starts at position 0.
-/

namespace AliasWallet
open Lib

section AB

variable {Pt : Type} (E : Curve Pt) (hash : HashFn) (hp : Bytes → Option Pt)

/-- The hash of the first `nRingSize` public keys, `tmpPkHash`. -/
def abPkHash (nRingSize : Nat) (pPubkeys : Bytes) : UInt256 :=
  hash ((List.range nRingSize).flatMap (slot EC_COMPRESSED_SIZE pPubkeys))

def abKeyPoint (ptPk : Pt) (c s : Nat) : Pt := E.add (E.mul E.generator s) (E.mul ptPk c)

def abImagePoint (ptKi ptHp : Pt) (c s : Nat) : Pt := E.add (E.mul ptHp s) (E.mul ptKi c)

def abHash (pkHash : UInt256) (data : Bytes) : Nat :=
  bnOfHash (hash (uint256Bytes pkHash ++ data)) % E.order

/-- `c_{i+1} = h(P_1,...,P_n, s_i*G + c_i*P_i, s_i*H(P_i) + c_i*I)`, the round that generation and
verification share. -/
def abNextChallenge (pkHash : UInt256) (ptKi : Pt) (pk : Bytes) (c s : Nat) : RingSigM Nat := do
  let ptPk ← orFail (E.oct2point pk)
  let ptHp ← orFail (hp pk)
  let data ← tempData E (abKeyPoint E ptPk c s) (abImagePoint E ptKi ptHp c s)
  return abHash E hash pkHash data

/-- The responses of the other members, drawn into a zeroed `pSigS`. -/
def abDrawResponses (tape : RandTape) (nSecretOffset i : Nat) (st : Nat × Bytes) :
    RingSigM (Nat × Bytes) := do
  if i = nSecretOffset then return st
  let (s, pos) ← drawSecret tape 32 st.1
  return (pos, writeAt st.2 (i * EC_SECRET_SIZE) s)

/-- The loop state of `generateRingSignatureAB`; `bnC` lags `i` by one. -/
structure ABGen where
  ib : Nat
  i : Nat
  bnC : Nat
  bnCj : Nat
  sigC : Bytes
  pSigS : Bytes

/-- `s_j = alpha - c_j*x_j`, written in the last round. -/
def abClose (bnA nSecretOffset : Nat) (secret : Bytes) (st : ABGen) : RingSigM ABGen := do
  let bnS := modSub bnA (st.bnCj * beNat secret) E.order
  let pSigS ← writePadded st.pSigS nSecretOffset bnS
  return { st with pSigS }

/-- The part of a round that computes the next challenge and emits `sigC` at position 0. -/
def abAdvance (pkHash : UInt256) (ptKi : Pt) (nRingSize nSecretOffset : Nat) (pPubkeys : Bytes)
    (st : ABGen) : RingSigM ABGen := do
  let bnS := beNat (slot EC_SECRET_SIZE st.pSigS st.ib)
  let bnC ← abNextChallenge E hash hp pkHash ptKi (slot EC_COMPRESSED_SIZE pPubkeys st.ib) st.bnC bnS
  let bnCj := if st.i = nSecretOffset then bnC else st.bnCj
  let sigC ← if st.i = 0 then writePadded (List.replicate EC_SECRET_SIZE 0) 0 bnC else pure st.sigC
  return { st with ib := st.i, i := (st.i + 1) % nRingSize, bnC, bnCj, sigC }

/-- One round of the loop. The `break` of the last round ends the loop where it would end. -/
def generateRingSignatureABStep (pkHash : UInt256) (ptKi : Pt) (bnA nRingSize nSecretOffset : Nat)
    (secret pPubkeys : Bytes) (k : Nat) (st : ABGen) : RingSigM ABGen := do
  if k = nRingSize - 1 then
    let st ← abClose E bnA nSecretOffset secret st
    if nSecretOffset ≠ nRingSize - 1 then return st
    abAdvance E hash hp pkHash ptKi nRingSize nSecretOffset pPubkeys st
  else
    abAdvance E hash hp pkHash ptKi nRingSize nSecretOffset pPubkeys st

/-- `generateRingSignatureAB`: the incoming `sigC` is overwritten, `pSigS` is zeroed first. -/
def generateRingSignatureAB (tape : RandTape) (keyImage : Bytes) (nRingSize nSecretOffset : Nat)
    (secret pPubkeys sigC : Bytes) : RingSigM (Bytes × Bytes) := do
  if nRingSize ≥ 200 then throw .assertFailed
  let (sAlpha, pos) ← generateRandomSecret tape 0
  let (_, pSigS) ← forRange nRingSize (abDrawResponses tape nSecretOffset)
    (pos, List.replicate (EC_SECRET_SIZE * nRingSize) 0)
  let tmpPkHash := abPkHash hash nRingSize pPubkeys
  let ptKi ← orFail (E.oct2point keyImage)
  let bnA := beNat sAlpha
  let ptT3 ← orFail (hp (slot EC_COMPRESSED_SIZE pPubkeys nSecretOffset))
  let data ← tempData E (E.mul E.generator bnA) (E.mul ptT3 bnA)
  let st ← forRange nRingSize
    (generateRingSignatureABStep E hash hp tmpPkHash ptKi bnA nRingSize nSecretOffset secret pPubkeys)
    { ib := (nSecretOffset + 1) % nRingSize
      i := (nSecretOffset + 2) % nRingSize
      bnC := abHash E hash tmpPkHash data
      bnCj := 0
      sigC
      pSigS }
  return (st.sigC, st.pSigS)

/-- One round of `verifyRingSignatureAB` over `bnC`. -/
def verifyRingSignatureABStep (pkHash : UInt256) (ptKi : Pt) (pPubkeys pSigS : Bytes) (i : Nat)
    (bnC : Nat) : RingSigM Nat :=
  abNextChallenge E hash hp pkHash ptKi (slot EC_COMPRESSED_SIZE pPubkeys i) bnC
    (beNat (slot EC_SECRET_SIZE pSigS i))

/-- `verifyRingSignatureAB`: `.ok ()` is the return value 0. -/
def verifyRingSignatureAB (keyImage : Bytes) (nRingSize : Nat) (pPubkeys sigC pSigS : Bytes) :
    RingSigM Unit := do
  if sigC.length ≠ EC_SECRET_SIZE then throw .error
  if keyImage.length ≠ EC_COMPRESSED_SIZE then throw .error
  let tmpPkHash := abPkHash hash nRingSize pPubkeys
  let ptKi ← orFail (E.oct2point keyImage)
  if ¬ E.isAtInfinity (E.mul ptKi E.order) then throw .error
  let bnC1 := beNat sigC
  let bnC ← forRange nRingSize
    (verifyRingSignatureABStep E hash hp tmpPkHash ptKi pPubkeys pSigS) bnC1
  let bnT := modSub bnC bnC1 E.order
  if bnT ≠ 0 then throw .notVerified

end AB

end AliasWallet
