import AliasWallet.Crypto.Concrete
import AliasWallet.Crypto.KeyDerivation

/-!
# Compact signatures (`key.cpp`, `eckey.cpp`)

The signer packs both numbers and a recovery id. `Recover` unpacks them by `BN_bin2bn` into null pointers: the
function then returns new numbers, which nobody keeps, and the signature stays without numbers.
-/

namespace AliasWallet
open Lib

/-- A failed assertion, or a null pointer where a number is needed. -/
inductive SigFault
  | assertFailed
  | nullPointer
  deriving DecidableEq

/-- What the recovery calls of OpenSSL beyond the curve. -/
structure RecoverOps (Pt : Type) where
  field : Nat
  setCompressed : Nat → Bool → Option Pt
  modInverse : Nat → Option Nat
  uncompressed : Pt → Bytes
  doSign : Bytes → UInt256 → Option (Nat × Nat)

/-- `ECDSA_SIG`; a number may be null. -/
structure EcdsaSig where
  r : Option Nat
  s : Option Nat

/-- What a variable holds after `BN_bin2bn` into it: an existing number is filled, a null pointer stays null. -/
def bnBin2bn (bs : Bytes) (ret : Option Nat) : Option Nat := ret.map fun _ => beNat bs

/-- `ECDSA_SIG_set0`, which takes no null pointers. -/
def ecdsaSigSet0 (sig : EcdsaSig) (r s : Option Nat) : EcdsaSig :=
  match r, s with
  | some r, some s => ⟨some r, some s⟩
  | _, _ => sig

section Recover

variable {Pt : Type} (E : Curve Pt) (ops : RecoverOps Pt)

/-- `ECDSA_SIG_recover_key_GFp`: the public point, where the return value is 1. -/
def recoverKeyGFp (sig : EcdsaSig) (msg : UInt256) (recid : Nat) (check : Bool) : Except SigFault (Option Pt) :=
  match sig.r, sig.s with
  | some pr, some ps =>
    let x := E.order * (recid / 2) + pr
    if x ≥ ops.field then .ok none
    else match ops.setCompressed x (recid % 2 == 1) with
      | none => .ok none
      | some pt =>
        if check && !E.isAtInfinity (E.mul pt E.order) then .ok none
        else
          let e := modSub 0 (bnOfHash msg) E.order
          match ops.modInverse pr with
          | none => .ok none
          | some rr =>
            let sor := ps * rr % E.order
            let eor := e * rr % E.order
            .ok (some (E.add (E.mul E.generator eor) (E.mul pt sor)))
  | _, _ => .error .nullPointer

/-- `CECKey::GetPubKey`. -/
def ecGetPubKey (pt : Pt) (fCompressed : Bool) : CPubKey :=
  CPubKey.set (if fCompressed then E.point2oct pt else ops.uncompressed pt)

/-- The recovery ids that `SignCompact` tries. -/
def findRec (sig : EcdsaSig) (hash : UInt256) (pubkey : CPubKey) : List Nat → Except SigFault (Option Nat)
  | [] => .ok none
  | i :: ids => do
    match ← recoverKeyGFp E ops sig hash i true with
    | some pt => if ecGetPubKey E ops pt true = pubkey then .ok (some i) else findRec sig hash pubkey ids
    | none => findRec sig hash pubkey ids

/-- `CECKey::SignCompact`: the 64 bytes and the recovery id. -/
def ecSignCompact (vch : Bytes) (hash : UInt256) : Except SigFault (Option (Bytes × Nat)) :=
  match ops.doSign vch hash with
  | none => .ok none
  | some (pr, ps) =>
    if numBits pr ≤ 256 ∧ numBits ps ≤ 256 then do
      let pubkey := ecGetPubKey E ops (E.mul E.generator (beNat vch)) true
      match ← findRec E ops ⟨some pr, some ps⟩ hash pubkey (List.range 4) with
      | none => .error .assertFailed
      | some rec =>
        let p64 := writeAt (List.replicate 64 0) (32 - numBytes pr) (minBytes pr)
        .ok (some (writeAt p64 (64 - numBytes ps) (minBytes ps), rec))
    else .ok none

/-- `CECKey::Recover`. -/
def ecRecover (hash : UInt256) (p64 : Bytes) (rec : Int) : Except SigFault (Option Pt) :=
  if rec < 0 ∨ rec ≥ 3 then .ok none
  else
    let sig : EcdsaSig := ⟨none, none⟩
    let pr := bnBin2bn (slice p64 0 32) none
    let ps := bnBin2bn (slice p64 32 32) none
    let sig := ecdsaSigSet0 sig pr ps
    recoverKeyGFp E ops sig hash rec.toNat false

/-- The recovery id and the flag in the first byte. -/
def sigRec (vchSig : Bytes) : Int := ((Int32.ofNat (vchSig.headD 0).toNat - 27) &&& ~~~4).toInt

def sigCompressed (vchSig : Bytes) : Bool := ((Int32.ofNat (vchSig.headD 0).toNat - 27) &&& 4) != 0

def CKey.signCompact (key : CKey) (hash : UInt256) : Except SigFault (Option Bytes) :=
  if ¬ key.fValid then .ok none
  else do
    match ← ecSignCompact E ops key.vch hash with
    | none => .ok none
    | some (p64, rec) => .ok (some (UInt8.ofNat (27 + rec + if key.fCompressed then 4 else 0) :: p64))

/-- The recovered key, where the return value is true. -/
def recoverCompact (hash : UInt256) (vchSig : Bytes) : Except SigFault (Option CPubKey) :=
  if vchSig.length ≠ 65 then .ok none
  else do
    match ← ecRecover E ops hash vchSig.tail (sigRec vchSig) with
    | none => .ok none
    | some pt => .ok (some (ecGetPubKey E ops pt (sigCompressed vchSig)))

def CPubKey.verifyCompact (pubkey : CPubKey) (hash : UInt256) (vchSig : Bytes) : Except SigFault Bool :=
  if pubkey.vch = [] then .ok false
  else if vchSig.length ≠ 65 then .ok false
  else do
    match ← ecRecover E ops hash vchSig.tail (sigRec vchSig) with
    | none => .ok false
    | some pt => .ok (decide (pubkey = ecGetPubKey E ops pt (pubkey.vch.length == 33)))

end Recover

section Never

variable {Pt : Type} (E : Curve Pt) (ops : RecoverOps Pt)

/-- `Recover` gives no point: the id is out of bounds, or a number is missing. -/
theorem ecRecover_eq (hash : UInt256) (p64 : Bytes) (rec : Int) :
    ecRecover E ops hash p64 rec = if rec < 0 ∨ rec ≥ 3 then .ok none else .error .nullPointer := rfl

/-- The signature of a key is accepted with its public key, which is recovered from it. -/
def CompactSigVerifies (key : CKey) (hash : UInt256) : Prop :=
  ∃ vchSig, key.signCompact E ops hash = .ok (some vchSig) ∧
    (ecGetPubKey E ops (E.mul E.generator (beNat key.vch)) key.fCompressed).verifyCompact E ops hash vchSig = .ok true ∧
    recoverCompact E ops hash vchSig =
      .ok (some (ecGetPubKey E ops (E.mul E.generator (beNat key.vch)) key.fCompressed))

theorem verifyCompact_ne_true (pubkey : CPubKey) (hash : UInt256) (vchSig : Bytes) :
    pubkey.verifyCompact E ops hash vchSig ≠ .ok true := by
  rw [CPubKey.verifyCompact, ecRecover_eq]
  split
  · simp
  split
  · simp
  split
  · simp [bind, Except.bind]
  · simp [bind, Except.bind]

/-- No signature is accepted, whatever the key, the hash and the signer are. -/
theorem compactSig_never (key : CKey) (hash : UInt256) : ¬ CompactSigVerifies E ops key hash := by
  rintro ⟨vchSig, -, haccept, -⟩
  exact verifyCompact_ne_true E ops _ hash vchSig haccept

end Never

section FirstKey

/-- ECDSA on secp256k1 with the nonce 1. -/
def signOne (vch : Bytes) (hash : UInt256) : Option (Nat × Nat) :=
  match Secp256k1.generator with
  | .infinity => none
  | .affine x _ => some (x, (bnOfHash hash + x * beNat vch) % Secp256k1.order)

def secp256k1Recover : RecoverOps Secp256k1.Point where
  field := Secp256k1.prime
  setCompressed := Secp256k1.decompress
  modInverse n := some (Secp256k1.powMod Secp256k1.order 256 (Secp256k1.order - 2) n 1)
  uncompressed
    | .infinity => [0]
    | .affine x y => 4 :: (beBytes 32 x ++ beBytes 32 y)
  doSign := signOne

/-- The private key 1. -/
def firstKey : CKey where
  vch := List.replicate 31 0 ++ [1]
  fValid := true
  fCompressed := true

def firstSignature : Bytes :=
  let x := 0x79BE667EF9DCBBAC55A06295CE870B07029BFCDB2DCE28D959F2815B16F81798
  31 :: (beBytes 32 x ++ beBytes 32 x)

/-- The signature of the hash 0 has the recovery id 0, and its verification meets a null pointer. -/
theorem firstSignature_fails :
    firstKey.signCompact secp256k1 secp256k1Recover 0 = .ok (some firstSignature) ∧
      CPubKey.verifyCompact secp256k1 secp256k1Recover
        (ecGetPubKey secp256k1 secp256k1Recover Secp256k1.generator true) 0 firstSignature = .error .nullPointer ∧
      recoverCompact secp256k1 secp256k1Recover 0 firstSignature = .error .nullPointer := by
  rw [secp256k1_eq_eval]
  refine ⟨?_, ?_, ?_⟩
  · decide +kernel
  · decide +kernel
  · decide +kernel

end FirstKey

end AliasWallet
