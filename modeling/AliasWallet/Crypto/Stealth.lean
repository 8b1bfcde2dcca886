import AliasWallet.Crypto.Curve

/-!
# Stealth payments (`stealth.cpp`)

Sender and receiver reach the shared secret, the one-time public key and its secret by different routes. Null stands
for a return value other than zero.
-/

namespace AliasWallet
open Lib

section Stealth

variable {Pt : Type} (E : Curve Pt) (sha256 : Bytes → Bytes)

/-- `EC_POINT_point2bn` and its bytes, where these are 33. -/
def pointBytes (pt : Pt) : Option Bytes :=
  let bn := beNat (E.point2oct pt)
  if numBytes bn = EC_COMPRESSED_SIZE then some (minBytes bn) else none

def secretToPublicKey (secret : Bytes) : Option Bytes := pointBytes E (E.mul E.generator (beNat secret))

/-- The shared secret and the one-time public key. -/
def stealthSecret (secret pubkey pkSpend : Bytes) : Option (Bytes × Bytes) := do
  let q ← E.bn2point (beNat pubkey)
  let vchOutQ ← pointBytes E (E.mul q (beNat secret))
  let sharedSOut := sha256 vchOutQ
  let c := E.mul E.generator (beNat sharedSOut)
  let r ← E.bn2point (beNat pkSpend)
  let pkOut ← pointBytes E (E.add r c)
  return (sharedSOut, pkOut)

/-- The secret of the shared one and the spend secret: their sum modulo the order, padded with zeros. -/
def stealthSharedToSecretSpend (sharedS spendSecret : Bytes) : Option Bytes :=
  let bnSpend := (beNat spendSecret + beNat sharedS) % E.order
  if bnSpend = 0 then none
  else if EC_SECRET_SIZE < numBytes bnSpend then none
  else some (writeAt (List.replicate EC_SECRET_SIZE 0) (EC_SECRET_SIZE - numBytes bnSpend) (minBytes bnSpend))

def stealthSecretSpend (scanSecret ephemPubkey spendSecret : Bytes) : Option Bytes := do
  let p ← E.bn2point (beNat ephemPubkey)
  let vchOutP ← pointBytes E (E.mul p (beNat scanSecret))
  let hash1 := sha256 vchOutP
  let bnSpend := (beNat spendSecret + beNat hash1) % E.order
  if bnSpend = 0 then none
  else if EC_SECRET_SIZE < numBytes bnSpend then none
  else some (writeAt (List.replicate EC_SECRET_SIZE 0) (EC_SECRET_SIZE - numBytes bnSpend) (minBytes bnSpend))

def stealthSharedToPublicKey (pkSpend sharedS : Bytes) : Option Bytes := do
  let c := E.mul E.generator (beNat sharedS)
  let r ← E.bn2point (beNat pkSpend)
  pointBytes E (E.add r c)

end Stealth

section Group

variable {G : Type} [AddCommGroup G] {E : Curve G} (hE : PrimeOrder E) {sha256 : Bytes → Bytes}
include hE

theorem pointBytes_eq (pt : G) : pointBytes E pt = if E.isAtInfinity pt then none else some (E.point2oct pt) := by
  by_cases hpt : pt = 0
  · subst hpt
    rw [if_pos ((hE.isAtInfinity_iff 0).mpr rfl), pointBytes, hE.point2oct_zero]
    rfl
  · have hlen := hE.point2oct_length pt hpt
    have hmin := minBytes_beNat (E.point2oct pt) (by rintro heq; rw [heq] at hlen; exact absurd hlen (by decide))
      (hE.point2oct_head pt hpt)
    have hbytes : numBytes (beNat (E.point2oct pt)) = EC_COMPRESSED_SIZE := by
      rw [← minBytes_length, hmin, hlen]
    rw [if_neg fun hinf => hpt ((hE.isAtInfinity_iff pt).mp hinf), pointBytes, if_pos hbytes, hmin]

/-- The point of a key pair. -/
theorem bn2point_of_secret {secret pubkey : Bytes} (hkey : secretToPublicKey E secret = some pubkey) :
    E.bn2point (beNat pubkey) = some (beNat secret • E.generator) := by
  rw [secretToPublicKey, pointBytes_eq hE, hE.mul_eq] at hkey
  split at hkey
  · exact absurd hkey (by simp)
  · rename_i hfinite
    rw [← Option.some.inj hkey]
    exact hE.bn2point_point2oct _ fun hzero => hfinite ((hE.isAtInfinity_iff _).mpr hzero)

/-- The padded secret is the sum, unless that is zero. -/
theorem stealthSharedToSecretSpend_eq (sharedS spendSecret : Bytes)
    (hsum : (beNat spendSecret + beNat sharedS) % E.order ≠ 0) :
    ∃ secretOut, stealthSharedToSecretSpend E sharedS spendSecret = some secretOut ∧
      beNat secretOut = (beNat spendSecret + beNat sharedS) % E.order := by
  have hlt : (beNat spendSecret + beNat sharedS) % E.order < 256 ^ EC_SECRET_SIZE :=
    lt_of_lt_of_le (Nat.mod_lt _ hE.prime.pos) hE.order_le
  refine ⟨_, ?_, beNat_writeAt_zeros EC_SECRET_SIZE _ hlt⟩
  rw [stealthSharedToSecretSpend, if_neg hsum, if_neg (not_lt.mpr (numBytes_le _ _ hlt))]

/-- Sender and receiver agree on the shared secret, on the one-time key and on its secret. -/
theorem stealth_agrees {d q f r e p : Bytes} (hscan : secretToPublicKey E d = some q)
    (hspend : secretToPublicKey E f = some r) (hephem : secretToPublicKey E e = some p) :
    stealthSecret E sha256 e q r = stealthSecret E sha256 d p r ∧
      ∀ sharedS pkOut, stealthSecret E sha256 e q r = some (sharedS, pkOut) →
        stealthSharedToPublicKey E r sharedS = some pkOut ∧
        ∃ secretOut, stealthSecretSpend E sha256 d p f = some secretOut ∧
          stealthSharedToSecretSpend E sharedS f = some secretOut ∧ secretToPublicKey E secretOut = some pkOut := by
  have hq := bn2point_of_secret hE hscan
  have hr := bn2point_of_secret hE hspend
  have hp := bn2point_of_secret hE hephem
  have hsame : beNat e • beNat d • E.generator = beNat d • beNat e • E.generator := by
    rw [← mul_nsmul', ← mul_nsmul', Nat.mul_comm]
  constructor
  · rw [stealthSecret, stealthSecret, hq, hp]
    simp only [Option.bind_eq_bind, Option.bind_some, hE.mul_eq, hsame]
  · intro sharedS pkOut hsecret
    rw [stealthSecret, hq] at hsecret
    simp only [Option.bind_eq_bind, Option.bind_some, hE.mul_eq, hE.add_eq, hr, Option.bind_eq_some_iff] at hsecret
    obtain ⟨vchOutQ, hshared, pkOut', hpk, heq⟩ := hsecret
    obtain ⟨rfl, rfl⟩ := Prod.mk.inj (Option.some.inj heq)
    refine ⟨?_, ?_⟩
    · rw [stealthSharedToPublicKey]
      simp only [hr, Option.bind_eq_bind, Option.bind_some, hE.mul_eq, hE.add_eq]
      exact hpk
    · -- the sum of the secrets is the logarithm of the one-time key
      have hone : beNat f • E.generator + beNat (sha256 vchOutQ) • E.generator =
          ((beNat f + beNat (sha256 vchOutQ)) % E.order) • E.generator := by
        rw [mod_nsmul E.order hE.card, add_nsmul]
      have hsum : (beNat f + beNat (sha256 vchOutQ)) % E.order ≠ 0 := by
        intro hzero
        rw [hone, hzero, zero_nsmul, pointBytes_eq hE, if_pos ((hE.isAtInfinity_iff 0).mpr rfl)] at hpk
        exact absurd hpk (by simp)
      obtain ⟨secretOut, hout, hnat⟩ := stealthSharedToSecretSpend_eq hE (sha256 vchOutQ) f hsum
      refine ⟨secretOut, ?_, hout, ?_⟩
      · rw [stealthSecretSpend, hp]
        simp only [Option.bind_eq_bind, Option.bind_some, hE.mul_eq, ← hsame, hshared]
        exact hout
      · rw [secretToPublicKey, hE.mul_eq, hnat, ← hone]
        exact hpk

end Group

section Residues

def smallSecret (n : UInt8) : Bytes := List.replicate 31 0 ++ [n]

/-- A payment among the residues modulo 7, with the last byte of a point as its hash. -/
theorem stealth_agrees_residues :
    let E := residueCurve 7
    let sha256 := fun bs : Bytes => smallSecret (bs.getLastD 0)
    let q := 2 :: smallSecret 2
    let r := 2 :: smallSecret 3
    let p := 2 :: smallSecret 4
    stealthSecret E sha256 (smallSecret 4) q r = stealthSecret E sha256 (smallSecret 2) p r ∧
      ∀ sharedS pkOut, stealthSecret E sha256 (smallSecret 4) q r = some (sharedS, pkOut) →
        stealthSharedToPublicKey E r sharedS = some pkOut ∧
        ∃ secretOut, stealthSecretSpend E sha256 (smallSecret 2) p (smallSecret 3) = some secretOut ∧
          stealthSharedToSecretSpend E sharedS (smallSecret 3) = some secretOut ∧
          secretToPublicKey E secretOut = some pkOut := by
  have : Fact (Nat.Prime 7) := ⟨by decide⟩
  exact stealth_agrees (residueCurve_primeOrder 7 (by norm_num [EC_SECRET_SIZE]))
    (by decide +kernel) (by decide +kernel) (by decide +kernel)

end Residues

end AliasWallet
