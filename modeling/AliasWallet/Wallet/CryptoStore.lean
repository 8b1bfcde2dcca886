import AliasWallet.Lib.OrderedMap
import AliasWallet.Lib.Secp256k1
import AliasWallet.Crypto.KeyDerivation
import AliasWallet.Wallet.ExtKey

/-!
# The encrypted key store (`crypter.cpp`)

The secrets are kept encrypted under a master key, which is there while the store is unlocked. A key that arrives
while it is locked is kept without a secret.
-/

namespace AliasWallet
open Lib

def WALLET_CRYPTO_KEY_SIZE : Nat := 32

/-- What the key store uses of OpenSSL and of the hashes. -/
structure CrypterOps where
  /-- `CKey::GetPubKey` of a valid key. -/
  getPubKey : CKey → CPubKey
  getID : CPubKey → CKeyID
  /-- The bytes of `Hash`. -/
  hash : Bytes → Bytes
  /-- AES-256-CBC with its key and its initial vector; what is decrypted may be padded wrongly. -/
  aesEncrypt : Bytes → Bytes → Bytes → Bytes
  aesDecrypt : Bytes → Bytes → Bytes → Option Bytes

namespace CPubKey

variable (pubkey : CPubKey)

def isValid : Bool := decide (0 < pubkey.vch.length)

def isCompressed : Bool := pubkey.vch.length == 33

def getHash (ops : CrypterOps) : Bytes := ops.hash pubkey.vch

end CPubKey

namespace CKey

variable (key : CKey)

/-- From one to the order of the curve less one. -/
def check (vch : Bytes) : Bool := decide (0 < beNat vch) && decide (beNat vch < Secp256k1.order)

/-- From `begin()` to `end()`. -/
def bytes : Bytes := if key.fValid then key.vch else []

def set (vch : Bytes) (fCompressedIn : Bool) : CKey :=
  if vch.length ≠ 32 then { key with fValid := false }
  else if check vch then ⟨vch, true, fCompressedIn⟩
  else { key with fValid := false }

/-- The default constructor. -/
def default : CKey := ⟨List.replicate 32 0, false, true⟩

end CKey

/-- The encrypted secrets under the ids of their public keys, in the order of the ids. -/
structure CryptedKeyMap (ops : CrypterOps) where
  map : OrderedMap (Fin (2 ^ 160)) (CPubKey × Bytes)
  keyed : ∀ e ∈ map.entries, e.1 = (ops.getID e.2.1).toFin
  deriving DecidableEq

/-- `fUseCrypto` says whether there is a `crypto`. It is `vMasterKey`, which is empty while the store is locked. -/
structure CCryptoKeyStore (ops : CrypterOps) where
  mapKeys : OrderedMap (Fin (2 ^ 160)) CKey
  crypto : Option Bytes
  mapCryptedKeys : CryptedKeyMap ops
  deriving DecidableEq

section Secrets

variable (ops : CrypterOps) (vMasterKey : Bytes)

def encryptSecret (vchPlaintext nIV : Bytes) : Option Bytes :=
  if vMasterKey.length ≠ WALLET_CRYPTO_KEY_SIZE then none else some (ops.aesEncrypt vMasterKey nIV vchPlaintext)

def decryptSecret (vchCiphertext nIV : Bytes) : Option Bytes :=
  if vMasterKey.length ≠ WALLET_CRYPTO_KEY_SIZE then none else ops.aesDecrypt vMasterKey nIV vchCiphertext

end Secrets

variable {ops : CrypterOps}

def CryptedKeyMap.empty : CryptedKeyMap ops := ⟨OrderedMap.empty, fun _ he => absurd he List.not_mem_nil⟩

def CryptedKeyMap.put (m : CryptedKeyMap ops) (pubkey : CPubKey) (vchCryptedSecret : Bytes) : CryptedKeyMap ops where
  map := m.map.put (ops.getID pubkey).toFin (pubkey, vchCryptedSecret)
  keyed := by
    intro e he
    cases OrderedMap.mem_put.mp he with
    | inl hnew => rw [hnew]
    | inr hold => exact m.keyed e hold.1

/-- What `Unlock` finds out about an entry, or about all of them: no secret to test, a secret that is not that of the
public key, a failed assertion, or the right secret. -/
inductive KeyTest
  | skipped
  | failed
  | assertFailed
  | passed
  deriving DecidableEq

namespace CCryptoKeyStore

variable (s : CCryptoKeyStore ops)

def isCrypted : Bool := s.crypto.isSome

def isLocked : Bool := decide (s.crypto = some [])

/-- The public keys with their secrets, in the order of the map. -/
def cryptedKeys : List (CPubKey × Bytes) := s.mapCryptedKeys.map.entries.map Prod.snd

/-- Null for the return value `false`. -/
def setCrypted : Option (CCryptoKeyStore ops) :=
  match s.crypto with
  | some _ => some s
  | none => if s.mapKeys.entries ≠ [] then none else some { s with crypto := some [] }

def setMasterKey (vMasterKey : Bytes) : CCryptoKeyStore ops := { s with crypto := some vMasterKey }

def lockKeyStore : Bool × CCryptoKeyStore ops :=
  match s.setCrypted with
  | none => (false, s)
  | some s => (true, s.setMasterKey [])

/-- The body of the loop in `Unlock`. `GetPubKey` asserts that the key is valid. -/
def testKey (ops : CrypterOps) (vMasterKeyIn : Bytes) (e : CPubKey × Bytes) : KeyTest :=
  if e.2.length < 1 then .skipped
  else
    match decryptSecret ops vMasterKeyIn e.2 (e.1.getHash ops) with
    | none => .failed
    | some vchSecret =>
      if vchSecret.length ≠ 32 then .failed
      else
        let key := CKey.default.set vchSecret e.1.isCompressed
        if !key.fValid then .assertFailed
        else if ops.getPubKey key ≠ e.1 then .failed
        else .passed

/-- The loop ends with the first entry that has a secret. -/
def testKeys (ops : CrypterOps) (vMasterKeyIn : Bytes) : List (CPubKey × Bytes) → KeyTest
  | [] => .skipped
  | e :: l => match testKey ops vMasterKeyIn e with
    | .skipped => testKeys ops vMasterKeyIn l
    | result => result

/-- Whether `Unlock` lets the key in; null for a failed assertion. At least one key must pass the test, unless there
is none at all. -/
def accepts (vMasterKeyIn : Bytes) : Option Bool :=
  match testKeys ops vMasterKeyIn s.cryptedKeys with
  | .skipped => some s.cryptedKeys.isEmpty
  | .failed => some false
  | .assertFailed => none
  | .passed => some true

/-- Null for a failed assertion. -/
def unlock (vMasterKeyIn : Bytes) : Option (Bool × CCryptoKeyStore ops) :=
  match s.setCrypted with
  | none => some (false, s)
  | some s => match s.accepts vMasterKeyIn with
    | none => none
    | some false => some (false, s)
    | some true => some (true, s.setMasterKey vMasterKeyIn)

def addCryptedKey (vchPubKey : CPubKey) (vchCryptedSecret : Bytes) : Bool × CCryptoKeyStore ops :=
  match s.setCrypted with
  | none => (false, s)
  | some s => (true, { s with mapCryptedKeys := s.mapCryptedKeys.put vchPubKey vchCryptedSecret })

def addKeyPubKey (key : CKey) (pubkey : CPubKey) : Bool × CCryptoKeyStore ops :=
  match s.crypto with
  | none => (true, { s with mapKeys := s.mapKeys.put (ops.getID pubkey).toFin key })
  | some vMasterKey =>
    if s.isLocked then (false, s)
    else
      match encryptSecret ops vMasterKey key.bytes (pubkey.getHash ops) with
      | none => (false, s)
      | some vchCryptedSecret => s.addCryptedKey pubkey vchCryptedSecret

/-- What is left in `keyOut`, where the return value is `true`. -/
def getKey (address : CKeyID) (keyOut : CKey) : Option CKey :=
  match s.crypto with
  | none => s.mapKeys.get? address.toFin
  | some vMasterKey =>
    match s.mapCryptedKeys.map.get? address.toFin with
    | none => none
    | some e =>
      match decryptSecret ops vMasterKey e.2 (e.1.getHash ops) with
      | none => none
      | some vchSecret => if vchSecret.length ≠ 32 then none else some (keyOut.set vchSecret e.1.isCompressed)

/-- The loop in `EncryptKeys`; null for a failed assertion. -/
def encryptLoop (vMasterKeyIn : Bytes) : List CKey → CCryptoKeyStore ops → Option (Bool × CCryptoKeyStore ops)
  | [], s => some (true, s)
  | key :: keys, s =>
    if !key.fValid then none
    else
      let vchPubKey := ops.getPubKey key
      match encryptSecret ops vMasterKeyIn key.bytes (vchPubKey.getHash ops) with
      | none => some (false, s)
      | some vchCryptedSecret => match s.addCryptedKey vchPubKey vchCryptedSecret with
        | (false, s) => some (false, s)
        | (true, s) => encryptLoop vMasterKeyIn keys s

/-- The keys of `mapKeys`. -/
def plainKeys : List CKey := s.mapKeys.entries.map Prod.snd

def encryptKeys (vMasterKeyIn : Bytes) : Option (Bool × CCryptoKeyStore ops) :=
  if s.cryptedKeys ≠ [] ∨ s.isCrypted then some (false, s)
  else
    match encryptLoop vMasterKeyIn s.plainKeys { s with crypto := some [] } with
    | none => none
    | some (false, s) => some (false, s)
    | some (true, s) => some (true, { s with mapKeys := OrderedMap.empty })

end CCryptoKeyStore

end AliasWallet
