import AliasWallet.Crypto.Stealth
import AliasWallet.Wallet.CryptoStoreSpec
import AliasWallet.Wallet.ExtKeyCrypt
import AliasWallet.Wallet.StealthAddresses

/-!
# The passphrase of a wallet

The master key is kept encrypted under a key that is derived from the passphrase. `Lock` and `Unlock` take the secrets
of the key store, of the stealth addresses and of the extended keys away and bring them back; to change the passphrase
the wallet is locked, and opened with the old passphrase.
-/

namespace AliasWallet
open Lib

def WALLET_CRYPTO_SALT_SIZE : Nat := 8

/-- What locking and unlocking a wallet use beside the crypter. -/
structure PassphraseOps (Pt : Type) extends CrypterOps where
  curve : Curve Pt
  sha256 : Bytes → Bytes
  ext : ExtKeyOps
  /-- `EVP_BytesToKey` for AES-256-CBC: the key and the initial vector of a salt, data and a number of rounds. -/
  bytesToKey : Bytes → Bytes → UInt32 → Bytes × Bytes
  /-- `scrypt_salted_multiround_hash`. -/
  scryptHash : Bytes → Bytes → UInt32 → Bytes

structure CMasterKey where
  vchCryptedKey : Bytes
  vchSalt : Bytes
  nDerivationMethod : UInt32
  nDeriveIterations : UInt32
  vchOtherDerivationParameters : Bytes
  deriving DecidableEq, Repr

structure CStealthKeyMetadata where
  pkEphem : CPubKey
  pkScan : CPubKey
  deriving DecidableEq

/-- The secrets of a wallet: its key store, its stealth addresses, its master ext key and its accounts. -/
structure WalletKeys (ops : CrypterOps) where
  store : CCryptoKeyStore ops
  stealthAddresses : List CStealthAddress
  mapStealthKeyMeta : CKeyID → Option CStealthKeyMetadata
  pEkMaster : Option CStoredExtKey
  mapExtAccounts : List CExtKeyAccount

/-- The records of the wallet file that are read or written: the stealth addresses by their scan public keys, and the
master keys. -/
structure PassphraseDB where
  stealth : Bytes → Option CStealthAddress
  masterKeys : UInt32 → Option CMasterKey

structure PassphraseWallet (ops : CrypterOps) where
  keys : WalletKeys ops
  mapMasterKeys : List (UInt32 × CMasterKey)
  db : PassphraseDB

variable {Pt : Type}

section Derive

variable (ops : PassphraseOps Pt) (strKeyData chSalt : Bytes) (nRounds nDerivationMethod : UInt32)

/-- The key and the initial vector. Other methods derive nothing. -/
def setKeyFromPassphrase : Option (Bytes × Bytes) :=
  if nRounds < 1 ∨ chSalt.length ≠ WALLET_CRYPTO_SALT_SIZE then none
  else if nDerivationMethod = 0 then some (ops.bytesToKey chSalt strKeyData nRounds)
  else if nDerivationMethod = 1 then
    some (ops.bytesToKey chSalt (ops.scryptHash strKeyData chSalt nRounds) nRounds)
  else none

/-- `SetKeyFromPassphrase` and `Decrypt`: the wallet's master key. -/
def CMasterKey.decryptKey (kMasterKey : CMasterKey) : Option Bytes :=
  match setKeyFromPassphrase ops strKeyData kMasterKey.vchSalt kMasterKey.nDeriveIterations
    kMasterKey.nDerivationMethod with
  | none => none
  | some crypter => ops.aesDecrypt crypter.1 crypter.2 kMasterKey.vchCryptedKey

/-- The record for a new passphrase, and whether the master key could be encrypted. `nTimed` is what two timed
derivations make of the iterations. -/
def CMasterKey.reencrypt (kMasterKey : CMasterKey) (nTimed : UInt32) (vMasterKey : Bytes) : Bool × CMasterKey :=
  let kMasterKey := { kMasterKey with nDeriveIterations := if nTimed < 25000 then 25000 else nTimed }
  match setKeyFromPassphrase ops strKeyData kMasterKey.vchSalt kMasterKey.nDeriveIterations
    kMasterKey.nDerivationMethod with
  | none => (false, kMasterKey)
  | some crypter =>
    (true, { kMasterKey with vchCryptedKey := ops.aesEncrypt crypter.1 crypter.2 vMasterKey })

end Derive

section Stealth

variable (ops : PassphraseOps Pt) (db : PassphraseDB)

/-- `Lock` for one stealth address. One that is not owned is passed over, and so is one that cannot be read. -/
def CStealthAddress.reload (sxAddr : CStealthAddress) : CStealthAddress :=
  if sxAddr.scan_secret.length < 32 then sxAddr
  else
    match db.stealth sxAddr.scan_pubkey with
    | none => sxAddr
    | some sxAddrTemp => { sxAddr with spend_secret := sxAddrTemp.spend_secret }

/-- `UnlockStealthAddresses` for one address; a secret that is not that of the spend public key is left. -/
def CStealthAddress.decrypt (vMasterKeyIn : Bytes) (sxAddr : CStealthAddress) : CStealthAddress :=
  if sxAddr.scan_secret.length < EC_SECRET_SIZE then sxAddr
  else
    match decryptSecret ops.toCrypterOps vMasterKeyIn sxAddr.spend_secret (ops.hash sxAddr.spend_pubkey) with
    | none => sxAddr
    | some vchSecret =>
      if vchSecret.length ≠ EC_SECRET_SIZE then sxAddr
      else if secretToPublicKey ops.curve vchSecret ≠ some sxAddr.spend_pubkey then sxAddr
      else { sxAddr with spend_secret := vchSecret }

/-- The key of a public key that was received without its secret, if the wallet has all it takes to derive it. -/
def expandedKey (stealthAddresses : List CStealthAddress) (mapStealthKeyMeta : CKeyID → Option CStealthKeyMetadata)
    (pubKey : CPubKey) : Option CKey := do
  let sxKeyMeta ← mapStealthKeyMeta (ops.getID pubKey)
  let si ← stealthAddresses.find? fun sx => sx.scan_pubkey = sxKeyMeta.pkScan.vch
  if si.spend_secret.length ≠ EC_SECRET_SIZE ∨ si.scan_secret.length ≠ EC_SECRET_SIZE then none
  else
    let sSpendR ← stealthSecretSpend ops.curve ops.sha256 si.scan_secret sxKeyMeta.pkEphem.vch si.spend_secret
    let ckey := CKey.default.set sSpendR true
    if !ckey.fValid then none
    else
      let cpkT := ops.getPubKey ckey
      if !cpkT.isValid then none
      else if cpkT ≠ pubKey then none
      else some ckey

end Stealth

namespace WalletKeys

variable (ops : PassphraseOps Pt)

/-- The body of the loop over the keys of the store in `UnlockStealthAddresses`. -/
def expandStep (keys : WalletKeys ops.toCrypterOps) (store : CCryptoKeyStore ops.toCrypterOps) (e : CPubKey × Bytes) :
    CCryptoKeyStore ops.toCrypterOps :=
  if e.2.length ≠ 0 then store
  else
    match expandedKey ops keys.stealthAddresses keys.mapStealthKeyMeta e.1 with
    | none => store
    | some ckey => (store.addKeyPubKey ckey e.1).2

/-- `UnlockStealthAddresses`, which returns true. Every key is written under the id that the loop is at. -/
def unlockStealthAddresses (keys : WalletKeys ops.toCrypterOps) (vMasterKeyIn : Bytes) :
    WalletKeys ops.toCrypterOps :=
  let keys := { keys with stealthAddresses := keys.stealthAddresses.map (CStealthAddress.decrypt ops vMasterKeyIn) }
  { keys with store := keys.store.cryptedKeys.foldl (expandStep ops keys) keys.store }

def extKeyLock (keys : WalletKeys ops.toCrypterOps) : WalletKeys ops.toCrypterOps :=
  { keys with
    pEkMaster := keys.pEkMaster.map fun sek => { sek with kp := { sek.kp with key := none }, fLocked := true }
    mapExtAccounts := keys.mapExtAccounts.map fun sea => sea.setChains (sea.vExtKeys.map CStoredExtKey.lock) }

/-- What the extended keys use of the crypter under a master key. -/
def extOps (vMKey : Bytes) : UnlockOps where
  toExtKeyOps :=
    { ops.ext with
      encryptSecret := fun vchSecret pubkey => encryptSecret ops.toCrypterOps vMKey vchSecret (ops.hash pubkey)
      decryptSecret := fun vchCrypted pubkey => decryptSecret ops.toCrypterOps vMKey vchCrypted (ops.hash pubkey) }
  validKey := CKey.check
  getPubKey := fun vchSecret => (ops.getPubKey ⟨vchSecret, true, true⟩).vch

/-- The accounts, up to the first with a chain that fails. -/
def extUnlockAccounts (vMKey : Bytes) : List CExtKeyAccount → List CExtKeyAccount
  | [] => []
  | sea :: seas =>
    match unlockChains (extOps ops vMKey) sea.vExtKeys with
    | (false, vExtKeys) => sea.setChains vExtKeys :: seas
    | (true, vExtKeys) => sea.setChains vExtKeys :: extUnlockAccounts vMKey seas

def extKeyUnlock (keys : WalletKeys ops.toCrypterOps) (vMKey : Bytes) : WalletKeys ops.toCrypterOps :=
  match keys.pEkMaster with
  | none => { keys with mapExtAccounts := extUnlockAccounts ops vMKey keys.mapExtAccounts }
  | some sek =>
    match sek.unlock (extOps ops vMKey) with
    | (false, sek) => { keys with pEkMaster := some sek }
    | (true, sek) =>
      { keys with pEkMaster := some sek, mapExtAccounts := extUnlockAccounts ops vMKey keys.mapExtAccounts }

/-- `CCryptoKeyStore::Unlock` that has returned true, and `UnlockStealthAddresses`. -/
def opened (keys : WalletKeys ops.toCrypterOps) (vMasterKey : Bytes) : WalletKeys ops.toCrypterOps :=
  unlockStealthAddresses ops { keys with store := keys.store.setMasterKey vMasterKey } vMasterKey

end WalletKeys

namespace PassphraseWallet

variable (ops : PassphraseOps Pt) (w : PassphraseWallet ops.toCrypterOps)

def lock : Bool × PassphraseWallet ops.toCrypterOps :=
  if w.keys.store.isLocked then (true, w)
  else
    let keys := { w.keys with stealthAddresses := w.keys.stealthAddresses.map (CStealthAddress.reload w.db) }
    let keys := keys.extKeyLock ops
    match keys.store.lockKeyStore with
    | (ok, store) => (ok, { w with keys := { keys with store } })

/-- What follows in `Unlock` once the key store is open. `processLocked` is what is done with the open keys at the end,
`ProcessLockedAnonOutputs` and `ExtKeyCreateInitial`. -/
def finishUnlock (processLocked : WalletKeys ops.toCrypterOps → WalletKeys ops.toCrypterOps)
    (keys : WalletKeys ops.toCrypterOps) (vMasterKey : Bytes) : PassphraseWallet ops.toCrypterOps :=
  { w with keys := processLocked ((keys.unlockStealthAddresses ops vMasterKey).extKeyUnlock ops vMasterKey) }

/-- `Unlock`, which tries the first master key. Null for a failed assertion. -/
def unlock (processLocked : WalletKeys ops.toCrypterOps → WalletKeys ops.toCrypterOps) (strWalletPassphrase : Bytes) :
    Option (Bool × PassphraseWallet ops.toCrypterOps) :=
  if !w.keys.store.isLocked || !w.keys.store.isCrypted then some (false, w)
  else
    match w.mapMasterKeys with
    | [] => some (true, finishUnlock ops w processLocked w.keys [])
    | pMasterKey :: _ =>
      match pMasterKey.2.decryptKey ops strWalletPassphrase with
      | none => some (false, w)
      | some vMasterKey => match w.keys.store.unlock vMasterKey with
        | none => none
        | some (false, store) => some (false, { w with keys := { w.keys with store } })
        | some (true, store) => some (true, finishUnlock ops w processLocked { w.keys with store } vMasterKey)

/-- The loop in `ChangeWalletPassphrase`, after some master keys that have not opened the key store. The file may fail
to take the record, which is not noticed. -/
def changeLoop (strOldWalletPassphrase strNewWalletPassphrase : Bytes) (nTimed : UInt32) (fWritten fWasLocked : Bool)
    (keys : WalletKeys ops.toCrypterOps) (db : PassphraseDB) (before : List (UInt32 × CMasterKey)) :
    List (UInt32 × CMasterKey) → Option (Bool × PassphraseWallet ops.toCrypterOps)
  | [] => some (false, ⟨keys, before, db⟩)
  | pMasterKey :: rest =>
    match pMasterKey.2.decryptKey ops strOldWalletPassphrase with
    | none => some (false, ⟨keys, before ++ pMasterKey :: rest, db⟩)
    | some vMasterKey => match keys.store.unlock vMasterKey with
      | none => none
      | some (false, store) =>
        changeLoop strOldWalletPassphrase strNewWalletPassphrase nTimed fWritten fWasLocked { keys with store } db
          (before ++ [pMasterKey]) rest
      | some (true, store) =>
        let keys := WalletKeys.unlockStealthAddresses ops { keys with store } vMasterKey
        match pMasterKey.2.reencrypt ops strNewWalletPassphrase nTimed vMasterKey with
        | (false, kMasterKey) => some (false, ⟨keys, before ++ (pMasterKey.1, kMasterKey) :: rest, db⟩)
        | (true, kMasterKey) =>
          let db := if fWritten then
            { db with masterKeys := Function.update db.masterKeys pMasterKey.1 (some kMasterKey) } else db
          let w := ⟨keys, before ++ (pMasterKey.1, kMasterKey) :: rest, db⟩
          some (true, if fWasLocked then (lock ops w).2 else w)

def changeWalletPassphrase (strOldWalletPassphrase strNewWalletPassphrase : Bytes) (nTimed : UInt32)
    (fWritten : Bool) : Option (Bool × PassphraseWallet ops.toCrypterOps) :=
  let fWasLocked := w.keys.store.isLocked
  let w := (lock ops w).2
  changeLoop ops strOldWalletPassphrase strNewWalletPassphrase nTimed fWritten fWasLocked w.keys w.db []
    w.mapMasterKeys

end PassphraseWallet

end AliasWallet
