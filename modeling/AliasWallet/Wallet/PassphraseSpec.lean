import AliasWallet.Wallet.Passphrase

/-!
# A change of the passphrase

The change locks the wallet and opens the key store and the stealth addresses with the old passphrase, not the extended
keys. So it leaves a locked wallet as it was; of an open one it locks the chains of the accounts, and all of it where
the old passphrase is refused.
-/

namespace AliasWallet
open Lib

variable {Pt : Type}

/-- What is documented of the crypter and of the derivation, which makes keys for AES-256. -/
structure PassphraseOps.Right (ops : PassphraseOps Pt) : Prop extends ops.toCrypterOps.Right where
  bytesToKey_length : ∀ chSalt strKeyData nRounds,
    (ops.bytesToKey chSalt strKeyData nRounds).1.length = WALLET_CRYPTO_KEY_SIZE

section Stealth

variable {ops : PassphraseOps Pt} {db : PassphraseDB} {sxAddr : CStealthAddress}

/-- Decryption changes the spend secret and nothing else. -/
theorem CStealthAddress.decrypt_frame (ops : PassphraseOps Pt) (vMasterKeyIn : Bytes) (sxAddr : CStealthAddress) :
    ∃ spend_secret, sxAddr.decrypt ops vMasterKeyIn = { sxAddr with spend_secret } := by
  unfold decrypt
  split
  · exact ⟨sxAddr.spend_secret, rfl⟩
  split
  · exact ⟨sxAddr.spend_secret, rfl⟩
  split
  · exact ⟨sxAddr.spend_secret, rfl⟩
  split
  · exact ⟨sxAddr.spend_secret, rfl⟩
  · exact ⟨_, rfl⟩

/-- Without a master key nothing is decrypted. -/
theorem CStealthAddress.decrypt_nil (sxAddr : CStealthAddress) : sxAddr.decrypt ops [] = sxAddr := by
  unfold decrypt
  split
  · rfl
  · rfl

theorem CStealthAddress.reload_of_unowned (h : sxAddr.scan_secret.length < 32) : sxAddr.reload db = sxAddr := if_pos h

theorem CStealthAddress.decrypt_of_unowned (h : sxAddr.scan_secret.length < 32) (vMasterKeyIn : Bytes) :
    sxAddr.decrypt ops vMasterKeyIn = sxAddr := if_pos h

theorem CStealthAddress.reload_of_stored {sxAddrTemp : CStealthAddress} (h : ¬ sxAddr.scan_secret.length < 32)
    (hstored : db.stealth sxAddr.scan_pubkey = some sxAddrTemp) :
    sxAddr.reload db = { sxAddr with spend_secret := sxAddrTemp.spend_secret } := by
  rw [reload, if_neg h, hstored]

/-- A lock takes back what an unlock has done to a stealth address. -/
theorem CStealthAddress.reload_decrypt (vMasterKeyIn : Bytes)
    (h : ¬ sxAddr.scan_secret.length < 32 → (db.stealth sxAddr.scan_pubkey).isSome) :
    ((sxAddr.reload db).decrypt ops vMasterKeyIn).reload db = sxAddr.reload db := by
  by_cases hlength : sxAddr.scan_secret.length < 32
  · rw [reload_of_unowned hlength, decrypt_of_unowned hlength, reload_of_unowned hlength]
  · obtain ⟨sxAddrTemp, hstored⟩ := Option.isSome_iff_exists.mp (h hlength)
    obtain ⟨spend, hdecrypt⟩ := decrypt_frame ops vMasterKeyIn (sxAddr.reload db)
    rw [hdecrypt, reload_of_stored hlength hstored]
    exact @reload_of_stored db { sxAddr with spend_secret := spend } sxAddrTemp hlength hstored

end Stealth

section Expand

variable {ops : PassphraseOps Pt} {stealthAddresses : List CStealthAddress}
  {mapStealthKeyMeta : CKeyID → Option CStealthKeyMetadata} {vMasterKey : Bytes}

/-- The key that is derived for a public key is its key. -/
theorem expandedKey_spec {pubKey : CPubKey} {ckey : CKey}
    (h : expandedKey ops stealthAddresses mapStealthKeyMeta pubKey = some ckey) :
    ckey.Held ∧ ops.getPubKey ckey = pubKey := by
  unfold expandedKey at h
  obtain ⟨sxKeyMeta, -, h⟩ := Option.bind_eq_some_iff.mp h
  obtain ⟨si, -, h⟩ := Option.bind_eq_some_iff.mp h
  split at h
  · cases h
  obtain ⟨sSpendR, -, h⟩ := Option.bind_eq_some_iff.mp h
  dsimp only at h
  cases hvalid : (CKey.default.set sSpendR true).fValid with
  | false =>
    rw [hvalid, if_pos (by decide)] at h
    cases h
  | true =>
    rw [hvalid, if_neg (by decide)] at h
    split at h
    · cases h
    split at h
    · cases h
    · obtain rfl := Option.some.inj h
      exact ⟨(CKey.held_set hvalid).1, not_not.mp ‹_›⟩

/-- What the loop over the key store writes for an entry. -/
def expandedEntry (ops : PassphraseOps Pt) (stealthAddresses : List CStealthAddress)
    (mapStealthKeyMeta : CKeyID → Option CStealthKeyMetadata) (vMasterKey : Bytes) (e : CPubKey × Bytes) :
    Option (CPubKey × Bytes) :=
  if e.2.length ≠ 0 then none
  else
    match expandedKey ops stealthAddresses mapStealthKeyMeta e.1 with
    | none => none
    | some ckey =>
      (encryptSecret ops.toCrypterOps vMasterKey ckey.vch (e.1.getHash ops.toCrypterOps)).map fun vch => (e.1, vch)

theorem expandedEntry_spec {e e' : CPubKey × Bytes}
    (h : expandedEntry ops stealthAddresses mapStealthKeyMeta vMasterKey e = some e') :
    e.2 = [] ∧ Sealed ops.toCrypterOps vMasterKey e' := by
  unfold expandedEntry at h
  by_cases hempty : e.2.length ≠ 0
  · rw [if_pos hempty] at h
    cases h
  rw [if_neg hempty] at h
  apply And.intro (List.length_eq_zero_iff.mp (not_not.mp hempty))
  cases hkey : expandedKey ops stealthAddresses mapStealthKeyMeta e.1 with
  | none =>
    rw [hkey] at h
    cases h
  | some ckey =>
    rw [hkey] at h
    obtain ⟨vch, hvch, rfl⟩ := Option.map_eq_some_iff.mp h
    have hspec := expandedKey_spec hkey
    exact ⟨ckey, hspec.1, hspec.2, hvch⟩

/-- The entry after the loop. -/
def expandEntry (ops : PassphraseOps Pt) (stealthAddresses : List CStealthAddress)
    (mapStealthKeyMeta : CKeyID → Option CStealthKeyMetadata) (vMasterKey : Bytes) (e : CPubKey × Bytes) :
    CPubKey × Bytes :=
  (expandedEntry ops stealthAddresses mapStealthKeyMeta vMasterKey e).getD e

theorem expandEntry_cases (ops : PassphraseOps Pt) (stealthAddresses : List CStealthAddress)
    (mapStealthKeyMeta : CKeyID → Option CStealthKeyMetadata) (vMasterKey : Bytes) (e : CPubKey × Bytes) :
    expandEntry ops stealthAddresses mapStealthKeyMeta vMasterKey e = e ∨
      e.2 = [] ∧ Sealed ops.toCrypterOps vMasterKey
        (expandEntry ops stealthAddresses mapStealthKeyMeta vMasterKey e) := by
  unfold expandEntry
  cases hentry : expandedEntry ops stealthAddresses mapStealthKeyMeta vMasterKey e with
  | none => exact .inl rfl
  | some e' => exact .inr (expandedEntry_spec hentry)

theorem expandEntry_of_secret {e : CPubKey × Bytes} (h : e.2 ≠ []) :
    expandEntry ops stealthAddresses mapStealthKeyMeta vMasterKey e = e := by
  rw [expandEntry, expandedEntry, if_pos (List.length_pos_of_ne_nil h).ne']
  rfl

/-- A second loop finds nothing to do. -/
theorem expandEntry_expandEntry (hops : ops.toCrypterOps.Right) (e : CPubKey × Bytes) :
    expandEntry ops stealthAddresses mapStealthKeyMeta vMasterKey
      (expandEntry ops stealthAddresses mapStealthKeyMeta vMasterKey e) =
      expandEntry ops stealthAddresses mapStealthKeyMeta vMasterKey e := by
  cases expandEntry_cases ops stealthAddresses mapStealthKeyMeta vMasterKey e with
  | inl hsame => rw [hsame, hsame]
  | inr hsealed => exact expandEntry_of_secret (hsealed.2.ne_nil hops)

/-- The test that a key has passed is passed after the loop. -/
theorem testKeys_expanded (hops : ops.toCrypterOps.Right) {l : List (CPubKey × Bytes)}
    (h : CCryptoKeyStore.testKeys ops.toCrypterOps vMasterKey l = .passed) :
    CCryptoKeyStore.testKeys ops.toCrypterOps vMasterKey
      (l.map (expandEntry ops stealthAddresses mapStealthKeyMeta vMasterKey)) = .passed := by
  induction l with
  | nil => cases h
  | cons e l ih =>
    rw [List.map_cons, CCryptoKeyStore.testKeys]
    cases expandEntry_cases ops stealthAddresses mapStealthKeyMeta vMasterKey e with
    | inr hsealed => rw [hsealed.2.testKey_eq hops]
    | inl hsame =>
      rw [hsame]
      by_cases hempty : e.2 = []
      · rw [CCryptoKeyStore.testKeys, CCryptoKeyStore.testKey_of_empty hempty] at h
        rw [CCryptoKeyStore.testKey_of_empty hempty]
        exact ih h
      · rw [CCryptoKeyStore.testKeys] at h
        cases htest : CCryptoKeyStore.testKey ops.toCrypterOps vMasterKey e with
        | skipped =>
          rw [htest] at h
          exact ih h
        | failed =>
          rw [htest] at h
          cases h
        | assertFailed =>
          rw [htest] at h
          cases h
        | passed => rfl

end Expand

namespace WalletKeys

section Store

variable {ops : PassphraseOps Pt} {keys : WalletKeys ops.toCrypterOps} {vMasterKey : Bytes}
  {store store' : CCryptoKeyStore ops.toCrypterOps}

theorem store_ext (hkeys : store.mapKeys = store'.mapKeys) (hcrypto : store.crypto = store'.crypto)
    (hmap : store.mapCryptedKeys.map = store'.mapCryptedKeys.map) : store = store' := by
  cases store with
  | mk mapKeys crypto mapCryptedKeys => cases store' with
    | mk mapKeys' crypto' mapCryptedKeys' =>
      cases mapCryptedKeys
      cases mapCryptedKeys'
      cases hkeys
      cases hcrypto
      cases hmap
      rfl

/-- A key that joins an open store; without a master key there is nothing to encrypt it with. -/
theorem addKeyPubKey_of_crypto (hcrypto : store.crypto = some vMasterKey) {key : CKey} (hheld : key.Held)
    (pubkey : CPubKey) : (store.addKeyPubKey key pubkey).2 =
      match encryptSecret ops.toCrypterOps vMasterKey key.vch (pubkey.getHash ops.toCrypterOps) with
      | none => store
      | some vch => { store with mapCryptedKeys := store.mapCryptedKeys.put pubkey vch } := by
  rw [CCryptoKeyStore.addKeyPubKey, hcrypto]
  dsimp only
  by_cases hlocked : store.isLocked = true
  · have hnil : vMasterKey = [] := by
      rw [CCryptoKeyStore.isLocked, decide_eq_true_iff, hcrypto] at hlocked
      exact Option.some.inj hlocked
    rw [if_pos hlocked, hnil]
    rfl
  · rw [if_neg hlocked, hheld.bytes_eq]
    cases encryptSecret ops.toCrypterOps vMasterKey key.vch (pubkey.getHash ops.toCrypterOps) with
    | none => rfl
    | some vch =>
      dsimp only
      rw [CCryptoKeyStore.addCryptedKey_of_crypto (by rw [hcrypto]; rfl), hcrypto]

/-- One key of the loop. -/
theorem expandStep_spec (keys : WalletKeys ops.toCrypterOps) (hcrypto : store.crypto = some vMasterKey)
    (e : CPubKey × Bytes) :
    (expandStep ops keys store e).crypto = some vMasterKey ∧
    (expandStep ops keys store e).mapKeys = store.mapKeys ∧
    (expandStep ops keys store e).mapCryptedKeys.map =
      (expandedEntry ops keys.stealthAddresses keys.mapStealthKeyMeta vMasterKey e).elim store.mapCryptedKeys.map
        (store.mapCryptedKeys.map.put (ops.getID e.1).toFin) := by
  unfold expandStep expandedEntry
  by_cases hempty : e.2.length ≠ 0
  · rw [if_pos hempty, if_pos hempty]
    exact ⟨hcrypto, rfl, rfl⟩
  rw [if_neg hempty, if_neg hempty]
  cases hkey : expandedKey ops keys.stealthAddresses keys.mapStealthKeyMeta e.1 with
  | none => exact ⟨hcrypto, rfl, rfl⟩
  | some ckey =>
    dsimp only
    rw [addKeyPubKey_of_crypto hcrypto (expandedKey_spec hkey).1]
    cases encryptSecret ops.toCrypterOps vMasterKey ckey.vch (e.1.getHash ops.toCrypterOps) with
    | none => exact ⟨hcrypto, rfl, rfl⟩
    | some vch => exact ⟨hcrypto, rfl, rfl⟩

theorem expandLoop_spec (keys : WalletKeys ops.toCrypterOps) (l : List (Fin (2 ^ 160) × (CPubKey × Bytes)))
    (hl : ∀ e ∈ l, e.1 = (ops.getID e.2.1).toFin) (hcrypto : store.crypto = some vMasterKey) :
    ((l.map Prod.snd).foldl (expandStep ops keys) store).crypto = some vMasterKey ∧
    ((l.map Prod.snd).foldl (expandStep ops keys) store).mapKeys = store.mapKeys ∧
    ((l.map Prod.snd).foldl (expandStep ops keys) store).mapCryptedKeys.map =
      OrderedMap.updates
        (fun _ e => expandedEntry ops keys.stealthAddresses keys.mapStealthKeyMeta vMasterKey e) l
        store.mapCryptedKeys.map := by
  induction l generalizing store with
  | nil => exact ⟨hcrypto, rfl, rfl⟩
  | cons e l ih =>
    have hstep := expandStep_spec keys hcrypto e.2
    have hrest := ih (fun e he => hl e (List.mem_cons_of_mem _ he)) hstep.1
    rw [List.map_cons, List.foldl_cons]
    refine ⟨hrest.1, hrest.2.1.trans hstep.2.1, ?_⟩
    rw [hrest.2.2, hstep.2.2, ← hl e List.mem_cons_self]
    rfl

/-- The opened key store: its secrets are those of before, and new ones for keys that came without. -/
theorem opened_store (keys : WalletKeys ops.toCrypterOps) (vMasterKey : Bytes) :
    (keys.opened ops vMasterKey).store.crypto = some vMasterKey ∧
    (keys.opened ops vMasterKey).store.mapKeys = keys.store.mapKeys ∧
    (keys.opened ops vMasterKey).store.mapCryptedKeys.map = keys.store.mapCryptedKeys.map.mapValues fun _ e =>
      expandEntry ops (keys.stealthAddresses.map (CStealthAddress.decrypt ops vMasterKey)) keys.mapStealthKeyMeta
        vMasterKey e := by
  have hcrypto : (keys.store.setMasterKey vMasterKey).crypto = some vMasterKey := rfl
  have hloop := expandLoop_spec { keys with
      store := keys.store.setMasterKey vMasterKey
      stealthAddresses := keys.stealthAddresses.map (CStealthAddress.decrypt ops vMasterKey) }
    keys.store.mapCryptedKeys.map.entries keys.store.mapCryptedKeys.keyed hcrypto
  refine ⟨hloop.1, hloop.2.1, ?_⟩
  exact hloop.2.2.trans OrderedMap.updates_entries

end Store

section Relock

variable {ops : PassphraseOps Pt} {db : PassphraseDB} {keys : WalletKeys ops.toCrypterOps} {vMasterKey : Bytes}

/-- The keys after `Lock` of an open wallet. -/
def relocked (ops : PassphraseOps Pt) (db : PassphraseDB) (keys : WalletKeys ops.toCrypterOps) :
    WalletKeys ops.toCrypterOps where
  store := keys.store.setMasterKey []
  stealthAddresses := keys.stealthAddresses.map (CStealthAddress.reload db)
  mapStealthKeyMeta := keys.mapStealthKeyMeta
  pEkMaster := (keys.extKeyLock ops).pEkMaster
  mapExtAccounts := (keys.extKeyLock ops).mapExtAccounts

theorem relocked_congr {db' : PassphraseDB} (hdb : db'.stealth = db.stealth) :
    relocked ops db' keys = relocked ops db keys := by
  have hreload : CStealthAddress.reload db' = CStealthAddress.reload db := by
    funext sx
    rw [CStealthAddress.reload, CStealthAddress.reload, hdb]
  rw [relocked, relocked, hreload]

/-- The stealth addresses of the wallet are in its file. -/
def StealthStored (db : PassphraseDB) (stealthAddresses : List CStealthAddress) : Prop :=
  ∀ sx ∈ stealthAddresses, ¬ sx.scan_secret.length < 32 → (db.stealth sx.scan_pubkey).isSome

theorem lock_lock (sek : CStoredExtKey) : sek.lock.lock = sek.lock := by
  unfold CStoredExtKey.lock
  split
  · rename_i hcrypted
    exact if_pos hcrypted
  · rfl

/-- Locking again changes no extended key. -/
theorem extKeyLock_extKeyLock (keys : WalletKeys ops.toCrypterOps) :
    (keys.extKeyLock ops).extKeyLock ops = keys.extKeyLock ops := by
  have haccounts : ((keys.extKeyLock ops).extKeyLock ops).mapExtAccounts = (keys.extKeyLock ops).mapExtAccounts := by
    show List.map _ (List.map _ keys.mapExtAccounts) = List.map _ keys.mapExtAccounts
    rw [List.map_map]
    apply List.map_congr_left
    intro sea _
    show sea.setChains (List.map _ (List.map _ sea.vExtKeys)) = sea.setChains _
    rw [List.map_map]
    exact congrArg sea.setChains (List.map_congr_left fun sek _ => lock_lock sek)
  have hmaster : ((keys.extKeyLock ops).extKeyLock ops).pEkMaster = (keys.extKeyLock ops).pEkMaster := by
    unfold extKeyLock
    dsimp only
    cases keys.pEkMaster with
    | none => rfl
    | some sek => rfl
  show WalletKeys.mk _ _ _ ((keys.extKeyLock ops).extKeyLock ops).pEkMaster
    ((keys.extKeyLock ops).extKeyLock ops).mapExtAccounts = _
  rw [haccounts, hmaster]

theorem map_reload_decrypt (hstored : StealthStored db keys.stealthAddresses) :
    ((keys.stealthAddresses.map (CStealthAddress.reload db)).map (CStealthAddress.decrypt ops vMasterKey)).map
      (CStealthAddress.reload db) = keys.stealthAddresses.map (CStealthAddress.reload db) := by
  rw [List.map_map, List.map_map]
  apply List.map_congr_left
  intro sx hsx
  exact CStealthAddress.reload_decrypt vMasterKey (hstored sx hsx)

/-- A locked wallet that has been opened and locked again: what is left are the secrets that were new. -/
theorem relocked_opened (hstored : StealthStored db keys.stealthAddresses) :
    relocked ops db ((relocked ops db keys).opened ops vMasterKey) =
      { relocked ops db keys with
        store := ((relocked ops db keys).opened ops vMasterKey).store.setMasterKey [] } := by
  have hext := extKeyLock_extKeyLock keys
  have haccounts := congrArg WalletKeys.mapExtAccounts hext
  have hmaster := congrArg WalletKeys.pEkMaster hext
  show WalletKeys.mk _ (List.map _ (List.map _ (List.map _ keys.stealthAddresses))) keys.mapStealthKeyMeta
    ((keys.extKeyLock ops).extKeyLock ops).pEkMaster ((keys.extKeyLock ops).extKeyLock ops).mapExtAccounts = _
  rw [map_reload_decrypt hstored, haccounts, hmaster]
  rfl

/-- Opening the wallet again makes the same keys available. -/
theorem opened_opened (hops : ops.toCrypterOps.Right) (keys : WalletKeys ops.toCrypterOps) (vMasterKey : Bytes) :
    ({ keys with store := (keys.opened ops vMasterKey).store.setMasterKey [] } : WalletKeys ops.toCrypterOps).opened
      ops vMasterKey = keys.opened ops vMasterKey := by
  have hfirst := opened_store keys vMasterKey
  have hagain := opened_store
    ({ keys with store := (keys.opened ops vMasterKey).store.setMasterKey [] } : WalletKeys ops.toCrypterOps)
    vMasterKey
  have hmap : (OrderedMap.mapValues (fun _ e => expandEntry ops
      (keys.stealthAddresses.map (CStealthAddress.decrypt ops vMasterKey)) keys.mapStealthKeyMeta vMasterKey e)
      (keys.opened ops vMasterKey).store.mapCryptedKeys.map) =
      (keys.opened ops vMasterKey).store.mapCryptedKeys.map := by
    rw [hfirst.2.2]
    exact OrderedMap.mapValues_mapValues fun _ e => expandEntry_expandEntry hops e
  have hstore : (opened ops { keys with store := (keys.opened ops vMasterKey).store.setMasterKey [] }
      vMasterKey).store = (keys.opened ops vMasterKey).store :=
    store_ext hagain.2.1 (hagain.1.trans hfirst.1.symm) (hagain.2.2.trans hmap)
  show WalletKeys.mk (opened ops { keys with store := (keys.opened ops vMasterKey).store.setMasterKey [] }
      vMasterKey).store (keys.stealthAddresses.map (CStealthAddress.decrypt ops vMasterKey)) keys.mapStealthKeyMeta
      keys.pEkMaster keys.mapExtAccounts =
    WalletKeys.mk (opened ops keys vMasterKey).store
      (keys.stealthAddresses.map (CStealthAddress.decrypt ops vMasterKey)) keys.mapStealthKeyMeta keys.pEkMaster
      keys.mapExtAccounts
  rw [hstore]

/-- The key that has opened the store opens it again. -/
theorem opened_accepts (hops : ops.toCrypterOps.Right) (h : keys.store.accepts vMasterKey = some true) :
    (keys.opened ops vMasterKey).store.accepts vMasterKey = some true := by
  have hentries : (keys.opened ops vMasterKey).store.cryptedKeys = keys.store.cryptedKeys.map
      (expandEntry ops (keys.stealthAddresses.map (CStealthAddress.decrypt ops vMasterKey)) keys.mapStealthKeyMeta
        vMasterKey) := by
    rw [CCryptoKeyStore.cryptedKeys, (opened_store keys vMasterKey).2.2, CCryptoKeyStore.cryptedKeys,
      OrderedMap.mapValues, List.map_map, List.map_map]
    rfl
  rw [CCryptoKeyStore.accepts] at h ⊢
  rw [hentries]
  cases htest : CCryptoKeyStore.testKeys ops.toCrypterOps vMasterKey keys.store.cryptedKeys with
  | failed =>
    rw [htest] at h
    cases h
  | assertFailed =>
    rw [htest] at h
    cases h
  | passed => rw [testKeys_expanded hops htest]
  | skipped =>
    rw [htest] at h
    have hempty : keys.store.cryptedKeys = [] := List.isEmpty_iff.mp (Option.some.inj h)
    rw [hempty]
    rfl

end Relock

end WalletKeys

section Derive

variable {ops : PassphraseOps Pt} {strOld vMasterKey : Bytes} {kMasterKey : CMasterKey}

/-- A record that one passphrase decrypts can be encrypted for another, which then decrypts it. -/
theorem CMasterKey.reencrypt_spec (hops : ops.Right) (strNew : Bytes) (nTimed : UInt32)
    (h : kMasterKey.decryptKey ops strOld = some vMasterKey) :
    ∃ kMasterKey', kMasterKey.reencrypt ops strNew nTimed vMasterKey = (true, kMasterKey') ∧
      kMasterKey'.decryptKey ops strNew = some vMasterKey := by
  have hrounds : ¬ (if nTimed < 25000 then 25000 else nTimed) < 1 := by
    by_cases hfew : nTimed < 25000
    · rw [if_pos hfew]
      decide
    · rw [if_neg hfew]
      intro hzero
      exact hfew (UInt32.lt_trans hzero (by decide))
  have hderived : ∃ crypter, setKeyFromPassphrase ops strNew kMasterKey.vchSalt
      (if nTimed < 25000 then 25000 else nTimed) kMasterKey.nDerivationMethod = some crypter ∧
      crypter.1.length = WALLET_CRYPTO_KEY_SIZE := by
    unfold decryptKey setKeyFromPassphrase at h
    unfold setKeyFromPassphrase
    by_cases hrefused : kMasterKey.nDeriveIterations < 1 ∨ kMasterKey.vchSalt.length ≠ WALLET_CRYPTO_SALT_SIZE
    · rw [if_pos hrefused] at h
      cases h
    rw [if_neg hrefused] at h
    rw [if_neg fun hor => hor.elim hrounds fun hsalt => hrefused (.inr hsalt)]
    by_cases hsha512 : kMasterKey.nDerivationMethod = 0
    · rw [if_pos hsha512]
      exact ⟨_, rfl, hops.bytesToKey_length _ _ _⟩
    rw [if_neg hsha512] at h ⊢
    by_cases hscrypt : kMasterKey.nDerivationMethod = 1
    · rw [if_pos hscrypt]
      exact ⟨_, rfl, hops.bytesToKey_length _ _ _⟩
    · rw [if_neg hscrypt] at h
      cases h
  obtain ⟨crypter, hderived, hlength⟩ := hderived
  refine ⟨{ kMasterKey with
    nDeriveIterations := if nTimed < 25000 then 25000 else nTimed
    vchCryptedKey := ops.aesEncrypt crypter.1 crypter.2 vMasterKey }, ?_, ?_⟩
  · rw [reencrypt]
    dsimp only
    rw [hderived]
  · rw [decryptKey]
    dsimp only
    rw [hderived]
    exact hops.decrypt_encrypt crypter.1 crypter.2 vMasterKey hlength

end Derive

/-- What a passphrase meets in the master keys of a wallet. -/
inductive KeySearch
  | refused
  | assertFailed
  | opened (before : List (UInt32 × CMasterKey)) (pMasterKey : UInt32 × CMasterKey) (rest : List (UInt32 × CMasterKey))
      (vMasterKey : Bytes)
  deriving DecidableEq

/-- The first master key that opens the key store, where the passphrase decrypts all up to it. -/
def findMasterKey (ops : PassphraseOps Pt) (accepts : Bytes → Option Bool) (strWalletPassphrase : Bytes) :
    List (UInt32 × CMasterKey) → KeySearch
  | [] => .refused
  | pMasterKey :: rest =>
    match pMasterKey.2.decryptKey ops strWalletPassphrase with
    | none => .refused
    | some vMasterKey => match accepts vMasterKey with
      | none => .assertFailed
      | some true => .opened [] pMasterKey rest vMasterKey
      | some false => match findMasterKey ops accepts strWalletPassphrase rest with
        | .opened before pMasterKey' rest vMasterKey => .opened (pMasterKey :: before) pMasterKey' rest vMasterKey
        | result => result

namespace PassphraseWallet

section Steps

variable {ops : PassphraseOps Pt} {w : PassphraseWallet ops.toCrypterOps} {strOld strNew : Bytes}

/-- An encrypted wallet between two calls: its stealth addresses are in its file, in memory they are as the master key
that it holds decrypts them, and while it is locked its extended keys are. -/
structure Coherent (w : PassphraseWallet ops.toCrypterOps) : Prop where
  crypted : w.keys.store.isCrypted = true
  stored : WalletKeys.StealthStored w.db w.keys.stealthAddresses
  stealth : ∀ sx ∈ w.keys.stealthAddresses,
    (sx.reload w.db).decrypt ops (w.keys.store.crypto.getD []) = sx
  locked : w.keys.store.isLocked = true → w.keys.extKeyLock ops = w.keys

/-- The keys of an open wallet after `Lock`. -/
theorem lock_of_open (hcrypted : w.keys.store.crypto.isSome) (hopen : w.keys.store.isLocked = false) :
    (lock ops w).2 = { w with keys := WalletKeys.relocked ops w.db w.keys } := by
  rw [lock, hopen, if_neg (by decide)]
  show PassphraseWallet.mk { WalletKeys.relocked ops w.db w.keys with store := w.keys.store.lockKeyStore.2 }
    w.mapMasterKeys w.db = _
  rw [CCryptoKeyStore.lockKeyStore_of_crypto hcrypted]
  rfl

namespace Coherent

variable (h : w.Coherent)
include h

/-- In a locked wallet there is nothing left to lock. -/
theorem relocked_eq (hlocked : w.keys.store.isLocked = true) : WalletKeys.relocked ops w.db w.keys = w.keys := by
  have hcrypto : w.keys.store.crypto = some [] := of_decide_eq_true hlocked
  have hstore : w.keys.store.setMasterKey [] = w.keys.store := by
    rw [CCryptoKeyStore.setMasterKey, ← hcrypto]
  have hstealth : w.keys.stealthAddresses.map (CStealthAddress.reload w.db) = w.keys.stealthAddresses := by
    apply (List.map_congr_left _).trans (List.map_id' _)
    intro sx hsx
    have hsame := h.stealth sx hsx
    rwa [hcrypto, Option.getD_some, CStealthAddress.decrypt_nil] at hsame
  rw [WalletKeys.relocked, hstore, hstealth, h.locked hlocked]

/-- The keys after `Lock`. -/
theorem lock_eq : (lock ops w).2 = { w with keys := WalletKeys.relocked ops w.db w.keys } := by
  cases hlocked : w.keys.store.isLocked with
  | true =>
    rw [h.relocked_eq hlocked, lock, hlocked]
    rfl
  | false => exact lock_of_open h.crypted hlocked

end Coherent

/-- The loop over the master keys. -/
theorem changeLoop_eq (hops : ops.Right) (strOld strNew : Bytes) (nTimed : UInt32) (fWritten fWasLocked : Bool)
    (keys : WalletKeys ops.toCrypterOps) (db : PassphraseDB) (before l : List (UInt32 × CMasterKey))
    (hcrypted : keys.store.crypto.isSome) :
    match findMasterKey ops keys.store.accepts strOld l with
    | .refused =>
      changeLoop ops strOld strNew nTimed fWritten fWasLocked keys db before l = some (false, ⟨keys, before ++ l, db⟩)
    | .assertFailed => changeLoop ops strOld strNew nTimed fWritten fWasLocked keys db before l = none
    | .opened before' pMasterKey rest vMasterKey => keys.store.accepts vMasterKey = some true ∧
      (∀ first ∈ before'.head?, ∀ vFirst, first.2.decryptKey ops strOld = some vFirst →
        keys.store.accepts vFirst = some false) ∧
      pMasterKey.2.decryptKey ops strOld = some vMasterKey ∧
      ∃ kMasterKey db', kMasterKey.decryptKey ops strNew = some vMasterKey ∧ db'.stealth = db.stealth ∧
        changeLoop ops strOld strNew nTimed fWritten fWasLocked keys db before l =
          some (true, let w : PassphraseWallet ops.toCrypterOps :=
              ⟨keys.opened ops vMasterKey, before ++ before' ++ (pMasterKey.1, kMasterKey) :: rest, db'⟩
            if fWasLocked then (lock ops w).2 else w) := by
  induction l generalizing before with
  | nil =>
    show changeLoop ops strOld strNew nTimed fWritten fWasLocked keys db before [] = _
    rw [changeLoop, List.append_nil]
  | cons pMasterKey rest ih =>
    rw [findMasterKey, changeLoop]
    cases hdecrypt : pMasterKey.2.decryptKey ops strOld with
    | none => rfl
    | some vMasterKey =>
      dsimp only
      rw [CCryptoKeyStore.unlock_of_crypto hcrypted]
      cases haccepts : keys.store.accepts vMasterKey with
      | none => rfl
      | some accepted =>
        cases accepted with
        | true =>
          obtain ⟨kMasterKey, hreencrypt, hnew⟩ := CMasterKey.reencrypt_spec hops strNew nTimed hdecrypt
          refine ⟨haccepts, by simp, hdecrypt, kMasterKey, if fWritten then
            { db with masterKeys := Function.update db.masterKeys pMasterKey.1 (some kMasterKey) } else db, hnew,
            ?_, ?_⟩
          · cases fWritten with
            | false => rfl
            | true => rfl
          · dsimp only
            rw [hreencrypt, List.append_nil]
            rfl
        | false =>
          dsimp only
          have hrest := ih (before ++ [pMasterKey])
          cases hfind : findMasterKey ops keys.store.accepts strOld rest with
          | refused =>
            rw [hfind] at hrest
            dsimp only at hrest ⊢
            rw [hrest, List.append_assoc]
            rfl
          | assertFailed =>
            rw [hfind] at hrest
            exact hrest
          | opened before' pMasterKey' rest' vMasterKey' =>
            rw [hfind] at hrest
            obtain ⟨hopened, -, hdecrypt', kMasterKey, db', hnew, hdb, hloop⟩ := hrest
            refine ⟨hopened, ?_, hdecrypt', kMasterKey, db', hnew, hdb, ?_⟩
            · intro first hfirst vFirst hvFirst
              rw [List.head?_cons, Option.mem_some_iff] at hfirst
              rw [← hfirst, hdecrypt] at hvFirst
              rw [← Option.some.inj hvFirst]
              exact haccepts
            · rw [hloop, List.append_assoc before]
              rfl

end Steps

section Change

variable {ops : PassphraseOps Pt} (w : PassphraseWallet ops.toCrypterOps)
  (processLocked : WalletKeys ops.toCrypterOps → WalletKeys ops.toCrypterOps) (strOld strNew : Bytes)

/-- The keys that an unlock makes available, where it returns true. -/
def keysOf : Option (Bool × PassphraseWallet ops.toCrypterOps) → Option (WalletKeys ops.toCrypterOps)
  | some (true, w) => some w.keys
  | _ => none

/-- The call returns and leaves what is open and what is locked in the key store, the stealth addresses and the
accounts. If it returns true, the new passphrase makes the keys available that the old one did; otherwise the master
keys are what they were. -/
def ChangesNothingElse (nTimed : UInt32) (fWritten : Bool) : Prop :=
  ∃ ok w', w.changeWalletPassphrase ops strOld strNew nTimed fWritten = some (ok, w') ∧
    w'.keys.store.crypto = w.keys.store.crypto ∧
    w'.keys.stealthAddresses = w.keys.stealthAddresses ∧
    w'.keys.mapExtAccounts = w.keys.mapExtAccounts ∧
    (ok = true → keysOf ((lock ops w').2.unlock ops processLocked strNew) =
      keysOf ((lock ops w).2.unlock ops processLocked strOld)) ∧
    (ok = false → w'.mapMasterKeys = w.mapMasterKeys ∧ w'.db.masterKeys = w.db.masterKeys)

/-- The wallet is locked, or the old passphrase opens it with the key that it holds and no account has a chain to lock.
Where the first master key has not opened the wallet, it does not do so for the new passphrase. -/
def MayChange : Prop :=
  match findMasterKey ops w.keys.store.accepts strOld w.mapMasterKeys with
  | .refused => w.keys.store.isLocked = true
  | .assertFailed => False
  | .opened before _ _ vMasterKey =>
    (w.keys.store.isLocked = true ∨ w.keys.store.crypto = some vMasterKey ∧
      (w.keys.extKeyLock ops).mapExtAccounts = w.keys.mapExtAccounts) ∧
    ∀ first ∈ before.head?, ∀ vFirst, first.2.decryptKey ops strNew = some vFirst →
      ((lock ops w).2.keys.opened ops vMasterKey).store.accepts vFirst ≠ some true

variable {w processLocked strOld strNew} {before rest : List (UInt32 × CMasterKey)} {pMasterKey : UInt32 × CMasterKey}
  {vMasterKey : Bytes}

theorem findMasterKey_opened {accepts : Bytes → Option Bool} {l : List (UInt32 × CMasterKey)}
    (h : findMasterKey ops accepts strOld l = .opened before pMasterKey rest vMasterKey) :
    l = before ++ pMasterKey :: rest := by
  induction l generalizing before with
  | nil => cases h
  | cons first l ih =>
    rw [findMasterKey] at h
    cases hdecrypt : first.2.decryptKey ops strOld with
    | none =>
      rw [hdecrypt] at h
      cases h
    | some vFirst =>
      rw [hdecrypt] at h
      dsimp only at h
      cases haccepts : accepts vFirst with
      | none =>
        rw [haccepts] at h
        cases h
      | some accepted =>
        rw [haccepts] at h
        cases accepted with
        | true =>
          cases h
          rfl
        | false =>
          dsimp only at h
          cases hfind : findMasterKey ops accepts strOld l with
          | refused =>
            rw [hfind] at h
            cases h
          | assertFailed =>
            rw [hfind] at h
            cases h
          | opened before' pMasterKey' rest' vMasterKey' =>
            rw [hfind] at h
            cases h
            rw [ih hfind, List.cons_append]

/-- The keys that a passphrase makes available in a locked wallet. -/
theorem keysOf_unlock (hcrypto : w.keys.store.crypto = some []) (hkeys : w.mapMasterKeys = pMasterKey :: rest)
    (strWalletPassphrase : Bytes) :
    keysOf (w.unlock ops processLocked strWalletPassphrase) =
      match pMasterKey.2.decryptKey ops strWalletPassphrase with
      | none => none
      | some vMasterKey =>
        if w.keys.store.accepts vMasterKey = some true then
          some (processLocked ((w.keys.opened ops vMasterKey).extKeyUnlock ops vMasterKey))
        else none := by
  have hlocked : w.keys.store.isLocked = true := decide_eq_true hcrypto
  have hcrypted : w.keys.store.isCrypted = true := by rw [CCryptoKeyStore.isCrypted, hcrypto]; rfl
  rw [unlock, hlocked, hcrypted, if_neg (by decide), hkeys]
  dsimp only
  cases pMasterKey.2.decryptKey ops strWalletPassphrase with
  | none => rfl
  | some vMasterKey =>
    dsimp only
    rw [CCryptoKeyStore.unlock_of_crypto hcrypted]
    cases w.keys.store.accepts vMasterKey with
    | none => rfl
    | some accepted =>
      cases accepted with
      | true => rfl
      | false => rfl

/-- `Lock` after the loop has opened the keys of a locked wallet. -/
theorem lock_opened {keys : WalletKeys ops.toCrypterOps} {db db' : PassphraseDB} (hdb : db'.stealth = db.stealth)
    (hstored : WalletKeys.StealthStored db keys.stealthAddresses) (vMasterKey : Bytes)
    (masterKeys : List (UInt32 × CMasterKey)) :
    (lock ops ⟨(WalletKeys.relocked ops db keys).opened ops vMasterKey, masterKeys, db'⟩).2 =
      ⟨{ WalletKeys.relocked ops db keys with
        store := ((WalletKeys.relocked ops db keys).opened ops vMasterKey).store.setMasterKey [] },
        masterKeys, db'⟩ := by
  have hcrypto := (WalletKeys.opened_store (WalletKeys.relocked ops db keys) vMasterKey).1
  by_cases hnil : vMasterKey = []
  · -- the store counts as locked, and nothing has been decrypted
    have hlocked : ((WalletKeys.relocked ops db keys).opened ops vMasterKey).store.isLocked = true := by
      rw [CCryptoKeyStore.isLocked, hcrypto, hnil]
      rfl
    have hstore : ((WalletKeys.relocked ops db keys).opened ops vMasterKey).store.setMasterKey [] =
        ((WalletKeys.relocked ops db keys).opened ops vMasterKey).store := by
      rw [CCryptoKeyStore.setMasterKey, ← hnil, ← hcrypto]
    have hstealth : (WalletKeys.relocked ops db keys).stealthAddresses.map (CStealthAddress.decrypt ops vMasterKey) =
        (WalletKeys.relocked ops db keys).stealthAddresses := by
      apply (List.map_congr_left _).trans (List.map_id' _)
      intro sx _
      rw [hnil]
      exact CStealthAddress.decrypt_nil sx
    rw [lock, hlocked, if_pos rfl, hstore]
    show PassphraseWallet.mk { WalletKeys.relocked ops db keys with
      store := ((WalletKeys.relocked ops db keys).opened ops vMasterKey).store
      stealthAddresses := (WalletKeys.relocked ops db keys).stealthAddresses.map
        (CStealthAddress.decrypt ops vMasterKey) } masterKeys db' = _
    rw [hstealth]
  · have hopen : ((WalletKeys.relocked ops db keys).opened ops vMasterKey).store.isLocked = false := by
      rw [CCryptoKeyStore.isLocked, hcrypto]
      exact decide_eq_false fun heq => hnil (Option.some.inj heq)
    rw [lock_of_open (by rw [hcrypto]; rfl) hopen]
    show PassphraseWallet.mk (WalletKeys.relocked ops db' _) masterKeys db' = _
    rw [WalletKeys.relocked_congr hdb, WalletKeys.relocked_opened hstored]

/-- The new passphrase makes the keys available that the old one did, unless it opens a master key which the old one
could not open. -/
theorem keysOf_changed_iff (hops : ops.Right)
    (processLocked : WalletKeys ops.toCrypterOps → WalletKeys ops.toCrypterOps)
    (keys : WalletKeys ops.toCrypterOps) (rest : List (UInt32 × CMasterKey)) {kMasterKey : CMasterKey}
    (hcrypto : keys.store.crypto = some [])
    (haccepts : keys.store.accepts vMasterKey = some true)
    (hbefore : ∀ first ∈ before.head?, ∀ vFirst, first.2.decryptKey ops strOld = some vFirst →
      keys.store.accepts vFirst = some false)
    (hold : pMasterKey.2.decryptKey ops strOld = some vMasterKey)
    (hnew : kMasterKey.decryptKey ops strNew = some vMasterKey) (db db' : PassphraseDB) :
    keysOf (unlock ops ⟨{ keys with store := (keys.opened ops vMasterKey).store.setMasterKey [] },
      before ++ (pMasterKey.1, kMasterKey) :: rest, db'⟩ processLocked strNew) =
        keysOf (unlock ops ⟨keys, before ++ pMasterKey :: rest, db⟩ processLocked strOld) ↔
      ∀ first ∈ before.head?, ∀ vFirst, first.2.decryptKey ops strNew = some vFirst →
        (keys.opened ops vMasterKey).store.accepts vFirst ≠ some true := by
  cases before with
  | nil =>
    rw [List.nil_append, List.nil_append, keysOf_unlock rfl rfl, keysOf_unlock hcrypto rfl, hnew, hold]
    dsimp only
    rw [if_pos haccepts, CCryptoKeyStore.accepts_setMasterKey,
      if_pos (WalletKeys.opened_accepts hops.toRight haccepts), WalletKeys.opened_opened hops.toRight]
    simp
  | cons first before =>
    have hrefused : keysOf (unlock ops ⟨keys, (first :: before) ++ pMasterKey :: rest, db⟩ processLocked strOld) =
        none := by
      rw [List.cons_append, keysOf_unlock hcrypto rfl]
      cases hdecrypt : first.2.decryptKey ops strOld with
      | none => rfl
      | some vFirst =>
        dsimp only
        rw [hbefore first rfl vFirst hdecrypt, if_neg (by decide)]
    rw [hrefused, List.cons_append, keysOf_unlock rfl rfl, List.head?_cons]
    cases hdecrypt : first.2.decryptKey ops strNew with
    | none => simp [hdecrypt]
    | some vFirst =>
      dsimp only
      rw [CCryptoKeyStore.accepts_setMasterKey]
      by_cases hopens : (keys.opened ops vMasterKey).store.accepts vFirst = some true
      · rw [if_pos hopens]
        simp [hdecrypt, hopens]
      · rw [if_neg hopens]
        simp [hdecrypt, hopens]

/-- A change of the passphrase changes nothing else exactly if the wallet is locked, or the old passphrase is right and
no account has an open chain. -/
theorem changeWalletPassphrase_iff (hops : ops.Right) (hw : w.Coherent) (nTimed : UInt32) (fWritten : Bool) :
    w.ChangesNothingElse processLocked strOld strNew nTimed fWritten ↔ w.MayChange strOld strNew := by
  have hlock := hw.lock_eq
  have hcall : w.changeWalletPassphrase ops strOld strNew nTimed fWritten =
      changeLoop ops strOld strNew nTimed fWritten w.keys.store.isLocked (WalletKeys.relocked ops w.db w.keys) w.db []
        w.mapMasterKeys := by
    rw [changeWalletPassphrase, hlock]
  have hloop := changeLoop_eq hops strOld strNew nTimed fWritten w.keys.store.isLocked
    (WalletKeys.relocked ops w.db w.keys) w.db [] w.mapMasterKeys rfl
  rw [show (WalletKeys.relocked ops w.db w.keys).store.accepts = w.keys.store.accepts from rfl] at hloop
  rw [ChangesNothingElse, MayChange, hcall, hlock]
  cases hfind : findMasterKey ops w.keys.store.accepts strOld w.mapMasterKeys with
  | refused =>
    rw [hfind] at hloop
    dsimp only at hloop ⊢
    rw [hloop]
    constructor
    · intro h
      obtain ⟨ok, w', hresult, hcrypto, -⟩ := h
      obtain ⟨rfl, rfl⟩ := Prod.mk.inj (Option.some.inj hresult)
      exact decide_eq_true hcrypto.symm
    · intro hlocked
      rw [hw.relocked_eq hlocked]
      exact ⟨false, _, rfl, rfl, rfl, rfl, by nofun, fun _ => ⟨rfl, rfl⟩⟩
  | assertFailed =>
    rw [hfind] at hloop
    dsimp only at hloop ⊢
    rw [hloop]
    constructor
    · intro h
      obtain ⟨ok, w', hresult, -⟩ := h
      cases hresult
    · exact False.elim
  | opened before pMasterKey rest vMasterKey =>
    rw [hfind] at hloop
    dsimp only at hloop ⊢
    obtain ⟨haccepts, hbefore, hold, kMasterKey, db', hnew, hdb, hloop⟩ := hloop
    rw [hloop, List.nil_append]
    have hopened := lock_opened hdb hw.stored vMasterKey
      (before ++ (pMasterKey.1, kMasterKey) :: rest)
    have hkeys := keysOf_changed_iff hops processLocked (WalletKeys.relocked ops w.db w.keys) rest rfl haccepts hbefore
      hold hnew w.db db'
    rw [← findMasterKey_opened hfind] at hkeys
    cases hlocked : w.keys.store.isLocked with
    | true =>
      have hcrypto : w.keys.store.crypto = some [] := of_decide_eq_true hlocked
      have hrelocked := hw.relocked_eq hlocked
      have hagain : (lock ops ⟨{ WalletKeys.relocked ops w.db w.keys with
          store := ((WalletKeys.relocked ops w.db w.keys).opened ops vMasterKey).store.setMasterKey [] },
          before ++ (pMasterKey.1, kMasterKey) :: rest, db'⟩).2 = _ := congrArg Prod.snd (if_pos rfl)
      rw [if_pos rfl, hopened]
      constructor
      · intro h
        obtain ⟨ok, w', hresult, -, -, -, hsame, -⟩ := h
        obtain ⟨rfl, rfl⟩ := Prod.mk.inj (Option.some.inj hresult)
        rw [hagain] at hsame
        exact ⟨.inl rfl, hkeys.mp (hsame rfl)⟩
      · intro h
        have hstealth := congrArg WalletKeys.stealthAddresses hrelocked
        have haccounts := congrArg WalletKeys.mapExtAccounts hrelocked
        refine ⟨true, _, rfl, hcrypto.symm, hstealth, haccounts, fun _ => ?_, by nofun⟩
        rw [hagain]
        exact hkeys.mpr h.2
    | false =>
      have hstore := WalletKeys.opened_store (WalletKeys.relocked ops w.db w.keys) vMasterKey
      rw [if_neg (by decide)]
      constructor
      · intro h
        obtain ⟨ok, w', hresult, hcrypto, -, haccounts, hsame, -⟩ := h
        obtain ⟨rfl, rfl⟩ := Prod.mk.inj (Option.some.inj hresult)
        rw [hopened] at hsame
        exact ⟨.inr ⟨hcrypto.symm.trans hstore.1, haccounts⟩, hkeys.mp (hsame rfl)⟩
      · intro h
        have hopen := h.1.resolve_left (by decide)
        refine ⟨true, _, rfl, hstore.1.trans hopen.1.symm, ?_, hopen.2, fun _ => ?_, by nofun⟩
        · show (w.keys.stealthAddresses.map _).map _ = _
          rw [List.map_map]
          apply (List.map_congr_left _).trans (List.map_id' _)
          intro sx hsx
          have hsame := hw.stealth sx hsx
          rwa [hopen.1, Option.getD_some] at hsame
        · rw [hopened]
          exact hkeys.mpr h.2

end Change

end PassphraseWallet

section Scene

/-- The key of a passphrase is its first byte, padded. -/
def prefixPassphrase : PassphraseOps (ZMod 7) where
  toCrypterOps := prefixCrypter
  curve := residueCurve 7
  sha256 bs := bs
  ext := plainOps
  bytesToKey _ strKeyData _ := (List.replicate 31 0 ++ [strKeyData.headD 0], [])
  scryptHash strKeyData _ _ := strKeyData

theorem prefixPassphrase_right : prefixPassphrase.Right where
  toRight := prefixCrypter_ideal.toRight
  bytesToKey_length _ _ _ := by simp [prefixPassphrase, WALLET_CRYPTO_KEY_SIZE]

/-- The master key of the wallet, encrypted for the passphrase `1`. -/
def firstMasterKey : CMasterKey :=
  ⟨prefixCrypter.aesEncrypt (List.replicate 31 0 ++ [1]) [] (masterKey 1), List.replicate 8 0, 1, 25000, []⟩

/-- A stealth address as it is stored. -/
def storedAddress : CStealthAddress :=
  ⟨2 :: List.replicate 32 1, 2 :: (List.replicate 31 0 ++ [3]), List.replicate 32 1,
    prefixCrypter.aesEncrypt (masterKey 1) [] (List.replicate 31 0 ++ [3])⟩

/-- An account with one encrypted chain. -/
def cryptedAccount (key : Option Bytes) (fLocked : Bool) : CExtKeyAccount :=
  plainAccount.setChains [⟨⟨2 :: (List.replicate 31 0 ++ [4]), key⟩,
    prefixCrypter.aesEncrypt (masterKey 1) [] (List.replicate 31 0 ++ [4]), "", fLocked, EAF_IS_CRYPTED, 0, 0, none⟩]

/-- A wallet with a key, a stealth address and an account. -/
def keyedWallet (crypto : Bytes) (sx : CStealthAddress) (sea : CExtKeyAccount) : PassphraseWallet prefixCrypter where
  keys := ⟨oneSecretStore.setMasterKey crypto, [sx], fun _ => none, none, [sea]⟩
  mapMasterKeys := [(1, firstMasterKey)]
  db := ⟨fun scan_pubkey => if scan_pubkey = storedAddress.scan_pubkey then some storedAddress else none,
    fun _ => some firstMasterKey⟩

def lockedWallet : PassphraseWallet prefixPassphrase.toCrypterOps :=
  keyedWallet [] storedAddress (cryptedAccount none true)

def openWallet : PassphraseWallet prefixPassphrase.toCrypterOps :=
  keyedWallet (masterKey 1) (storedAddress.decrypt prefixPassphrase (masterKey 1))
    (cryptedAccount (some (List.replicate 31 0 ++ [4])) false)

theorem lockedWallet_coherent : lockedWallet.Coherent where
  crypted := rfl
  stored := by
    intro sx hsx _
    rw [List.mem_singleton.mp hsx]
    rfl
  stealth := by
    intro sx hsx
    rw [List.mem_singleton.mp hsx]
    decide +kernel
  locked _ := rfl

/-- In a locked wallet the right passphrase may be changed. -/
theorem lockedWallet_unchanged : lockedWallet.ChangesNothingElse id [1] [2] 30000 true := by
  apply (PassphraseWallet.changeWalletPassphrase_iff prefixPassphrase_right lockedWallet_coherent 30000 true).mpr
  have hfind : findMasterKey prefixPassphrase lockedWallet.keys.store.accepts [1] lockedWallet.mapMasterKeys =
      .opened [] (1, firstMasterKey) [] (masterKey 1) := by decide +kernel
  rw [PassphraseWallet.MayChange, hfind]
  exact ⟨.inl rfl, by simp⟩

/-- Of an open wallet the right passphrase locks the account, and a wrong one locks the key store. -/
theorem openWallet_locked : openWallet.Coherent ∧ ¬ openWallet.ChangesNothingElse id [1] [2] 30000 true ∧
    ¬ openWallet.ChangesNothingElse id [3] [2] 30000 true := by
  refine ⟨⟨rfl, ?_, ?_, ?_⟩, ?_, ?_⟩
  · intro sx hsx _
    rw [List.mem_singleton.mp hsx]
    decide +kernel
  · intro sx hsx
    rw [List.mem_singleton.mp hsx]
    decide +kernel
  · intro hlocked
    exact absurd hlocked (by decide +kernel)
  · intro h
    obtain ⟨ok, w', hresult, -, -, haccounts, -⟩ := h
    have hchains : (openWallet.changeWalletPassphrase prefixPassphrase [1] [2] 30000 true).map
        (fun r => r.2.keys.mapExtAccounts.map CExtKeyAccount.vExtKeys) =
          some [(cryptedAccount none true).vExtKeys] := by decide +kernel
    rw [hresult, Option.map_some, haccounts] at hchains
    exact absurd hchains (by decide +kernel)
  · intro h
    obtain ⟨ok, w', hresult, hcrypto, -⟩ := h
    have hlocked : (openWallet.changeWalletPassphrase prefixPassphrase [3] [2] 30000 true).map
        (fun r => r.2.keys.store.crypto) = some (some []) := by decide +kernel
    rw [hresult, Option.map_some, hcrypto] at hlocked
    exact absurd hlocked (by decide +kernel)

end Scene

end AliasWallet
