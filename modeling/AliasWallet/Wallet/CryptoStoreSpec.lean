import AliasWallet.Wallet.CryptoStore

/-!
# The master key of an encrypted key store

A store that holds a secret is opened by the master key that encrypted it and by no other. A store without any secret
tells nothing: it opens for every key while it is empty, and for none once a key without a secret has arrived.
-/

namespace AliasWallet
open Lib

/-- A valid key, as `Set` leaves it. -/
structure CKey.Held (key : CKey) : Prop where
  valid : key.fValid = true
  length_eq : key.vch.length = 32
  check : CKey.check key.vch = true

/-- What is documented: a key decrypts what it has encrypted, the padding leaves no encryption empty, and a public key
is compressed as its key says. -/
structure CrypterOps.Right (ops : CrypterOps) : Prop where
  decrypt_encrypt : ∀ vMasterKey nIV vch, vMasterKey.length = WALLET_CRYPTO_KEY_SIZE →
    ops.aesDecrypt vMasterKey nIV (ops.aesEncrypt vMasterKey nIV vch) = some vch
  encrypt_ne_nil : ∀ vMasterKey nIV vch, ops.aesEncrypt vMasterKey nIV vch ≠ []
  compressed : ∀ key : CKey, key.Held → (ops.getPubKey key).isCompressed = key.fCompressed

/-- Encryption that tells nothing without the key: what another key makes of a secret is not the secret of its public
key. -/
structure CrypterOps.Ideal (ops : CrypterOps) : Prop extends ops.Right where
  other_key : ∀ vMasterKey vOther, vMasterKey.length = WALLET_CRYPTO_KEY_SIZE →
    vOther.length = WALLET_CRYPTO_KEY_SIZE → vOther ≠ vMasterKey → ∀ key key' : CKey, key.Held → key'.Held →
    ops.aesDecrypt vOther ((ops.getPubKey key).getHash ops)
      (ops.aesEncrypt vMasterKey ((ops.getPubKey key).getHash ops) key.vch) = some key'.vch →
    ops.getPubKey key' ≠ ops.getPubKey key

/-- The entry holds the secret of its public key, encrypted under the master key. -/
def Sealed (ops : CrypterOps) (vMasterKey : Bytes) (e : CPubKey × Bytes) : Prop :=
  ∃ key : CKey, key.Held ∧ ops.getPubKey key = e.1 ∧
    encryptSecret ops vMasterKey key.vch (e.1.getHash ops) = some e.2

/-- The calls that may follow `EncryptKeys`. A key that is received while the store is locked has an empty secret. -/
inductive KeyStoreCall
  | lockKeyStore
  | unlock (vMasterKeyIn : Bytes)
  | addKeyPubKey (key : CKey) (pubkey : CPubKey)
  | addCryptedKey (vchPubKey : CPubKey)
  deriving DecidableEq

namespace CCryptoKeyStore

variable {ops : CrypterOps}

/-- The call's return value and the store afterwards; null for a failed assertion. -/
def call (s : CCryptoKeyStore ops) : KeyStoreCall → Option (Bool × CCryptoKeyStore ops)
  | .lockKeyStore => some s.lockKeyStore
  | .unlock vMasterKeyIn => s.unlock vMasterKeyIn
  | .addKeyPubKey key pubkey => some (s.addKeyPubKey key pubkey)
  | .addCryptedKey vchPubKey => some (s.addCryptedKey vchPubKey [])

/-- The keys that a call has added, by its return value. -/
def joined : KeyStoreCall → Bool → List CKey
  | .addKeyPubKey key _, true => [key]
  | _, _ => []

/-- A key is added with its own public key, and no other key has its id. A key without a secret does not take the place
of a secret. -/
def Meets (s : CCryptoKeyStore ops) (added : List CKey) : KeyStoreCall → Prop
  | .addKeyPubKey key pubkey => key.Held ∧ pubkey = ops.getPubKey key ∧
      ∀ key' ∈ added, ops.getID (ops.getPubKey key') = ops.getID pubkey → key' = key
  | .addCryptedKey vchPubKey =>
    ∀ e, s.mapCryptedKeys.map.get? (ops.getID vchPubKey).toFin = some e → e.2 = []
  | _ => True

/-- The stores after any calls, with the keys that have been added. -/
inductive Reached (s₁ : CCryptoKeyStore ops) (added₁ : List CKey) : CCryptoKeyStore ops → List CKey → Prop
  | start : Reached s₁ added₁ s₁ added₁
  | step {s s' : CCryptoKeyStore ops} {added : List CKey} {c : KeyStoreCall} {ok : Bool} :
      Reached s₁ added₁ s added → s.Meets added c → s.call c = some (ok, s') →
      Reached s₁ added₁ s' (added ++ joined c ok)

/-- The master key opens the store and no other key does, its secrets are encrypted under the master key, and while it
is open it gives back every key. -/
structure Guarded (vMasterKey : Bytes) (added : List CKey) (s : CCryptoKeyStore ops) : Prop where
  opens : s.unlock vMasterKey = some (true, s.setMasterKey vMasterKey)
  refuses : ∀ vOther, vOther ≠ vMasterKey → ∀ s', s.unlock vOther ≠ some (true, s')
  secrets : ∀ e ∈ s.cryptedKeys, e.2 ≠ [] → Sealed ops vMasterKey e
  keys : s.isLocked = false → ∀ key ∈ added, ∀ keyOut,
    s.getKey (ops.getID (ops.getPubKey key)) keyOut = some key

/-- What every call keeps. -/
structure SealedUnder (vMasterKey : Bytes) (added : List CKey) (s : CCryptoKeyStore ops) : Prop where
  crypto : s.crypto = some [] ∨ s.crypto = some vMasterKey
  secrets : ∀ e ∈ s.cryptedKeys, e.2 = [] ∨ Sealed ops vMasterKey e
  added : ∀ key ∈ added, key.Held ∧ ∃ vchCryptedSecret,
    encryptSecret ops vMasterKey key.vch ((ops.getPubKey key).getHash ops) = some vchCryptedSecret ∧
    s.mapCryptedKeys.map.get? (ops.getID (ops.getPubKey key)).toFin = some (ops.getPubKey key, vchCryptedSecret)

end CCryptoKeyStore

namespace CKey.Held

variable {key : CKey} (h : key.Held)
include h

theorem bytes_eq : key.bytes = key.vch := if_pos h.valid

theorem set_eq (keyOut : CKey) : keyOut.set key.vch key.fCompressed = key := by
  rw [CKey.set, if_neg (not_not.mpr h.length_eq), if_pos h.check, ← h.valid]

end CKey.Held

/-- What `Set` makes valid. -/
theorem CKey.held_set {keyOut : CKey} {vch : Bytes} {fCompressed : Bool}
    (h : (keyOut.set vch fCompressed).fValid = true) :
    (keyOut.set vch fCompressed).Held ∧ (keyOut.set vch fCompressed).vch = vch := by
  unfold CKey.set at h ⊢
  by_cases hlength : vch.length ≠ 32
  · rw [if_pos hlength] at h
    cases h
  by_cases hcheck : CKey.check vch = true
  · rw [if_neg hlength, if_pos hcheck]
    exact ⟨⟨rfl, not_not.mp hlength, hcheck⟩, rfl⟩
  · rw [if_neg hlength, if_neg hcheck] at h
    cases h

section Secrets

variable {ops : CrypterOps} {vMasterKey vchPlaintext nIV vchCryptedSecret : Bytes}

theorem encryptSecret_eq_some (h : encryptSecret ops vMasterKey vchPlaintext nIV = some vchCryptedSecret) :
    vMasterKey.length = WALLET_CRYPTO_KEY_SIZE ∧
      vchCryptedSecret = ops.aesEncrypt vMasterKey nIV vchPlaintext := by
  unfold encryptSecret at h
  by_cases hsize : vMasterKey.length ≠ WALLET_CRYPTO_KEY_SIZE
  · rw [if_pos hsize] at h
    cases h
  · rw [if_neg hsize] at h
    exact ⟨not_not.mp hsize, (Option.some.inj h).symm⟩

theorem decryptSecret_of_size (h : vMasterKey.length = WALLET_CRYPTO_KEY_SIZE) (vchCiphertext : Bytes) :
    decryptSecret ops vMasterKey vchCiphertext nIV = ops.aesDecrypt vMasterKey nIV vchCiphertext :=
  if_neg (not_not.mpr h)

theorem decryptSecret_eq_some {vchSecret vchCiphertext : Bytes}
    (h : decryptSecret ops vMasterKey vchCiphertext nIV = some vchSecret) :
    vMasterKey.length = WALLET_CRYPTO_KEY_SIZE := by
  unfold decryptSecret at h
  by_cases hsize : vMasterKey.length ≠ WALLET_CRYPTO_KEY_SIZE
  · rw [if_pos hsize] at h
    cases h
  · exact not_not.mp hsize

theorem decryptSecret_of_encrypt (hops : ops.Right)
    (h : encryptSecret ops vMasterKey vchPlaintext nIV = some vchCryptedSecret) :
    decryptSecret ops vMasterKey vchCryptedSecret nIV = some vchPlaintext := by
  have hcrypted := encryptSecret_eq_some h
  rw [hcrypted.2, decryptSecret_of_size hcrypted.1]
  exact hops.decrypt_encrypt vMasterKey nIV vchPlaintext hcrypted.1

theorem encryptSecret_ne_nil (hops : ops.Right)
    (h : encryptSecret ops vMasterKey vchPlaintext nIV = some vchCryptedSecret) : vchCryptedSecret ≠ [] := by
  rw [(encryptSecret_eq_some h).2]
  exact hops.encrypt_ne_nil vMasterKey nIV vchPlaintext

end Secrets

namespace Sealed

variable {ops : CrypterOps} {vMasterKey vOther : Bytes} {e : CPubKey × Bytes}

theorem ne_nil (h : Sealed ops vMasterKey e) (hops : ops.Right) : e.2 ≠ [] := by
  obtain ⟨key, -, -, hcrypted⟩ := h
  exact encryptSecret_ne_nil hops hcrypted

/-- The secret of a sealed entry gives its key back. -/
theorem set_key {key : CKey} (hheld : key.Held) (hops : ops.Right) (keyOut : CKey) :
    keyOut.set key.vch (ops.getPubKey key).isCompressed = key := by
  rw [hops.compressed key hheld]
  exact hheld.set_eq keyOut

/-- A sealed entry passes the test with its master key. -/
theorem testKey_eq (h : Sealed ops vMasterKey e) (hops : ops.Right) :
    CCryptoKeyStore.testKey ops vMasterKey e = .passed := by
  have hne := h.ne_nil hops
  obtain ⟨key, hheld, hpub, hcrypted⟩ := h
  rw [CCryptoKeyStore.testKey, if_neg (by have := List.length_pos_of_ne_nil hne; omega),
    decryptSecret_of_encrypt hops hcrypted]
  dsimp only
  rw [if_neg (not_not.mpr hheld.length_eq), ← hpub, set_key hheld hops, hheld.valid, if_neg (by decide),
    if_neg (not_not.mpr rfl)]

/-- With another key it does not pass, and it is not passed over. -/
theorem testKey_other (h : Sealed ops vMasterKey e) (hops : ops.Ideal) (hother : vOther ≠ vMasterKey) :
    CCryptoKeyStore.testKey ops vOther e = .failed ∨ CCryptoKeyStore.testKey ops vOther e = .assertFailed := by
  have hne := h.ne_nil hops.toRight
  obtain ⟨key, hheld, hpub, hcrypted⟩ := h
  rw [CCryptoKeyStore.testKey, if_neg (by have := List.length_pos_of_ne_nil hne; omega)]
  cases hdecrypt : decryptSecret ops vOther e.2 (e.1.getHash ops) with
  | none => exact .inl rfl
  | some vchSecret =>
    dsimp only
    by_cases hlength : vchSecret.length ≠ 32
    · exact .inl (if_pos hlength)
    rw [if_neg hlength]
    cases hvalid : (CKey.default.set vchSecret e.1.isCompressed).fValid with
    | false => exact .inr rfl
    | true =>
      -- a valid key with this secret would be another one for the same public key
      have hset := CKey.held_set hvalid
      have hsize := decryptSecret_eq_some hdecrypt
      have hcrypted' := encryptSecret_eq_some hcrypted
      rw [decryptSecret_of_size hsize, hcrypted'.2, ← hpub, ← hset.2] at hdecrypt
      have hdiffer := hops.other_key vMasterKey vOther hcrypted'.1 hsize hother key _ hheld hset.1 hdecrypt
      rw [hpub] at hdiffer
      rw [if_neg (by decide), if_pos hdiffer]
      exact .inl rfl

end Sealed

namespace CCryptoKeyStore

section Test

variable {ops : CrypterOps} {vMasterKey vOther : Bytes} {l : List (CPubKey × Bytes)}

theorem testKey_of_empty {e : CPubKey × Bytes} (h : e.2 = []) : testKey ops vMasterKey e = .skipped :=
  if_pos (by rw [h]; exact Nat.one_pos)

theorem testKeys_of_empty (h : ∀ e ∈ l, e.2 = []) : testKeys ops vMasterKey l = .skipped := by
  induction l with
  | nil => rfl
  | cons e l ih =>
    rw [testKeys, testKey_of_empty (h e List.mem_cons_self)]
    exact ih fun e he => h e (List.mem_cons_of_mem _ he)

/-- The test of the first secret decides. -/
theorem testKeys_of_secret {result : KeyTest} (hresult : result ≠ .skipped) (h : ∃ e ∈ l, e.2 ≠ [])
    (hfirst : ∀ e ∈ l, e.2 ≠ [] → testKey ops vMasterKey e = result) : testKeys ops vMasterKey l = result := by
  induction l with
  | nil => simp at h
  | cons e l ih =>
    rw [testKeys]
    by_cases hempty : e.2 = []
    · rw [testKey_of_empty hempty]
      apply ih
      · simpa [hempty] using h
      · exact fun e he => hfirst e (List.mem_cons_of_mem _ he)
    · rw [hfirst e List.mem_cons_self hempty]
      cases result with
      | skipped => exact absurd rfl hresult
      | failed => rfl
      | assertFailed => rfl
      | passed => rfl

theorem testKeys_eq (hops : ops.Right) (hsealed : ∀ e ∈ l, e.2 = [] ∨ Sealed ops vMasterKey e)
    (h : ∃ e ∈ l, e.2 ≠ []) : testKeys ops vMasterKey l = .passed := by
  apply testKeys_of_secret (by decide) h
  intro e he hne
  exact ((hsealed e he).resolve_left hne).testKey_eq hops

theorem testKeys_other (hops : ops.Ideal) (hsealed : ∀ e ∈ l, e.2 = [] ∨ Sealed ops vMasterKey e)
    (hother : vOther ≠ vMasterKey) (h : ∃ e ∈ l, e.2 ≠ []) :
    testKeys ops vOther l = .failed ∨ testKeys ops vOther l = .assertFailed := by
  induction l with
  | nil => simp at h
  | cons e l ih =>
    rw [testKeys]
    by_cases hempty : e.2 = []
    · rw [testKey_of_empty hempty]
      apply ih
      · exact fun e he => hsealed e (List.mem_cons_of_mem _ he)
      · simpa [hempty] using h
    · cases ((hsealed e List.mem_cons_self).resolve_left hempty).testKey_other hops hother with
      | inl hfailed => rw [hfailed]; exact .inl rfl
      | inr hfailed => rw [hfailed]; exact .inr rfl

/-- Where all secrets are sealed under one master key, that key and no other is let in exactly if there is a secret. -/
theorem accepts_iff (hops : ops.Ideal) {s : CCryptoKeyStore ops}
    (hsealed : ∀ e ∈ s.cryptedKeys, e.2 = [] ∨ Sealed ops vMasterKey e) :
    (s.accepts vMasterKey = some true ∧ ∀ vOther, vOther ≠ vMasterKey → s.accepts vOther ≠ some true) ↔
      ∃ e ∈ s.cryptedKeys, e.2 ≠ [] := by
  constructor
  · intro h
    by_contra hnone
    push Not at hnone
    have hskipped : ∀ K, s.accepts K = some s.cryptedKeys.isEmpty := by
      intro K
      rw [accepts, testKeys_of_empty hnone]
    -- the master key and a longer one fare alike
    apply h.2 (0 :: vMasterKey) (List.cons_ne_self _ _)
    rw [hskipped, ← hskipped vMasterKey]
    exact h.1
  · intro h
    constructor
    · rw [accepts, testKeys_eq hops.toRight hsealed h]
    · intro vOther hother
      rw [accepts]
      cases testKeys_other hops hsealed hother h with
      | inl hfailed => rw [hfailed]; nofun
      | inr hfailed => rw [hfailed]; nofun

end Test

section Calls

variable {ops : CrypterOps} {s s' : CCryptoKeyStore ops} {vMasterKey : Bytes} {added : List CKey} {key : CKey}
  {pubkey : CPubKey} {vchCryptedSecret : Bytes}

theorem setCrypted_of_crypto (h : s.crypto.isSome) : s.setCrypted = some s := by
  obtain ⟨master, hmaster⟩ := Option.isSome_iff_exists.mp h
  rw [setCrypted, hmaster]

/-- The test does not look at the master key that is there. -/
@[simp] theorem accepts_setMasterKey : (s.setMasterKey vMasterKey).accepts = s.accepts := rfl

theorem lockKeyStore_of_crypto (h : s.crypto.isSome) : s.lockKeyStore = (true, s.setMasterKey []) := by
  rw [lockKeyStore, setCrypted_of_crypto h]

theorem unlock_of_crypto (h : s.crypto.isSome) (vMasterKeyIn : Bytes) :
    s.unlock vMasterKeyIn = match s.accepts vMasterKeyIn with
      | none => none
      | some false => some (false, s)
      | some true => some (true, s.setMasterKey vMasterKeyIn) := by
  cases haccepts : s.accepts vMasterKeyIn with
  | none => simp [unlock, setCrypted_of_crypto h, haccepts]
  | some fAccepts => cases fAccepts <;> simp [unlock, setCrypted_of_crypto h, haccepts]

theorem addCryptedKey_of_crypto (h : s.crypto.isSome) (pubkey : CPubKey) (vchCryptedSecret : Bytes) :
    s.addCryptedKey pubkey vchCryptedSecret =
      (true, { s with mapCryptedKeys := s.mapCryptedKeys.put pubkey vchCryptedSecret }) := by
  rw [addCryptedKey, setCrypted_of_crypto h]

/-- The entries after one is written. -/
theorem mem_cryptedKeys_put {e : CPubKey × Bytes} {entries : CryptedKeyMap ops}
    (h : e ∈ cryptedKeys { s with mapCryptedKeys := entries.put pubkey vchCryptedSecret }) :
    e = (pubkey, vchCryptedSecret) ∨ e ∈ entries.map.entries.map Prod.snd := by
  obtain ⟨entry, hentry, rfl⟩ := List.mem_map.mp h
  cases OrderedMap.mem_put.mp hentry with
  | inl hnew => exact .inl (congrArg Prod.snd hnew)
  | inr hold => exact .inr (List.mem_map_of_mem hold.1)

namespace SealedUnder

variable (h : SealedUnder vMasterKey added s)
include h

theorem isSome : s.crypto.isSome := by
  cases h.crypto with
  | inl hlocked => rw [hlocked]; rfl
  | inr hopen => rw [hopen]; rfl

/-- A new key joins the others. -/
theorem put (hheld : key.Held)
    (hid : ∀ key' ∈ added, ops.getID (ops.getPubKey key') = ops.getID (ops.getPubKey key) → key' = key)
    (hcrypted : encryptSecret ops vMasterKey key.vch ((ops.getPubKey key).getHash ops) = some vchCryptedSecret) :
    SealedUnder vMasterKey (added ++ [key])
      { s with mapCryptedKeys := s.mapCryptedKeys.put (ops.getPubKey key) vchCryptedSecret } where
  crypto := h.crypto
  secrets := by
    intro e he
    cases mem_cryptedKeys_put he with
    | inl hnew => exact .inr ⟨key, hheld, by rw [hnew], by rw [hnew]; exact hcrypted⟩
    | inr hold => exact h.secrets e hold
  added := by
    intro key' hkey'
    by_cases hsame : key' = key
    · subst hsame
      exact ⟨hheld, vchCryptedSecret, hcrypted, OrderedMap.get?_put_self⟩
    · have hold : key' ∈ added := by simpa [hsame] using hkey'
      obtain ⟨hheld', vch, hvch, hget⟩ := h.added key' hold
      have hdiffer : (ops.getID (ops.getPubKey key')).toFin ≠ (ops.getID (ops.getPubKey key)).toFin := by
        intro heq
        exact hsame (hid key' hold (BitVec.toFin_inj.mp heq))
      exact ⟨hheld', vch, hvch, (OrderedMap.get?_put_of_ne hdiffer).trans hget⟩

/-- A key without a secret takes no secret's place. -/
theorem putEmpty (hops : ops.Right)
    (hfree : ∀ e, s.mapCryptedKeys.map.get? (ops.getID pubkey).toFin = some e → e.2 = []) :
    SealedUnder vMasterKey added { s with mapCryptedKeys := s.mapCryptedKeys.put pubkey [] } where
  crypto := h.crypto
  secrets := by
    intro e he
    cases mem_cryptedKeys_put he with
    | inl hnew => exact .inl (congrArg Prod.snd hnew)
    | inr hold => exact h.secrets e hold
  added := by
    intro key' hkey'
    obtain ⟨hheld', vch, hvch, hget⟩ := h.added key' hkey'
    have hdiffer : (ops.getID (ops.getPubKey key')).toFin ≠ (ops.getID pubkey).toFin := by
      intro heq
      exact encryptSecret_ne_nil hops hvch (hfree _ (heq ▸ hget))
    exact ⟨hheld', vch, hvch, (OrderedMap.get?_put_of_ne hdiffer).trans hget⟩

/-- The master key comes and goes. -/
theorem setMasterKey {master : Bytes} (hmaster : master = [] ∨ master = vMasterKey) :
    SealedUnder vMasterKey added (s.setMasterKey master) where
  crypto := hmaster.imp (congrArg some) (congrArg some)
  secrets := h.secrets
  added := h.added

/-- An added key has a secret. -/
theorem some_secret (hops : ops.Right) (hadded : added ≠ []) : ∃ e ∈ s.cryptedKeys, e.2 ≠ [] := by
  obtain ⟨key, hkey⟩ := List.exists_mem_of_ne_nil added hadded
  obtain ⟨-, vch, hvch, hget⟩ := h.added key hkey
  exact ⟨_, List.mem_map_of_mem (OrderedMap.get?_eq_some_iff.mp hget), encryptSecret_ne_nil hops hvch⟩

end SealedUnder

namespace SealedUnder

variable (h : SealedUnder vMasterKey added s)
include h

/-- An unlock that returns has stored the key, or it has changed nothing. -/
theorem unlock_cases {vMasterKeyIn : Bytes} {ok : Bool} (hcall : s.unlock vMasterKeyIn = some (ok, s')) :
    s' = s ∨ ok = true ∧ s' = s.setMasterKey vMasterKeyIn := by
  rw [unlock_of_crypto h.isSome] at hcall
  cases haccepts : s.accepts vMasterKeyIn with
  | none =>
    rw [haccepts] at hcall
    cases hcall
  | some accepted =>
    rw [haccepts] at hcall
    cases accepted with
    | false => exact .inl (Prod.mk.inj (Option.some.inj hcall)).2.symm
    | true =>
      have hresult := Prod.mk.inj (Option.some.inj hcall)
      exact .inr ⟨hresult.1.symm, hresult.2.symm⟩

/-- A key is encrypted and kept, or nothing changes. -/
theorem addKeyPubKey_cases (hheld : key.Held) (pubkey : CPubKey) :
    s.addKeyPubKey key pubkey = (false, s) ∨ ∃ vchCryptedSecret,
      encryptSecret ops vMasterKey key.vch (pubkey.getHash ops) = some vchCryptedSecret ∧
      s.addKeyPubKey key pubkey =
        (true, { s with mapCryptedKeys := s.mapCryptedKeys.put pubkey vchCryptedSecret }) := by
  rw [addKeyPubKey]
  cases h.crypto with
  | inl hlocked =>
    have hislocked : s.isLocked = true := decide_eq_true hlocked
    rw [hlocked]
    exact .inl (if_pos hislocked)
  | inr hopen =>
    rw [hopen]
    dsimp only
    cases s.isLocked with
    | true => exact .inl (if_pos rfl)
    | false =>
      rw [if_neg (by decide), hheld.bytes_eq]
      cases hcrypted : encryptSecret ops vMasterKey key.vch (pubkey.getHash ops) with
      | none => exact .inl rfl
      | some vch =>
        refine .inr ⟨vch, rfl, ?_⟩
        dsimp only
        rw [addCryptedKey_of_crypto h.isSome, hopen]

/-- What the store promises, as soon as a key has been added. -/
theorem guarded (hops : ops.Ideal) (hadded : added ≠ []) : Guarded vMasterKey added s where
  opens := by
    rw [unlock_of_crypto h.isSome, ((accepts_iff hops h.secrets).mpr (h.some_secret hops.toRight hadded)).1]
  refuses := by
    intro vOther hother s' hopen
    have hrefused := ((accepts_iff hops h.secrets).mpr (h.some_secret hops.toRight hadded)).2 vOther hother
    rw [unlock_of_crypto h.isSome] at hopen
    cases haccepts : s.accepts vOther with
    | none => rw [haccepts] at hopen; cases hopen
    | some accepted =>
      cases accepted with
      | false => rw [haccepts] at hopen; cases hopen
      | true => exact hrefused haccepts
  secrets := fun e he hne => (h.secrets e he).resolve_left hne
  keys := by
    intro hopen key hkey keyOut
    obtain ⟨hheld, vch, hvch, hget⟩ := h.added key hkey
    have hcrypto : s.crypto = some vMasterKey := h.crypto.resolve_left (of_decide_eq_false hopen)
    rw [getKey, hcrypto]
    dsimp only
    rw [hget]
    dsimp only
    rw [decryptSecret_of_encrypt hops.toRight hvch]
    dsimp only
    rw [if_neg (not_not.mpr hheld.length_eq), Sealed.set_key hheld hops.toRight]

/-- One call. -/
theorem call (hops : ops.Ideal) (hadded : added ≠ []) {c : KeyStoreCall} {ok : Bool} (hmeets : s.Meets added c)
    (hcall : s.call c = some (ok, s')) : SealedUnder vMasterKey (added ++ joined c ok) s' := by
  cases c with
  | lockKeyStore =>
    rw [CCryptoKeyStore.call, lockKeyStore_of_crypto h.isSome] at hcall
    rw [← (Prod.mk.inj (Option.some.inj hcall)).2]
    show SealedUnder vMasterKey (added ++ []) _
    rw [List.append_nil]
    exact h.setMasterKey (.inl rfl)
  | unlock vMasterKeyIn =>
    show SealedUnder vMasterKey (added ++ []) s'
    rw [List.append_nil]
    cases h.unlock_cases hcall with
    | inl hsame => exact hsame ▸ h
    | inr hopen =>
      -- only the master key can have opened the store
      have hmaster : vMasterKeyIn = vMasterKey := by
        by_contra hother
        exact (h.guarded hops hadded).refuses vMasterKeyIn hother s' (hopen.1 ▸ hcall)
      rw [hopen.2, hmaster]
      exact h.setMasterKey (.inr rfl)
  | addKeyPubKey key pubkey =>
    obtain ⟨hheld, rfl, hid⟩ := hmeets
    rw [CCryptoKeyStore.call] at hcall
    cases h.addKeyPubKey_cases hheld (ops.getPubKey key) with
    | inl hrefused =>
      rw [hrefused] at hcall
      obtain ⟨rfl, rfl⟩ := Prod.mk.inj (Option.some.inj hcall)
      show SealedUnder vMasterKey (added ++ []) _
      rw [List.append_nil]
      exact h
    | inr hkept =>
      obtain ⟨vch, hcrypted, hkept⟩ := hkept
      rw [hkept] at hcall
      obtain ⟨rfl, rfl⟩ := Prod.mk.inj (Option.some.inj hcall)
      exact h.put hheld hid hcrypted
  | addCryptedKey vchPubKey =>
    rw [CCryptoKeyStore.call, addCryptedKey_of_crypto h.isSome] at hcall
    rw [← (Prod.mk.inj (Option.some.inj hcall)).2]
    show SealedUnder vMasterKey (added ++ []) _
    rw [List.append_nil]
    exact h.putEmpty hops.toRight hmeets

/-- Any calls. -/
theorem run (hops : ops.Ideal) (hadded : added ≠ []) {t : CCryptoKeyStore ops} {addedAll : List CKey}
    (hrun : Reached s added t addedAll) : SealedUnder vMasterKey addedAll t ∧ addedAll ≠ [] := by
  induction hrun with
  | start => exact ⟨h, hadded⟩
  | step hreached hmeets hcall ih =>
    exact ⟨ih.1.call hops ih.2 hmeets hcall, List.append_ne_nil_of_left_ne_nil ih.2 _⟩

/-- The loop over the keys of a store that is not encrypted yet. -/
theorem encryptLoop (keys : List CKey) (hheld : ∀ key ∈ keys, key.fValid = true → key.Held)
    (hids : ∀ key ∈ added ++ keys, ∀ key' ∈ added ++ keys,
      ops.getID (ops.getPubKey key) = ops.getID (ops.getPubKey key') → key = key')
    (hloop : CCryptoKeyStore.encryptLoop vMasterKey keys s = some (true, s')) :
    SealedUnder vMasterKey (added ++ keys) s' := by
  induction keys generalizing s added with
  | nil =>
    rw [← (Prod.mk.inj (Option.some.inj hloop)).2, List.append_nil]
    exact h
  | cons key keys ih =>
    rw [CCryptoKeyStore.encryptLoop] at hloop
    cases hvalid : key.fValid with
    | false =>
      rw [hvalid, if_pos (by decide)] at hloop
      cases hloop
    | true =>
      have hkey := hheld key List.mem_cons_self hvalid
      rw [hvalid, if_neg (by decide), hkey.bytes_eq] at hloop
      dsimp only at hloop
      cases hcrypted : encryptSecret ops vMasterKey key.vch ((ops.getPubKey key).getHash ops) with
      | none =>
        rw [hcrypted] at hloop
        cases hloop
      | some vch =>
        rw [hcrypted] at hloop
        dsimp only at hloop
        rw [addCryptedKey_of_crypto h.isSome] at hloop
        have hid : ∀ key' ∈ added, ops.getID (ops.getPubKey key') = ops.getID (ops.getPubKey key) → key' = key := by
          intro key' hkey'
          apply hids key' (List.mem_append_left _ hkey') key
          exact List.mem_append_right _ List.mem_cons_self
        rw [List.append_cons]
        apply ih (h.put hkey hid hcrypted) (fun key' hkey' => hheld key' (List.mem_cons_of_mem _ hkey')) _ hloop
        rw [← List.append_cons]
        exact hids

end SealedUnder

theorem sealedUnder_of_empty (hempty : s.cryptedKeys = []) (hlocked : s.crypto = some []) :
    SealedUnder vMasterKey [] s where
  crypto := .inl hlocked
  secrets := by
    intro e he
    rw [hempty] at he
    cases he
  added := by nofun

/-- The store after `EncryptKeys`. -/
theorem encryptKeys_sealed {s₀ s₁ : CCryptoKeyStore ops} (hheld : ∀ key ∈ s₀.plainKeys, key.fValid = true → key.Held)
    (hids : ∀ key ∈ s₀.plainKeys, ∀ key' ∈ s₀.plainKeys,
      ops.getID (ops.getPubKey key) = ops.getID (ops.getPubKey key') → key = key')
    (hcrypt : s₀.encryptKeys vMasterKey = some (true, s₁)) : SealedUnder vMasterKey s₀.plainKeys s₁ := by
  rw [encryptKeys] at hcrypt
  by_cases hrefused : s₀.cryptedKeys ≠ [] ∨ s₀.isCrypted = true
  · rw [if_pos hrefused] at hcrypt
    cases hcrypt
  rw [if_neg hrefused] at hcrypt
  have hempty : s₀.cryptedKeys = [] := by
    by_contra hne
    exact hrefused (.inl hne)
  have hstart : SealedUnder vMasterKey [] { s₀ with crypto := some [] } := sealedUnder_of_empty hempty rfl
  cases hloop : encryptLoop vMasterKey s₀.plainKeys { s₀ with crypto := some [] } with
  | none =>
    rw [hloop] at hcrypt
    cases hcrypt
  | some result =>
    cases result with
    | mk ok s =>
      rw [hloop] at hcrypt
      cases ok with
      | false => cases hcrypt
      | true =>
        rw [← (Prod.mk.inj (Option.some.inj hcrypt)).2]
        have hsealed := hstart.encryptLoop s₀.plainKeys hheld hids hloop
        exact ⟨hsealed.crypto, hsealed.secrets, hsealed.added⟩

/-- A store that had a key when it was encrypted is guarded by its master key through all calls that meet the
conditions. -/
theorem guarded_of_reached {s₀ s₁ s : CCryptoKeyStore ops} (hops : ops.Ideal)
    (hheld : ∀ key ∈ s₀.plainKeys, key.fValid = true → key.Held)
    (hids : ∀ key ∈ s₀.plainKeys, ∀ key' ∈ s₀.plainKeys,
      ops.getID (ops.getPubKey key) = ops.getID (ops.getPubKey key') → key = key')
    (hkeys : s₀.plainKeys ≠ []) (hcrypt : s₀.encryptKeys vMasterKey = some (true, s₁))
    (hrun : Reached s₁ s₀.plainKeys s added) : Guarded vMasterKey added s := by
  have hreached := (encryptKeys_sealed hheld hids hcrypt).run hops hkeys hrun
  exact hreached.1.guarded hops hreached.2

end Calls

end CCryptoKeyStore

section Scene

/-- Encryption puts the master key in front of the secret. -/
def prefixCrypter : CrypterOps where
  getPubKey key := CPubKey.set (if key.fCompressed then 2 :: key.vch else 4 :: (key.vch ++ key.vch))
  getID pubkey := BitVec.ofNat 160 (beNat pubkey.vch)
  hash bs := bs
  aesEncrypt vMasterKey _ vch := 1 :: (vMasterKey ++ vch)
  aesDecrypt vMasterKey _ vch :=
    if vch.take (vMasterKey.length + 1) = 1 :: vMasterKey then some (vch.drop (vMasterKey.length + 1)) else none

theorem prefixCrypter_ideal : prefixCrypter.Ideal where
  decrypt_encrypt vMasterKey nIV vch _ := by simp [prefixCrypter]
  encrypt_ne_nil vMasterKey nIV vch := List.cons_ne_nil _ _
  compressed key hheld := by
    cases hcompressed : key.fCompressed with
    | true => simp [prefixCrypter, hcompressed, CPubKey.set, CPubKey.isCompressed, getLen, hheld.length_eq]
    | false => simp [prefixCrypter, hcompressed, CPubKey.set, CPubKey.isCompressed, getLen, hheld.length_eq]
  other_key vMasterKey vOther hlength hlength' hother key key' _ _ hdecrypt := by
    have hstart : List.take (vOther.length + 1) (1 :: (vMasterKey ++ key.vch)) = 1 :: vMasterKey := by
      rw [hlength', ← hlength, List.take_succ_cons, List.take_left' rfl]
    rw [prefixCrypter] at hdecrypt
    dsimp only at hdecrypt
    rw [hstart, if_neg fun heq => hother (List.cons.inj heq).2.symm] at hdecrypt
    cases hdecrypt

/-- A small secret. -/
def smallKey (n : UInt8) (fCompressed : Bool) : CKey := ⟨List.replicate 31 0 ++ [n], true, fCompressed⟩

theorem smallKey_held (fCompressed : Bool) : (smallKey 1 fCompressed).Held ∧ (smallKey 2 fCompressed).Held := by
  have hcheck : CKey.check (smallKey 1 true).vch = true ∧ CKey.check (smallKey 2 true).vch = true := by decide +kernel
  exact ⟨⟨rfl, rfl, hcheck.1⟩, ⟨rfl, rfl, hcheck.2⟩⟩

def masterKey (n : UInt8) : Bytes := List.replicate WALLET_CRYPTO_KEY_SIZE n

/-- A store without any key. -/
def emptyStore : CCryptoKeyStore prefixCrypter := ⟨OrderedMap.empty, none, CryptedKeyMap.empty⟩

/-- A store with one key. -/
def oneKeyStore : CCryptoKeyStore prefixCrypter :=
  (emptyStore.addKeyPubKey (smallKey 1 true) (prefixCrypter.getPubKey (smallKey 1 true))).2

def CCryptoKeyStore.afterCall (s : CCryptoKeyStore prefixCrypter) (c : KeyStoreCall) : CCryptoKeyStore prefixCrypter :=
  ((s.call c).getD (false, s)).2

def oneSecretStore : CCryptoKeyStore prefixCrypter :=
  ((oneKeyStore.encryptKeys (masterKey 1)).getD (false, emptyStore)).2

/-- The store is opened, gets a second key, and is locked. -/
def twoSecretStore : CCryptoKeyStore prefixCrypter :=
  ((oneSecretStore.afterCall (.unlock (masterKey 1))).afterCall
    (.addKeyPubKey (smallKey 2 false) (prefixCrypter.getPubKey (smallKey 2 false)))).afterCall .lockKeyStore

/-- A store with two secrets, the second of an uncompressed key, is guarded. -/
theorem twoSecretStore_guarded :
    CCryptoKeyStore.Guarded (masterKey 1) [smallKey 1 true, smallKey 2 false] twoSecretStore := by
  have hcrypt : oneKeyStore.encryptKeys (masterKey 1) = some (true, oneSecretStore) := by decide +kernel
  have hkeys : oneKeyStore.plainKeys = [smallKey 1 true] := by decide +kernel
  have hid : prefixCrypter.getID (prefixCrypter.getPubKey (smallKey 1 true)) ≠
      prefixCrypter.getID (prefixCrypter.getPubKey (smallKey 2 false)) := by decide +kernel
  have hopened : CCryptoKeyStore.Reached oneSecretStore oneKeyStore.plainKeys
      (oneSecretStore.afterCall (.unlock (masterKey 1))) [smallKey 1 true] := by
    rw [hkeys]
    exact .step (c := .unlock (masterKey 1)) .start trivial (show _ = some (true, _) by decide +kernel)
  have hadded : CCryptoKeyStore.Reached oneSecretStore oneKeyStore.plainKeys
      ((oneSecretStore.afterCall (.unlock (masterKey 1))).afterCall
        (.addKeyPubKey (smallKey 2 false) (prefixCrypter.getPubKey (smallKey 2 false))))
      [smallKey 1 true, smallKey 2 false] := by
    have hmeets : (oneSecretStore.afterCall (.unlock (masterKey 1))).Meets [smallKey 1 true]
        (.addKeyPubKey (smallKey 2 false) (prefixCrypter.getPubKey (smallKey 2 false))) := by
      refine ⟨(smallKey_held false).2, rfl, ?_⟩
      intro key hkey hsame
      rw [List.mem_singleton.mp hkey] at hsame
      exact absurd hsame hid
    exact .step hopened hmeets (show _ = some (true, _) by decide +kernel)
  have hrun : CCryptoKeyStore.Reached oneSecretStore oneKeyStore.plainKeys twoSecretStore
      [smallKey 1 true, smallKey 2 false] :=
    .step (c := .lockKeyStore) hadded trivial (show _ = some (true, _) by decide +kernel)
  apply CCryptoKeyStore.guarded_of_reached prefixCrypter_ideal _ _ _ hcrypt hrun
  · intro key hkey _
    rw [hkeys] at hkey
    exact List.mem_singleton.mp hkey ▸ (smallKey_held true).1
  · intro key hkey key' hkey' _
    rw [hkeys] at hkey hkey'
    exact (List.mem_singleton.mp hkey).trans (List.mem_singleton.mp hkey').symm
  · rw [hkeys]
    decide

/-- A store without a key opens for a key that is not its master key, and once a key without a secret has arrived it
does not open for its master key. -/
theorem emptyStore_unguarded : prefixCrypter.Ideal ∧ masterKey 2 ≠ masterKey 1 ∧
    ∃ s₁ s₂, emptyStore.encryptKeys (masterKey 1) = some (true, s₁) ∧
      s₁.unlock (masterKey 2) = some (true, s₁.setMasterKey (masterKey 2)) ∧
      s₁.addCryptedKey (prefixCrypter.getPubKey (smallKey 1 true)) [] = (true, s₂) ∧
      s₂.unlock (masterKey 1) = some (false, s₂) := by
  refine ⟨prefixCrypter_ideal, by decide, { emptyStore with crypto := some [] }, _, by decide +kernel,
    by decide +kernel, rfl, by decide +kernel⟩

end Scene

end AliasWallet
