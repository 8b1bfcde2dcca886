import AliasWallet.Wallet.FreshKeys

/-!
# Encryption of extended keys

`EncryptWallet` encrypts the records of the chains through copies. The chains in memory keep their secrets
and their flags, by which locking, unlocking and writing decide: they are passed over by every later lock,
and the first chain that is written again is written with its secret.
-/

namespace AliasWallet
open Lib

/-- What unlocking uses beside the crypter. -/
structure UnlockOps extends ExtKeyOps where
  /-- `CKey::Check`. -/
  validKey : Bytes → Bool
  getPubKey : Bytes → Bytes

/-- The accounts in memory with their records, whether the wallet is encrypted, and whether its master key
is there. -/
structure KeyWallet where
  accounts : List KeyState
  fUseCrypto : Bool
  fMasterKey : Bool

section Chains

variable (ops : UnlockOps)

/-- `ExtKeyLock` for one chain. -/
def CStoredExtKey.lock (sek : CStoredExtKey) : CStoredExtKey :=
  if sek.isCrypted then { sek with kp := { sek.kp with key := none }, fLocked := true } else sek

/-- `ExtKeyUnlock` for one chain: whether it returns zero. -/
def CStoredExtKey.unlock (sek : CStoredExtKey) : Bool × CStoredExtKey :=
  if sek.isCrypted then
    match ops.decryptSecret sek.vchCryptedSecret sek.kp.pubkey with
    | none => (false, sek)
    | some vchSecret =>
      if vchSecret.length ≠ 32 then (false, sek)
      else if ops.validKey vchSecret then
        let sek := { sek with kp := { sek.kp with key := some vchSecret } }
        if ops.getPubKey vchSecret ≠ sek.kp.pubkey then (false, sek) else (true, { sek with fLocked := false })
      else (false, { sek with kp := { sek.kp with key := none } })
  else (true, sek)

/-- The loop over the chains, which ends with the first that fails. -/
def unlockChains : List CStoredExtKey → Bool × List CStoredExtKey
  | [] => (true, [])
  | sek :: seks =>
    match sek.unlock ops with
    | (false, sek) => (false, sek :: seks)
    | (true, sek) =>
      match unlockChains seks with
      | (ok, seks) => (ok, sek :: seks)

def CExtKeyAccount.setChains (sea : CExtKeyAccount) (vExtKeys : List CStoredExtKey) : CExtKeyAccount :=
  { sea with vExtKeys }

/-- `ExtKeyUnlock` over the accounts, which ends with the first that fails. -/
def unlockAccounts : List KeyState → List KeyState
  | [] => []
  | st :: sts =>
    match unlockChains ops st.sea.vExtKeys with
    | (false, vExtKeys) => ⟨st.sea.setChains vExtKeys, st.db⟩ :: sts
    | (true, vExtKeys) => ⟨st.sea.setChains vExtKeys, st.db⟩ :: unlockAccounts sts

end Chains

namespace KeyWallet

variable (ops : UnlockOps) (w : KeyWallet)

def isLocked : Bool := w.fUseCrypto && !w.fMasterKey

/-- `Lock` of an encrypted wallet. -/
def lock : KeyWallet :=
  if w.isLocked then w
  else
    { w with
      accounts := w.accounts.map fun st => ⟨st.sea.setChains (st.sea.vExtKeys.map CStoredExtKey.lock), st.db⟩
      fMasterKey := false }

/-- `Unlock`, with a passphrase that is right or wrong. -/
def unlock (fPassphrase : Bool) : KeyWallet :=
  if w.isLocked && fPassphrase then { w with accounts := unlockAccounts ops w.accounts, fMasterKey := true } else w

end KeyWallet

section Encrypt

variable (ops : UnlockOps)

/-- One record in `ExtKeyEncryptAll`. -/
def encryptRecord (db : AccountDB) (id : CKeyID) : Option AccountDB :=
  match db.extKeys id with
  | none => some db
  | some sek =>
    if sek.kp.key.isNone then some db
    else
      match extKeyEncrypt ops.toExtKeyOps sek true with
      | none => none
      | some sek =>
        match db.writeExtKey id sek with
        | (false, _) => none
        | (true, db) => some db

/-- `ExtKeyEncryptAll`, over the ids that the cursor finds. -/
def extKeyEncryptAll (ids : List CKeyID) (db : AccountDB) : Option AccountDB := ids.foldlM (encryptRecord ops) db

/-- `EncryptWallet` that returns true. The wallet counts as locked as soon as it is encrypted, so the first
lock does nothing. -/
def encryptWallet (ids : List CKeyID) (fPassphrase : Bool) (w : KeyWallet) : Option KeyWallet :=
  if w.fUseCrypto then none
  else
    match w.accounts.mapM fun st => (extKeyEncryptAll ops ids st.db).map fun db => KeyState.mk st.sea db with
    | none => none
    | some accounts =>
      let w : KeyWallet := { accounts, fUseCrypto := true, fMasterKey := false }
      some ((w.lock.unlock ops fPassphrase).lock)

/-- What happens to a wallet. -/
inductive KeyWalletAction where
  | haveKey (nAccount : Nat) (id : CKeyID)
  | newKey (nAccount : Nat) (fInternal fHardened : Bool)
  | newStealthKey (nAccount : Nat) (sLabel : String)
  | lock
  | unlock (fPassphrase : Bool)
  deriving DecidableEq, Repr

/-- One account changes. -/
def KeyWallet.onAccount (w : KeyWallet) (nAccount : Nat) (call : KeyState → KeyState) : KeyWallet :=
  { w with accounts := w.accounts.modify nAccount call }

def keyWalletStep (w : KeyWallet) : KeyWalletAction → KeyWallet
  | .haveKey nAccount id => w.onAccount nAccount fun st => (haveKey ops.toExtKeyOps st id).2
  | .newKey nAccount fInternal fHardened =>
    w.onAccount nAccount fun st =>
      (inTransaction (newKeyFromAccount ops.toExtKeyOps w.isLocked · fInternal fHardened) st).2
  | .newStealthKey nAccount sLabel =>
    w.onAccount nAccount fun st => (inTransaction (newStealthKeyFromAccount ops.toExtKeyOps w.isLocked · sLabel) st).2
  | .lock => w.lock
  | .unlock fPassphrase => w.unlock ops fPassphrase

def keyWalletRun (w : KeyWallet) (actions : List KeyWalletAction) : KeyWallet := actions.foldl (keyWalletStep ops) w

/-- No record of a chain holds a secret, and a lock leaves none in memory. -/
def KeyWallet.AtRest (w : KeyWallet) : Prop :=
  (∀ st ∈ w.accounts, ∀ id sek, st.db.extKeys id = some sek → sek.kp.key = none) ∧
    ∀ st ∈ w.lock.accounts, ∀ sek ∈ st.sea.vExtKeys, sek.kp.key = none

end Encrypt

section Unflagged

variable (ops : UnlockOps)

/-- No chain in memory has been encrypted. -/
def Unflagged (accounts : List KeyState) : Prop :=
  ∀ st ∈ accounts, ∀ sek ∈ st.sea.vExtKeys, sek.isCrypted = false

theorem unlockChains_of_unflagged (seks : List CStoredExtKey) (h : ∀ sek ∈ seks, sek.isCrypted = false) :
    unlockChains ops seks = (true, seks) := by
  induction seks with
  | nil => rfl
  | cons sek seks ih =>
    obtain ⟨hhead, hrest⟩ := List.forall_mem_cons.mp h
    simp [unlockChains, CStoredExtKey.unlock, hhead, ih hrest]

theorem unlockAccounts_of_unflagged (accounts : List KeyState) (h : Unflagged accounts) :
    unlockAccounts ops accounts = accounts := by
  induction accounts with
  | nil => rfl
  | cons st sts ih =>
    obtain ⟨hhead, hrest⟩ := List.forall_mem_cons.mp h
    rw [unlockAccounts, unlockChains_of_unflagged ops _ hhead]
    simp only [ih hrest]
    rfl

theorem lock_of_unflagged {w : KeyWallet} (h : Unflagged w.accounts) : w.lock.accounts = w.accounts := by
  unfold KeyWallet.lock
  split
  · rfl
  · have hsame : ∀ st ∈ w.accounts,
        KeyState.mk (st.sea.setChains (st.sea.vExtKeys.map CStoredExtKey.lock)) st.db = st := by
      intro st hst
      have hlocked : ∀ sek ∈ st.sea.vExtKeys, sek.lock = sek := by
        intro sek hsek
        simp [CStoredExtKey.lock, h st hst sek hsek]
      have hchains : st.sea.vExtKeys.map CStoredExtKey.lock = st.sea.vExtKeys :=
        (List.map_congr_left hlocked).trans (List.map_id' _)
      rw [hchains]
      rfl
    exact (List.map_congr_left hsame).trans (List.map_id _)

theorem unlock_of_unflagged {w : KeyWallet} (h : Unflagged w.accounts) (fPassphrase : Bool) :
    (w.unlock ops fPassphrase).accounts = w.accounts := by
  unfold KeyWallet.unlock
  split
  · exact unlockAccounts_of_unflagged ops w.accounts h
  · rfl

/-- A record of a chain after its encryption. -/
theorem encryptRecord_spec {db db' : AccountDB} {id : CKeyID} (h : encryptRecord ops db id = some db') :
    (∀ id', id' ≠ id → db'.extKeys id' = db.extKeys id') ∧ ∀ sek, db'.extKeys id = some sek → sek.kp.key = none := by
  unfold encryptRecord at h
  cases hrecord : db.extKeys id with
  | none =>
    simp only [hrecord, Option.some.injEq] at h
    subst h
    exact ⟨fun _ _ => rfl, by simp [hrecord]⟩
  | some sek =>
    simp only [hrecord] at h
    cases hkey : sek.kp.key with
    | none =>
      simp only [hkey, Option.isNone_none, if_true, Option.some.injEq] at h
      subst h
      exact ⟨fun _ _ => rfl, by simp [hrecord, hkey]⟩
    | some key =>
      simp only [hkey, Option.isNone_some, Bool.false_eq_true, if_false, extKeyEncrypt] at h
      cases hcrypt : ops.encryptSecret key sek.kp.pubkey with
      | none => simp [hcrypt] at h
      | some vchCryptedSecret =>
        simp only [hcrypt, if_true, AccountDB.writeExtKey_eq] at h
        cases hwrite : db.outcome 0 with
        | false => simp [hwrite] at h
        | true =>
          simp only [hwrite, if_true, Option.some.injEq] at h
          subst h
          constructor
          · intro id' hid'
            exact Function.update_of_ne hid' _ _
          · intro sek' hsek'
            simp only [AccountDB.setExtKey, Function.update_self, Option.some.injEq, CStoredExtKey.stored] at hsek'
            subst hsek'
            split <;> rfl

/-- After the loop no record holds a secret. -/
theorem extKeyEncryptAll_spec {ids : List CKeyID} {db db' : AccountDB}
    (h : extKeyEncryptAll ops ids db = some db')
    (hcursor : ∀ id sek, db.extKeys id = some sek → id ∈ ids ∨ sek.kp.key = none) (id : CKeyID)
    (sek : CStoredExtKey) (hsek : db'.extKeys id = some sek) : sek.kp.key = none := by
  unfold extKeyEncryptAll at h
  induction ids generalizing db with
  | nil =>
    obtain rfl := Option.some.inj h
    exact (hcursor id sek hsek).elim (by simp) fun hnone => hnone
  | cons idNext ids ih =>
    rw [List.foldlM_cons] at h
    cases hnext : encryptRecord ops db idNext with
    | none => simp [hnext] at h
    | some dbNext =>
      simp only [hnext, Option.bind_eq_bind, Option.bind_some] at h
      obtain ⟨hothers, hself⟩ := encryptRecord_spec ops hnext
      apply ih h
      intro id' sek' hsek'
      by_cases hid : id' = idNext
      · subst hid
        exact .inr (hself sek' hsek')
      · rw [hothers id' hid] at hsek'
        exact (hcursor id' sek' hsek').imp_left fun hmem => (List.mem_cons.mp hmem).resolve_left hid

end Unflagged

section Neutered

variable (ops : ExtKeyOps)

/-- No chain has a secret, in memory or in the records. -/
structure KeyState.Neutered (st : KeyState) : Prop where
  chains : ∀ sek ∈ st.sea.vExtKeys, sek.kp.key = none ∧ sek.isCrypted = false
  records : ∀ id sek, st.db.extKeys id = some sek → sek.kp.key = none

theorem stored_key {sek : CStoredExtKey} (h : sek.kp.key = none) : sek.stored.kp.key = none := by
  unfold CStoredExtKey.stored
  split
  · exact h
  · rfl

theorem passKey_key {sek : CStoredExtKey} (nKey : UInt32) (h : sek.kp.key = none ∧ sek.isCrypted = false) :
    (sek.passKey nKey).kp.key = none ∧ (sek.passKey nKey).isCrypted = false := by
  unfold CStoredExtKey.passKey
  split <;> exact h

theorem setCounter_key {sek : CStoredExtKey} (nC : UInt32) (fHardened : Bool)
    (h : sek.kp.key = none ∧ sek.isCrypted = false) :
    (sek.setCounter nC fHardened).kp.key = none ∧ (sek.setCounter nC fHardened).isCrypted = false := by
  cases fHardened <;> exact h

/-- A chain may be set to one without a secret. -/
theorem chains_set {seks : List CStoredExtKey} (h : ∀ sek ∈ seks, sek.kp.key = none ∧ sek.isCrypted = false) (i : Nat)
    {sek' : CStoredExtKey} (hsek' : sek'.kp.key = none ∧ sek'.isCrypted = false) :
    ∀ sek ∈ seks.set i sek', sek.kp.key = none ∧ sek.isCrypted = false := by
  intro sek hsek
  obtain hold | rfl := List.mem_or_eq_of_mem_set hsek
  · exact h sek hold
  · exact hsek'

theorem chains_saveKey {sea : CExtKeyAccount}
    (h : ∀ sek ∈ sea.vExtKeys, sek.kp.key = none ∧ sek.isCrypted = false) (id : CKeyID) (ak : CEKAKey) :
    ∀ sek ∈ (sea.saveKey ops id ak).2.vExtKeys, sek.kp.key = none ∧ sek.isCrypted = false := by
  cases hfree : sea.mapKeys id with
  | some ak' =>
    rw [saveKey_of_saved ops sea (by simp [hfree])]
    exact h
  | none =>
    cases hchain : sea.getChain ak.nParent with
    | none =>
      rw [saveKey_eq ops sea hfree, CExtKeyAccount.advanceChain,
        show (sea.moveKey id ak).getChain ak.nParent = none from hchain]
      exact h
    | some pc =>
      rw [(saveKey_frame ops hfree hchain).1]
      exact chains_set h _ (passKey_key ak.nKey (h pc (List.mem_of_getElem? hchain)))

theorem setExtKey_records {db : AccountDB} {id id' : CKeyID} {sek sek' : CStoredExtKey}
    (h : (db.setExtKey id sek').extKeys id' = some sek) : db.extKeys id' = some sek ∨ sek = sek'.stored := by
  by_cases hid : id' = id
  · subst hid
    simp only [AccountDB.setExtKey, Function.update_self, Option.some.injEq] at h
    exact .inr h.symm
  · simp only [AccountDB.setExtKey, Function.update_of_ne hid] at h
    exact .inl h

theorem writeIfUpdated_extKeys (fUpdateAcc : Bool) (st : KeyState) :
    (writeIfUpdated fUpdateAcc st).2.db.extKeys = st.db.extKeys := by
  rw [writeIfUpdated_eq]
  cases fUpdateAcc with
  | false => rfl
  | true => cases st.db.outcome 0 <;> rfl

/-- A transaction around a call that keeps secrets away. What a failed call has written is taken back. -/
theorem neutered_inTransaction {α : Type} {call : KeyState → Option α × KeyState} {st : KeyState} (h : st.Neutered)
    (hchains : ∀ sek ∈ (call ⟨st.sea, st.db.next⟩).2.sea.vExtKeys, sek.kp.key = none ∧ sek.isCrypted = false)
    (hrecords : (call ⟨st.sea, st.db.next⟩).1.isSome → ∀ id sek,
      (call ⟨st.sea, st.db.next⟩).2.db.extKeys id = some sek → sek.kp.key = none) :
    (inTransaction call st).2.Neutered := by
  rw [inTransaction, AccountDB.commitWrite_eq]
  cases h0 : st.db.outcome 0 with
  | false => exact ⟨h.chains, h.records⟩
  | true =>
    simp only [if_true, id]
    cases hresult : call ⟨st.sea, st.db.next⟩ with
    | mk result st' =>
      rw [hresult] at hchains hrecords
      cases result with
      | none => exact ⟨hchains, h.records⟩
      | some a =>
        simp only [AccountDB.commitWrite_eq]
        cases st'.db.outcome 0 with
        | false => exact ⟨hchains, h.records⟩
        | true => exact ⟨hchains, hrecords rfl⟩

/-- A call that returns no key and keeps the chains. -/
theorem neutered_failedCall {α : Type} {call : KeyState → Option α × KeyState} {st st' : KeyState} (h : st.Neutered)
    (hcall : call ⟨st.sea, st.db.next⟩ = (none, st')) (hchains : st'.sea.vExtKeys = st.sea.vExtKeys) :
    (inTransaction call st).2.Neutered := by
  apply neutered_inTransaction h
  · rw [hcall, hchains]
    exact h.chains
  · simp [hcall]

/-- A record after `ExtKeySaveKey` is one from before, or that of a chain in memory. -/
theorem extKeySaveKey_records {st : KeyState} {id id' : CKeyID} {ak : CEKAKey} {sek : CStoredExtKey}
    (h : (extKeySaveKey ops st id ak).2.db.extKeys id' = some sek) :
    st.db.extKeys id' = some sek ∨ ∃ sek' ∈ (st.sea.saveKey ops id ak).2.vExtKeys, sek = sek'.stored := by
  cases hsave : st.sea.saveKey ops id ak with
  | mk ok saved =>
    rw [extKeySaveKey, hsave] at h
    cases ok with
    | false => exact .inl h
    | true =>
      simp only [appendToKeyPack_eq] at h
      cases h0 : st.db.outcome 0 with
      | false =>
        simp only [h0, Bool.false_eq_true, if_false] at h
        exact .inl h
      | true =>
        simp only [h0, if_true, getChain_setPack] at h
        cases hpc : saved.getChain ak.nParent with
        | none =>
          simp only [hpc] at h
          exact .inl h
        | some pc =>
          simp only [hpc, AccountDB.writeExtKey_eq] at h
          cases h1 : ((KeyState.mk saved st.db).packed id ak).outcome 0 with
          | false =>
            simp only [h1, Bool.false_eq_true, if_false] at h
            exact .inl h
          | true =>
            simp only [h1, if_true, writeIfUpdated_extKeys] at h
            obtain hold | hnew := setExtKey_records h
            · exact .inl hold
            · exact .inr ⟨pc, List.mem_of_getElem? hpc, hnew⟩

theorem saveKeyCall_snd (id : CKeyID) (ak : CEKAKey) (st : KeyState) :
    (saveKeyCall ops id ak st).2 = (extKeySaveKey ops st id ak).2 := by
  unfold saveKeyCall
  cases extKeySaveKey ops st id ak with
  | mk ok st' => cases ok <;> rfl

/-- A payment to a key of the look-ahead. -/
theorem neutered_haveKey {st : KeyState} (h : st.Neutered) (id : CKeyID) : (haveKey ops st id).2.Neutered := by
  unfold haveKey
  cases hahead : st.sea.lookAheadKey id with
  | none => exact h
  | some ak =>
    have hfree := (lookAheadKey_eq_some.mp hahead).1
    have hchains := chains_saveKey ops h.chains id ak
    apply neutered_inTransaction h
    · obtain ⟨nPack, hsea, -⟩ := extKeySaveKey_cases ops ⟨st.sea, st.db.next⟩ hfree ak
      rw [saveKeyCall_snd, hsea]
      exact hchains
    · intro _ id' sek hsek
      rw [saveKeyCall_snd] at hsek
      obtain hold | ⟨sek', hsek', rfl⟩ := extKeySaveKey_records ops hsek
      · exact h.records id' sek hold
      · exact stored_key (hchains sek' hsek').1

/-- A new key. -/
theorem neutered_newKey {st : KeyState} (h : st.Neutered) (fWalletLocked fInternal fHardened : Bool) :
    (inTransaction (newKeyFromAccount ops fWalletLocked · fInternal fHardened) st).2.Neutered := by
  cases hd : deriveNewKey ops fWalletLocked st.sea fInternal fHardened with
  | none =>
    have hcall : newKeyFromAccount ops fWalletLocked ⟨st.sea, st.db.next⟩ fInternal fHardened =
        (none, ⟨st.sea, st.db.next⟩) := by
      simp [newKeyFromAccount, hd]
    exact neutered_failedCall h hcall rfl
  | some d =>
    obtain ⟨-, hchain, hnext⟩ := deriveNewKey_spec ops hd
    obtain ⟨n, -, -, -, -, hsekNext⟩ := deriveNextKey_spec ops hnext
    have hsek : d.sekNext.kp.key = none ∧ d.sekNext.isCrypted = false := by
      rw [hsekNext]
      exact setCounter_key _ _ (h.chains d.sek (List.mem_of_getElem? hchain))
    obtain ⟨-, hcall⟩ | ⟨-, -, db, hcall⟩ | ⟨-, -, -, hcall⟩ :=
      newKeyFromAccount_cases ops fWalletLocked ⟨st.sea, st.db.next⟩ fInternal fHardened d hd
    · exact neutered_failedCall h hcall rfl
    · exact neutered_failedCall h hcall rfl
    · apply neutered_inTransaction h
      · rw [hcall]
        exact chains_saveKey ops (chains_set h.chains _ hsek) _ _
      · intro _ id sek hrecord
        rw [hcall] at hrecord
        have hwritten : (st.db.setExtKey (st.sea.chainID d.nChain) d.sekNext).extKeys id = some sek := by
          unfold KeyState.recorded at hrecord
          split at hrecord <;> exact hrecord
        obtain hold | rfl := setExtKey_records hwritten
        · exact h.records id sek hold
        · exact stored_key hsek.1

/-- A stealth key needs the secret of its chain. -/
theorem neutered_newStealthKey {st : KeyState} (h : st.Neutered) (fWalletLocked : Bool) (sLabel : String) :
    (inTransaction (newStealthKeyFromAccount ops fWalletLocked · sLabel) st).2.Neutered := by
  have hderive : deriveStealthKey ops fWalletLocked st.sea = none := by
    unfold deriveStealthKey
    split
    · rfl
    · cases hchain : st.sea.getChain st.sea.nActiveStealth with
      | none => rfl
      | some sek =>
        have hkey := (h.chains sek (List.mem_of_getElem? hchain)).1
        simp [CStoredExtKey.deriveNextKey, CStoredExtKey.deriveKey, hkey]
  have hcall : newStealthKeyFromAccount ops fWalletLocked ⟨st.sea, st.db.next⟩ sLabel =
      (none, ⟨st.sea, st.db.next⟩) := by
    simp [newStealthKeyFromAccount, hderive]
  exact neutered_failedCall h hcall rfl

end Neutered

section AtRest

variable (ops : UnlockOps)

theorem unflagged_of_neutered {accounts : List KeyState} (h : ∀ st ∈ accounts, st.Neutered) : Unflagged accounts :=
  fun st hst sek hsek => ((h st hst).chains sek hsek).2

theorem neutered_modify {accounts : List KeyState} (h : ∀ st ∈ accounts, st.Neutered) (i : Nat)
    {call : KeyState → KeyState} (hcall : ∀ st : KeyState, st.Neutered → (call st).Neutered) :
    ∀ st ∈ accounts.modify i call, st.Neutered := by
  induction accounts generalizing i with
  | nil => simp
  | cons st sts ih =>
    obtain ⟨hhead, hrest⟩ := List.forall_mem_cons.mp h
    cases i with
    | zero => simpa using ⟨hcall st hhead, hrest⟩
    | succ i => simpa using ⟨hhead, ih hrest i⟩

/-- Accounts without secrets stay so over every action. -/
theorem neutered_step {w : KeyWallet} (h : ∀ st ∈ w.accounts, st.Neutered) (action : KeyWalletAction) :
    ∀ st ∈ (keyWalletStep ops w action).accounts, st.Neutered := by
  have hunflagged := unflagged_of_neutered h
  cases action with
  | haveKey nAccount id => exact neutered_modify h nAccount fun st hst => neutered_haveKey _ hst id
  | newKey nAccount fInternal fHardened =>
    exact neutered_modify h nAccount fun st hst => neutered_newKey _ hst w.isLocked fInternal fHardened
  | newStealthKey nAccount sLabel =>
    exact neutered_modify h nAccount fun st hst => neutered_newStealthKey _ hst w.isLocked sLabel
  | lock =>
    rw [keyWalletStep, lock_of_unflagged hunflagged]
    exact h
  | unlock fPassphrase =>
    rw [keyWalletStep, unlock_of_unflagged ops hunflagged]
    exact h

theorem neutered_run (actions : List KeyWalletAction) {w : KeyWallet} (h : ∀ st ∈ w.accounts, st.Neutered) :
    ∀ st ∈ (keyWalletRun ops w actions).accounts, st.Neutered := by
  induction actions generalizing w with
  | nil => exact h
  | cons action actions ih => exact ih (neutered_step ops h action)

theorem mem_of_mapM {α β : Type} {f : α → Option β} {xs : List α} {ys : List β} (h : xs.mapM f = some ys) :
    (∀ y ∈ ys, ∃ x ∈ xs, f x = some y) ∧ ∀ x ∈ xs, ∃ y ∈ ys, f x = some y := by
  induction xs generalizing ys with
  | nil =>
    obtain rfl : ys = [] := by simpa using h.symm
    simp
  | cons x xs ih =>
    rw [List.mapM_cons] at h
    cases hx : f x with
    | none => simp [hx] at h
    | some y =>
      cases hxs : xs.mapM f with
      | none => simp [hx, hxs] at h
      | some ys' =>
        obtain rfl : y :: ys' = ys := by simpa [hx, hxs] using h
        obtain ⟨hback, hforth⟩ := ih hxs
        constructor
        · intro y' hy'
          obtain rfl | hy' := List.mem_cons.mp hy'
          · exact ⟨x, by simp, hx⟩
          · obtain ⟨x', hx', hf⟩ := hback y' hy'
            exact ⟨x', List.mem_cons_of_mem _ hx', hf⟩
        · intro x' hx'
          obtain rfl | hx' := List.mem_cons.mp hx'
          · exact ⟨y, by simp, hx⟩
          · obtain ⟨y', hy', hf⟩ := hforth x' hx'
            exact ⟨y', List.mem_cons_of_mem _ hy', hf⟩

/-- The accounts after `EncryptWallet`: the chains in memory are untouched, and no record holds a secret. -/
theorem encryptWallet_accounts {ids : List CKeyID} {fPassphrase : Bool} {w w' : KeyWallet}
    (hunflagged : Unflagged w.accounts)
    (hcursor : ∀ st ∈ w.accounts, ∀ id, (st.db.extKeys id).isSome → id ∈ ids)
    (h : encryptWallet ops ids fPassphrase w = some w') :
    (∀ st' ∈ w'.accounts, ∃ st ∈ w.accounts, st'.sea = st.sea) ∧
      (∀ st ∈ w.accounts, ∃ st' ∈ w'.accounts, st'.sea = st.sea) ∧
      ∀ st' ∈ w'.accounts, ∀ id sek, st'.db.extKeys id = some sek → sek.kp.key = none := by
  unfold encryptWallet at h
  split at h
  · cases h
  cases hmap : w.accounts.mapM fun st => (extKeyEncryptAll ops ids st.db).map fun db => KeyState.mk st.sea db with
  | none => simp [hmap] at h
  | some accounts =>
    simp only [hmap, Option.some.injEq] at h
    obtain ⟨hback, hforth⟩ := mem_of_mapM hmap
    have hfrom : ∀ st' ∈ accounts, ∃ st ∈ w.accounts, st'.sea = st.sea ∧
        extKeyEncryptAll ops ids st.db = some st'.db := by
      intro st' hst'
      obtain ⟨st, hst, hdb⟩ := hback st' hst'
      obtain ⟨db, hall, rfl⟩ := Option.map_eq_some_iff.mp hdb
      exact ⟨st, hst, rfl, hall⟩
    have hunflagged' : Unflagged accounts := by
      intro st' hst' sek hsek
      obtain ⟨st, hst, hsea, -⟩ := hfrom st' hst'
      rw [hsea] at hsek
      exact hunflagged st hst sek hsek
    -- locking and unlocking pass over all chains
    have haccounts : w'.accounts = accounts := by
      have hlock := lock_of_unflagged (w := ⟨accounts, true, false⟩) hunflagged'
      have hunlock := unlock_of_unflagged ops (w := KeyWallet.lock ⟨accounts, true, false⟩)
        (hlock.symm ▸ hunflagged') fPassphrase
      rw [← h, lock_of_unflagged (by rw [hunlock, hlock]; exact hunflagged'), hunlock, hlock]
    rw [haccounts]
    refine ⟨?_, ?_, ?_⟩
    · intro st' hst'
      obtain ⟨st, hst, hsea, -⟩ := hfrom st' hst'
      exact ⟨st, hst, hsea⟩
    · intro st hst
      obtain ⟨st', hst', hdb⟩ := hforth st hst
      obtain ⟨db, -, rfl⟩ := Option.map_eq_some_iff.mp hdb
      exact ⟨_, hst', rfl⟩
    · intro st' hst'
      obtain ⟨st, hst, -, hdb⟩ := hfrom st' hst'
      apply extKeyEncryptAll_spec ops hdb
      intro id sek hsek
      exact .inl (hcursor st hst id (by rw [hsek]; rfl))

/-- After `EncryptWallet` the secrets of the chains stay away from memory and records in every run exactly
if no chain in memory had a secret. -/
theorem encrypted_atRest_iff (w w' : KeyWallet) (ids : List CKeyID) (fPassphrase : Bool)
    (hunflagged : Unflagged w.accounts)
    (hcursor : ∀ st ∈ w.accounts, ∀ id, (st.db.extKeys id).isSome → id ∈ ids)
    (h : encryptWallet ops ids fPassphrase w = some w') :
    (∀ actions, (keyWalletRun ops w' actions).AtRest) ↔
      ∀ st ∈ w.accounts, ∀ sek ∈ st.sea.vExtKeys, sek.kp.key = none := by
  obtain ⟨hback, hforth, hrecords⟩ := encryptWallet_accounts ops hunflagged hcursor h
  have hunflagged' : Unflagged w'.accounts := by
    intro st' hst' sek hsek
    obtain ⟨st, hst, hsea⟩ := hback st' hst'
    rw [hsea] at hsek
    exact hunflagged st hst sek hsek
  constructor
  · intro hall st hst sek hsek
    obtain ⟨st', hst', hsea⟩ := hforth st hst
    have hlocked := (hall []).2
    rw [show keyWalletRun ops w' [] = w' from rfl, lock_of_unflagged hunflagged'] at hlocked
    exact hlocked st' hst' sek (hsea ▸ hsek)
  · intro hnone actions
    have hstart : ∀ st' ∈ w'.accounts, st'.Neutered := by
      intro st' hst'
      obtain ⟨st, hst, hsea⟩ := hback st' hst'
      refine ⟨?_, hrecords st' hst'⟩
      intro sek hsek
      rw [hsea] at hsek
      exact ⟨hnone st hst sek hsek, hunflagged st hst sek hsek⟩
    have hrun := neutered_run ops actions hstart
    refine ⟨fun st hst => (hrun st hst).records, ?_⟩
    rw [lock_of_unflagged (unflagged_of_neutered hrun)]
    exact fun st hst sek hsek => ((hrun st hst).chains sek hsek).1

end AtRest

section Scene

def plainUnlockOps : UnlockOps where
  toExtKeyOps := plainOps
  validKey _ := true
  getPubKey key := key

/-- The ids of its chains. -/
def plainIDs : List CKeyID := [plainOps.getID [1], plainOps.getID [2], plainOps.getID [3]]

/-- A wallet with one account. -/
def plainWallet (sea : CExtKeyAccount) (db : AccountDB) : KeyWallet := ⟨[⟨sea, db⟩], false, false⟩

/-- A chain that is only watched. -/
def watchedChain (pubkey : Bytes) : CStoredExtKey := { plainChain pubkey with kp := ⟨pubkey, none⟩ }

def watchedAccount : CExtKeyAccount := plainAccount.setChains [watchedChain [1], watchedChain [2], watchedChain [3]]

/-- The records of an account whose chains are only watched. -/
def watchedDB : AccountDB :=
  { plainDB with
    extKeys := fun id => ([[1], [2], [3]].find? fun pubkey => plainOps.getID pubkey == id).map watchedChain }

/-- A wallet that only watches its chains has no secret in any run. -/
theorem watchedChains_atRest :
    ∃ w', encryptWallet plainUnlockOps plainIDs true (plainWallet watchedAccount watchedDB) = some w' ∧
      ∀ actions, (keyWalletRun plainUnlockOps w' actions).AtRest := by
  obtain ⟨w', hw'⟩ := Option.isSome_iff_exists.mp
    (by decide +kernel : (encryptWallet plainUnlockOps plainIDs true (plainWallet watchedAccount watchedDB)).isSome)
  have hcursor : ∀ id, (watchedDB.extKeys id).isSome → id ∈ plainIDs := by
    intro id hid
    rw [show watchedDB.extKeys id = Option.map watchedChain _ from rfl, Option.isSome_map,
      List.find?_isSome] at hid
    obtain ⟨pubkey, hpubkey, hid⟩ := hid
    rw [← beq_iff_eq.mp hid]
    exact List.mem_map_of_mem hpubkey
  have hchains : ∀ st ∈ (plainWallet watchedAccount watchedDB).accounts, ∀ sek ∈ st.sea.vExtKeys,
      sek.isCrypted = false ∧ sek.kp.key = none := by
    decide
  refine ⟨w', hw', ?_⟩
  apply (encrypted_atRest_iff plainUnlockOps _ w' plainIDs true _ _ hw').mpr
  · exact fun st hst sek hsek => (hchains st hst sek hsek).2
  · exact fun st hst sek hsek => (hchains st hst sek hsek).1
  · intro st hst
    obtain rfl := List.mem_singleton.mp hst
    exact hcursor

/-- A new key after the encryption writes the secret of its chain. -/
theorem newKey_writesSecret :
    ∃ w', encryptWallet plainUnlockOps plainIDs true (plainWallet plainAccount plainDB) = some w' ∧
      ¬ (keyWalletRun plainUnlockOps w' [.newKey 0 false false]).AtRest := by
  obtain ⟨w', hw'⟩ := Option.isSome_iff_exists.mp
    (by decide +kernel : (encryptWallet plainUnlockOps plainIDs true (plainWallet plainAccount plainDB)).isSome)
  have hsecret : (encryptWallet plainUnlockOps plainIDs true (plainWallet plainAccount plainDB)).bind (fun w' =>
      (keyWalletRun plainUnlockOps w' [.newKey 0 false false]).accounts[0]?.bind fun st =>
        (st.db.extKeys (plainOps.getID [2])).bind fun sek => sek.kp.key) = some [7] := by
    decide +kernel
  refine ⟨w', hw', ?_⟩
  intro hrest
  rw [hw', Option.bind_some] at hsecret
  obtain ⟨st, hst, hsecret⟩ := Option.bind_eq_some_iff.mp hsecret
  obtain ⟨sek, hsek, hkey⟩ := Option.bind_eq_some_iff.mp hsecret
  rw [hrest.1 st (List.mem_of_getElem? hst) _ sek hsek] at hkey
  cases hkey

end Scene

end AliasWallet
