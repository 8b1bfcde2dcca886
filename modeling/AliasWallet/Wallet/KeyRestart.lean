import AliasWallet.Wallet.FreshKeys

/-!
# Keys of an account over restarts

Keys are appended to packs that are read, extended and written back; the numbers of the packs are not
always written. What `ExtKeyLoadAccounts` and `ExtKeyLoadAccountPacks` read back is what was in memory.
-/

namespace AliasWallet
open Lib

section Load

variable (ops : ExtKeyOps)

/-- The packs in the order of the cursor: by the bytes of their numbers. -/
def cursorOrder {V : Type} (packs : Packs V) : Packs V :=
  packs.mergeSort fun a b => decide (leBytes 4 a.1.toNat ≤ leBytes 4 b.1.toNat)

/-- A map with an entry of a pack. -/
def loadEntry {V : Type} (map : CKeyID → Option V) (e : CKeyID × V) : CKeyID → Option V :=
  Function.update map e.1 (some e.2)

/-- The map of the keys in the packs. -/
def loadPacks {V : Type} (packs : Packs V) : CKeyID → Option V :=
  (cursorOrder packs).foldl (fun map pack => pack.2.foldl loadEntry map) fun _ => none

/-- A chain as it is after a start: an encrypted one is locked. -/
def CStoredExtKey.loaded (sek : CStoredExtKey) : CStoredExtKey := { sek with fLocked := sek.isCrypted }

/-- The account as it is read, with no keys yet. -/
def AccountRecord.loaded (account : AccountRecord) (vExtKeys : List CStoredExtKey) : CExtKeyAccount :=
  { account with
    mapKeys := fun _ => none
    mapLookAhead := fun _ => none
    mapStealthChildKeys := fun _ => none
    mapStealthKeys := fun _ => none
    vExtKeys }

/-- `ExtKeyAddAccountToMaps`: the chains that look ahead, and how far. -/
def lookAheadChains (vExtKeys : List CStoredExtKey) : List (UInt32 × Nat) :=
  vExtKeys.zipIdx.filterMap fun e =>
    if e.1.receives then some (e.2.toUInt32, e.1.nLookAhead.getD N_DEFAULT_LOOKAHEAD % 2 ^ 32) else none

/-- `ExtKeyLoadAccounts` for one account. A chain that cannot be read ends the process. -/
def extKeyLoadAccount (db : AccountDB) : Option CExtKeyAccount :=
  match db.account.vExtKeyIDs.mapM db.extKeys with
  | none => none
  | some seks =>
    let vExtKeys := seks.map CStoredExtKey.loaded
    some ((db.account.loaded vExtKeys).initLookAhead ops (lookAheadChains vExtKeys))

/-- `ExtKeyLoadAccountPacks` for one account. -/
def extKeyLoadAccountPacks (db : AccountDB) (sea : CExtKeyAccount) : CExtKeyAccount :=
  { sea with
    mapKeys := loadPacks db.keyPacks
    mapStealthKeys := loadPacks db.stealthKeyPacks
    mapStealthChildKeys := loadPacks db.stealthChildPacks }

/-- A start of the wallet with the records. -/
def reload (db : AccountDB) : Option KeyState :=
  (extKeyLoadAccount ops db).map fun sea => ⟨extKeyLoadAccountPacks db sea, db⟩

/-- `ExtKeySaveKey` for a key derived from a stealth key, with the key as its result. -/
def saveChildKeyCall (id : CKeyID) (asck : CEKASCKey) (st : KeyState) : Option CEKASCKey × KeyState :=
  match extKeySaveChildKey st id asck with
  | (true, st) => (some asck, st)
  | (false, st) => (none, st)

/-- What happens to an account. -/
inductive AccountCall where
  | saveKey (id : CKeyID) (ak : CEKAKey)
  | saveChildKey (id : CKeyID) (asck : CEKASCKey)
  | newKey (fWalletLocked fInternal fHardened : Bool)
  | newStealthKey (fWalletLocked : Bool) (sLabel : String)
  | restart
  deriving DecidableEq, Repr

/-- The state after a call that succeeds. -/
def successful {α : Type} (result : Option α × KeyState) : Option KeyState := result.1.map fun _ => result.2

def accountStep (st : KeyState) : AccountCall → Option KeyState
  | .saveKey id ak => successful (inTransaction (saveKeyCall ops id ak) st)
  | .saveChildKey id asck => successful (inTransaction (saveChildKeyCall id asck) st)
  | .newKey fWalletLocked fInternal fHardened =>
    successful (inTransaction (newKeyFromAccount ops fWalletLocked · fInternal fHardened) st)
  | .newStealthKey fWalletLocked sLabel =>
    successful (inTransaction (newStealthKeyFromAccount ops fWalletLocked · sLabel) st)
  | .restart => reload ops st.db

/-- The state after a sequence of calls that all succeed. -/
def accountRun (st : KeyState) (calls : List AccountCall) : Option KeyState := calls.foldlM (accountStep ops) st

end Load

section Packs

variable {V : Type}

/-- The entries under one id are the same. -/
def Packs.Functional (packs : Packs V) : Prop :=
  ∀ id v v', (id, v) ∈ packs.entries → (id, v') ∈ packs.entries → v = v'

theorem foldl_loadEntry_iff (entries : List (CKeyID × V)) (map : CKeyID → Option V)
    (hfunctional : ∀ id v v', (id, v) ∈ entries → (id, v') ∈ entries → v = v')
    (hmap : ∀ id v v', (id, v) ∈ entries → map id = some v' → v = v') (id : CKeyID) (v : V) :
    entries.foldl loadEntry map id = some v ↔
      map id = some v ∨ (id, v) ∈ entries := by
  induction entries generalizing map with
  | nil => simp
  | cons e entries ih =>
    have hrest : ∀ id v v', (id, v) ∈ entries → loadEntry map e id = some v' → v = v' := by
      intro id v v' hmem hupdate
      rw [loadEntry] at hupdate
      by_cases hid : id = e.1
      · subst hid
        rw [Function.update_self] at hupdate
        obtain rfl := Option.some.inj hupdate
        exact hfunctional e.1 v e.2 (List.mem_cons_of_mem _ hmem) (by simp)
      · rw [Function.update_of_ne hid] at hupdate
        exact hmap id v v' (List.mem_cons_of_mem _ hmem) hupdate
    rw [List.foldl_cons, ih _ (fun id v v' h h' =>
      hfunctional id v v' (List.mem_cons_of_mem _ h) (List.mem_cons_of_mem _ h')) hrest, List.mem_cons, loadEntry]
    by_cases hid : id = e.1
    · subst hid
      rw [Function.update_self]
      constructor
      · intro h
        obtain h | h := h
        · obtain rfl := Option.some.inj h
          exact .inr (.inl rfl)
        · exact .inr (.inr h)
      · intro h
        obtain h | h | h := h
        · exact .inl (by rw [hmap e.1 e.2 v (by simp) h])
        · exact .inl (by rw [← h])
        · exact .inr h
    · rw [Function.update_of_ne hid]
      have hne : (id, v) ≠ e := by
        intro h
        exact hid (congrArg Prod.fst h)
      simp [hne]

/-- The loaded map holds the entries of the packs. -/
theorem loadPacks_iff {packs : Packs V} (h : packs.Functional) (id : CKeyID) (v : V) :
    loadPacks packs id = some v ↔ (id, v) ∈ packs.entries := by
  have hperm : (cursorOrder packs).Perm packs := List.mergeSort_perm ..
  have hmem : ∀ e, e ∈ (cursorOrder packs).entries ↔ e ∈ packs.entries := by
    intro e
    exact (hperm.flatMap_right Prod.snd).mem_iff
  have hflat : loadPacks packs =
      (cursorOrder packs).entries.foldl loadEntry fun _ => none := by
    rw [loadPacks, Packs.entries, List.foldl_flatMap]
  rw [hflat, foldl_loadEntry_iff _ _ _ (by simp), hmem]
  · simp
  · intro id v v' hv hv'
    exact h id v v' ((hmem _).mp hv) ((hmem _).mp hv')

/-- The packs hold the keys of the map. -/
structure Packs.Holds (packs : Packs V) (map : CKeyID → Option V) : Prop where
  numbered : packs.Numbered
  mem_iff : ∀ id v, map id = some v ↔ (id, v) ∈ packs.entries

theorem loadPacks_of_holds {packs : Packs V} {map : CKeyID → Option V} (h : packs.Holds map) :
    loadPacks packs = map := by
  have hfunctional : packs.Functional := by
    intro id v v' hv hv'
    have hmap := (h.mem_iff id v).mpr hv
    exact Option.some.inj (hmap.symm.trans ((h.mem_iff id v').mpr hv'))
  funext id
  apply Option.ext
  intro v
  rw [loadPacks_iff hfunctional, h.mem_iff]

theorem mem_entries_append {packs : Packs V} (h : packs.Numbered) (nPack : UInt32) (e e' : CKeyID × V) :
    e' ∈ (packs.write nPack (packs.read nPack ++ [e])).entries ↔ e' = e ∨ e' ∈ packs.entries := by
  rw [(Packs.entries_append h nPack e).mem_iff, List.mem_cons]

/-- Appending a key to a pack, and to the map where it may already be. -/
theorem holds_append {packs : Packs V} {map : CKeyID → Option V} (h : packs.Holds map) (nPack : UInt32)
    {id : CKeyID} {v : V} (hold : ∀ v', map id = some v' → v' = v) :
    (packs.write nPack (packs.read nPack ++ [(id, v)])).Holds (Function.update map id (some v)) := by
  refine ⟨Packs.numbered_write h.numbered _ _, ?_⟩
  intro id' v'
  rw [mem_entries_append h.numbered]
  by_cases hid : id' = id
  · subst hid
    rw [Function.update_self, Option.some.injEq]
    constructor
    · intro hv
      exact .inl (by rw [hv])
    · intro hv
      obtain hv | hv := hv
      · exact (congrArg Prod.snd hv).symm
      · exact (hold v' ((h.mem_iff id' v').mpr hv)).symm
  · rw [Function.update_of_ne hid, h.mem_iff]
    have hne : (id', v') ≠ (id, v) := fun heq => hid (congrArg Prod.fst heq)
    simp [hne]

end Packs

section Chains

/-- Each chain has its record, with its public key and its counter of hardened children. -/
structure ChainsKept (pubkeys : List Bytes) (ids : List CKeyID) (seks : List CStoredExtKey)
    (extKeys : CKeyID → Option CStoredExtKey) : Prop where
  pubkeys_eq : seks.map (fun sek => sek.kp.pubkey) = pubkeys
  nodup : ids.Nodup
  length_eq : ids.length = seks.length
  records : ∀ (i : Nat) (id : CKeyID) (sek : CStoredExtKey), ids[i]? = some id → seks[i]? = some sek →
    ∃ record : CStoredExtKey, extKeys id = some record ∧ record.kp.pubkey = sek.kp.pubkey ∧
      record.nHGenerated = sek.nHGenerated

variable {pubkeys : List Bytes} {ids : List CKeyID} {seks : List CStoredExtKey}
  {extKeys : CKeyID → Option CStoredExtKey}

theorem map_pubkey_set {i : Nat} {sek sek' : CStoredExtKey} (hi : seks[i]? = some sek)
    (hpub : sek'.kp.pubkey = sek.kp.pubkey) :
    (seks.set i sek').map (fun sek => sek.kp.pubkey) = seks.map fun sek => sek.kp.pubkey := by
  obtain ⟨hlt, rfl⟩ := List.getElem?_eq_some_iff.mp hi
  apply List.ext_getElem?
  intro j
  by_cases hj : i = j
  · subst hj
    simp [hlt, hpub]
  · simp [List.getElem?_set_ne hj]

/-- A chain that changes neither its key nor the counter of hardened children. -/
theorem chainsKept_set (h : ChainsKept pubkeys ids seks extKeys) {i : Nat} {sek sek' : CStoredExtKey}
    (hi : seks[i]? = some sek) (hpub : sek'.kp.pubkey = sek.kp.pubkey)
    (hcounter : sek'.nHGenerated = sek.nHGenerated) : ChainsKept pubkeys ids (seks.set i sek') extKeys := by
  refine ⟨(map_pubkey_set hi hpub).trans h.pubkeys_eq, h.nodup, by rw [h.length_eq, List.length_set], ?_⟩
  intro j id sek'' hid hsek
  by_cases hj : i = j
  · subst hj
    obtain ⟨hlt, -⟩ := List.getElem?_eq_some_iff.mp hi
    rw [List.getElem?_set_self hlt, Option.some.injEq] at hsek
    subst hsek
    rw [hpub, hcounter]
    exact h.records i id sek hid hi
  · rw [List.getElem?_set_ne hj] at hsek
    exact h.records j id sek'' hid hsek

/-- A chain that is written. -/
theorem chainsKept_write (h : ChainsKept pubkeys ids seks extKeys) {i : Nat} {sek sek' : CStoredExtKey}
    (hi : seks[i]? = some sek) (hpub : sek'.kp.pubkey = sek.kp.pubkey) :
    ChainsKept pubkeys ids (seks.set i sek')
      (Function.update extKeys ((ids[i]?).getD 0) (some sek'.stored)) := by
  refine ⟨(map_pubkey_set hi hpub).trans h.pubkeys_eq, h.nodup, by rw [h.length_eq, List.length_set], ?_⟩
  obtain ⟨hlt, -⟩ := List.getElem?_eq_some_iff.mp hi
  have hidlt : i < ids.length := by rw [h.length_eq]; exact hlt
  have hself : (ids[i]?).getD 0 = ids[i] := by simp [hidlt]
  intro j id sek'' hid hsek
  by_cases hj : i = j
  · subst hj
    rw [List.getElem?_set_self hlt, Option.some.injEq] at hsek
    subst hsek
    have hid' : ids[i] = id := by simpa [hidlt] using hid
    rw [hself, hid', Function.update_self]
    refine ⟨sek'.stored, rfl, ?_, rfl⟩
    unfold CStoredExtKey.stored
    split <;> rfl
  · rw [List.getElem?_set_ne hj] at hsek
    have hne : id ≠ (ids[i]?).getD 0 := by
      intro heq
      obtain ⟨hjlt, rfl⟩ := List.getElem?_eq_some_iff.mp hid
      rw [hself] at heq
      exact hj ((h.nodup.getElem_inj_iff.mp heq).symm)
    rw [Function.update_of_ne hne]
    exact h.records j id sek'' hid hsek

end Chains

section Success

variable (ops : ExtKeyOps)

/-- A call in a transaction that succeeds: what it did in memory and to the records. -/
theorem successful_inTransaction {α : Type} {call : KeyState → Option α × KeyState} {st st' : KeyState}
    (h : successful (inTransaction call st) = some st') :
    ∃ a st₁, call ⟨st.sea, st.db.next⟩ = (some a, st₁) ∧ st' = ⟨st₁.sea, st₁.db.next⟩ := by
  rw [inTransaction, AccountDB.commitWrite_eq] at h
  cases h0 : st.db.outcome 0 with
  | false => simp [h0, successful] at h
  | true =>
    simp only [h0, if_true, id] at h
    cases hcall : call ⟨st.sea, st.db.next⟩ with
    | mk result st₁ =>
      cases result with
      | none => simp [hcall, successful] at h
      | some a =>
        simp only [hcall, AccountDB.commitWrite_eq] at h
        cases h1 : st₁.db.outcome 0 with
        | false => simp [h1, successful] at h
        | true =>
          simp only [h1, if_true, successful, Option.map_some, Option.some.injEq] at h
          exact ⟨a, st₁, rfl, h.symm⟩

/-- The records, as far as a restart reads them. -/
structure AccountDB.Reads (db : AccountDB) (ids : List CKeyID) (extKeys : CKeyID → Option CStoredExtKey)
    (keyPacks : Packs CEKAKey) (stealthKeyPacks : Packs CEKAStealthKey) (stealthChildPacks : Packs CEKASCKey) :
    Prop where
  ids_eq : db.account.vExtKeyIDs = ids
  extKeys_eq : db.extKeys = extKeys
  keyPacks_eq : db.keyPacks = keyPacks
  stealthKeyPacks_eq : db.stealthKeyPacks = stealthKeyPacks
  stealthChildPacks_eq : db.stealthChildPacks = stealthChildPacks

/-- The account record that is written holds the same ids. -/
theorem reads_writeIfUpdated {fUpdateAcc ok : Bool} {st st' : KeyState} (h : writeIfUpdated fUpdateAcc st = (ok, st'))
    {ids : List CKeyID} {extKeys : CKeyID → Option CStoredExtKey} {keyPacks : Packs CEKAKey}
    {stealthKeyPacks : Packs CEKAStealthKey} {stealthChildPacks : Packs CEKASCKey} (hids : st.sea.vExtKeyIDs = ids)
    (hreads : st.db.Reads ids extKeys keyPacks stealthKeyPacks stealthChildPacks) :
    st'.sea = st.sea ∧ st'.db.Reads ids extKeys keyPacks stealthKeyPacks stealthChildPacks := by
  obtain ⟨hids', hext, hkeys, hstealth, hchild⟩ := hreads
  rw [writeIfUpdated_eq] at h
  cases fUpdateAcc with
  | false =>
    obtain ⟨-, rfl⟩ := Prod.mk.inj h
    exact ⟨rfl, hids', hext, hkeys, hstealth, hchild⟩
  | true =>
    simp only [if_true] at h
    split at h
    · obtain ⟨-, rfl⟩ := Prod.mk.inj h
      exact ⟨rfl, hids, hext, hkeys, hstealth, hchild⟩
    · obtain ⟨-, rfl⟩ := Prod.mk.inj h
      exact ⟨rfl, hids', hext, hkeys, hstealth, hchild⟩

/-- `ExtKeySaveKey` that succeeds. -/
theorem extKeySaveKey_success {st st' : KeyState} {id : CKeyID} {ak : CEKAKey}
    (hids : st.db.account.vExtKeyIDs = st.sea.vExtKeyIDs)
    (h : extKeySaveKey ops st id ak = (true, st')) :
    st.sea.mapKeys id = none ∧ ∃ pc nPack, st.sea.getChain ak.nParent = some pc ∧
      st'.sea = (st.sea.saveKey ops id ak).2.setPack nPack ∧
      st'.db.Reads st.sea.vExtKeyIDs
        (Function.update st.db.extKeys (st.sea.chainID ak.nParent) (some (pc.passKey ak.nKey).stored))
        (st.appended id ak) st.db.stealthKeyPacks st.db.stealthChildPacks := by
  cases hkey : st.sea.mapKeys id with
  | some ak' => simp [extKeySaveKey, saveKey_of_saved ops st.sea (by simp [hkey] : (st.sea.mapKeys id).isSome)] at h
  | none =>
    refine ⟨rfl, ?_⟩
    have hrecord := saveKey_record ops hkey ak
    have hget := saveKey_getChain ops hkey ak ak.nParent
    rw [if_pos rfl] at hget
    have hsaved : st.sea.saveKey ops id ak = (true, (st.sea.saveKey ops id ak).2) := by
      rw [saveKey_eq ops st.sea hkey]
    rw [extKeySaveKey, hsaved] at h
    generalize (st.sea.saveKey ops id ak).2 = saved at hrecord hget h
    have hpack : saved.nPack = st.sea.nPack := congrArg AccountRecord.nPack hrecord
    have hvids : saved.vExtKeyIDs = st.sea.vExtKeyIDs := congrArg AccountRecord.vExtKeyIDs hrecord
    simp only [appendToKeyPack_eq] at h
    cases h0 : st.db.outcome 0 with
    | false => simp [h0] at h
    | true =>
      simp only [h0, if_true, getChain_setPack] at h
      cases hpc : st.sea.getChain ak.nParent with
      | none => simp [hget, hpc] at h
      | some pc =>
        simp only [hget, hpc, Option.map_some, AccountDB.writeExtKey_eq] at h
        cases h1 : ((KeyState.mk saved st.db).packed id ak).outcome 0 with
        | false => simp [h1] at h
        | true =>
          simp only [h1, if_true] at h
          have hchainID : saved.chainID ak.nParent = st.sea.chainID ak.nParent := by
            simp only [CExtKeyAccount.chainID, hvids]
          have happended : ((KeyState.mk saved st.db).packed id ak).keyPacks = st.appended id ak := by
            simp only [KeyState.packed, KeyState.appended, hpack]
            rfl
          have hreads : (((KeyState.mk saved st.db).packed id ak).next.setExtKey (saved.chainID ak.nParent)
              (pc.passKey ak.nKey)).Reads st.sea.vExtKeyIDs
              (Function.update st.db.extKeys (st.sea.chainID ak.nParent) (some (pc.passKey ak.nKey).stored))
              (st.appended id ak) st.db.stealthKeyPacks st.db.stealthChildPacks :=
            ⟨hids, by rw [hchainID]; rfl, happended, rfl, rfl⟩
          obtain ⟨hsea, hfinal⟩ := reads_writeIfUpdated h hvids hreads
          exact ⟨pc, _, rfl, hsea, hfinal⟩

/-- `ExtKeySaveKey` for a key derived from a stealth key that succeeds. -/
theorem extKeySaveChildKey_success {st st' : KeyState} {id : CKeyID} {asck : CEKASCKey}
    (hids : st.db.account.vExtKeyIDs = st.sea.vExtKeyIDs)
    (h : extKeySaveChildKey st id asck = (true, st')) :
    st.sea.mapStealthChildKeys id = none ∧
      (st'.sea.vExtKeys = st.sea.vExtKeys ∧ st'.sea.vExtKeyIDs = st.sea.vExtKeyIDs ∧
        st'.sea.mapKeys = st.sea.mapKeys ∧ st'.sea.mapStealthKeys = st.sea.mapStealthKeys ∧
        st'.sea.mapStealthChildKeys = Function.update st.sea.mapStealthChildKeys id (some asck)) ∧
      st'.db.Reads st.sea.vExtKeyIDs st.db.extKeys st.db.keyPacks st.db.stealthKeyPacks
        (st.db.stealthChildPacks.write st.sea.nPackStealthKeys
          (st.db.stealthChildPacks.read st.sea.nPackStealthKeys ++ [(id, asck)])) := by
  unfold extKeySaveChildKey CExtKeyAccount.saveStealthChildKey at h
  by_cases hsaves : ((st.sea.mapStealthChildKeys id).isSome ||
      (st.sea.mapStealthKeys asck.idStealthKey).isNone) = true
  · simp [hsaves] at h
  · have hfree : st.sea.mapStealthChildKeys id = none := by
      cases hkey : st.sea.mapStealthChildKeys id with
      | none => rfl
      | some asck' => simp [hkey] at hsaves
    refine ⟨hfree, ?_⟩
    simp only [hsaves, Bool.false_eq_true, if_false, appendToChildPack, AccountDB.commitWrite_eq] at h
    cases h0 : st.db.outcome 0 with
    | false => simp [h0] at h
    | true =>
      simp only [h0, if_true] at h
      by_cases hroll : (st.db.stealthChildPacks.read st.sea.nPackStealthKeys ++ [(id, asck)]).length ≥
          MAX_KEY_PACK_SIZE - 1
      · simp only [hroll, if_true] at h
        obtain ⟨hsea, hreads⟩ := reads_writeIfUpdated h rfl ⟨hids, rfl, rfl, rfl, rfl⟩
        exact ⟨hsea ▸ ⟨rfl, rfl, rfl, rfl, rfl⟩, hreads⟩
      · simp only [hroll, if_false] at h
        obtain ⟨hsea, hreads⟩ := reads_writeIfUpdated h rfl ⟨hids, rfl, rfl, rfl, rfl⟩
        exact ⟨hsea ▸ ⟨rfl, rfl, rfl, rfl, rfl⟩, hreads⟩

/-- `NewKeyFromAccount` that succeeds. -/
theorem newKeyFromAccount_success {fWalletLocked fInternal fHardened : Bool} {st st' : KeyState} {pubkey : Bytes}
    (hids : st.db.account.vExtKeyIDs = st.sea.vExtKeyIDs)
    (h : newKeyFromAccount ops fWalletLocked st fInternal fHardened = (some pubkey, st')) :
    ∃ d nPack, deriveNewKey ops fWalletLocked st.sea fInternal fHardened = some d ∧
      st'.sea = ((st.sea.setChain d.nChain d.sekNext).saveKey ops (ops.getID d.pubkey)
        ⟨d.nChain, d.nChildOut⟩).2.setPack nPack ∧
      st'.db.Reads st.sea.vExtKeyIDs
        (Function.update st.db.extKeys (st.sea.chainID d.nChain) (some d.sekNext.stored))
        (st.appended (ops.getID d.pubkey) ⟨d.nChain, d.nChildOut⟩) st.db.stealthKeyPacks
        st.db.stealthChildPacks := by
  cases hd : deriveNewKey ops fWalletLocked st.sea fInternal fHardened with
  | none => simp [newKeyFromAccount, hd] at h
  | some d =>
    obtain ⟨-, hcall⟩ | ⟨-, -, db, hcall⟩ | ⟨-, -, -, hcall⟩ :=
      newKeyFromAccount_cases ops fWalletLocked st fInternal fHardened d hd
    · simp [hcall] at h
    · simp [hcall] at h
    · rw [hcall] at h
      obtain ⟨-, rfl⟩ := Prod.mk.inj h
      refine ⟨d, st.nextPack, rfl, ?_, ?_⟩
      · rw [← saveKey_setPack]
        rfl
      · unfold KeyState.recorded
        split
        · exact ⟨rfl, rfl, rfl, rfl, rfl⟩
        · exact ⟨hids, rfl, rfl, rfl, rfl⟩

/-- `NewStealthKeyFromAccount` that succeeds. -/
theorem newStealthKeyFromAccount_success {fWalletLocked : Bool} {sLabel : String} {st st' : KeyState}
    {aks : CEKAStealthKey} (hids : st.db.account.vExtKeyIDs = st.sea.vExtKeyIDs)
    (h : newStealthKeyFromAccount ops fWalletLocked st sLabel = (some aks, st')) :
    ∃ scan spend, deriveStealthKey ops fWalletLocked st.sea = some (scan, spend) ∧
      aks = newStealthKey ops sLabel scan spend ∧
      st'.sea = st.withStealthKey (ops.getID scan.pubkey) aks spend ∧
      st'.db.Reads st.sea.vExtKeyIDs
        (Function.update st.db.extKeys (st.sea.chainID spend.nChain) (some spend.sekNext.stored)) st.db.keyPacks
        (st.db.stealthKeyPacks.write st.sea.nPackStealth
          (st.db.stealthKeyPacks.read st.sea.nPackStealth ++ [(ops.getID scan.pubkey, aks)]))
        st.db.stealthChildPacks := by
  cases hd : deriveStealthKey ops fWalletLocked st.sea with
  | none => simp [newStealthKeyFromAccount, hd] at h
  | some derived =>
    obtain ⟨scan, spend⟩ := derived
    obtain ⟨-, hcall⟩ | ⟨-, -, db, hcall⟩ | ⟨-, -, hcall⟩ :=
      newStealthKeyFromAccount_cases ops fWalletLocked st sLabel scan spend hd
    · simp [hcall] at h
    · simp [hcall] at h
    · rw [hcall] at h
      obtain ⟨haks, rfl⟩ := Prod.mk.inj h
      obtain rfl := Option.some.inj haks
      exact ⟨scan, spend, rfl, rfl, rfl, hids, rfl, rfl, rfl, rfl⟩

/-- The two children of a stealth key, one behind the other. -/
theorem deriveStealthKey_spec {fWalletLocked : Bool} {sea : CExtKeyAccount} {scan spend : DerivedKey}
    (h : deriveStealthKey ops fWalletLocked sea = some (scan, spend)) :
    scan.sek.deriveNextKey ops true true = some (scan.pubkey, scan.nChildOut, scan.sekNext) ∧
      scan.sekNext.deriveNextKey ops true true = some (spend.pubkey, spend.nChildOut, spend.sekNext) := by
  unfold deriveStealthKey at h
  split at h
  · cases h
  cases hsek : sea.getChain sea.nActiveStealth with
  | none => simp [hsek] at h
  | some sek =>
    cases hscan : sek.deriveNextKey ops true true with
    | none => simp [hsek, hscan] at h
    | some next =>
      obtain ⟨pkScan, nScanOut, sek'⟩ := next
      cases hspend : sek'.deriveNextKey ops true true with
      | none => simp [hsek, hscan, hspend] at h
      | some next' =>
        simp only [hsek, hscan, hspend, Option.some.injEq, Prod.mk.injEq] at h
        obtain ⟨rfl, rfl⟩ := h
        exact ⟨hscan, hspend⟩

end Success

section Restore

variable (ops : ExtKeyOps) (pubkeys : List Bytes)

/-- A restart brings back the keys in memory. -/
structure KeysRestorable (st : KeyState) : Prop where
  ids : st.db.account.vExtKeyIDs = st.sea.vExtKeyIDs
  chains : ChainsKept pubkeys st.sea.vExtKeyIDs st.sea.vExtKeys st.db.extKeys
  keys : st.db.keyPacks.Holds st.sea.mapKeys
  keysRight : KeysRight ops pubkeys st.sea.mapKeys
  childKeys : st.db.stealthChildPacks.Holds st.sea.mapStealthChildKeys
  stealthKeys : st.db.stealthKeyPacks.Holds st.sea.mapStealthKeys
  /-- A stealth key is under the id of its scan key, which its chain has counted. -/
  scanRight : ∀ id aks, st.sea.mapStealthKeys id = some aks →
    childID ops pubkeys ⟨aks.nScanParent, aks.nScanKey⟩ = some id ∧
      ∀ sek, st.sea.getChain aks.nScanParent = some sek → aks.nScanKey.toNat < 2 ^ 31 + sek.nHGenerated.toNat

variable {ops pubkeys}

/-- The counters of hardened children have not gone back. -/
def CountersGrow (sea sea' : CExtKeyAccount) : Prop :=
  ∀ n sek', sea'.getChain n = some sek' →
    ∃ sek, sea.getChain n = some sek ∧ sek.nHGenerated.toNat ≤ sek'.nHGenerated.toNat

theorem countersGrow_setChain {sea : CExtKeyAccount} {nChain : UInt32} {sek sek' : CStoredExtKey}
    (hchain : sea.getChain nChain = some sek) (hcounter : sek.nHGenerated.toNat ≤ sek'.nHGenerated.toNat) :
    CountersGrow sea (sea.setChain nChain sek') := by
  intro n sek'' hget
  rw [getChain_setChain sea (by simp [hchain])] at hget
  split at hget
  · rename_i hn
    subst hn
    exact ⟨sek, hchain, Option.some.inj hget ▸ hcounter⟩
  · exact ⟨sek'', hget, Nat.le_refl _⟩

theorem countersGrow_saveKey (sea : CExtKeyAccount) (id : CKeyID) (ak : CEKAKey) :
    CountersGrow sea (sea.saveKey ops id ak).2 := by
  intro n sek' hget
  cases hfree : sea.mapKeys id with
  | some ak' =>
    rw [saveKey_of_saved ops sea (by simp [hfree])] at hget
    exact ⟨sek', hget, Nat.le_refl _⟩
  | none =>
    rw [saveKey_getChain ops hfree] at hget
    split at hget
    · obtain ⟨sek, hsek, rfl⟩ := Option.map_eq_some_iff.mp hget
      exact ⟨sek, hsek, by simp⟩
    · exact ⟨sek', hget, Nat.le_refl _⟩

theorem countersGrow_trans {sea sea' sea'' : CExtKeyAccount} (h : CountersGrow sea sea')
    (h' : CountersGrow sea' sea'') : CountersGrow sea sea'' := by
  intro n sek'' hget
  obtain ⟨sek', hsek', hle'⟩ := h' n sek'' hget
  obtain ⟨sek, hsek, hle⟩ := h n sek' hsek'
  exact ⟨sek, hsek, Nat.le_trans hle hle'⟩

theorem scanRight_grow {sea sea' : CExtKeyAccount} (hgrow : CountersGrow sea sea') {id : CKeyID}
    {aks : CEKAStealthKey}
    (h : childID ops pubkeys ⟨aks.nScanParent, aks.nScanKey⟩ = some id ∧
      ∀ sek, sea.getChain aks.nScanParent = some sek → aks.nScanKey.toNat < 2 ^ 31 + sek.nHGenerated.toNat) :
    childID ops pubkeys ⟨aks.nScanParent, aks.nScanKey⟩ = some id ∧
      ∀ sek, sea'.getChain aks.nScanParent = some sek → aks.nScanKey.toNat < 2 ^ 31 + sek.nHGenerated.toNat := by
  refine ⟨h.1, ?_⟩
  intro sek' hsek'
  obtain ⟨sek, hsek, hle⟩ := hgrow _ sek' hsek'
  have hcounted := h.2 sek hsek
  omega

/-- The children that a restart and a save need: those under one id are one. -/
theorem sameKey (hdistinct : DistinctChildren ops pubkeys) {map : CKeyID → Option CEKAKey}
    (hright : KeysRight ops pubkeys map) {id : CKeyID} {ak : CEKAKey} (hchild : childID ops pubkeys ak = some id)
    (ak' : CEKAKey) (h : map id = some ak') : ak' = ak := hdistinct ak' ak id (hright id ak' h) hchild

theorem keysRight_update {map : CKeyID → Option CEKAKey} (hright : KeysRight ops pubkeys map) {id : CKeyID}
    {ak : CEKAKey} (hchild : childID ops pubkeys ak = some id) :
    KeysRight ops pubkeys (Function.update map id (some ak)) := by
  intro id' ak' h
  by_cases hid : id' = id
  · subst hid
    simp only [Function.update_self, Option.some.injEq] at h
    exact h ▸ hchild
  · rw [Function.update_of_ne hid] at h
    exact hright id' ak' h

theorem keysRestorable_next {st : KeyState} (h : KeysRestorable ops pubkeys st) :
    KeysRestorable ops pubkeys ⟨st.sea, st.db.next⟩ :=
  ⟨h.ids, h.chains, h.keys, h.keysRight, h.childKeys, h.stealthKeys, h.scanRight⟩

/-- What is left of the chains when a key is saved. -/
theorem saveKey_kept_chains {sea : CExtKeyAccount} {extKeys : CKeyID → Option CStoredExtKey}
    (h : ChainsKept pubkeys sea.vExtKeyIDs sea.vExtKeys extKeys) {id : CKeyID} {ak : CEKAKey} {sek : CStoredExtKey}
    (hchain : sea.getChain ak.nParent = some sek) :
    ChainsKept pubkeys (sea.saveKey ops id ak).2.vExtKeyIDs (sea.saveKey ops id ak).2.vExtKeys extKeys := by
  cases hfree : sea.mapKeys id with
  | some ak' =>
    rw [saveKey_of_saved ops sea (by simp [hfree])]
    exact h
  | none =>
    rw [(saveKey_frame ops hfree hchain).1, congrArg AccountRecord.vExtKeyIDs (saveKey_record ops hfree ak)]
    exact chainsKept_set h hchain (by simp) (by simp)

/-- A child is saved under its id: its chain is advanced, the key appended to a pack, and the chain
written with its counter of hardened children. -/
theorem keysRestorable_save (hdistinct : DistinctChildren ops pubkeys) {st st' : KeyState}
    (h : KeysRestorable ops pubkeys st) {id : CKeyID} {ak : CEKAKey} (hchild : childID ops pubkeys ak = some id)
    {sek sek' record : CStoredExtKey} {nPack : UInt32} (hchain : st.sea.getChain ak.nParent = some sek)
    (hpub : record.kp.pubkey = sek.kp.pubkey) (hpub' : sek'.kp.pubkey = record.kp.pubkey)
    (hcounter : sek.nHGenerated.toNat ≤ sek'.nHGenerated.toNat) (hsame : sek'.nHGenerated = record.nHGenerated)
    (hsea : st'.sea = ((st.sea.setChain ak.nParent sek').saveKey ops id ak).2.setPack nPack)
    (hreads : st'.db.Reads st.sea.vExtKeyIDs
      (Function.update st.db.extKeys (st.sea.chainID ak.nParent) (some record.stored)) (st.appended id ak)
      st.db.stealthKeyPacks st.db.stealthChildPacks) :
    KeysRestorable ops pubkeys st' := by
  have hget : (st.sea.setChain ak.nParent sek').getChain ak.nParent = some sek' := by
    rw [getChain_setChain _ (by simp [hchain]), if_pos rfl]
  -- the record and the chain in memory agree, whether or not the key was saved before
  have hwritten := chainsKept_write h.chains hchain hpub
  have hlt : ak.nParent.toNat < st.sea.vExtKeys.length := (List.getElem?_eq_some_iff.mp hchain).1
  have hchains := chainsKept_set hwritten (List.getElem?_set_self hlt) hpub' hsame
  rw [List.set_set] at hchains
  have hsaved : ChainsKept pubkeys ((st.sea.setChain ak.nParent sek').saveKey ops id ak).2.vExtKeyIDs
      ((st.sea.setChain ak.nParent sek').saveKey ops id ak).2.vExtKeys _ := saveKey_kept_chains hchains hget
  have hgrow : CountersGrow st.sea st'.sea := by
    rw [hsea]
    exact countersGrow_trans (countersGrow_setChain hchain hcounter) (countersGrow_saveKey _ id ak)
  obtain ⟨hkeys, hids, hstealth, hchildKeys⟩ :
      st'.sea.mapKeys = Function.update st.sea.mapKeys id (some ak) ∧ st'.sea.vExtKeyIDs = st.sea.vExtKeyIDs ∧
        st'.sea.mapStealthKeys = st.sea.mapStealthKeys ∧
        st'.sea.mapStealthChildKeys = st.sea.mapStealthChildKeys := by
    rw [hsea]
    cases hfree : st.sea.mapKeys id with
    | some ak' =>
      obtain rfl := sameKey hdistinct h.keysRight hchild ak' hfree
      rw [saveKey_of_saved ops _ (by simp [hfree]), ← hfree, Function.update_eq_self]
      exact ⟨rfl, rfl, rfl, rfl⟩
    | none =>
      have hfree' : (st.sea.setChain ak.nParent sek').mapKeys id = none := hfree
      obtain ⟨-, hstealth, hchildKeys⟩ := saveKey_frame ops hfree' hget
      have hids := congrArg AccountRecord.vExtKeyIDs (saveKey_record ops hfree' ak)
      exact ⟨saveKey_mapKeys ops hfree' ak, hids, hstealth, hchildKeys⟩
  constructor
  · rw [hreads.ids_eq, hids]
  · rw [hreads.extKeys_eq, hsea]
    exact hsaved
  · rw [hreads.keyPacks_eq, hkeys]
    exact holds_append h.keys _ (sameKey hdistinct h.keysRight hchild)
  · rw [hkeys]
    exact keysRight_update h.keysRight hchild
  · rw [hreads.stealthChildPacks_eq, hchildKeys]
    exact h.childKeys
  · rw [hreads.stealthKeyPacks_eq, hstealth]
    exact h.stealthKeys
  · intro id' aks haks
    rw [hstealth] at haks
    exact scanRight_grow hgrow (h.scanRight id' aks haks)

end Restore

section Steps

variable {ops : ExtKeyOps} {pubkeys : List Bytes} {st st' : KeyState}

/-- `ExtKeySaveKey` for a child under its id. -/
theorem keysRestorable_saveKey (hdistinct : DistinctChildren ops pubkeys) (h : KeysRestorable ops pubkeys st)
    {id : CKeyID} {ak : CEKAKey} (hchild : childID ops pubkeys ak = some id)
    (hcall : extKeySaveKey ops st id ak = (true, st')) : KeysRestorable ops pubkeys st' := by
  obtain ⟨-, pc, nPack, hchain, hsea, hreads⟩ := extKeySaveKey_success ops h.ids hcall
  rw [← setChain_self hchain] at hsea
  exact keysRestorable_save hdistinct h hchild hchain (by simp) (by simp) (Nat.le_refl _) (by simp) hsea hreads

theorem setCounter_nHGenerated (sek : CStoredExtKey) (nC : UInt32) (fHardened : Bool) :
    (sek.setCounter nC fHardened).nHGenerated = if fHardened then nC else sek.nHGenerated := by
  cases fHardened <;> rfl

/-- The counter of hardened children does not go back when a child is derived. -/
theorem deriveNextKey_counter {sek sekNext : CStoredExtKey} {fSecret fHardened : Bool} {pubkey : Bytes}
    {nChildOut : UInt32} (h : sek.deriveNextKey ops fSecret fHardened = some (pubkey, nChildOut, sekNext)) :
    sek.nHGenerated.toNat ≤ sekNext.nHGenerated.toNat ∧
      (fHardened = true → 2 ^ 31 + sek.nHGenerated.toNat ≤ nChildOut.toNat ∧
        nChildOut.toNat < 2 ^ 31 + sekNext.nHGenerated.toNat) := by
  obtain ⟨n, hle, hlow, hout, -, rfl⟩ := deriveNextKey_spec ops h
  have hone : (1 : UInt32).toNat = 1 := rfl
  rw [setCounter_nHGenerated]
  cases fHardened with
  | false => simp
  | true =>
    have hnum : (n + 1).toNat = n.toNat + 1 := by
      rw [UInt32.toNat_add]
      omega
    have hcounter : sek.nHGenerated.toNat ≤ n.toNat := hle
    have hbit : nChildOut.toNat = 2 ^ 31 + n.toNat := by
      rw [show nChildOut = n ||| 0x80000000 from hout]
      exact toNat_hardened hlow
    simp only [if_true, hnum, hbit]
    omega

/-- `NewKeyFromAccount`. -/
theorem keysRestorable_newKey (hdistinct : DistinctChildren ops pubkeys) (h : KeysRestorable ops pubkeys st)
    {fWalletLocked fInternal fHardened : Bool} {pubkey : Bytes}
    (hcall : newKeyFromAccount ops fWalletLocked st fInternal fHardened = (some pubkey, st')) :
    KeysRestorable ops pubkeys st' := by
  obtain ⟨d, nPack, hd, hsea, hreads⟩ := newKeyFromAccount_success ops h.ids hcall
  obtain ⟨-, hchain, hnext⟩ := deriveNewKey_spec ops hd
  have hchild := deriveNewKey_childID ops hd
  have hpubkeys : st.sea.pubkeys = pubkeys := h.chains.pubkeys_eq
  rw [hpubkeys] at hchild
  exact keysRestorable_save hdistinct h hchild hchain (deriveNewKey_pubkey ops hd) rfl
    (deriveNextKey_counter hnext).1 rfl hsea hreads

/-- `ExtKeySaveKey` for a key derived from a stealth key. -/
theorem keysRestorable_saveChildKey (h : KeysRestorable ops pubkeys st) {id : CKeyID} {asck : CEKASCKey}
    (hcall : extKeySaveChildKey st id asck = (true, st')) : KeysRestorable ops pubkeys st' := by
  obtain ⟨hfree, ⟨hvExtKeys, hids, hkeys, hstealth, hchildKeys⟩, hreads⟩ := extKeySaveChildKey_success h.ids hcall
  constructor
  · rw [hreads.ids_eq, hids]
  · rw [hids, hvExtKeys, hreads.extKeys_eq]
    exact h.chains
  · rw [hreads.keyPacks_eq, hkeys]
    exact h.keys
  · rw [hkeys]
    exact h.keysRight
  · rw [hreads.stealthChildPacks_eq, hchildKeys]
    exact holds_append h.childKeys _ (by simp [hfree])
  · rw [hreads.stealthKeyPacks_eq, hstealth]
    exact h.stealthKeys
  · intro id' aks haks
    rw [hstealth] at haks
    rw [CExtKeyAccount.getChain, hvExtKeys]
    exact h.scanRight id' aks haks

/-- `NewStealthKeyFromAccount`: the scan key is a child that the chain had not counted. -/
theorem keysRestorable_newStealthKey (hdistinct : DistinctChildren ops pubkeys) (h : KeysRestorable ops pubkeys st)
    {fWalletLocked : Bool} {sLabel : String} {aks : CEKAStealthKey}
    (hcall : newStealthKeyFromAccount ops fWalletLocked st sLabel = (some aks, st')) :
    KeysRestorable ops pubkeys st' := by
  obtain ⟨scan, spend, hd, haks, hsea, hreads⟩ := newStealthKeyFromAccount_success ops h.ids hcall
  obtain ⟨hchain, hspend⟩ := deriveStealthKey_chain ops fWalletLocked hd
  obtain ⟨hscanNext, hspendNext⟩ := deriveStealthKey_spec ops hd
  obtain ⟨hscanLe, hscanOut⟩ := deriveNextKey_counter hscanNext
  obtain ⟨hspendLe, -⟩ := deriveNextKey_counter hspendNext
  obtain ⟨n, -, -, -, hscanPub, hscanSek⟩ := deriveNextKey_spec ops hscanNext
  obtain ⟨m, -, -, -, -, hspendSek⟩ := deriveNextKey_spec ops hspendNext
  have hpub : spend.sekNext.kp.pubkey = scan.sek.kp.pubkey := by
    rw [hspendSek, setCounter_kp, hscanSek, setCounter_kp]
  have hchild : childID ops pubkeys ⟨scan.nChain, scan.nChildOut⟩ = some (ops.getID scan.pubkey) := by
    have hpubkeys : st.sea.pubkeys = pubkeys := h.chains.pubkeys_eq
    rw [← hpubkeys, childID_of_chain ops hchain, hscanPub]
    rfl
  have hnew : ∀ aks', st.sea.mapStealthKeys (ops.getID scan.pubkey) ≠ some aks' := by
    intro aks' haks'
    obtain ⟨hscan, hcounted⟩ := h.scanRight _ aks' haks'
    obtain ⟨hparent, hkey⟩ := CEKAKey.mk.inj (hdistinct _ _ _ hscan hchild)
    have hlt := hcounted scan.sek (hparent ▸ hchain)
    have hle := (hscanOut rfl).1
    rw [hkey] at hlt
    omega
  have hgrow : CountersGrow st.sea st'.sea := by
    rw [hsea, KeyState.withStealthKey, hspend]
    exact countersGrow_setChain hchain (Nat.le_trans hscanLe hspendLe)
  have hstealth : st'.sea.mapStealthKeys =
      Function.update st.sea.mapStealthKeys (ops.getID scan.pubkey) (some aks) := by
    rw [hsea]
    rfl
  constructor
  · rw [hreads.ids_eq, hsea]
    rfl
  · rw [hreads.extKeys_eq, hsea, hspend]
    rw [KeyState.withStealthKey, hspend]
    exact chainsKept_write h.chains hchain hpub
  · rw [hreads.keyPacks_eq, hsea]
    exact h.keys
  · rw [hsea]
    exact h.keysRight
  · rw [hreads.stealthChildPacks_eq, hsea]
    exact h.childKeys
  · rw [hreads.stealthKeyPacks_eq, hstealth]
    exact holds_append h.stealthKeys _ fun aks' haks' => (hnew aks' haks').elim
  · intro id' aks' haks'
    rw [hstealth] at haks'
    by_cases hid : id' = ops.getID scan.pubkey
    · subst hid
      rw [Function.update_self, Option.some.injEq] at haks'
      subst haks'
      rw [haks]
      refine ⟨hchild, ?_⟩
      intro sek hsek
      have hlast : sek = spend.sekNext := by
        rw [hsea, KeyState.withStealthKey, hspend] at hsek
        have hget : (st.sea.setChain scan.nChain spend.sekNext).getChain scan.nChain = some sek := hsek
        rw [getChain_setChain _ (by simp [hchain]), if_pos rfl] at hget
        exact (Option.some.inj hget).symm
      have hlt := (hscanOut rfl).2
      have hkey : (newStealthKey ops sLabel scan spend).nScanKey = scan.nChildOut := rfl
      rw [hlast, hkey]
      omega
    · rw [Function.update_of_ne hid] at haks'
      exact scanRight_grow hgrow (h.scanRight id' aks' haks')

end Steps

section Restart

variable (ops : ExtKeyOps) {pubkeys : List Bytes}

/-- Reading a list of records that are all there. -/
theorem mapM_records {α : Type} (ids : List CKeyID) (f : CKeyID → Option α) (h : ∀ id ∈ ids, (f id).isSome) :
    ∃ records, ids.mapM f = some records ∧ records.length = ids.length ∧
      ∀ (i : Nat) (id : CKeyID), ids[i]? = some id → records[i]? = f id := by
  induction ids with
  | nil => exact ⟨[], rfl, rfl, by simp⟩
  | cons id ids ih =>
    obtain ⟨record, hrecord⟩ := Option.isSome_iff_exists.mp (h id (by simp))
    obtain ⟨records, hrecords, hlength, hget⟩ := ih fun id' hid' => h id' (List.mem_cons_of_mem _ hid')
    refine ⟨record :: records, by simp [hrecord, hrecords], by simp [hlength], ?_⟩
    intro i id' hid'
    cases i with
    | zero =>
      simp only [List.getElem?_cons_zero, Option.some.injEq] at hid' ⊢
      rw [← hid', hrecord]
    | succ i =>
      simp only [List.getElem?_cons_succ] at hid' ⊢
      exact hget i id' hid'

theorem initLookAhead_record (chains : List (UInt32 × Nat)) (sea : CExtKeyAccount) :
    (sea.initLookAhead ops chains).toAccountRecord = sea.toAccountRecord ∧
      (sea.initLookAhead ops chains).vExtKeys = sea.vExtKeys := by
  induction chains generalizing sea with
  | nil => exact ⟨rfl, rfl⟩
  | cons e chains ih =>
    obtain ⟨hrecord, hchains⟩ := ih (sea.addLookAhead ops e.1 e.2)
    exact ⟨hrecord.trans (addLookAhead_record ops e.1 e.2), hchains.trans (addLookAhead_eq ops sea e.1 e.2).2.1⟩

/-- The chains that are read are those in memory, as far as their keys and counters go. -/
theorem chainsKept_read {ids : List CKeyID} {seks records : List CStoredExtKey}
    {extKeys : CKeyID → Option CStoredExtKey} (h : ChainsKept pubkeys ids seks extKeys)
    (hlength : records.length = ids.length)
    (hget : ∀ (i : Nat) (id : CKeyID), ids[i]? = some id → records[i]? = extKeys id) :
    ChainsKept pubkeys ids (records.map CStoredExtKey.loaded) extKeys ∧
      ∀ (i : Nat) (sek' : CStoredExtKey), (records.map CStoredExtKey.loaded)[i]? = some sek' →
        ∃ sek : CStoredExtKey, seks[i]? = some sek ∧ sek.kp.pubkey = sek'.kp.pubkey ∧
          sek.nHGenerated = sek'.nHGenerated := by
  have hread : ∀ (i : Nat) (sek' : CStoredExtKey), (records.map CStoredExtKey.loaded)[i]? = some sek' →
      ∃ (id : CKeyID) (sek record : CStoredExtKey), ids[i]? = some id ∧ seks[i]? = some sek ∧
        extKeys id = some record ∧ sek' = record.loaded ∧ record.kp.pubkey = sek.kp.pubkey ∧
        record.nHGenerated = sek.nHGenerated := by
    intro i sek' hsek'
    rw [List.getElem?_map, Option.map_eq_some_iff] at hsek'
    obtain ⟨record, hrecord, rfl⟩ := hsek'
    have hlt : i < records.length := (List.getElem?_eq_some_iff.mp hrecord).1
    have hlt' : i < seks.length := by rw [← h.length_eq, ← hlength]; exact hlt
    have hid : ids[i]? = some ids[i] := List.getElem?_eq_getElem (by omega)
    have hsek : seks[i]? = some seks[i] := List.getElem?_eq_getElem hlt'
    obtain ⟨record', hrecord', hpub, hcounter⟩ := h.records i _ _ hid hsek
    obtain rfl : record' = record := Option.some.inj (hrecord'.symm.trans ((hget i _ hid).symm.trans hrecord))
    exact ⟨_, _, record', hid, hsek, hrecord', rfl, hpub, hcounter⟩
  refine ⟨⟨?_, h.nodup, by rw [List.length_map, hlength], ?_⟩, ?_⟩
  · rw [← h.pubkeys_eq]
    apply List.ext_getElem?
    intro i
    rw [List.getElem?_map, List.getElem?_map (l := seks)]
    cases hsek' : (records.map CStoredExtKey.loaded)[i]? with
    | none =>
      have hnone : seks[i]? = none := by
        rw [List.getElem?_eq_none_iff] at hsek' ⊢
        rw [List.length_map, hlength, h.length_eq] at hsek'
        exact hsek'
      rw [hnone]
    | some sek' =>
      obtain ⟨id, sek, record, -, hsek, -, rfl, hpub, -⟩ := hread i sek' hsek'
      rw [hsek]
      simp [CStoredExtKey.loaded, hpub]
  · intro i id sek' hid hsek'
    obtain ⟨id', sek, record, hid', -, hrecord, rfl, -, -⟩ := hread i sek' hsek'
    obtain rfl := Option.some.inj (hid.symm.trans hid')
    exact ⟨record, hrecord, rfl, rfl⟩
  · intro i sek' hsek'
    obtain ⟨id, sek, record, -, hsek, -, rfl, hpub, hcounter⟩ := hread i sek' hsek'
    exact ⟨sek, hsek, hpub.symm, hcounter.symm⟩

/-- A restart brings back the keys that were in memory. -/
theorem reload_of_restorable {st : KeyState} (h : KeysRestorable ops pubkeys st) :
    ∃ st', reload ops st.db = some st' ∧ st'.sea.mapKeys = st.sea.mapKeys ∧
      st'.sea.mapStealthKeys = st.sea.mapStealthKeys ∧
      st'.sea.mapStealthChildKeys = st.sea.mapStealthChildKeys ∧ KeysRestorable ops pubkeys st' := by
  have hthere : ∀ id ∈ st.db.account.vExtKeyIDs, (st.db.extKeys id).isSome := by
    intro id hid
    rw [h.ids] at hid
    obtain ⟨i, hi, rfl⟩ := List.getElem_of_mem hid
    obtain ⟨record, hrecord, -⟩ := h.chains.records i _ _ (List.getElem?_eq_getElem hi)
      (List.getElem?_eq_getElem (by rw [← h.chains.length_eq]; exact hi))
    rw [hrecord]
    rfl
  obtain ⟨records, hread, hlength, hget⟩ := mapM_records st.db.account.vExtKeyIDs st.db.extKeys hthere
  have hload : reload ops st.db = some ⟨extKeyLoadAccountPacks st.db
      ((st.db.account.loaded (records.map CStoredExtKey.loaded)).initLookAhead ops
        (lookAheadChains (records.map CStoredExtKey.loaded))), st.db⟩ := by
    simp [reload, extKeyLoadAccount, hread]
  obtain ⟨hrecord, hvExtKeys⟩ := initLookAhead_record ops (lookAheadChains (records.map CStoredExtKey.loaded))
    (st.db.account.loaded (records.map CStoredExtKey.loaded))
  generalize (st.db.account.loaded (records.map CStoredExtKey.loaded)).initLookAhead ops
    (lookAheadChains (records.map CStoredExtKey.loaded)) = sea at hload hrecord hvExtKeys
  have hids : sea.vExtKeyIDs = st.sea.vExtKeyIDs := (congrArg AccountRecord.vExtKeyIDs hrecord).trans h.ids
  have hchains : sea.vExtKeys = records.map CStoredExtKey.loaded := hvExtKeys
  rw [h.ids] at hlength hget
  obtain ⟨hkept, hsame⟩ := chainsKept_read h.chains hlength hget
  have hkeys := loadPacks_of_holds h.keys
  have hstealth := loadPacks_of_holds h.stealthKeys
  have hchildKeys := loadPacks_of_holds h.childKeys
  refine ⟨_, hload, hkeys, hstealth, hchildKeys, ?_⟩
  constructor
  · exact h.ids.trans hids.symm
  · have hfinal : ChainsKept pubkeys sea.vExtKeyIDs sea.vExtKeys st.db.extKeys := by
      rw [hids, hchains]
      exact hkept
    exact hfinal
  · change st.db.keyPacks.Holds (loadPacks st.db.keyPacks)
    rw [hkeys]
    exact h.keys
  · change KeysRight ops pubkeys (loadPacks st.db.keyPacks)
    rw [hkeys]
    exact h.keysRight
  · change st.db.stealthChildPacks.Holds (loadPacks st.db.stealthChildPacks)
    rw [hchildKeys]
    exact h.childKeys
  · change st.db.stealthKeyPacks.Holds (loadPacks st.db.stealthKeyPacks)
    rw [hstealth]
    exact h.stealthKeys
  · intro id aks haks
    have haks' : loadPacks st.db.stealthKeyPacks id = some aks := haks
    rw [hstealth] at haks'
    obtain ⟨hscan, hcounted⟩ := h.scanRight id aks haks'
    refine ⟨hscan, ?_⟩
    intro sek' hsek'
    have hget' : sea.vExtKeys[aks.nScanParent.toNat]? = some sek' := hsek'
    rw [hchains] at hget'
    obtain ⟨sek, hsek, -, hcounter⟩ := hsame _ sek' hget'
    rw [← hcounter]
    exact hcounted sek hsek

/-- A derived key is saved under its own id, as `HaveKey` does with one of the look-ahead. -/
def RightCall (pubkeys : List Bytes) : AccountCall → Prop
  | .saveKey id ak => childID ops pubkeys ak = some id
  | _ => True

variable {ops}

theorem keysRestorable_step (hdistinct : DistinctChildren ops pubkeys) {st st' : KeyState}
    (h : KeysRestorable ops pubkeys st) {call : AccountCall} (hcall : RightCall ops pubkeys call)
    (hstep : accountStep ops st call = some st') : KeysRestorable ops pubkeys st' := by
  have hnext := keysRestorable_next h
  cases call with
  | saveKey id ak =>
    obtain ⟨a, st₁, hcalled, rfl⟩ := successful_inTransaction hstep
    apply keysRestorable_next
    apply keysRestorable_saveKey hdistinct hnext hcall
    unfold saveKeyCall at hcalled
    split at hcalled
    · rename_i hsave
      exact hsave.trans (by rw [(Prod.mk.inj hcalled).2])
    · cases hcalled
  | saveChildKey id asck =>
    obtain ⟨a, st₁, hcalled, rfl⟩ := successful_inTransaction hstep
    apply keysRestorable_next
    apply keysRestorable_saveChildKey hnext
    unfold saveChildKeyCall at hcalled
    split at hcalled
    · rename_i hsave
      exact hsave.trans (by rw [(Prod.mk.inj hcalled).2])
    · cases hcalled
  | newKey fWalletLocked fInternal fHardened =>
    obtain ⟨a, st₁, hcalled, rfl⟩ := successful_inTransaction hstep
    exact keysRestorable_next (keysRestorable_newKey hdistinct hnext hcalled)
  | newStealthKey fWalletLocked sLabel =>
    obtain ⟨a, st₁, hcalled, rfl⟩ := successful_inTransaction hstep
    exact keysRestorable_next (keysRestorable_newStealthKey hdistinct hnext hcalled)
  | restart =>
    obtain ⟨st₁, hload, -, -, -, hrestorable⟩ := reload_of_restorable ops h
    obtain rfl : st₁ = st' := Option.some.inj (hload.symm.trans hstep)
    exact hrestorable

theorem keysRestorable_run (hdistinct : DistinctChildren ops pubkeys) (calls : List AccountCall) {st st' : KeyState}
    (h : KeysRestorable ops pubkeys st) (hcalls : ∀ call ∈ calls, RightCall ops pubkeys call)
    (hrun : accountRun ops st calls = some st') : KeysRestorable ops pubkeys st' := by
  induction calls generalizing st with
  | nil =>
    obtain rfl := Option.some.inj hrun
    exact h
  | cons call calls ih =>
    rw [accountRun, List.foldlM_cons] at hrun
    cases hstep : accountStep ops st call with
    | none => simp [hstep] at hrun
    | some st₁ =>
      simp only [hstep, Option.bind_eq_bind, Option.bind_some] at hrun
      exact ih (keysRestorable_step hdistinct h (hcalls call (by simp)) hstep)
        (fun call' hcall' => hcalls call' (List.mem_cons_of_mem _ hcall')) hrun

end Restart

section Survive

variable (ops : ExtKeyOps)

/-- The records of a new account: chains under different ids, and no keys. -/
structure AccountDB.NewAccount (db : AccountDB) : Prop where
  nodup : db.account.vExtKeyIDs.Nodup
  chains : ∀ id ∈ db.account.vExtKeyIDs, (db.extKeys id).isSome
  keyPacks : db.keyPacks = []
  stealthKeyPacks : db.stealthKeyPacks = []
  stealthChildPacks : db.stealthChildPacks = []

theorem holds_nil {V : Type} : Packs.Holds ([] : Packs V) (loadPacks []) := by
  constructor
  · simp [Packs.Numbered]
  · intro id v
    rw [loadPacks_iff (by intro id v v' h; simp [Packs.entries] at h)]

/-- The account as it is first loaded. -/
theorem keysRestorable_new {db : AccountDB} (h : db.NewAccount) {st : KeyState} (hload : reload ops db = some st) :
    KeysRestorable ops st.sea.pubkeys st := by
  obtain ⟨records, hread, hlength, hget⟩ := mapM_records db.account.vExtKeyIDs db.extKeys h.chains
  obtain ⟨hrecord, hvExtKeys⟩ := initLookAhead_record ops (lookAheadChains (records.map CStoredExtKey.loaded))
    (db.account.loaded (records.map CStoredExtKey.loaded))
  simp only [reload, extKeyLoadAccount, hread, Option.map_some, Option.some.injEq] at hload
  generalize (db.account.loaded (records.map CStoredExtKey.loaded)).initLookAhead ops
    (lookAheadChains (records.map CStoredExtKey.loaded)) = sea at hload hrecord hvExtKeys
  subst hload
  have hids : sea.vExtKeyIDs = db.account.vExtKeyIDs := congrArg AccountRecord.vExtKeyIDs hrecord
  have hchains : sea.vExtKeys = records.map CStoredExtKey.loaded := hvExtKeys
  have hnone : ∀ {V : Type} (id : CKeyID) (v : V), loadPacks ([] : Packs V) id ≠ some v := by
    intro V id v hv
    have hmem := (holds_nil.mem_iff id v).mp hv
    simp [Packs.entries] at hmem
  constructor
  · exact hids.symm
  · have hkept : ChainsKept (sea.vExtKeys.map fun sek => sek.kp.pubkey) sea.vExtKeyIDs sea.vExtKeys db.extKeys := by
      rw [hids, hchains]
      refine ⟨rfl, h.nodup, by rw [List.length_map, hlength], ?_⟩
      intro i id sek hid hsek
      rw [List.getElem?_map, Option.map_eq_some_iff] at hsek
      obtain ⟨record, hrec, rfl⟩ := hsek
      exact ⟨record, (hget i id hid).symm.trans hrec, rfl, rfl⟩
    exact hkept
  · simpa only [extKeyLoadAccountPacks, h.keyPacks] using holds_nil
  · intro id ak hak
    rw [show (extKeyLoadAccountPacks db sea).mapKeys = loadPacks db.keyPacks from rfl, h.keyPacks] at hak
    exact (hnone id ak hak).elim
  · simpa only [extKeyLoadAccountPacks, h.stealthChildPacks] using holds_nil
  · simpa only [extKeyLoadAccountPacks, h.stealthKeyPacks] using holds_nil
  · intro id aks haks
    rw [show (extKeyLoadAccountPacks db sea).mapStealthKeys = loadPacks db.stealthKeyPacks from rfl,
      h.stealthKeyPacks] at haks
    exact (hnone id aks haks).elim

/-- After any calls that succeed, with restarts in between, a restart brings back exactly the keys in
memory. -/
theorem keys_survive_restart (db : AccountDB) (h : db.NewAccount) (st : KeyState) (hload : reload ops db = some st)
    (hdistinct : DistinctChildren ops st.sea.pubkeys) (calls : List AccountCall)
    (hcalls : ∀ call ∈ calls, RightCall ops st.sea.pubkeys call) (st' : KeyState)
    (hrun : accountRun ops st calls = some st') :
    ∃ st'', reload ops st'.db = some st'' ∧ st''.sea.mapKeys = st'.sea.mapKeys ∧
      st''.sea.mapStealthKeys = st'.sea.mapStealthKeys ∧
      st''.sea.mapStealthChildKeys = st'.sea.mapStealthChildKeys := by
  have hrestorable := keysRestorable_run hdistinct calls (keysRestorable_new ops h hload) hcalls hrun
  obtain ⟨st'', hload', hkeys, hstealth, hchildKeys, -⟩ := reload_of_restorable ops hrestorable
  exact ⟨st'', hload', hkeys, hstealth, hchildKeys⟩

end Survive

section Scene

theorem plainDB_new : plainDB.NewAccount := by
  have hthere : plainDB.account.vExtKeyIDs.all (fun id => (plainDB.extKeys id).isSome) = true := by decide +kernel
  exact ⟨by decide +kernel, List.all_eq_true.mp hthere, rfl, rfl, rfl⟩

/-- A key, a restart, a stealth key and a payment to it, and another key. -/
def plainCalls : List AccountCall :=
  [.newKey false false false, .restart, .newStealthKey false "",
    .saveChildKey 5 ⟨plainOps.getID [3, 0, 0, 0, 128], [9]⟩, .saveKey (plainChild 2) ⟨1, 2⟩, .newKey false true true]

theorem plainKeys_survive :
    ∃ st st' st'', reload plainOps plainDB = some st ∧ accountRun plainOps st plainCalls = some st' ∧
      reload plainOps st'.db = some st'' ∧ st''.sea.mapKeys = st'.sea.mapKeys ∧
      st''.sea.mapStealthKeys = st'.sea.mapStealthKeys ∧
      st''.sea.mapStealthChildKeys = st'.sea.mapStealthChildKeys := by
  obtain ⟨st, hst⟩ := Option.isSome_iff_exists.mp (by decide +kernel : (reload plainOps plainDB).isSome)
  have hpubkeys : (reload plainOps plainDB).map (fun st => st.sea.pubkeys) = some plainAccount.pubkeys := by
    decide +kernel
  have hsucceeds : ((reload plainOps plainDB).bind fun st => accountRun plainOps st plainCalls).isSome := by
    decide +kernel
  rw [hst, Option.map_some, Option.some.injEq] at hpubkeys
  rw [hst, Option.bind_some] at hsucceeds
  obtain ⟨st', hrun⟩ := Option.isSome_iff_exists.mp hsucceeds
  have hcalls : ∀ call ∈ plainCalls, RightCall plainOps st.sea.pubkeys call := by
    rw [hpubkeys]
    simp only [plainCalls, List.forall_mem_cons, RightCall, true_and, List.not_mem_nil, false_implies, implies_true,
      and_true]
    decide +kernel
  obtain ⟨st'', hkept⟩ := keys_survive_restart plainOps plainDB plainDB_new st hst (hpubkeys ▸ plainOps_distinct)
    plainCalls hcalls st' hrun
  exact ⟨st, st', st'', hst, hrun, hkept⟩

end Scene

end AliasWallet
