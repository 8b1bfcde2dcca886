import AliasWallet.Wallet.KeyCreation

/-!
# The key maps of an account

Each entry of `mapKeys` and `mapLookAhead` belongs to a child of one of the chains. What deriving,
saving and looking ahead do to the maps and to the counters.
-/

namespace AliasWallet
open Lib

section Calls

variable (ops : ExtKeyOps)

/-- The records as before, after the outcomes used since. -/
def AccountDB.abortTo (db before : AccountDB) : AccountDB := { before with outcomes := db.outcomes }

/-- A call between `TxnBegin` and `TxnCommit` or `TxnAbort`. What it did in memory stays. -/
def inTransaction {α : Type} (call : KeyState → Option α × KeyState) (st : KeyState) : Option α × KeyState :=
  match st.db.commitWrite id with
  | (false, db) => (none, ⟨st.sea, db⟩)
  | (true, db) =>
    match call ⟨st.sea, db⟩ with
    | (none, st') => (none, ⟨st'.sea, st'.db.abortTo db⟩)
    | (some a, st') =>
      match st'.db.commitWrite id with
      | (true, db') => (some a, ⟨st'.sea, db'⟩)
      | (false, db') => (none, ⟨st'.sea, db'.abortTo db⟩)

/-- `ExtKeySaveKey` with the key as its result. -/
def saveKeyCall (id : CKeyID) (ak : CEKAKey) (st : KeyState) : Option CEKAKey × KeyState :=
  match extKeySaveKey ops st id ak with
  | (true, st) => (some ak, st)
  | (false, st) => (none, st)

/-- `HaveKey` of the wallet for one account: a key of the look-ahead is saved. -/
def haveKey (st : KeyState) (id : CKeyID) : Bool × KeyState :=
  match st.sea.lookAheadKey id with
  | some ak =>
    match inTransaction (saveKeyCall ops id ak) st with
    | (saved, st) => (saved.isSome, st)
  | none => ((st.sea.mapKeys id).isSome || (st.sea.mapStealthChildKeys id).isSome, st)

/-- A call on an account: a payment to a key is noticed, or a key is asked for. -/
inductive KeyCall where
  | haveKey (id : CKeyID)
  | newKey (fWalletLocked fInternal fHardened : Bool)
  deriving DecidableEq, Repr

/-- The key that the call returns, if it is one for a new key, and the state after it. -/
def keyStep (st : KeyState) : KeyCall → Option Bytes × KeyState
  | .haveKey id => (none, (haveKey ops st id).2)
  | .newKey fWalletLocked fInternal fHardened =>
    inTransaction (newKeyFromAccount ops fWalletLocked · fInternal fHardened) st

/-- The state after a sequence of calls. -/
def keyRun (st : KeyState) (calls : List KeyCall) : KeyState :=
  calls.foldl (fun st call => (keyStep ops st call).2) st

end Calls

section Children

variable (ops : ExtKeyOps)

/-- The public keys of the chains; no call changes them. -/
def CExtKeyAccount.pubkeys (sea : CExtKeyAccount) : List Bytes := sea.vExtKeys.map fun sek => sek.kp.pubkey

/-- The id of a child. -/
def childID (pubkeys : List Bytes) (ak : CEKAKey) : Option CKeyID :=
  match pubkeys[ak.nParent.toNat]? with
  | none => none
  | some pubkey => (ops.derive pubkey ak.nKey).map ops.getID

/-- Distinct children have distinct key ids. -/
def DistinctChildren (pubkeys : List Bytes) : Prop :=
  ∀ ak ak' id, childID ops pubkeys ak = some id → childID ops pubkeys ak' = some id → ak = ak'

/-- Each entry is a child under its own id. -/
def KeysRight (pubkeys : List Bytes) (map : CKeyID → Option CEKAKey) : Prop :=
  ∀ id ak, map id = some ak → childID ops pubkeys ak = some id

/-- All keys are children under their own ids, those of the look-ahead not hardened. -/
structure CExtKeyAccount.Right (sea : CExtKeyAccount) : Prop where
  keys : KeysRight ops sea.pubkeys sea.mapKeys
  ahead : KeysRight ops sea.pubkeys sea.mapLookAhead
  aheadLow : ∀ id ak, sea.mapLookAhead id = some ak → ak.nKey.toNat < 2 ^ 31

theorem childID_of_chain {sea : CExtKeyAccount} {nChain : UInt32} {sek : CStoredExtKey}
    (h : sea.getChain nChain = some sek) (nKey : UInt32) :
    childID ops sea.pubkeys ⟨nChain, nKey⟩ = (ops.derive sek.kp.pubkey nKey).map ops.getID := by
  rw [CExtKeyAccount.getChain] at h
  simp [childID, CExtKeyAccount.pubkeys, h]

end Children

section Derive

variable (ops : ExtKeyOps) (sek : CStoredExtKey)

theorem isUnhardened_iff (n : UInt32) : (n >>> 31 == 1) = false ↔ n.toNat < 2 ^ 31 := by
  have hlt := n.toNat_lt
  have hshift : (n >>> 31).toNat = n.toNat / 2 ^ 31 := by
    simp [UInt32.toNat_shiftRight, Nat.shiftRight_eq_div_pow]
  rw [beq_eq_false_iff_ne, ne_eq, ← UInt32.toNat_inj, hshift]
  have hone : (1 : UInt32).toNat = 1 := rfl
  omega

theorem deriveChild_eq_some {fSecret : Bool} {nNum : UInt32} {pubkey : Bytes}
    (h : sek.deriveChild ops fSecret nNum = some pubkey) : ops.derive sek.kp.pubkey nNum = some pubkey := by
  unfold CStoredExtKey.deriveChild at h
  split at h
  · cases h
  · exact h

/-- The child found is the first number from the given one on that derives, with the hardened bit. -/
theorem deriveTries_spec {fSecret fHardened : Bool} {tries : Nat} {nChildIn : UInt32} {pubkey : Bytes}
    {nChildOut : UInt32} (h : sek.deriveTries ops fSecret fHardened tries nChildIn = some (pubkey, nChildOut)) :
    ∃ nChild : UInt32, nChildIn.toNat ≤ nChild.toNat ∧ nChild.toNat < 2 ^ 31 ∧
      nChildOut = (if fHardened then nChild ||| 0x80000000 else nChild) ∧
      ops.derive sek.kp.pubkey nChildOut = some pubkey := by
  induction tries generalizing nChildIn with
  | zero => cases h
  | succ tries ih =>
    rw [CStoredExtKey.deriveTries] at h
    split at h
    · cases h
    rename_i hbit
    have hlow := (isUnhardened_iff nChildIn).mp (by simpa using hbit)
    dsimp only at h
    split at h
    · rename_i hchild
      obtain ⟨rfl, rfl⟩ := Prod.mk.inj (Option.some.inj h)
      exact ⟨nChildIn, Nat.le_refl _, hlow, rfl, deriveChild_eq_some ops sek hchild⟩
    · obtain ⟨nChild, hle, hrest⟩ := ih h
      refine ⟨nChild, ?_, hrest⟩
      rw [UInt32.toNat_add] at hle
      have hone : (1 : UInt32).toNat = 1 := rfl
      omega

theorem deriveKey_spec {fSecret fHardened : Bool} {nChildIn : UInt32} {pubkey : Bytes} {nChildOut : UInt32}
    (h : sek.deriveKey ops fSecret nChildIn fHardened = some (pubkey, nChildOut)) :
    ∃ nChild : UInt32, nChildIn.toNat ≤ nChild.toNat ∧ nChild.toNat < 2 ^ 31 ∧
      nChildOut = (if fHardened then nChild ||| 0x80000000 else nChild) ∧
      ops.derive sek.kp.pubkey nChildOut = some pubkey := by
  unfold CStoredExtKey.deriveKey at h
  split at h
  · cases h
  · exact deriveTries_spec ops sek h

/-- A number that derives is taken at once. -/
theorem deriveKey_of_derives {nChild : UInt32} {pubkey : Bytes} (hlow : nChild.toNat < 2 ^ 31)
    (hderives : ops.derive sek.kp.pubkey nChild = some pubkey) :
    sek.deriveKey ops false nChild false = some (pubkey, nChild) := by
  have hbit := (isUnhardened_iff nChild).mpr hlow
  simp [CStoredExtKey.deriveKey, MAX_DERIVE_TRIES, CStoredExtKey.deriveTries, CStoredExtKey.deriveChild, hbit,
    hderives]

end Derive

section LookAhead

variable (ops : ExtKeyOps) (mapKeys : CKeyID → Option CEKAKey) (pc : CStoredExtKey)

/-- A key that the tries find is a child of the chain, not hardened and not saved. -/
theorem lookAheadTries_found {tries : Nat} {nChild nChildOut nChild' nChildOut' : UInt32} {id : CKeyID}
    (h : CExtKeyAccount.lookAheadTries ops mapKeys pc tries nChild nChildOut = (some id, nChild', nChildOut')) :
    nChildOut'.toNat < 2 ^ 31 ∧ (ops.derive pc.kp.pubkey nChildOut').map ops.getID = some id ∧
      mapKeys id = none := by
  induction tries generalizing nChild nChildOut with
  | zero => simp [CExtKeyAccount.lookAheadTries] at h
  | succ tries ih =>
    rw [CExtKeyAccount.lookAheadTries] at h
    cases hderive : pc.deriveKey ops false nChild false with
    | none =>
      simp only [hderive] at h
      exact ih h
    | some derived =>
      obtain ⟨pk, nOut⟩ := derived
      obtain ⟨nFound, hle, hlow, hout, hpk⟩ := deriveKey_spec ops pc hderive
      obtain rfl : nOut = nFound := by simpa using hout
      simp only [hderive] at h
      split at h
      · exact ih h
      · rename_i hfree
        obtain ⟨rfl, -, rfl⟩ : ops.getID pk = id ∧ nOut + 1 = nChild' ∧ nOut = nChildOut' := by simpa using h
        exact ⟨hlow, by simp [hpk], by simpa using hfree⟩

/-- As long as the chain is not used up, the search does not go back. -/
theorem lookAheadTries_bounds {lo tries : Nat} {nChild nChildOut nChild' nChildOut' : UInt32}
    {found : Option CKeyID}
    (hchild : lo ≤ nChild.toNat ∧ nChild.toNat ≤ 2 ^ 31) (hout : lo ≤ nChildOut.toNat ∧ nChildOut.toNat < 2 ^ 31)
    (h : CExtKeyAccount.lookAheadTries ops mapKeys pc tries nChild nChildOut = (found, nChild', nChildOut')) :
    (lo ≤ nChild'.toNat ∧ nChild'.toNat ≤ 2 ^ 31) ∧ lo ≤ nChildOut'.toNat ∧ nChildOut'.toNat < 2 ^ 31 := by
  have hone : (1 : UInt32).toNat = 1 := rfl
  induction tries generalizing nChild nChildOut with
  | zero =>
    obtain ⟨-, rfl, rfl⟩ : none = found ∧ nChild = nChild' ∧ nChildOut = nChildOut' := by
      simpa [CExtKeyAccount.lookAheadTries] using h
    exact ⟨hchild, hout⟩
  | succ tries ih =>
    rw [CExtKeyAccount.lookAheadTries] at h
    cases hderive : pc.deriveKey ops false nChild false with
    | none =>
      simp only [hderive] at h
      apply ih _ hout h
      rw [UInt32.toNat_add]
      omega
    | some derived =>
      obtain ⟨pk, nOut⟩ := derived
      obtain ⟨nFound, hle, hlow, heq, hpk⟩ := deriveKey_spec ops pc hderive
      obtain rfl : nOut = nFound := by simpa using heq
      have hnext : lo ≤ (nOut + 1).toNat ∧ (nOut + 1).toNat ≤ 2 ^ 31 := by
        rw [UInt32.toNat_add]
        omega
      have hfound : lo ≤ nOut.toNat ∧ nOut.toNat < 2 ^ 31 := ⟨by omega, hlow⟩
      simp only [hderive] at h
      split at h
      · exact ih hnext hfound h
      · obtain ⟨-, rfl, rfl⟩ : some (ops.getID pk) = found ∧ nOut + 1 = nChild' ∧ nOut = nChildOut' := by
          simpa using h
        exact ⟨hnext, hfound⟩

variable {nChain : UInt32}

/-- An entry of the look-ahead was there before, or is a child of the chain. What the tries keep of the
counters is true where it was found. -/
theorem lookAheadLoop_entry (Counters : UInt32 → UInt32 → Prop)
    (hkeep : ∀ nChild nChildOut found nChild' nChildOut', Counters nChild nChildOut →
      CExtKeyAccount.lookAheadTries ops mapKeys pc MAX_DERIVE_TRIES nChild nChildOut =
        (found, nChild', nChildOut') → Counters nChild' nChildOut')
    {nKeys : Nat} {nChild nChildOut : UInt32} (hstart : Counters nChild nChildOut)
    {map : CKeyID → Option CEKAKey} {id : CKeyID} {ak : CEKAKey}
    (h : CExtKeyAccount.lookAheadLoop ops mapKeys pc nChain nKeys nChild nChildOut map id = some ak) :
    map id = some ak ∨ (ak.nParent = nChain ∧ (∃ nNext, Counters nNext ak.nKey) ∧ ak.nKey.toNat < 2 ^ 31 ∧
      (ops.derive pc.kp.pubkey ak.nKey).map ops.getID = some id ∧ mapKeys id = none) := by
  induction nKeys generalizing nChild nChildOut map with
  | zero => exact .inl h
  | succ nKeys ih =>
    rw [CExtKeyAccount.lookAheadLoop] at h
    cases htries : CExtKeyAccount.lookAheadTries ops mapKeys pc MAX_DERIVE_TRIES nChild nChildOut with
    | mk found counters =>
      obtain ⟨nChild', nChildOut'⟩ := counters
      have hcounters := hkeep _ _ _ _ _ hstart htries
      cases found with
      | none =>
        simp only [htries] at h
        exact ih hcounters h
      | some keyId =>
        simp only [htries] at h
        apply (ih hcounters h).elim _ .inr
        intro hupdate
        by_cases hid : id = keyId
        · subst hid
          rw [Function.update_self] at hupdate
          obtain rfl := Option.some.inj hupdate
          exact .inr ⟨rfl, ⟨nChild', hcounters⟩, lookAheadTries_found ops mapKeys pc htries⟩
        · rw [Function.update_of_ne hid] at hupdate
          exact .inl hupdate

/-- No entry of the look-ahead is lost. -/
theorem lookAheadLoop_kept {nKeys : Nat} {nChild nChildOut : UInt32} {map : CKeyID → Option CEKAKey}
    {id : CKeyID} (h : (map id).isSome) :
    (CExtKeyAccount.lookAheadLoop ops mapKeys pc nChain nKeys nChild nChildOut map id).isSome := by
  induction nKeys generalizing nChild nChildOut map with
  | zero => exact h
  | succ nKeys ih =>
    rw [CExtKeyAccount.lookAheadLoop]
    cases CExtKeyAccount.lookAheadTries ops mapKeys pc MAX_DERIVE_TRIES nChild nChildOut with
    | mk found counters =>
      cases found with
      | none => exact ih h
      | some keyId =>
        apply ih
        by_cases hid : id = keyId
        · simp [hid]
        · simpa [Function.update_of_ne hid] using h

end LookAhead

section Account

variable (ops : ExtKeyOps) (sea : CExtKeyAccount)

/-- The chain after a key of it is saved. -/
def CStoredExtKey.passKey (sek : CStoredExtKey) (nKey : UInt32) : CStoredExtKey :=
  if nKey = sek.nGenerated then { sek with nGenerated := sek.nGenerated + 1 } else sek

@[simp] theorem passKey_kp (sek : CStoredExtKey) (nKey : UInt32) : (sek.passKey nKey).kp = sek.kp := by
  unfold CStoredExtKey.passKey
  split <;> rfl

@[simp] theorem passKey_nHGenerated (sek : CStoredExtKey) (nKey : UInt32) :
    (sek.passKey nKey).nHGenerated = sek.nHGenerated := by
  unfold CStoredExtKey.passKey
  split <;> rfl

theorem getChain_setChain {nChain : UInt32} {sek : CStoredExtKey} (h : (sea.getChain nChain).isSome) (n : UInt32) :
    (sea.setChain nChain sek).getChain n = if n = nChain then some sek else sea.getChain n := by
  simp only [CExtKeyAccount.getChain, CExtKeyAccount.setChain]
  have hlt : nChain.toNat < sea.vExtKeys.length := by simpa [CExtKeyAccount.getChain] using h
  by_cases hn : n = nChain
  · subst hn
    simp [hlt]
  · have hne : nChain.toNat ≠ n.toNat := fun h => hn (UInt32.toNat_inj.mp h.symm)
    simp [hn, List.getElem?_set_ne hne]

theorem setChain_self {sea : CExtKeyAccount} {nChain : UInt32} {sek : CStoredExtKey}
    (h : sea.getChain nChain = some sek) : sea.setChain nChain sek = sea := by
  have hback := sea.setChain_setChain nChain sek sek h
  rwa [CExtKeyAccount.setChain, CExtKeyAccount.setChain, List.set_set] at hback

theorem pubkeys_setChain {nChain : UInt32} {sek sek' : CStoredExtKey} (h : sea.getChain nChain = some sek)
    (hpub : sek'.kp.pubkey = sek.kp.pubkey) : (sea.setChain nChain sek').pubkeys = sea.pubkeys := by
  simp only [CExtKeyAccount.pubkeys, CExtKeyAccount.setChain, List.map_set, hpub]
  rw [CExtKeyAccount.getChain] at h
  obtain ⟨hlt, rfl⟩ := List.getElem?_eq_some_iff.mp h
  apply List.ext_getElem?
  intro i
  by_cases hi : nChain.toNat = i
  · subst hi
    simp [hlt]
  · rw [List.getElem?_set_ne hi]

@[simp] theorem pubkeys_setPack (nPack : UInt32) : (sea.setPack nPack).pubkeys = sea.pubkeys := rfl

@[simp] theorem getChain_setPack (nPack n : UInt32) : (sea.setPack nPack).getChain n = sea.getChain n := rfl

@[simp] theorem mapKeys_setPack (nPack : UInt32) : (sea.setPack nPack).mapKeys = sea.mapKeys := rfl

@[simp] theorem mapLookAhead_setPack (nPack : UInt32) : (sea.setPack nPack).mapLookAhead = sea.mapLookAhead := rfl

@[simp] theorem mapKeys_setChain (nChain : UInt32) (sek : CStoredExtKey) :
    (sea.setChain nChain sek).mapKeys = sea.mapKeys := rfl

@[simp] theorem mapLookAhead_setChain (nChain : UInt32) (sek : CStoredExtKey) :
    (sea.setChain nChain sek).mapLookAhead = sea.mapLookAhead := rfl

theorem addLookAhead_eq (nChain : UInt32) (nKeys : Nat) :
    (sea.addLookAhead ops nChain nKeys).mapKeys = sea.mapKeys ∧
      (sea.addLookAhead ops nChain nKeys).vExtKeys = sea.vExtKeys ∧
      ∀ pc, sea.getChain nChain = some pc → (sea.addLookAhead ops nChain nKeys).mapLookAhead =
        CExtKeyAccount.lookAheadLoop ops sea.mapKeys pc nChain nKeys pc.nGenerated pc.nGenerated
          sea.mapLookAhead := by
  unfold CExtKeyAccount.addLookAhead
  cases hchain : sea.getChain nChain with
  | none => simp
  | some pc => simp

/-- The account with a key moved out of the look-ahead. -/
def CExtKeyAccount.moveKey (id : CKeyID) (ak : CEKAKey) : CExtKeyAccount :=
  { sea with
    mapLookAhead := Function.update sea.mapLookAhead id none
    mapKeys := Function.update sea.mapKeys id (some ak) }

theorem saveKey_eq {id : CKeyID} (h : sea.mapKeys id = none) (ak : CEKAKey) :
    sea.saveKey ops id ak = (true, (sea.moveKey id ak).advanceChain ops ak) := by
  simp [CExtKeyAccount.saveKey, h, CExtKeyAccount.moveKey]

theorem saveKey_of_saved {id : CKeyID} (h : (sea.mapKeys id).isSome) (ak : CEKAKey) :
    sea.saveKey ops id ak = (false, sea) := by
  simp [CExtKeyAccount.saveKey, h]

theorem advanceChain_eq (ak : CEKAKey) {pc : CStoredExtKey} (h : sea.getChain ak.nParent = some pc) :
    sea.advanceChain ops ak =
      if (pc.passKey ak.nKey).receives then
        (sea.setChain ak.nParent (pc.passKey ak.nKey)).addLookAhead ops ak.nParent 1
      else sea.setChain ak.nParent (pc.passKey ak.nKey) := by
  simp only [CExtKeyAccount.advanceChain, h]
  rfl

section Save

variable {sea} {id : CKeyID} (hfree : sea.mapKeys id = none) (ak : CEKAKey)

include hfree

theorem saveKey_mapKeys : (sea.saveKey ops id ak).2.mapKeys = Function.update sea.mapKeys id (some ak) := by
  rw [saveKey_eq ops sea hfree]
  cases hchain : (sea.moveKey id ak).getChain ak.nParent with
  | none =>
    simp only [CExtKeyAccount.advanceChain, hchain]
    rfl
  | some pc =>
    rw [advanceChain_eq ops _ ak hchain]
    split
    · rw [(addLookAhead_eq ops _ _ _).1]
      rfl
    · rfl

theorem saveKey_getChain (n : UInt32) : (sea.saveKey ops id ak).2.getChain n =
    if n = ak.nParent then (sea.getChain n).map (·.passKey ak.nKey) else sea.getChain n := by
  rw [saveKey_eq ops sea hfree]
  have hsame : (sea.moveKey id ak).getChain = sea.getChain := rfl
  cases hchain : (sea.moveKey id ak).getChain ak.nParent with
  | none =>
    simp only [CExtKeyAccount.advanceChain, hchain]
    rw [hsame] at hchain ⊢
    by_cases hn : n = ak.nParent
    · simp [hn, hchain]
    · simp [hn]
  | some pc =>
    have hset : ((sea.moveKey id ak).setChain ak.nParent (pc.passKey ak.nKey)).getChain n =
        if n = ak.nParent then some (pc.passKey ak.nKey) else (sea.moveKey id ak).getChain n :=
      getChain_setChain _ (by rw [hchain]; rfl) n
    rw [hsame] at hset
    have hmap : (sea.getChain ak.nParent).map (·.passKey ak.nKey) = some (pc.passKey ak.nKey) := by
      rw [← hsame, hchain]
      rfl
    rw [advanceChain_eq ops _ ak hchain]
    split
    · rw [CExtKeyAccount.getChain, (addLookAhead_eq ops _ _ _).2.1]
      refine hset.trans ?_
      by_cases hn : n = ak.nParent
      · simp [hn, hmap]
      · simp [hn]
    · refine hset.trans ?_
      by_cases hn : n = ak.nParent
      · simp [hn, hmap]
      · simp [hn]

theorem saveKey_pubkeys : (sea.saveKey ops id ak).2.pubkeys = sea.pubkeys := by
  rw [saveKey_eq ops sea hfree]
  cases hchain : (sea.moveKey id ak).getChain ak.nParent with
  | none =>
    simp only [CExtKeyAccount.advanceChain, hchain]
    rfl
  | some pc =>
    have hset : ((sea.moveKey id ak).setChain ak.nParent (pc.passKey ak.nKey)).pubkeys =
        (sea.moveKey id ak).pubkeys := pubkeys_setChain _ hchain (by simp)
    rw [advanceChain_eq ops _ ak hchain]
    split
    · rw [CExtKeyAccount.pubkeys, (addLookAhead_eq ops _ _ _).2.1]
      exact hset
    · exact hset

theorem saveKey_lookAhead : (sea.saveKey ops id ak).2.mapLookAhead =
    match sea.getChain ak.nParent with
    | none => Function.update sea.mapLookAhead id none
    | some pc =>
      if (pc.passKey ak.nKey).receives then
        CExtKeyAccount.lookAheadLoop ops (Function.update sea.mapKeys id (some ak)) (pc.passKey ak.nKey) ak.nParent 1
          (pc.passKey ak.nKey).nGenerated (pc.passKey ak.nKey).nGenerated (Function.update sea.mapLookAhead id none)
      else Function.update sea.mapLookAhead id none := by
  rw [saveKey_eq ops sea hfree]
  have hsame : (sea.moveKey id ak).getChain = sea.getChain := rfl
  rw [← hsame]
  cases hchain : (sea.moveKey id ak).getChain ak.nParent with
  | none =>
    simp only [CExtKeyAccount.advanceChain, hchain]
    rfl
  | some pc =>
    have hset : ((sea.moveKey id ak).setChain ak.nParent (pc.passKey ak.nKey)).getChain ak.nParent =
        some (pc.passKey ak.nKey) := by
      rw [getChain_setChain _ (by rw [hchain]; rfl), if_pos rfl]
    rw [advanceChain_eq ops _ ak hchain]
    by_cases hreceives : (pc.passKey ak.nKey).receives
    · simp only [hreceives, if_true]
      rw [(addLookAhead_eq ops _ _ _).2.2 _ hset]
      rfl
    · simp only [hreceives, Bool.false_eq_true, if_false]
      rfl

/-- The look-ahead keys after a save: those before, and children of the chain. -/
theorem saveKey_entry {id' : CKeyID} {ak' : CEKAKey}
    (h : (sea.saveKey ops id ak).2.mapLookAhead id' = some ak') :
    id' ≠ id ∧ (sea.mapLookAhead id' = some ak' ∨ (ak'.nParent = ak.nParent ∧ ak'.nKey.toNat < 2 ^ 31 ∧
      childID ops sea.pubkeys ak' = some id')) := by
  have hold : ∀ {map : CKeyID → Option CEKAKey}, Function.update map id none id' = some ak' →
      id' ≠ id ∧ map id' = some ak' := by
    intro map hmap
    by_cases hid : id' = id
    · simp [hid] at hmap
    · exact ⟨hid, by simpa [Function.update_of_ne hid] using hmap⟩
  rw [saveKey_lookAhead ops hfree] at h
  cases hchain : sea.getChain ak.nParent with
  | none =>
    simp only [hchain] at h
    exact ⟨(hold h).1, .inl (hold h).2⟩
  | some pc =>
    simp only [hchain] at h
    split at h
    · obtain hbefore | ⟨hparent, -, hlow, hchild, hnew⟩ :=
        lookAheadLoop_entry ops _ _ (fun _ _ => True) (fun _ _ _ _ _ _ _ => trivial) trivial h
      · exact ⟨(hold hbefore).1, .inl (hold hbefore).2⟩
      · have hne : id' ≠ id := by
          intro hid
          simp [hid] at hnew
        refine ⟨hne, .inr ⟨hparent, hlow, ?_⟩⟩
        rw [← hparent] at hchain
        rw [passKey_kp] at hchild
        exact (childID_of_chain ops hchain ak'.nKey).trans hchild
    · exact ⟨(hold h).1, .inl (hold h).2⟩

/-- A save takes no other key out of the look-ahead. -/
theorem saveKey_kept {id' : CKeyID} (hne : id' ≠ id) (h : (sea.mapLookAhead id').isSome) :
    ((sea.saveKey ops id ak).2.mapLookAhead id').isSome := by
  have hmoved : (Function.update sea.mapLookAhead id none id').isSome := by
    rw [Function.update_of_ne hne]
    exact h
  rw [saveKey_lookAhead ops hfree]
  split
  · exact hmoved
  · split
    · exact lookAheadLoop_kept ops _ _ hmoved
    · exact hmoved

omit hfree in
theorem addLookAhead_record (nChain : UInt32) (nKeys : Nat) :
    (sea.addLookAhead ops nChain nKeys).toAccountRecord = sea.toAccountRecord := by
  unfold CExtKeyAccount.addLookAhead
  split <;> rfl

omit hfree in
theorem addLookAhead_stealth (nChain : UInt32) (nKeys : Nat) :
    (sea.addLookAhead ops nChain nKeys).mapStealthKeys = sea.mapStealthKeys ∧
      (sea.addLookAhead ops nChain nKeys).mapStealthChildKeys = sea.mapStealthChildKeys := by
  unfold CExtKeyAccount.addLookAhead
  split <;> exact ⟨rfl, rfl⟩

/-- A save of a derived key leaves the stealth keys alone, and sets one chain. -/
theorem saveKey_frame {ak : CEKAKey} {pc : CStoredExtKey} (hchain : sea.getChain ak.nParent = some pc) :
    (sea.saveKey ops id ak).2.vExtKeys = sea.vExtKeys.set ak.nParent.toNat (pc.passKey ak.nKey) ∧
      (sea.saveKey ops id ak).2.mapStealthKeys = sea.mapStealthKeys ∧
      (sea.saveKey ops id ak).2.mapStealthChildKeys = sea.mapStealthChildKeys := by
  rw [saveKey_eq ops sea hfree, advanceChain_eq ops (sea.moveKey id ak) ak hchain]
  split
  · rw [(addLookAhead_eq ops _ _ _).2.1, (addLookAhead_stealth ops _ _).1, (addLookAhead_stealth ops _ _).2]
    exact ⟨rfl, rfl, rfl⟩
  · exact ⟨rfl, rfl, rfl⟩

theorem saveKey_record : (sea.saveKey ops id ak).2.toAccountRecord = sea.toAccountRecord := by
  rw [saveKey_eq ops sea hfree]
  cases hchain : (sea.moveKey id ak).getChain ak.nParent with
  | none =>
    simp only [CExtKeyAccount.advanceChain, hchain]
    rfl
  | some pc =>
    rw [advanceChain_eq ops _ ak hchain]
    split
    · rw [addLookAhead_record]
      rfl
    · rfl

end Save

end Account

namespace Packs

variable {V : Type} (packs : Packs V)

/-- The entries of all packs. -/
def entries : List (CKeyID × V) := packs.flatMap Prod.snd

/-- The packs have different numbers. -/
def Numbered : Prop := (packs.map Prod.fst).Nodup

theorem numbered_write {packs : Packs V} (h : packs.Numbered) (nPack : UInt32) (pack : List (CKeyID × V)) :
    (packs.write nPack pack).Numbered := by
  have hsub : ((packs.filter fun e => e.1 != nPack).map Prod.fst).Sublist (packs.map Prod.fst) :=
    List.filter_sublist.map _
  simp only [Numbered, write, List.map_cons, List.nodup_cons]
  exact ⟨by simp, h.sublist hsub⟩

theorem filter_eq_self_of_not_mem {nPack : UInt32} (h : nPack ∉ packs.map Prod.fst) :
    (packs.filter fun e => e.1 != nPack) = packs := by
  rw [List.filter_eq_self]
  intro e he
  have hne : e.1 ≠ nPack := fun heq => h (heq ▸ List.mem_map_of_mem he)
  simpa using hne

/-- A pack and the others hold all entries. -/
theorem read_append_others {packs : Packs V} (h : packs.Numbered) (nPack : UInt32) :
    (packs.read nPack ++ (packs.filter fun e => e.1 != nPack).flatMap Prod.snd).Perm packs.entries := by
  induction packs with
  | nil => simp [read, entries]
  | cons e packs ih =>
    obtain ⟨number, pack⟩ := e
    obtain ⟨hnotMem, htail⟩ : number ∉ packs.map Prod.fst ∧ (packs.map Prod.fst).Nodup := by
      simpa [Numbered] using h
    by_cases hn : nPack = number
    · subst hn
      have hothers := filter_eq_self_of_not_mem packs hnotMem
      simp [read, entries, hothers]
    · have hread : read ((number, pack) :: packs) nPack = read packs nPack := by
        rw [read, List.lookup_cons, beq_false_of_ne hn, read]
      have hkept : (number != nPack) = true := by simpa using Ne.symm hn
      have hfilter : (((number, pack) :: packs).filter fun e => e.1 != nPack).flatMap Prod.snd =
          pack ++ (packs.filter fun e => e.1 != nPack).flatMap Prod.snd := by
        simp [hkept]
      rw [hread, hfilter]
      refine List.perm_append_comm_assoc _ _ _ |>.trans ?_
      exact (ih htail).append_left pack

/-- Appending to a pack adds one entry. -/
theorem entries_append {packs : Packs V} (h : packs.Numbered) (nPack : UInt32) (e : CKeyID × V) :
    (packs.write nPack (packs.read nPack ++ [e])).entries.Perm (e :: packs.entries) := by
  have hall := (read_append_others h nPack).cons e
  refine List.Perm.trans ?_ hall
  simp only [entries, write, List.flatMap_cons, List.append_assoc, List.singleton_append]
  exact List.perm_middle

end Packs

section Steps

variable (ops : ExtKeyOps)

/-- The packs with a key appended. -/
def KeyState.appended (st : KeyState) (id : CKeyID) (ak : CEKAKey) : Packs CEKAKey :=
  st.db.keyPacks.write st.sea.nPack (st.db.keyPacks.read st.sea.nPack ++ [(id, ak)])

theorem writeIfUpdated_sea (fUpdateAcc : Bool) (st : KeyState) :
    (writeIfUpdated fUpdateAcc st).2.sea = st.sea ∧ (writeIfUpdated fUpdateAcc st).2.db.keyPacks = st.db.keyPacks := by
  rw [writeIfUpdated_eq]
  cases fUpdateAcc with
  | false => simp
  | true => cases st.db.outcome 0 <;> exact ⟨rfl, rfl⟩

/-- `ExtKeySaveKey` saves the key in memory, whatever it writes. -/
theorem extKeySaveKey_cases (st : KeyState) {id : CKeyID} (hfree : st.sea.mapKeys id = none) (ak : CEKAKey) :
    ∃ nPack, (extKeySaveKey ops st id ak).2.sea = (st.sea.saveKey ops id ak).2.setPack nPack ∧
      ((extKeySaveKey ops st id ak).1 = true →
        (extKeySaveKey ops st id ak).2.db.keyPacks = st.appended id ak) := by
  have hpack : (st.sea.saveKey ops id ak).2.nPack = st.sea.nPack :=
    congrArg AccountRecord.nPack (saveKey_record ops hfree ak)
  have hsaved : st.sea.saveKey ops id ak = (true, (st.sea.saveKey ops id ak).2) := by
    rw [saveKey_eq ops st.sea hfree]
  rw [extKeySaveKey, hsaved]
  generalize (st.sea.saveKey ops id ak).2 = saved at hpack
  simp only [appendToKeyPack_eq]
  cases h0 : st.db.outcome 0 with
  | false => exact ⟨saved.nPack, by simp⟩
  | true =>
    have happended : ((KeyState.mk saved st.db).packed id ak).keyPacks = st.appended id ak := by
      simp only [KeyState.packed, KeyState.appended, hpack]
      rfl
    refine ⟨(KeyState.mk saved st.db).nextPack, ?_⟩
    simp only [if_true]
    cases (saved.setPack (KeyState.mk saved st.db).nextPack).getChain ak.nParent with
    | none => simp
    | some pc =>
      simp only [AccountDB.writeExtKey_eq]
      cases ((KeyState.mk saved st.db).packed id ak).outcome 0 with
      | false => simp
      | true =>
        simp only [if_true]
        rw [(writeIfUpdated_sea _ _).1, (writeIfUpdated_sea _ _).2]
        exact ⟨rfl, fun _ => happended⟩

/-- A call in a transaction: it does not begin, or what it did in memory stays, and what it wrote stays
where it is committed. -/
theorem inTransaction_cases {α : Type} (call : KeyState → Option α × KeyState) (st : KeyState) :
    ((inTransaction call st).1 = none ∧ (inTransaction call st).2.sea = st.sea ∧
      (inTransaction call st).2.db.keyPacks = st.db.keyPacks) ∨
    ((inTransaction call st).2.sea = (call ⟨st.sea, st.db.next⟩).2.sea ∧
      (((inTransaction call st).1 = none ∧ (inTransaction call st).2.db.keyPacks = st.db.keyPacks) ∨
        ∃ a, (call ⟨st.sea, st.db.next⟩).1 = some a ∧ (inTransaction call st).1 = some a ∧
          (inTransaction call st).2.db.keyPacks = (call ⟨st.sea, st.db.next⟩).2.db.keyPacks)) := by
  rw [inTransaction, AccountDB.commitWrite_eq]
  cases h0 : st.db.outcome 0 with
  | false => exact .inl ⟨rfl, rfl, rfl⟩
  | true =>
    right
    simp only [if_true, id]
    cases hcall : call ⟨st.sea, st.db.next⟩ with
    | mk result st' =>
      cases result with
      | none => exact ⟨rfl, .inl ⟨rfl, rfl⟩⟩
      | some a =>
        simp only [AccountDB.commitWrite_eq]
        cases st'.db.outcome 0 with
        | false => exact ⟨rfl, .inl ⟨rfl, rfl⟩⟩
        | true => exact ⟨rfl, .inr ⟨a, rfl, rfl, rfl⟩⟩

theorem recorded_keyPacks (st : KeyState) (d : DerivedKey) (id : CKeyID) :
    (st.recorded d id).keyPacks = st.appended id ⟨d.nChain, d.nChildOut⟩ := by
  unfold KeyState.recorded
  split <;> rfl

/-- A key of the look-ahead is promoted. -/
structure KeyState.Promotes (st : KeyState) (id : CKeyID) (ak : CEKAKey) (st' : KeyState) : Prop where
  free : st.sea.mapKeys id = none
  ahead : st.sea.mapLookAhead id = some ak
  saved : ∃ nPack, st'.sea = (st.sea.saveKey ops id ak).2.setPack nPack
  packs : st'.db.keyPacks = st.db.keyPacks ∨ st'.db.keyPacks = st.appended id ak

/-- A new key is derived and saved; it is returned where it is also written. -/
structure KeyState.Generates (st : KeyState) (d : DerivedKey) (result : Option Bytes) (st' : KeyState) :
    Prop where
  saved : ∃ nPack, st'.sea =
    (((st.sea.setChain d.nChain d.sekNext).setPack nPack).saveKey ops (ops.getID d.pubkey) ⟨d.nChain, d.nChildOut⟩).2
  packs : (result = none ∧ st'.db.keyPacks = st.db.keyPacks) ∨
    (result = some d.pubkey ∧ st'.db.keyPacks = st.appended (ops.getID d.pubkey) ⟨d.nChain, d.nChildOut⟩)

theorem lookAheadKey_eq_some {sea : CExtKeyAccount} {id : CKeyID} {ak : CEKAKey} :
    sea.lookAheadKey id = some ak ↔ sea.mapKeys id = none ∧ sea.mapLookAhead id = some ak := by
  unfold CExtKeyAccount.lookAheadKey
  cases sea.mapKeys id <;> simp

theorem haveKey_cases (st : KeyState) (id : CKeyID) :
    ((haveKey ops st id).2.sea = st.sea ∧ (haveKey ops st id).2.db.keyPacks = st.db.keyPacks) ∨
      ∃ ak, st.Promotes ops id ak (haveKey ops st id).2 := by
  unfold haveKey
  cases hahead : st.sea.lookAheadKey id with
  | none => exact .inl ⟨rfl, rfl⟩
  | some ak =>
    obtain ⟨hfree, hentry⟩ := lookAheadKey_eq_some.mp hahead
    obtain ⟨nPack, hsea, hpacks⟩ := extKeySaveKey_cases ops ⟨st.sea, st.db.next⟩ hfree ak
    have hcall : (saveKeyCall ops id ak ⟨st.sea, st.db.next⟩).2.sea = (st.sea.saveKey ops id ak).2.setPack nPack ∧
        ∀ a, (saveKeyCall ops id ak ⟨st.sea, st.db.next⟩).1 = some a →
          (saveKeyCall ops id ak ⟨st.sea, st.db.next⟩).2.db.keyPacks = st.appended id ak := by
      unfold saveKeyCall
      cases hsave : extKeySaveKey ops ⟨st.sea, st.db.next⟩ id ak with
      | mk ok st' =>
        rw [hsave] at hsea hpacks
        cases ok with
        | false => exact ⟨hsea, by simp⟩
        | true => exact ⟨hsea, fun _ _ => hpacks rfl⟩
    obtain ⟨-, hsame⟩ | ⟨hsaved, ⟨-, hkept⟩ | ⟨a, hsome, -, hwritten⟩⟩ :=
      inTransaction_cases (saveKeyCall ops id ak) st
    · exact .inl hsame
    · exact .inr ⟨ak, hfree, hentry, ⟨nPack, hsaved.trans hcall.1⟩, .inl hkept⟩
    · exact .inr ⟨ak, hfree, hentry, ⟨nPack, hsaved.trans hcall.1⟩, .inr (hwritten.trans (hcall.2 a hsome))⟩

/-- What `NewKeyFromAccount` in its transaction does. -/
theorem newKey_cases (fWalletLocked fInternal fHardened : Bool) (st : KeyState) :
    let after := inTransaction (newKeyFromAccount ops fWalletLocked · fInternal fHardened) st
    (after.1 = none ∧ (∃ nPack, after.2.sea = st.sea.setPack nPack) ∧ after.2.db.keyPacks = st.db.keyPacks) ∨
      ∃ d, deriveNewKey ops fWalletLocked st.sea fInternal fHardened = some d ∧
        st.Generates ops d after.1 after.2 := by
  intro after
  obtain ⟨hnone, hsea, hpacks⟩ | ⟨hsea, hrest⟩ :=
    inTransaction_cases (newKeyFromAccount ops fWalletLocked · fInternal fHardened) st
  · exact .inl ⟨hnone, ⟨st.sea.nPack, hsea⟩, hpacks⟩
  -- a call without a key changes the pack only
  have hfailed : ∀ nPack st', newKeyFromAccount ops fWalletLocked ⟨st.sea, st.db.next⟩ fInternal fHardened =
      (none, st') → st'.sea = st.sea.setPack nPack →
      after.1 = none ∧ (∃ nPack, after.2.sea = st.sea.setPack nPack) ∧ after.2.db.keyPacks = st.db.keyPacks := by
    intro nPack st' hcall hpack
    rw [hcall] at hsea hrest
    obtain ⟨hnone, hpacks⟩ | ⟨a, hsome, -⟩ := hrest
    · exact ⟨hnone, ⟨nPack, hsea.trans hpack⟩, hpacks⟩
    · cases hsome
  cases hd : deriveNewKey ops fWalletLocked st.sea fInternal fHardened with
  | none => exact .inl (hfailed st.sea.nPack ⟨st.sea, st.db.next⟩ (by simp [newKeyFromAccount, hd]) rfl)
  | some d =>
    obtain ⟨-, hcall⟩ | ⟨-, -, db, hcall⟩ | ⟨-, -, -, hcall⟩ :=
      newKeyFromAccount_cases ops fWalletLocked ⟨st.sea, st.db.next⟩ fInternal fHardened d hd
    · exact .inl (hfailed st.sea.nPack _ hcall rfl)
    · exact .inl (hfailed _ _ hcall rfl)
    · right
      rw [hcall] at hsea hrest
      refine ⟨d, rfl, ⟨_, hsea⟩, ?_⟩
      obtain ⟨hnone, hpacks⟩ | ⟨a, hsome, hresult, hpacks⟩ := hrest
      · exact .inl ⟨hnone, hpacks⟩
      · obtain rfl := Option.some.inj hsome
        exact .inr ⟨hresult, hpacks.trans (recorded_keyPacks _ d _)⟩

end Steps

section NewKeys

variable (ops : ExtKeyOps)

theorem addLookAhead_setPack (sea : CExtKeyAccount) (nPack nChain : UInt32) (nKeys : Nat) :
    (sea.setPack nPack).addLookAhead ops nChain nKeys = (sea.addLookAhead ops nChain nKeys).setPack nPack := by
  unfold CExtKeyAccount.addLookAhead
  rw [getChain_setPack]
  split <;> rfl

/-- The pack number plays no part in a save. -/
theorem saveKey_setPack (sea : CExtKeyAccount) (nPack : UInt32) (id : CKeyID) (ak : CEKAKey) :
    ((sea.setPack nPack).saveKey ops id ak).2 = (sea.saveKey ops id ak).2.setPack nPack := by
  cases hkey : sea.mapKeys id with
  | some ak' => rw [saveKey_of_saved ops sea (by simp [hkey]), saveKey_of_saved ops _ (by simp [hkey])]
  | none =>
    rw [saveKey_eq ops sea hkey, saveKey_eq ops (sea.setPack nPack) hkey]
    have hmove : (sea.setPack nPack).moveKey id ak = (sea.moveKey id ak).setPack nPack := rfl
    rw [hmove]
    cases hchain : (sea.moveKey id ak).getChain ak.nParent with
    | none => simp [CExtKeyAccount.advanceChain, hchain]
    | some pc =>
      rw [advanceChain_eq ops _ ak hchain, advanceChain_eq ops ((sea.moveKey id ak).setPack nPack) ak hchain]
      split
      · exact addLookAhead_setPack ops ((sea.moveKey id ak).setChain ak.nParent (pc.passKey ak.nKey)) nPack _ _
      · rfl

theorem toNat_hardened {n : UInt32} (h : n.toNat < 2 ^ 31) : (n ||| 0x80000000).toNat = 2 ^ 31 + n.toNat := by
  rw [UInt32.toNat_or, Nat.or_comm]
  exact (Nat.two_pow_add_eq_or_of_lt h 1).symm

theorem and_low {n : UInt32} (h : n.toNat < 2 ^ 31) : n &&& 0x7FFFFFFF = n := by
  rw [← UInt32.toNat_inj, UInt32.toNat_and]
  exact (Nat.and_two_pow_sub_one_eq_mod n.toNat 31).trans (Nat.mod_eq_of_lt h)

theorem hardened_and_low {n : UInt32} (h : n.toNat < 2 ^ 31) : (n ||| 0x80000000) &&& 0x7FFFFFFF = n := by
  rw [← UInt32.toNat_inj, UInt32.toNat_and, toNat_hardened h]
  refine (Nat.and_two_pow_sub_one_eq_mod _ 31).trans ?_
  omega

/-- The next child is the first from the counter on that derives, and the counter goes behind it. -/
theorem deriveNextKey_spec {sek sekNext : CStoredExtKey} {fSecret fHardened : Bool} {pubkey : Bytes}
    {nChildOut : UInt32} (h : sek.deriveNextKey ops fSecret fHardened = some (pubkey, nChildOut, sekNext)) :
    ∃ n : UInt32, (sek.getCounter fHardened).toNat ≤ n.toNat ∧ n.toNat < 2 ^ 31 ∧
      nChildOut = (if fHardened then n ||| 0x80000000 else n) ∧ ops.derive sek.kp.pubkey nChildOut = some pubkey ∧
      sekNext = sek.setCounter (n + 1) fHardened := by
  unfold CStoredExtKey.deriveNextKey at h
  cases hderive : sek.deriveKey ops fSecret (sek.getCounter fHardened) fHardened with
  | none => simp [hderive] at h
  | some derived =>
    obtain ⟨pubkey', nChildOut'⟩ := derived
    simp only [hderive, Option.some.injEq, Prod.mk.injEq] at h
    obtain ⟨rfl, rfl, rfl⟩ := h
    obtain ⟨n, hle, hlow, hout, hpub⟩ := deriveKey_spec ops sek hderive
    refine ⟨n, hle, hlow, hout, hpub, ?_⟩
    have hand : nChildOut' &&& 0x7FFFFFFF = n := by
      rw [hout]
      cases fHardened with
      | false => exact and_low hlow
      | true => exact hardened_and_low hlow
    rw [hand]

/-- The chain of a new key. -/
def CExtKeyAccount.activeChain (sea : CExtKeyAccount) (fInternal : Bool) : UInt32 :=
  if fInternal then sea.nActiveInternal else sea.nActiveExternal

theorem deriveNewKey_spec {fWalletLocked fInternal fHardened : Bool} {sea : CExtKeyAccount} {d : DerivedKey}
    (h : deriveNewKey ops fWalletLocked sea fInternal fHardened = some d) :
    d.nChain = sea.activeChain fInternal ∧ sea.getChain d.nChain = some d.sek ∧
      d.sek.deriveNextKey ops false fHardened = some (d.pubkey, d.nChildOut, d.sekNext) := by
  have hchain := deriveNewKey_chain ops fWalletLocked h
  unfold deriveNewKey at h
  dsimp only at h
  split at h
  · cases h
  cases hsek : sea.getChain (if fInternal then sea.nActiveInternal else sea.nActiveExternal) with
  | none => simp [hsek] at h
  | some sek =>
    cases hnext : sek.deriveNextKey ops false fHardened with
    | none => simp [hsek, hnext] at h
    | some next =>
      simp only [hsek, hnext, Option.some.injEq] at h
      subst h
      exact ⟨rfl, hchain, hnext⟩

theorem setCounter_kp (sek : CStoredExtKey) (nC : UInt32) (fHardened : Bool) :
    (sek.setCounter nC fHardened).kp = sek.kp := by
  cases fHardened <;> rfl

/-- The chain of a new key keeps its public key. -/
theorem deriveNewKey_pubkey {fWalletLocked fInternal fHardened : Bool} {sea : CExtKeyAccount} {d : DerivedKey}
    (h : deriveNewKey ops fWalletLocked sea fInternal fHardened = some d) :
    d.sekNext.kp.pubkey = d.sek.kp.pubkey := by
  obtain ⟨-, -, hnext⟩ := deriveNewKey_spec ops h
  obtain ⟨n, -, -, -, -, hsekNext⟩ := deriveNextKey_spec ops hnext
  rw [hsekNext, setCounter_kp]

/-- A call leaves the public keys of the chains as they are. -/
theorem keyStep_pubkeys (st : KeyState) (call : KeyCall) :
    (keyStep ops st call).2.sea.pubkeys = st.sea.pubkeys := by
  cases call with
  | haveKey id =>
    obtain ⟨hsea, -⟩ | ⟨ak, hpromotes⟩ := haveKey_cases ops st id
    · simp only [keyStep, hsea]
    · obtain ⟨nPack, hsea⟩ := hpromotes.saved
      simp only [keyStep, hsea]
      exact saveKey_pubkeys ops hpromotes.free ak
  | newKey fWalletLocked fInternal fHardened =>
    obtain ⟨-, ⟨nPack, hsea⟩, -⟩ | ⟨d, hd, hgenerates⟩ := newKey_cases ops fWalletLocked fInternal fHardened st
    · simp only [keyStep, hsea, pubkeys_setPack]
    · obtain ⟨nPack, hsea⟩ := hgenerates.saved
      have hchain := pubkeys_setChain st.sea (deriveNewKey_chain ops fWalletLocked hd) (deriveNewKey_pubkey ops hd)
      simp only [keyStep, hsea]
      refine Eq.trans ?_ hchain
      cases hkey : ((st.sea.setChain d.nChain d.sekNext).setPack nPack).mapKeys (ops.getID d.pubkey) with
      | none => exact saveKey_pubkeys ops hkey _
      | some ak =>
        rw [saveKey_of_saved ops _ (by simp [hkey])]
        rfl

theorem keyRun_pubkeys (calls : List KeyCall) (st : KeyState) :
    (keyRun ops st calls).sea.pubkeys = st.sea.pubkeys := by
  induction calls generalizing st with
  | nil => rfl
  | cons call calls ih => exact (ih _).trans (keyStep_pubkeys ops st call)

theorem saveKey_mapKeys_kept {sea : CExtKeyAccount} {id : CKeyID} {ak : CEKAKey} (h : sea.mapKeys id = some ak)
    (id' : CKeyID) (ak' : CEKAKey) : (sea.saveKey ops id' ak').2.mapKeys id = some ak := by
  cases hkey : sea.mapKeys id' with
  | some ak'' =>
    rw [saveKey_of_saved ops sea (by simp [hkey])]
    exact h
  | none =>
    have hid : id ≠ id' := by
      intro hid
      rw [hid, hkey] at h
      cases h
    rw [saveKey_mapKeys ops hkey, Function.update_of_ne hid]
    exact h

/-- No call takes a key out of the account. -/
theorem keyStep_mapKeys {st : KeyState} {call : KeyCall} {id : CKeyID} {ak : CEKAKey}
    (h : st.sea.mapKeys id = some ak) : (keyStep ops st call).2.sea.mapKeys id = some ak := by
  cases call with
  | haveKey id' =>
    obtain ⟨hsea, -⟩ | ⟨ak', hpromotes⟩ := haveKey_cases ops st id'
    · simpa only [keyStep, hsea] using h
    · obtain ⟨nPack, hsea⟩ := hpromotes.saved
      simp only [keyStep, hsea]
      exact saveKey_mapKeys_kept ops h id' ak'
  | newKey fWalletLocked fInternal fHardened =>
    obtain ⟨-, ⟨nPack, hsea⟩, -⟩ | ⟨d, hd, hgenerates⟩ := newKey_cases ops fWalletLocked fInternal fHardened st
    · simpa only [keyStep, hsea, mapKeys_setPack] using h
    · obtain ⟨nPack, hsea⟩ := hgenerates.saved
      simp only [keyStep, hsea]
      exact saveKey_mapKeys_kept ops (by exact h) _ _

/-- The id of a new key is that of its child. -/
theorem deriveNewKey_childID {fWalletLocked fInternal fHardened : Bool} {sea : CExtKeyAccount} {d : DerivedKey}
    (h : deriveNewKey ops fWalletLocked sea fInternal fHardened = some d) :
    childID ops sea.pubkeys ⟨d.nChain, d.nChildOut⟩ = some (ops.getID d.pubkey) := by
  obtain ⟨-, hchain, hnext⟩ := deriveNewKey_spec ops h
  obtain ⟨n, -, -, -, hpub, -⟩ := deriveNextKey_spec ops hnext
  rw [childID_of_chain ops hchain, hpub]
  rfl

theorem right_saveKey {sea : CExtKeyAccount} (h : sea.Right ops) {id : CKeyID} {ak : CEKAKey}
    (hchild : childID ops sea.pubkeys ak = some id) : (sea.saveKey ops id ak).2.Right ops := by
  cases hfree : sea.mapKeys id with
  | some ak' =>
    rw [saveKey_of_saved ops sea (by simp [hfree])]
    exact h
  | none =>
    have hpubkeys := saveKey_pubkeys ops hfree ak
    constructor
    · intro id' ak' hkey
      rw [saveKey_mapKeys ops hfree] at hkey
      rw [hpubkeys]
      by_cases hid : id' = id
      · subst hid
        simp only [Function.update_self, Option.some.injEq] at hkey
        exact hkey ▸ hchild
      · rw [Function.update_of_ne hid] at hkey
        exact h.keys id' ak' hkey
    · intro id' ak' hentry
      rw [hpubkeys]
      exact (saveKey_entry ops hfree ak hentry).2.elim (h.ahead id' ak') fun hnew => hnew.2.2
    · intro id' ak' hentry
      exact (saveKey_entry ops hfree ak hentry).2.elim (h.aheadLow id' ak') fun hnew => hnew.2.1

theorem right_setChain {sea : CExtKeyAccount} (h : sea.Right ops) {nChain : UInt32} {sek sek' : CStoredExtKey}
    (hchain : sea.getChain nChain = some sek) (hpub : sek'.kp.pubkey = sek.kp.pubkey) :
    (sea.setChain nChain sek').Right ops := by
  have hpubkeys := pubkeys_setChain sea hchain hpub
  exact ⟨hpubkeys ▸ h.keys, hpubkeys ▸ h.ahead, h.aheadLow⟩

theorem right_setPack {sea : CExtKeyAccount} (h : sea.Right ops) (nPack : UInt32) : (sea.setPack nPack).Right ops :=
  ⟨h.keys, h.ahead, h.aheadLow⟩

/-- The entries of the account stay right over a call. -/
theorem right_step {st : KeyState} (h : st.sea.Right ops) (call : KeyCall) :
    (keyStep ops st call).2.sea.Right ops := by
  cases call with
  | haveKey id =>
    obtain ⟨hsea, -⟩ | ⟨ak, hpromotes⟩ := haveKey_cases ops st id
    · simpa only [keyStep, hsea] using h
    · obtain ⟨nPack, hsea⟩ := hpromotes.saved
      simp only [keyStep, hsea]
      exact right_setPack ops (right_saveKey ops h (h.ahead id ak hpromotes.ahead)) nPack
  | newKey fWalletLocked fInternal fHardened =>
    obtain ⟨-, ⟨nPack, hsea⟩, -⟩ | ⟨d, hd, hgenerates⟩ := newKey_cases ops fWalletLocked fInternal fHardened st
    · simp only [keyStep, hsea]
      exact right_setPack ops h nPack
    · obtain ⟨nPack, hsea⟩ := hgenerates.saved
      have hchain := deriveNewKey_chain ops fWalletLocked hd
      have hpub := deriveNewKey_pubkey ops hd
      simp only [keyStep, hsea]
      apply right_saveKey ops (right_setPack ops (right_setChain ops h hchain hpub) nPack)
      rw [pubkeys_setPack, pubkeys_setChain st.sea hchain hpub]
      exact deriveNewKey_childID ops hd

end NewKeys

section Start

variable (ops : ExtKeyOps)

/-- A new account with its look-ahead: how many keys are looked ahead on which chains. -/
def CExtKeyAccount.initLookAhead (sea : CExtKeyAccount) (chains : List (UInt32 × Nat)) : CExtKeyAccount :=
  chains.foldl (fun sea e => sea.addLookAhead ops e.1 e.2) sea

/-- The entries of the look-ahead when it is extended. -/
theorem addLookAhead_entry {sea : CExtKeyAccount} {nChain : UInt32} {nKeys : Nat} {id : CKeyID} {ak : CEKAKey}
    (h : (sea.addLookAhead ops nChain nKeys).mapLookAhead id = some ak) :
    sea.mapLookAhead id = some ak ∨ (ak.nParent = nChain ∧ ak.nKey.toNat < 2 ^ 31 ∧
      childID ops sea.pubkeys ak = some id) := by
  cases hchain : sea.getChain nChain with
  | none => simpa [CExtKeyAccount.addLookAhead, hchain] using Or.inl h
  | some pc =>
    rw [(addLookAhead_eq ops sea nChain nKeys).2.2 pc hchain] at h
    obtain hold | ⟨rfl, -, hlow, hchild, -⟩ :=
      lookAheadLoop_entry ops _ _ (fun _ _ => True) (fun _ _ _ _ _ _ _ => trivial) trivial h
    · exact .inl hold
    · exact .inr ⟨rfl, hlow, (childID_of_chain ops hchain ak.nKey).trans hchild⟩

theorem addLookAhead_pubkeys (sea : CExtKeyAccount) (nChain : UInt32) (nKeys : Nat) :
    (sea.addLookAhead ops nChain nKeys).pubkeys = sea.pubkeys := by
  simp only [CExtKeyAccount.pubkeys, (addLookAhead_eq ops sea nChain nKeys).2.1]

theorem right_addLookAhead {sea : CExtKeyAccount} (h : sea.Right ops) (nChain : UInt32) (nKeys : Nat) :
    (sea.addLookAhead ops nChain nKeys).Right ops := by
  constructor
  · rw [addLookAhead_pubkeys, (addLookAhead_eq ops sea nChain nKeys).1]
    exact h.keys
  · intro id ak hentry
    rw [addLookAhead_pubkeys]
    exact (addLookAhead_entry ops hentry).elim (h.ahead id ak) fun hnew => hnew.2.2
  · intro id ak hentry
    exact (addLookAhead_entry ops hentry).elim (h.aheadLow id ak) fun hnew => hnew.2.1

/-- Looking ahead changes only the look-ahead, and its entries are right. -/
theorem initLookAhead_spec (chains : List (UInt32 × Nat)) (sea : CExtKeyAccount) (h : sea.Right ops) :
    (sea.initLookAhead ops chains).mapKeys = sea.mapKeys ∧
      (sea.initLookAhead ops chains).vExtKeys = sea.vExtKeys ∧ (sea.initLookAhead ops chains).Right ops := by
  induction chains generalizing sea with
  | nil => exact ⟨rfl, rfl, h⟩
  | cons e chains ih =>
    obtain ⟨hkeys, hchains, -⟩ := addLookAhead_eq ops sea e.1 e.2
    have hrest := ih (sea.addLookAhead ops e.1 e.2) (right_addLookAhead ops h e.1 e.2)
    rw [hkeys, hchains] at hrest
    exact hrest

end Start

end AliasWallet
