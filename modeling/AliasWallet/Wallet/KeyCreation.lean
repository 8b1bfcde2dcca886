import AliasWallet.Wallet.ExtKey

/-!
# Failed creation of keys

`NewKeyFromAccount`, `NewStealthKeyFromAccount` and `NewExtKeyFromAccount` change the account in memory
between their writes. What a failed write leaves behind: a pack number that has moved on, a stealth key
that was there before, or the new chain.
-/

namespace AliasWallet
open Lib

namespace AccountDB

variable (db : AccountDB)

/-- Whether the write number `i` from now on succeeds. -/
def outcome (i : Nat) : Bool := (db.outcomes[i]?).getD true

/-- The database with one outcome used up. -/
def next : AccountDB := { db with outcomes := db.outcomes.tail }

@[simp] theorem outcome_next (i : Nat) : db.next.outcome i = db.outcome (i + 1) := by
  simp [outcome, next]

@[simp] theorem outcome_setExtKey (id : CKeyID) (sek : CStoredExtKey) (i : Nat) :
    (db.setExtKey id sek).outcome i = db.outcome i := rfl

@[simp] theorem outcome_setKeyPack (nPack : UInt32) (ekPak : List (CKeyID × CEKAKey)) (i : Nat) :
    (db.setKeyPack nPack ekPak).outcome i = db.outcome i := rfl

@[simp] theorem outcome_setStealthPack (nPack : UInt32) (aksPak : List (CKeyID × CEKAStealthKey)) (i : Nat) :
    (db.setStealthPack nPack aksPak).outcome i = db.outcome i := rfl

@[simp] theorem outcome_setAccount (account : AccountRecord) (i : Nat) :
    (db.setAccount account).outcome i = db.outcome i := rfl

theorem commitWrite_eq (change : AccountDB → AccountDB) :
    db.commitWrite change = if db.outcome 0 then (true, change db.next) else (false, db.next) := by
  obtain ⟨extKeys, account, keyPacks, stealthKeyPacks, stealthChildPacks, outcomes⟩ := db
  cases outcomes with
  | nil => rfl
  | cons ok outcomes => cases ok <;> rfl

theorem writeExtKey_eq (id : CKeyID) (sek : CStoredExtKey) :
    db.writeExtKey id sek = if db.outcome 0 then (true, db.next.setExtKey id sek) else (false, db.next) :=
  db.commitWrite_eq _

theorem writeExtAccount_eq (sea : CExtKeyAccount) :
    db.writeExtAccount sea =
      if db.outcome 0 then (true, db.next.setAccount sea.toAccountRecord) else (false, db.next) :=
  db.commitWrite_eq _

end AccountDB

namespace KeyState

variable (st : KeyState)

/-- The pack that the next derived key goes to is full with it. -/
def rollsPack : Prop := MAX_KEY_PACK_SIZE - 1 ≤ (st.db.keyPacks.read st.sea.nPack).length + 1

instance : Decidable st.rollsPack := inferInstanceAs (Decidable (_ ≤ _))

/-- The same for stealth keys. -/
def rollsStealthPack : Prop :=
  MAX_KEY_PACK_SIZE - 1 ≤ (st.db.stealthKeyPacks.read st.sea.nPackStealth).length + 1

instance : Decidable st.rollsStealthPack := inferInstanceAs (Decidable (_ ≤ _))

/-- The number of the pack for the key after the next one. -/
def nextPack : UInt32 := if st.rollsPack then st.sea.nPack + 1 else st.sea.nPack

def nextStealthPack : UInt32 :=
  if st.rollsStealthPack then st.sea.nPackStealth + 1 else st.sea.nPackStealth

/-- The database with the key in its pack. -/
def packed (idKey : CKeyID) (ak : CEKAKey) : AccountDB :=
  st.db.next.setKeyPack st.sea.nPack (st.db.keyPacks.read st.sea.nPack ++ [(idKey, ak)])

end KeyState

namespace CExtKeyAccount

variable (sea : CExtKeyAccount)

@[simp] theorem setPack_self : sea.setPack sea.nPack = sea := rfl

theorem setPack_setChain (nPack nChain : UInt32) (sek : CStoredExtKey) :
    (sea.setPack nPack).setChain nChain sek = (sea.setChain nChain sek).setPack nPack := rfl

@[simp] theorem nPack_setChain (nChain : UInt32) (sek : CStoredExtKey) :
    (sea.setChain nChain sek).nPack = sea.nPack := rfl

@[simp] theorem chainID_setChain (nChain n : UInt32) (sek : CStoredExtKey) :
    (sea.setChain nChain sek).chainID n = sea.chainID n := rfl

@[simp] theorem chainID_setPack (nPack n : UInt32) : (sea.setPack nPack).chainID n = sea.chainID n := rfl

theorem setChain_setChain (nChain : UInt32) (sek sek' : CStoredExtKey)
    (h : sea.getChain nChain = some sek) : (sea.setChain nChain sek').setChain nChain sek = sea := by
  simp only [setChain, List.set_set]
  rw [getChain] at h
  obtain ⟨hlt, rfl⟩ := List.getElem?_eq_some_iff.mp h
  rw [List.set_getElem_self]

theorem pack_succ_ne (n : UInt32) : n + 1 ≠ n := by
  intro h
  have hnat := congrArg UInt32.toNat h
  rw [UInt32.toNat_add] at hnat
  have hlt := n.toNat_lt
  have hone : (1 : UInt32).toNat = 1 := rfl
  omega

theorem setPack_succ_ne : sea.setPack (sea.nPack + 1) ≠ sea := by
  intro h
  exact pack_succ_ne _ (congrArg (fun sea : CExtKeyAccount => sea.nPack) h)

end CExtKeyAccount

theorem appendToKeyPack_eq (st : KeyState) (idKey : CKeyID) (ak : CEKAKey) :
    appendToKeyPack st idKey ak =
      if st.db.outcome 0 then
        (some (decide st.rollsPack), ⟨st.sea.setPack st.nextPack, st.packed idKey ak⟩)
      else (none, ⟨st.sea, st.db.next⟩) := by
  rw [appendToKeyPack, AccountDB.commitWrite_eq]
  cases st.db.outcome 0 with
  | false => rfl
  | true =>
    simp only [if_true, List.length_append, List.length_cons, List.length_nil, Nat.zero_add, ge_iff_le]
    change (if st.rollsPack then _ else _) = _
    by_cases hr : st.rollsPack
    · simp [hr, KeyState.nextPack, KeyState.packed]
    · simp [hr, KeyState.nextPack, KeyState.packed]

theorem writeIfUpdated_eq (fUpdateAcc : Bool) (st : KeyState) :
    writeIfUpdated fUpdateAcc st =
      if fUpdateAcc then
        if st.db.outcome 0 then (true, ⟨st.sea, st.db.next.setAccount st.sea.toAccountRecord⟩)
        else (false, ⟨st.sea, st.db.next⟩)
      else (true, st) := by
  cases fUpdateAcc with
  | false => rfl
  | true =>
    rw [writeIfUpdated, AccountDB.writeExtAccount_eq]
    cases st.db.outcome 0 <;> rfl

section NewKey

variable (ops : ExtKeyOps) (fWalletLocked : Bool)

theorem deriveNewKey_chain {sea : CExtKeyAccount} {fInternal fHardened : Bool} {d : DerivedKey}
    (h : deriveNewKey ops fWalletLocked sea fInternal fHardened = some d) :
    sea.getChain d.nChain = some d.sek := by
  unfold deriveNewKey at h
  dsimp only at h
  split at h
  · cases h
  split at h
  · cases h
  rename_i sek hsek
  split at h
  · cases h
  obtain rfl := Option.some.inj h
  exact hsek

/-- The account when all writes for a new key are done. -/
def KeyState.counted (st : KeyState) (d : DerivedKey) : CExtKeyAccount :=
  (st.sea.setChain d.nChain d.sekNext).setPack st.nextPack

/-- The database then. -/
def KeyState.recorded (st : KeyState) (d : DerivedKey) (idKey : CKeyID) : AccountDB :=
  let db := (st.packed idKey ⟨d.nChain, d.nChildOut⟩).next.setExtKey (st.sea.chainID d.nChain) d.sekNext
  if st.rollsPack then db.next.setAccount (st.counted d).toAccountRecord else db

/-- What `NewKeyFromAccount` does, by the outcomes of its writes. -/
theorem newKeyFromAccount_cases (st : KeyState) (fInternal fHardened : Bool) (d : DerivedKey)
    (hd : deriveNewKey ops fWalletLocked st.sea fInternal fHardened = some d) :
    (st.db.outcome 0 = false ∧
      newKeyFromAccount ops fWalletLocked st fInternal fHardened = (none, ⟨st.sea, st.db.next⟩)) ∨
    (st.db.outcome 0 = true ∧ ¬ (st.db.outcome 1 = true ∧ (st.rollsPack → st.db.outcome 2 = true)) ∧
      ∃ db, newKeyFromAccount ops fWalletLocked st fInternal fHardened =
        (none, ⟨st.sea.setPack st.nextPack, db⟩)) ∨
    (st.db.outcome 0 = true ∧ st.db.outcome 1 = true ∧ (st.rollsPack → st.db.outcome 2 = true) ∧
      newKeyFromAccount ops fWalletLocked st fInternal fHardened =
        (some d.pubkey, ⟨((st.counted d).saveKey ops (ops.getID d.pubkey) ⟨d.nChain, d.nChildOut⟩).2,
          st.recorded d (ops.getID d.pubkey)⟩)) := by
  have hback := CExtKeyAccount.setChain_setChain st.sea d.nChain d.sek d.sekNext
    (deriveNewKey_chain ops fWalletLocked hd)
  -- advancing the counter changes neither the pack nor its number
  have happend := appendToKeyPack_eq ⟨st.sea.setChain d.nChain d.sekNext, st.db⟩ (ops.getID d.pubkey)
    ⟨d.nChain, d.nChildOut⟩
  change _ = if st.db.outcome 0 = true then (some (decide st.rollsPack), KeyState.mk (st.counted d)
    (st.packed (ops.getID d.pubkey) ⟨d.nChain, d.nChildOut⟩)) else _ at happend
  have hone : (st.packed (ops.getID d.pubkey) ⟨d.nChain, d.nChildOut⟩).outcome 0 = st.db.outcome 1 := by
    simp [KeyState.packed]
  have hrestore : (st.counted d).setChain d.nChain d.sek = st.sea.setPack st.nextPack := by
    rw [KeyState.counted, CExtKeyAccount.setPack_setChain, hback]
  have hchainID : (st.counted d).chainID d.nChain = st.sea.chainID d.nChain := rfl
  simp only [newKeyFromAccount, hd, happend]
  cases h0 : st.db.outcome 0 with
  | false =>
    left
    simp [KeyState.restoreChain, hback]
  | true =>
    right
    simp only [if_true, AccountDB.writeExtKey_eq, hone, writeIfUpdated_eq]
    cases h1 : st.db.outcome 1 with
    | false =>
      left
      simp [KeyState.restoreChain, hrestore]
    | true =>
      have htwo : ∀ id, ((st.packed (ops.getID d.pubkey) ⟨d.nChain, d.nChildOut⟩).next.setExtKey id
          d.sekNext).outcome 0 = st.db.outcome 2 := by
        simp [KeyState.packed]
      by_cases hr : st.rollsPack
      · cases h2 : st.db.outcome 2 with
        | false =>
          left
          simp [hr, htwo, h2, KeyState.restoreChain, hrestore]
        | true =>
          right
          simp [hr, htwo, h2, KeyState.recorded, hchainID]
      · right
        simp [hr, KeyState.recorded, hchainID]

end NewKey

section Unchanged

variable (ops : ExtKeyOps) (fWalletLocked : Bool)

/-- A failed call leaves the account in memory as it was. -/
def FailsCleanly {α : Type} (call : KeyState → Option α × KeyState) (st : KeyState) : Prop :=
  (call st).1 = none → (call st).2.sea = st.sea

/-- A new key fails cleanly if and only if no write fails after the one that fills its pack. -/
theorem newKey_failsCleanly_iff (st : KeyState) (fInternal fHardened : Bool) :
    FailsCleanly (newKeyFromAccount ops fWalletLocked · fInternal fHardened) st ↔
      ((deriveNewKey ops fWalletLocked st.sea fInternal fHardened).isSome → st.rollsPack →
        st.db.outcome 0 = true → st.db.outcome 1 = true ∧ st.db.outcome 2 = true) := by
  unfold FailsCleanly
  cases hd : deriveNewKey ops fWalletLocked st.sea fInternal fHardened with
  | none => simp [newKeyFromAccount, hd]
  | some d =>
    obtain ⟨h0, hcall⟩ | ⟨h0, hfailed, db, hcall⟩ | ⟨h0, h1, h2, hcall⟩ :=
      newKeyFromAccount_cases ops fWalletLocked st fInternal fHardened d hd
    · simp [hcall, h0]
    · by_cases hr : st.rollsPack
      · have hmoved : st.sea.setPack st.nextPack ≠ st.sea := by
          rw [KeyState.nextPack, if_pos hr]
          exact st.sea.setPack_succ_ne
        have hwrites : ¬ (st.db.outcome 1 = true ∧ st.db.outcome 2 = true) := by
          intro hboth
          exact hfailed ⟨hboth.1, fun _ => hboth.2⟩
        simp only [hcall, hmoved, hr, h0, hwrites, Option.isSome_some, true_implies]
      · simp [hcall, hr, KeyState.nextPack]
    · simp only [hcall, reduceCtorEq, false_implies, true_iff]
      intro _ hr _
      exact ⟨h1, h2 hr⟩

theorem deriveStealthKey_chain {sea : CExtKeyAccount} {scan spend : DerivedKey}
    (h : deriveStealthKey ops fWalletLocked sea = some (scan, spend)) :
    sea.getChain scan.nChain = some scan.sek ∧ spend.nChain = scan.nChain := by
  unfold deriveStealthKey at h
  split at h
  · cases h
  split at h
  · cases h
  rename_i sek hsek
  split at h
  · cases h
  split at h
  · cases h
  obtain ⟨rfl, rfl⟩ := Prod.mk.inj (Option.some.inj h)
  exact ⟨hsek, rfl⟩

/-- The account with a new stealth key. -/
def KeyState.withStealthKey (st : KeyState) (idKey : CKeyID) (aks : CEKAStealthKey) (spend : DerivedKey) :
    CExtKeyAccount :=
  ((st.sea.setChain spend.nChain spend.sekNext).setStealthKey idKey (some aks)).setPackStealth
    st.nextStealthPack

/-- Its records. -/
def KeyState.recordedStealth (st : KeyState) (idKey : CKeyID) (aks : CEKAStealthKey) (spend : DerivedKey) :
    AccountDB :=
  (st.db.next.setStealthPack st.sea.nPackStealth (st.db.stealthKeyPacks.read st.sea.nPackStealth ++
    [(idKey, aks)])).next.setExtKey (st.sea.chainID spend.nChain) spend.sekNext

theorem dropStealthKey_eq (sea : CExtKeyAccount) (db : AccountDB) (idKey : CKeyID) (aks : CEKAStealthKey)
    (nPackStealth : UInt32) (scan : DerivedKey) (sekNext : CStoredExtKey)
    (hchain : sea.getChain scan.nChain = some scan.sek) :
    KeyState.dropStealthKey ⟨((sea.setChain scan.nChain sekNext).setStealthKey idKey (some aks)).setPackStealth
      nPackStealth, db⟩ idKey scan = ⟨(sea.setStealthKey idKey none).setPackStealth nPackStealth, db⟩ := by
  have hback := sea.setChain_setChain scan.nChain scan.sek sekNext hchain
  have hfinal := congrArg (fun sea : CExtKeyAccount => (sea.setStealthKey idKey none).setPackStealth nPackStealth)
    hback
  have hmap : Function.update (Function.update sea.mapStealthKeys idKey (some aks)) idKey none =
      Function.update sea.mapStealthKeys idKey none := Function.update_idem ..
  simp only [KeyState.dropStealthKey, CExtKeyAccount.setStealthKey, CExtKeyAccount.setPackStealth,
    CExtKeyAccount.setChain] at hfinal ⊢
  rw [hmap, hfinal]

theorem rollStealthPack_eq (st : KeyState) (idKey : CKeyID) (aks : CEKAStealthKey) (spend : DerivedKey)
    (sea : CExtKeyAccount)
    (hsea : sea = (st.sea.setChain spend.nChain spend.sekNext).setStealthKey idKey (some aks)) :
    (if (st.db.stealthKeyPacks.read st.sea.nPackStealth ++ [(idKey, aks)]).length ≥ MAX_KEY_PACK_SIZE - 1 then
      sea.setPackStealth (st.sea.nPackStealth + 1) else sea) = st.withStealthKey idKey aks spend := by
  simp only [List.length_append, List.length_singleton, ge_iff_le]
  change (if st.rollsStealthPack then _ else _) = _
  subst hsea
  by_cases hr : st.rollsStealthPack
  · simp [hr, KeyState.withStealthKey, KeyState.nextStealthPack]
  · simp only [hr, if_false, KeyState.withStealthKey, KeyState.nextStealthPack]
    rfl

/-- What `NewStealthKeyFromAccount` does, by the outcomes of its writes. -/
theorem newStealthKeyFromAccount_cases (st : KeyState) (sLabel : String) (scan spend : DerivedKey)
    (hd : deriveStealthKey ops fWalletLocked st.sea = some (scan, spend)) :
    (st.db.outcome 0 = false ∧ newStealthKeyFromAccount ops fWalletLocked st sLabel =
      (none, ⟨st.sea.setStealthKey (ops.getID scan.pubkey) none, st.db.next⟩)) ∨
    (st.db.outcome 0 = true ∧ st.db.outcome 1 = false ∧
      ∃ db, newStealthKeyFromAccount ops fWalletLocked st sLabel =
        (none, ⟨(st.sea.setStealthKey (ops.getID scan.pubkey) none).setPackStealth st.nextStealthPack, db⟩)) ∨
    (st.db.outcome 0 = true ∧ st.db.outcome 1 = true ∧ newStealthKeyFromAccount ops fWalletLocked st sLabel =
      (some (newStealthKey ops sLabel scan spend),
        ⟨st.withStealthKey (ops.getID scan.pubkey) (newStealthKey ops sLabel scan spend) spend,
          st.recordedStealth (ops.getID scan.pubkey) (newStealthKey ops sLabel scan spend) spend⟩)) := by
  obtain ⟨hchain, hspend⟩ := deriveStealthKey_chain ops fWalletLocked hd
  have hroll := rollStealthPack_eq st (ops.getID scan.pubkey) (newStealthKey ops sLabel scan spend) spend _ rfl
  simp only [newStealthKeyFromAccount, hd, AccountDB.commitWrite_eq]
  cases h0 : st.db.outcome 0 with
  | false =>
    left
    have hdrop := dropStealthKey_eq st.sea st.db.next (ops.getID scan.pubkey)
      (newStealthKey ops sLabel scan spend) st.sea.nPackStealth scan spend.sekNext hchain
    rw [← hspend] at hdrop
    exact ⟨rfl, congrArg (Prod.mk none) hdrop⟩
  | true =>
    right
    simp only [if_true, hroll, AccountDB.writeExtKey_eq, AccountDB.outcome_setStealthPack,
      AccountDB.outcome_next]
    cases h1 : st.db.outcome 1 with
    | false =>
      left
      refine ⟨trivial, rfl, (st.db.next.setStealthPack st.sea.nPackStealth
        (st.db.stealthKeyPacks.read st.sea.nPackStealth ++
          [(ops.getID scan.pubkey, newStealthKey ops sLabel scan spend)])).next, ?_⟩
      have hdrop := dropStealthKey_eq st.sea (st.db.next.setStealthPack st.sea.nPackStealth
        (st.db.stealthKeyPacks.read st.sea.nPackStealth ++
          [(ops.getID scan.pubkey, newStealthKey ops sLabel scan spend)])).next (ops.getID scan.pubkey)
        (newStealthKey ops sLabel scan spend) st.nextStealthPack scan spend.sekNext hchain
      rw [← hspend] at hdrop
      exact congrArg (Prod.mk none) hdrop
    | true =>
      right
      exact ⟨trivial, rfl, rfl⟩

theorem setStealthKey_eq_iff (sea : CExtKeyAccount) (idKey : CKeyID) (nPackStealth : UInt32) :
    (sea.setStealthKey idKey none).setPackStealth nPackStealth = sea ↔
      sea.mapStealthKeys idKey = none ∧ nPackStealth = sea.nPackStealth := by
  constructor
  · intro h
    have hmap := congrFun (congrArg (fun sea : CExtKeyAccount => sea.mapStealthKeys) h) idKey
    have hpack := congrArg (fun sea : CExtKeyAccount => sea.nPackStealth) h
    exact ⟨by simpa [CExtKeyAccount.setStealthKey, CExtKeyAccount.setPackStealth] using hmap.symm, hpack⟩
  · rintro ⟨hmap, rfl⟩
    have hsame : Function.update sea.mapStealthKeys idKey none = sea.mapStealthKeys := by
      rw [← hmap, Function.update_eq_self]
    simp only [CExtKeyAccount.setStealthKey, hsame]
    rfl

/-- A new stealth key fails cleanly if and only if its writes succeed, or its id is new and no write
fails after the one that fills its pack. -/
theorem newStealthKey_failsCleanly_iff (st : KeyState) (sLabel : String) :
    FailsCleanly (newStealthKeyFromAccount ops fWalletLocked · sLabel) st ↔
      ∀ scan spend, deriveStealthKey ops fWalletLocked st.sea = some (scan, spend) →
        st.db.outcome 0 = true ∧ st.db.outcome 1 = true ∨
        st.sea.mapStealthKeys (ops.getID scan.pubkey) = none ∧
          (st.db.outcome 0 = true → ¬ st.rollsStealthPack) := by
  unfold FailsCleanly
  cases hd : deriveStealthKey ops fWalletLocked st.sea with
  | none => simp [newStealthKeyFromAccount, hd]
  | some derived =>
    obtain ⟨scan, spend⟩ := derived
    obtain ⟨hchain, hspend⟩ := deriveStealthKey_chain ops fWalletLocked hd
    simp only [Option.some.injEq, Prod.mk.injEq, and_imp]
    obtain ⟨h0, hcall⟩ | ⟨h0, h1, db, hcall⟩ | ⟨h0, h1, hcall⟩ :=
      newStealthKeyFromAccount_cases ops fWalletLocked st sLabel scan spend hd
    · have hsame := setStealthKey_eq_iff st.sea (ops.getID scan.pubkey) st.sea.nPackStealth
      have hself : (st.sea.setStealthKey (ops.getID scan.pubkey) none).setPackStealth st.sea.nPackStealth =
          st.sea.setStealthKey (ops.getID scan.pubkey) none := rfl
      rw [hself] at hsame
      simpa [hcall, h0] using hsame
    · have hsame := setStealthKey_eq_iff st.sea (ops.getID scan.pubkey) st.nextStealthPack
      have hroll : st.nextStealthPack = st.sea.nPackStealth ↔ ¬ st.rollsStealthPack := by
        by_cases hr : st.rollsStealthPack
        · simp [KeyState.nextStealthPack, hr]
        · simp [KeyState.nextStealthPack, hr]
      simpa [hcall, h0, h1, hroll] using hsame
    · simp [hcall, h0, h1]

/-- The writes of a new chain succeed together. -/
theorem writeNewChain_fst (sea : CExtKeyAccount) (d : DerivedKey) (sek : CStoredExtKey) (db : AccountDB) :
    (writeNewChain ops sea d sek db).1 = (db.outcome 0 && db.outcome 1 && db.outcome 2) := by
  rw [writeNewChain, AccountDB.writeExtAccount_eq]
  cases h0 : db.outcome 0 with
  | false => rfl
  | true =>
    simp only [if_true, AccountDB.writeExtKey_eq, AccountDB.outcome_setAccount, AccountDB.outcome_next]
    cases h1 : db.outcome 1 with
    | false => rfl
    | true =>
      simp only [if_true, AccountDB.outcome_setExtKey, AccountDB.outcome_next, AccountDB.outcome_setAccount]
      cases h2 : db.outcome 2 <;> rfl

/-- A new chain fails cleanly if and only if none of its writes fails. -/
theorem newExtKey_failsCleanly_iff (fWalletCrypted : Bool) (st : KeyState) (sLabel : String)
    (sekOut : CStoredExtKey) :
    FailsCleanly (newExtKeyFromAccount ops fWalletLocked fWalletCrypted · sLabel sekOut) st ↔
      ((deriveExtKey ops fWalletLocked fWalletCrypted st.sea sLabel sekOut).isSome →
        st.db.outcome 0 = true ∧ st.db.outcome 1 = true ∧ st.db.outcome 2 = true) := by
  unfold FailsCleanly
  cases hd : deriveExtKey ops fWalletLocked fWalletCrypted st.sea sLabel sekOut with
  | none => simp [newExtKeyFromAccount, hd]
  | some derived =>
    obtain ⟨d, sek⟩ := derived
    have hwrites := writeNewChain_fst ops ((st.sea.setChain 0 d.sekNext).addChain (ops.getID sek.kp.pubkey) sek)
      d sek st.db
    cases hresult : writeNewChain ops ((st.sea.setChain 0 d.sekNext).addChain (ops.getID sek.kp.pubkey) sek)
      d sek st.db with
    | mk ok db =>
      rw [hresult] at hwrites
      cases ok with
      | true =>
        have hall := hwrites.symm
        simp only [Bool.and_eq_true, and_assoc] at hall
        simp [newExtKeyFromAccount, hd, hresult, hall]
      | false =>
        -- the new chain is still there
        have hlonger : (KeyState.restoreChain ⟨(st.sea.setChain 0 d.sekNext).addChain
            (ops.getID sek.kp.pubkey) sek, db⟩ d).sea ≠ st.sea := by
          intro hsame
          have hlength := congrArg (fun sea : CExtKeyAccount => sea.vExtKeys.length) hsame
          simp [KeyState.restoreChain, CExtKeyAccount.addChain, CExtKeyAccount.setChain] at hlength
        have hfailed : ¬ (st.db.outcome 0 = true ∧ st.db.outcome 1 = true ∧ st.db.outcome 2 = true) := by
          intro hall
          simp [hall] at hwrites
        simp only [newExtKeyFromAccount, hd, hresult, hlonger, hfailed, Option.isSome_some, true_implies]

/-- When a failed creation of a key leaves the account as it was. -/
theorem creation_failsCleanly_iff (fWalletCrypted : Bool) (st : KeyState) :
    (∀ fInternal fHardened, FailsCleanly (newKeyFromAccount ops fWalletLocked · fInternal fHardened) st ↔
      ((deriveNewKey ops fWalletLocked st.sea fInternal fHardened).isSome → st.rollsPack →
        st.db.outcome 0 = true → st.db.outcome 1 = true ∧ st.db.outcome 2 = true)) ∧
    (∀ sLabel, FailsCleanly (newStealthKeyFromAccount ops fWalletLocked · sLabel) st ↔
      ∀ scan spend, deriveStealthKey ops fWalletLocked st.sea = some (scan, spend) →
        st.db.outcome 0 = true ∧ st.db.outcome 1 = true ∨
        st.sea.mapStealthKeys (ops.getID scan.pubkey) = none ∧
          (st.db.outcome 0 = true → ¬ st.rollsStealthPack)) ∧
    (∀ sLabel sekOut, FailsCleanly (newExtKeyFromAccount ops fWalletLocked fWalletCrypted · sLabel sekOut) st ↔
      ((deriveExtKey ops fWalletLocked fWalletCrypted st.sea sLabel sekOut).isSome →
        st.db.outcome 0 = true ∧ st.db.outcome 1 = true ∧ st.db.outcome 2 = true)) :=
  ⟨newKey_failsCleanly_iff ops fWalletLocked st, newStealthKey_failsCleanly_iff ops fWalletLocked st,
    newExtKey_failsCleanly_iff ops fWalletLocked fWalletCrypted st⟩

end Unchanged

section Scene

/-- Key arithmetic in which the child's number is written behind the parent's key. -/
def plainOps : ExtKeyOps where
  derive pubkey nNum := some (pubkey ++ leBytes 4 nNum.toNat)
  childKey key nNum := key ++ leBytes 4 nNum.toNat
  getID pubkey := BitVec.ofNat 160 (leNat pubkey)
  encryptSecret key _ := some (0 :: key)
  decryptSecret crypted _ := some (crypted.drop 1)

/-- A chain that receives. -/
def plainChain (pubkey : Bytes) : CStoredExtKey :=
  ⟨⟨pubkey, some [7]⟩, [], "", false, EAF_ACTIVE ||| EAF_RECEIVE_ON ||| EAF_IN_ACCOUNT, 0, 0, none⟩

/-- An account with the chain of the account, one to receive on and one for stealth keys. -/
def plainAccount : CExtKeyAccount where
  nActiveExternal := 1
  nActiveInternal := 1
  nActiveStealth := 2
  vExtKeyIDs := [plainOps.getID [1], plainOps.getID [2], plainOps.getID [3]]
  nPack := 0
  nPackStealth := 0
  nPackStealthKeys := 0
  mapKeys _ := none
  mapLookAhead _ := none
  mapStealthChildKeys _ := none
  mapStealthKeys _ := none
  vExtKeys := [plainChain [1], plainChain [2], plainChain [3]]

/-- Its records, with a first pack of `n` keys. -/
def plainRecords (n : Nat) (outcomes : List Bool) : AccountDB where
  extKeys _ := none
  account := plainAccount.toAccountRecord
  keyPacks := [(0, List.replicate n (0, ⟨1, 0⟩))]
  stealthKeyPacks := []
  stealthChildPacks := []
  outcomes

/-- A new key whose chain is not written after its pack is full, and a new chain that is not written. -/
theorem failedWrite_changesAccount :
    ¬ FailsCleanly (newKeyFromAccount plainOps false · false false) ⟨plainAccount, plainRecords 98 [true, false]⟩ ∧
      ¬ FailsCleanly (newExtKeyFromAccount plainOps false false · "" (plainChain []))
        ⟨plainAccount, plainRecords 0 [false]⟩ := by
  rw [newKey_failsCleanly_iff, newExtKey_failsCleanly_iff]
  decide

end Scene

end AliasWallet
