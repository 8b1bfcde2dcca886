import AliasWallet.Wallet.FreshKeys

/-!
# The look-ahead of a chain

After a save `AddLookAhead` starts again at the counter of the chain, where the key it finds is already in
the look-ahead, so a window of two keys or more is never extended. Only a window of one key moves on
with the counter.
-/

namespace AliasWallet
open Lib

section Window

variable (ops : ExtKeyOps) (sea : CExtKeyAccount) (nChain : UInt32)

def CExtKeyAccount.SavedChild (n : UInt32) : Prop := ∃ id, sea.mapKeys id = some ⟨nChain, n⟩

def CExtKeyAccount.AheadChild (n : UInt32) : Prop := ∃ id, sea.mapLookAhead id = some ⟨nChain, n⟩

/-- A payment to the child is noticed. -/
def CExtKeyAccount.Recognised (n : UInt32) : Prop :=
  ∀ id, childID ops sea.pubkeys ⟨nChain, n⟩ = some id → (sea.mapKeys id).isSome ∨ (sea.mapLookAhead id).isSome

/-- The `nKeys` children behind the highest one that is saved are noticed. -/
def CExtKeyAccount.LookAheadKept (nKeys : Nat) : Prop :=
  ∀ m : UInt32, m.toNat < 2 ^ 31 → sea.SavedChild nChain m →
    (∀ m' : UInt32, m'.toNat < 2 ^ 31 → sea.SavedChild nChain m' → m'.toNat ≤ m.toNat) →
    ∀ n : UInt32, m.toNat < n.toNat → n.toNat ≤ m.toNat + nKeys → n.toNat < 2 ^ 31 → sea.Recognised ops nChain n

/-- All children of the chain can be derived. -/
def CStoredExtKey.Derives (sek : CStoredExtKey) : Prop :=
  ∀ n : UInt32, n.toNat < 2 ^ 31 → (ops.derive sek.kp.pubkey n).isSome

end Window

section Tries

variable (ops : ExtKeyOps) (mapKeys : CKeyID → Option CEKAKey) (pc : CStoredExtKey)

theorem lookAheadTries_of_derives {n : UInt32} (nChildOut : UInt32) {pk : Bytes} (tries : Nat) (hlow : n.toNat < 2 ^ 31)
    (hderives : ops.derive pc.kp.pubkey n = some pk) (hfree : mapKeys (ops.getID pk) = none) :
    CExtKeyAccount.lookAheadTries ops mapKeys pc (tries + 1) n nChildOut = (some (ops.getID pk), n + 1, n) := by
  simp [CExtKeyAccount.lookAheadTries, deriveKey_of_derives ops pc hlow hderives, hfree]

theorem deriveKey_of_last {n : UInt32} (h : ¬ n.toNat < 2 ^ 31) : pc.deriveKey ops false n false = none := by
  have hbit : (n >>> 31 == 1) = true := by
    cases hb : (n >>> 31 == 1) with
    | true => rfl
    | false => exact absurd ((isUnhardened_iff n).mp hb) h
  simp [CStoredExtKey.deriveKey, MAX_DERIVE_TRIES, CStoredExtKey.deriveTries, hbit]

/-- Behind the last child nothing is found. -/
theorem lookAheadTries_of_last {n nChildOut : UInt32} (tries : Nat) (h : ¬ n.toNat < 2 ^ 31)
    (hnext : nChildOut + 1 = n) :
    CExtKeyAccount.lookAheadTries ops mapKeys pc tries n nChildOut = (none, n, nChildOut) := by
  induction tries with
  | zero => rfl
  | succ tries ih =>
    rw [CExtKeyAccount.lookAheadTries, deriveKey_of_last ops pc h]
    simpa only [hnext] using ih

/-- With no key saved, looking `nKeys` ahead adds the next `nKeys` children. -/
theorem lookAheadLoop_window (hderives : pc.Derives ops) (hnone : ∀ id, mapKeys id = none) (nChain : UInt32)
    (nKeys : Nat) (nChild nChildOut : UInt32) (map : CKeyID → Option CEKAKey)
    (hstart : nChild.toNat < 2 ^ 31 ∨ (nChild.toNat = 2 ^ 31 ∧ nChildOut + 1 = nChild)) :
    (∀ n : UInt32, nChild.toNat ≤ n.toNat → n.toNat < nChild.toNat + nKeys → n.toNat < 2 ^ 31 →
      ∀ pk, ops.derive pc.kp.pubkey n = some pk →
        (CExtKeyAccount.lookAheadLoop ops mapKeys pc nChain nKeys nChild nChildOut map (ops.getID pk)).isSome) ∧
    ∀ id ak, CExtKeyAccount.lookAheadLoop ops mapKeys pc nChain nKeys nChild nChildOut map id = some ak →
      map id = some ak ∨ (nChild.toNat ≤ ak.nKey.toNat ∧ ak.nKey.toNat < nChild.toNat + nKeys) := by
  induction nKeys generalizing nChild nChildOut map with
  | zero => exact ⟨by omega, fun id ak h => .inl h⟩
  | succ nKeys ih =>
    obtain hlow | ⟨hlast, hnext⟩ := hstart
    · obtain ⟨pk, hpk⟩ := Option.isSome_iff_exists.mp (hderives nChild hlow)
      have htries := lookAheadTries_of_derives ops mapKeys pc nChildOut 15 hlow hpk (hnone _)
      have hone : (1 : UInt32).toNat = 1 := rfl
      have hnum : (nChild + 1).toNat = nChild.toNat + 1 := by
        rw [UInt32.toNat_add]
        omega
      have hstart' : (nChild + 1).toNat < 2 ^ 31 ∨ ((nChild + 1).toNat = 2 ^ 31 ∧ nChild + 1 = nChild + 1) := by
        rw [hnum]
        simp only [and_true]
        omega
      obtain ⟨hadded, hentries⟩ := ih (nChild + 1) nChild
        (Function.update map (ops.getID pk) (some ⟨nChain, nChild⟩)) hstart'
      simp only [CExtKeyAccount.lookAheadLoop, MAX_DERIVE_TRIES, htries]
      constructor
      · intro n hle hlt hn pk' hpk'
        by_cases heq : n = nChild
        · subst heq
          obtain rfl := Option.some.inj (hpk.symm.trans hpk')
          exact lookAheadLoop_kept ops _ _ (by simp)
        · have hne : n.toNat ≠ nChild.toNat := fun h => heq (UInt32.toNat_inj.mp h)
          exact hadded n (by omega) (by omega) hn pk' hpk'
      · intro id ak h
        obtain hupdate | hbounds := hentries id ak h
        · by_cases hid : id = ops.getID pk
          · simp only [hid, Function.update_self, Option.some.injEq] at hupdate
            subst hupdate
            exact .inr ⟨Nat.le_refl _, by simp⟩
          · exact .inl (by simpa [Function.update_of_ne hid] using hupdate)
        · exact .inr (by omega)
    · have htries := lookAheadTries_of_last ops mapKeys pc 16 (by omega) hnext
      obtain ⟨-, hentries⟩ := ih nChild nChildOut map (.inr ⟨hlast, hnext⟩)
      simp only [CExtKeyAccount.lookAheadLoop, MAX_DERIVE_TRIES, htries]
      refine ⟨by omega, fun id ak h => (hentries id ak h).imp_right ?_⟩
      omega

end Tries

section Save

variable (ops : ExtKeyOps) {sea : CExtKeyAccount} {id : CKeyID} {ak : CEKAKey} {sek : CStoredExtKey}

/-- New look-ahead keys after a save lie from the counter on. -/
theorem saveKey_ahead_bound (hfree : sea.mapKeys id = none) (hchain : sea.getChain ak.nParent = some sek)
    (hlow : (sek.passKey ak.nKey).nGenerated.toNat < 2 ^ 31) {id' : CKeyID} {ak' : CEKAKey}
    (h : (sea.saveKey ops id ak).2.mapLookAhead id' = some ak') :
    sea.mapLookAhead id' = some ak' ∨
      (ak'.nParent = ak.nParent ∧ (sek.passKey ak.nKey).nGenerated.toNat ≤ ak'.nKey.toNat) := by
  have hold : Function.update sea.mapLookAhead id none id' = some ak' → sea.mapLookAhead id' = some ak' := by
    intro hmap
    by_cases hid : id' = id
    · simp [hid] at hmap
    · simpa [Function.update_of_ne hid] using hmap
  rw [saveKey_lookAhead ops hfree] at h
  simp only [hchain] at h
  split at h
  · obtain hbefore | ⟨hparent, ⟨nNext, -, hle, -⟩, -⟩ :=
      lookAheadLoop_entry ops _ _
        (fun nChild nChildOut => ((sek.passKey ak.nKey).nGenerated.toNat ≤ nChild.toNat ∧ nChild.toNat ≤ 2 ^ 31) ∧
          (sek.passKey ak.nKey).nGenerated.toNat ≤ nChildOut.toNat ∧ nChildOut.toNat < 2 ^ 31)
        (fun _ _ _ _ _ hbounds htries => lookAheadTries_bounds ops _ _ hbounds.1 hbounds.2 htries)
        (by omega) h
    · exact .inl (hold hbefore)
    · exact .inr ⟨hparent, hle⟩
  · exact .inl (hold h)

/-- Where the child at the counter is not saved, it is what a save adds. -/
theorem saveKey_ahead_next (ak : CEKAKey) (hfree : sea.mapKeys id = none) (hchain : sea.getChain ak.nParent = some sek)
    (hreceives : (sek.passKey ak.nKey).receives)
    (hlow : (sek.passKey ak.nKey).nGenerated.toNat < 2 ^ 31) {pk : Bytes}
    (hpk : ops.derive sek.kp.pubkey (sek.passKey ak.nKey).nGenerated = some pk)
    (hnew : (sea.saveKey ops id ak).2.mapKeys (ops.getID pk) = none) :
    (sea.saveKey ops id ak).2.mapLookAhead =
      Function.update (Function.update sea.mapLookAhead id none) (ops.getID pk)
        (some ⟨ak.nParent, (sek.passKey ak.nKey).nGenerated⟩) := by
  rw [saveKey_mapKeys ops hfree] at hnew
  have htries := lookAheadTries_of_derives ops (Function.update sea.mapKeys id (some ak)) (sek.passKey ak.nKey)
    (sek.passKey ak.nKey).nGenerated 15 hlow (by rw [passKey_kp]; exact hpk) hnew
  rw [saveKey_lookAhead ops hfree]
  simp only [hchain, hreceives, if_true, CExtKeyAccount.lookAheadLoop, MAX_DERIVE_TRIES, htries]

/-- What is recognised stays so when a key is saved. -/
theorem recognised_saveKey {nChain n : UInt32} (h : sea.Recognised ops nChain n) :
    (sea.saveKey ops id ak).2.Recognised ops nChain n := by
  cases hkey : sea.mapKeys id with
  | some ak' =>
    rw [saveKey_of_saved ops sea (by simp [hkey])]
    exact h
  | none =>
    intro id' hid'
    rw [saveKey_pubkeys ops hkey] at hid'
    obtain hsaved | hahead := h id' hid'
    · obtain ⟨ak', hak'⟩ := Option.isSome_iff_exists.mp hsaved
      exact .inl (by rw [saveKey_mapKeys_kept ops hak']; rfl)
    · by_cases hid : id' = id
      · left
        rw [saveKey_mapKeys ops hkey, hid]
        simp
      · exact .inr (saveKey_kept ops hkey ak hid hahead)

theorem recognised_setChain {nChain n nChain' : UInt32} {sek' : CStoredExtKey}
    (hchain : sea.getChain nChain' = some sek) (hpub : sek'.kp.pubkey = sek.kp.pubkey)
    (h : sea.Recognised ops nChain n) : (sea.setChain nChain' sek').Recognised ops nChain n := by
  intro id' hid'
  rw [pubkeys_setChain sea hchain hpub] at hid'
  exact h id' hid'

/-- The children that are saved after a save. -/
theorem savedChild_saveKey (hfree : sea.mapKeys id = none) {nChain n : UInt32}
    (h : (sea.saveKey ops id ak).2.SavedChild nChain n) : sea.SavedChild nChain n ∨ ak = ⟨nChain, n⟩ := by
  obtain ⟨id', hid'⟩ := h
  rw [saveKey_mapKeys ops hfree] at hid'
  by_cases hid : id' = id
  · subst hid
    exact .inr (by simpa using hid')
  · exact .inl ⟨id', by simpa [Function.update_of_ne hid] using hid'⟩

theorem savedChild_self (hfree : sea.mapKeys id = none) :
    (sea.saveKey ops id ak).2.SavedChild ak.nParent ak.nKey := by
  refine ⟨id, ?_⟩
  rw [saveKey_mapKeys ops hfree]
  simp

end Save

section Effect

variable (ops : ExtKeyOps)

/-- How the chain of a saved key is advanced before the save. -/
inductive Advances (sea : CExtKeyAccount) (id : CKeyID) (ak : CEKAKey) (sek : CStoredExtKey) :
    CStoredExtKey → Prop
  | promoted (hahead : sea.mapLookAhead id = some ak) : Advances sea id ak sek sek
  | new (fHardened : Bool) (n : UInt32) (hlow : n.toNat < 2 ^ 31)
      (hderive : ∃ pubkey, sek.deriveKey ops false (sek.getCounter fHardened) fHardened = some (pubkey, ak.nKey))
      (hkey : ak.nKey = if fHardened then n ||| 0x80000000 else n) :
      Advances sea id ak sek (sek.setCounter (n + 1) fHardened)

/-- A call changes nothing but the pack number, or it saves one child. -/
theorem keyStep_effect {st : KeyState} (h : st.sea.Right ops) (call : KeyCall) :
    (∃ nPack, (keyStep ops st call).2.sea = st.sea.setPack nPack) ∨
      ∃ id ak sek sek' nPack, st.sea.getChain ak.nParent = some sek ∧
        childID ops st.sea.pubkeys ak = some id ∧ Advances ops st.sea id ak sek sek' ∧
        (keyStep ops st call).2.sea = ((st.sea.setChain ak.nParent sek').saveKey ops id ak).2.setPack nPack := by
  cases call with
  | haveKey id =>
    obtain ⟨hsea, -⟩ | ⟨ak, hpromotes⟩ := haveKey_cases ops st id
    · exact .inl ⟨st.sea.nPack, hsea⟩
    · right
      have hchild := h.ahead id ak hpromotes.ahead
      obtain ⟨sek, hsek⟩ : ∃ sek, st.sea.getChain ak.nParent = some sek := by
        cases hsek : st.sea.getChain ak.nParent with
        | some sek => exact ⟨sek, rfl⟩
        | none =>
          rw [CExtKeyAccount.getChain] at hsek
          simp [childID, CExtKeyAccount.pubkeys, hsek] at hchild
      obtain ⟨nPack, hsea⟩ := hpromotes.saved
      refine ⟨id, ak, sek, sek, nPack, hsek, hchild, .promoted hpromotes.ahead, ?_⟩
      rw [setChain_self hsek]
      exact hsea
  | newKey fWalletLocked fInternal fHardened =>
    obtain ⟨-, hsea, -⟩ | ⟨d, hd, hgenerates⟩ := newKey_cases ops fWalletLocked fInternal fHardened st
    · exact .inl hsea
    · right
      obtain ⟨-, hchain, hnext⟩ := deriveNewKey_spec ops hd
      obtain ⟨n, -, hlow, hout, -, hsekNext⟩ := deriveNextKey_spec ops hnext
      have hderive : ∃ pubkey, d.sek.deriveKey ops false (d.sek.getCounter fHardened) fHardened =
          some (pubkey, d.nChildOut) := by
        unfold CStoredExtKey.deriveNextKey at hnext
        cases hderive : d.sek.deriveKey ops false (d.sek.getCounter fHardened) fHardened with
        | none => simp [hderive] at hnext
        | some derived =>
          obtain ⟨pubkey, nChildOut⟩ := derived
          simp only [hderive, Option.some.injEq, Prod.mk.injEq] at hnext
          exact ⟨pubkey, by rw [hnext.2.1]⟩
      obtain ⟨nPack, hsea⟩ := hgenerates.saved
      rw [saveKey_setPack] at hsea
      refine ⟨ops.getID d.pubkey, ⟨d.nChain, d.nChildOut⟩, d.sek, d.sekNext, nPack, hchain,
        deriveNewKey_childID ops hd, ?_, hsea⟩
      rw [hsekNext]
      exact .new fHardened n hlow hderive hout

end Effect

section Invariant

variable (ops : ExtKeyOps) (nChain : UInt32) (nFirst nKeys : Nat)

/-- While the chain is not used up: children from the first one on are saved and looked ahead to, and
either all are recognised, or, with one key ahead, those up to the counter, which is the one in the
look-ahead. -/
structure InWindow (sea : CExtKeyAccount) (sek : CStoredExtKey) : Prop where
  chain : sea.getChain nChain = some sek
  receives : sek.receives
  derives : sek.Derives ops
  start : nFirst ≤ sek.nGenerated.toNat
  low : sek.nGenerated.toNat < 2 ^ 31
  saved : ∀ n : UInt32, n.toNat < 2 ^ 31 → sea.SavedChild nChain n → nFirst ≤ n.toNat
  ahead : ∀ n : UInt32, sea.AheadChild nChain n → nFirst ≤ n.toNat
  covered : (∀ n : UInt32, nFirst ≤ n.toNat → n.toNat < 2 ^ 31 → sea.Recognised ops nChain n) ∨
    (nKeys = 1 ∧ (∀ n : UInt32, n.toNat < 2 ^ 31 → sea.SavedChild nChain n → n.toNat < sek.nGenerated.toNat) ∧
      (∀ n : UInt32, sea.AheadChild nChain n → n = sek.nGenerated) ∧
      ∀ n : UInt32, nFirst ≤ n.toNat → n.toNat ≤ sek.nGenerated.toNat → sea.Recognised ops nChain n)

/-- The last child is saved, or the window is as above. -/
def WindowKept (sea : CExtKeyAccount) : Prop :=
  sea.SavedChild nChain 0x7FFFFFFF ∨ ∃ sek, InWindow ops nChain nFirst nKeys sea sek

theorem lookAheadKept_of_windowKept {sea : CExtKeyAccount} (h : WindowKept ops nChain nFirst nKeys sea) :
    sea.LookAheadKept ops nChain nKeys := by
  intro m hm hsaved hhighest n hlt hle hn
  obtain hlast | ⟨sek, hwindow⟩ := h
  · have hmax := hhighest 0x7FFFFFFF (by decide) hlast
    have hvalue : (0x7FFFFFFF : UInt32).toNat = 2 ^ 31 - 1 := rfl
    omega
  · have hfirst := hwindow.saved m hm hsaved
    obtain hall | ⟨hone, hbelow, -, hnext⟩ := hwindow.covered
    · exact hall n (by omega) hn
    · have hmax := hbelow m hm hsaved
      exact hnext n (by omega) (by omega)

variable {nChain nFirst nKeys}

/-- A save on another chain. -/
theorem inWindow_other {sea : CExtKeyAccount} {sekWindow : CStoredExtKey}
    (h : InWindow ops nChain nFirst nKeys sea sekWindow) {id : CKeyID} {ak : CEKAKey} (hother : nChain ≠ ak.nParent) :
    InWindow ops nChain nFirst nKeys (sea.saveKey ops id ak).2 sekWindow := by
  cases hfree : sea.mapKeys id with
  | some ak' =>
    rw [saveKey_of_saved ops sea (by simp [hfree])]
    exact h
  | none =>
    have hsaved : ∀ n, (sea.saveKey ops id ak).2.SavedChild nChain n → sea.SavedChild nChain n := by
      intro n hn
      obtain hold | hak := savedChild_saveKey ops hfree hn
      · exact hold
      · exact absurd (by rw [hak]) hother
    have hahead : ∀ n, (sea.saveKey ops id ak).2.AheadChild nChain n → sea.AheadChild nChain n := by
      intro n hn
      obtain ⟨id', hid'⟩ := hn
      obtain ⟨-, hold | ⟨hparent, -⟩⟩ := saveKey_entry ops hfree ak hid'
      · exact ⟨id', hold⟩
      · exact absurd hparent hother
    refine ⟨?_, h.receives, h.derives, h.start, h.low, fun n hn hs => h.saved n hn (hsaved n hs),
      fun n hn => h.ahead n (hahead n hn), ?_⟩
    · rw [saveKey_getChain ops hfree, if_neg hother]
      exact h.chain
    · obtain hall | ⟨hone, hbelow, hnext, hup⟩ := h.covered
      · exact .inl fun n hle hn => recognised_saveKey ops (hall n hle hn)
      · exact .inr ⟨hone, fun n hn hs => hbelow n hn (hsaved n hs), fun n hn => hnext n (hahead n hn),
          fun n hle hn => recognised_saveKey ops (hup n hle hn)⟩

theorem passKey_nFlags (sek : CStoredExtKey) (nKey : UInt32) : (sek.passKey nKey).nFlags = sek.nFlags := by
  unfold CStoredExtKey.passKey
  split <;> rfl

/-- After a save the look-ahead of the chain holds the child at the counter alone, where it held no other
than this one and the saved one before. -/
theorem ahead_only_next {sea : CExtKeyAccount} {sek : CStoredExtKey} (hright : sea.Right ops)
    (hdistinct : DistinctChildren ops sea.pubkeys) {id : CKeyID} {nKey : UInt32}
    (hchild : childID ops sea.pubkeys ⟨nChain, nKey⟩ = some id) (hfree : sea.mapKeys id = none)
    (hchain : sea.getChain nChain = some sek) (hreceives : sek.receives) (hderives : sek.Derives ops)
    (hlow : (sek.passKey nKey).nGenerated.toNat < 2 ^ 31)
    (hold : ∀ n, sea.AheadChild nChain n → n = nKey ∨ n = (sek.passKey nKey).nGenerated)
    (hunsaved : ¬ (sea.saveKey ops id ⟨nChain, nKey⟩).2.SavedChild nChain (sek.passKey nKey).nGenerated) :
    (∀ n, (sea.saveKey ops id ⟨nChain, nKey⟩).2.AheadChild nChain n → n = (sek.passKey nKey).nGenerated) ∧
      (sea.saveKey ops id ⟨nChain, nKey⟩).2.Recognised ops nChain (sek.passKey nKey).nGenerated := by
  obtain ⟨pk, hpk⟩ := Option.isSome_iff_exists.mp (hderives _ hlow)
  have hnextChild : childID ops sea.pubkeys ⟨nChain, (sek.passKey nKey).nGenerated⟩ = some (ops.getID pk) := by
    rw [childID_of_chain ops hchain, hpk]
    rfl
  have hpubkeys := saveKey_pubkeys ops hfree ⟨nChain, nKey⟩
  have hnew : (sea.saveKey ops id ⟨nChain, nKey⟩).2.mapKeys (ops.getID pk) = none := by
    cases hkey : (sea.saveKey ops id ⟨nChain, nKey⟩).2.mapKeys (ops.getID pk) with
    | none => rfl
    | some ak =>
      have hak := (right_saveKey ops hright hchild).keys _ ak hkey
      rw [hpubkeys] at hak
      obtain rfl := hdistinct ak _ _ hak hnextChild
      exact absurd ⟨_, hkey⟩ hunsaved
  have hreceives' : (sek.passKey nKey).receives := by
    rw [CStoredExtKey.receives, passKey_nFlags]
    exact hreceives
  have hmap := saveKey_ahead_next ops ⟨nChain, nKey⟩ hfree hchain hreceives' hlow hpk hnew
  constructor
  · intro n hn
    obtain ⟨id', hid'⟩ := hn
    rw [hmap] at hid'
    by_cases hnext : id' = ops.getID pk
    · rw [hnext, Function.update_self] at hid'
      exact (CEKAKey.mk.inj (Option.some.inj hid')).2.symm
    · rw [Function.update_of_ne hnext] at hid'
      by_cases hid : id' = id
      · simp [hid] at hid'
      · rw [Function.update_of_ne hid] at hid'
        obtain rfl | hn := hold n ⟨id', hid'⟩
        · have hsame := (hright.ahead id' _ hid').symm.trans hchild
          exact absurd (Option.some.inj hsame) hid
        · exact hn
  · intro id' hid'
    rw [hpubkeys, hnextChild] at hid'
    obtain rfl := Option.some.inj hid'
    right
    rw [hmap]
    simp

/-- A save on the chain of the window: of the child at the counter, which moves on, or of another one. -/
theorem windowKept_own {sea : CExtKeyAccount} {sek sek' : CStoredExtKey}
    (h : InWindow ops nChain nFirst nKeys sea sek) (hright : sea.Right ops)
    (hdistinct : DistinctChildren ops sea.pubkeys) {id : CKeyID} {nKey : UInt32}
    (hchild : childID ops sea.pubkeys ⟨nChain, nKey⟩ = some id) (hfree : sea.mapKeys id = none)
    {before : CExtKeyAccount} (hbefore : before = sea.setChain nChain sek')
    (hkp : sek'.kp = sek.kp) (hflags : sek'.nFlags = sek.nFlags)
    (hcounter : (nKey = sek.nGenerated ∧ (sek'.passKey nKey).nGenerated.toNat = sek.nGenerated.toNat + 1) ∨
      (nKey ≠ sek.nGenerated ∧ (sek'.passKey nKey).nGenerated = sek.nGenerated ∧
        (nKey.toNat < 2 ^ 31 → sea.AheadChild nChain nKey))) :
    WindowKept ops nChain nFirst nKeys (before.saveKey ops id ⟨nChain, nKey⟩).2 := by
  have hG := h.low
  have hpub : sek'.kp.pubkey = sek.kp.pubkey := by rw [hkp]
  have hpubkeys : before.pubkeys = sea.pubkeys := hbefore ▸ pubkeys_setChain sea h.chain hpub
  have hget : before.getChain nChain = some sek' := by
    rw [hbefore, getChain_setChain sea (by simp [h.chain]), if_pos rfl]
  have hrightBefore : before.Right ops := hbefore ▸ right_setChain ops hright h.chain hpub
  have hfreeBefore : before.mapKeys id = none := by
    rw [hbefore]
    exact hfree
  have haheadBefore : ∀ n, before.AheadChild nChain n → sea.AheadChild nChain n := by
    rw [hbefore]
    exact fun n hn => hn
  set after := (before.saveKey ops id ⟨nChain, nKey⟩).2 with hafter
  have hkept : ∀ n, sea.Recognised ops nChain n → after.Recognised ops nChain n := by
    intro n hn
    apply recognised_saveKey
    rw [hbefore]
    exact recognised_setChain ops h.chain hpub hn
  have hsaved : ∀ n, after.SavedChild nChain n → sea.SavedChild nChain n ∨ nKey = n := by
    intro n hn
    obtain ⟨id', hid'⟩ | hak := savedChild_saveKey ops hfreeBefore hn
    · rw [hbefore] at hid'
      exact .inl ⟨id', hid'⟩
    · exact .inr (CEKAKey.mk.inj hak).2
  have hlow : (sek'.passKey nKey).nGenerated.toNat ≤ 2 ^ 31 ∧
      sek.nGenerated.toNat ≤ (sek'.passKey nKey).nGenerated.toNat := by
    obtain ⟨-, hnext⟩ | ⟨-, hsame, -⟩ := hcounter
    · omega
    · rw [hsame]
      omega
  by_cases hlast : (sek'.passKey nKey).nGenerated.toNat = 2 ^ 31
  · -- the counter has passed the last child, which is the one that was saved
    left
    obtain ⟨hkey, hnext⟩ | ⟨-, hsame, -⟩ := hcounter
    · have hself : after.SavedChild nChain nKey := savedChild_self ops hfreeBefore
      have hvalue : nKey = 0x7FFFFFFF := by
        rw [hkey, ← UInt32.toNat_inj]
        have hmax : (0x7FFFFFFF : UInt32).toNat = 2 ^ 31 - 1 := rfl
        omega
      exact hvalue ▸ hself
    · rw [← hsame, hlast] at hG
      exact absurd hG (by omega)
  right
  have hlow' : (sek'.passKey nKey).nGenerated.toNat < 2 ^ 31 := by omega
  have hstart := h.start
  refine ⟨sek'.passKey nKey, ?_, ?_, ?_, by omega, hlow', ?_, ?_, ?_⟩
  · rw [hafter, saveKey_getChain ops hfreeBefore, if_pos rfl, hget]
    rfl
  · rw [CStoredExtKey.receives, passKey_nFlags, hflags]
    exact h.receives
  · rw [CStoredExtKey.Derives, passKey_kp, hkp]
    exact h.derives
  · intro n hn hs
    obtain hold | rfl := hsaved n hs
    · exact h.saved n hn hold
    · obtain ⟨hkey, -⟩ | ⟨-, -, hahead⟩ := hcounter
      · rw [hkey]
        exact h.start
      · exact h.ahead nKey (hahead hn)
  · intro n hn
    obtain ⟨id', hid'⟩ := hn
    obtain hold | ⟨-, hle⟩ := saveKey_ahead_bound ops hfreeBefore hget hlow' hid'
    · exact h.ahead n (haheadBefore n ⟨id', hold⟩)
    · exact Nat.le_trans (Nat.le_trans h.start hlow.2) hle
  · obtain hall | ⟨hone, hbelow, hnext, hup⟩ := h.covered
    · exact .inl fun n hle hn => hkept n (hall n hle hn)
    · have hbelow' : ∀ n : UInt32, n.toNat < 2 ^ 31 → after.SavedChild nChain n →
          n.toNat < (sek'.passKey nKey).nGenerated.toNat := by
        intro n hn hs
        obtain hold | rfl := hsaved n hs
        · have hlt := hbelow n hn hold
          omega
        · obtain ⟨hkey, hnum⟩ | ⟨hne, -, hahead⟩ := hcounter
          · have hvalue : nKey.toNat = sek.nGenerated.toNat := congrArg UInt32.toNat hkey
            omega
          · exact absurd (hnext nKey (hahead hn)) hne
      have honly := ahead_only_next ops hrightBefore (hpubkeys ▸ hdistinct) (hpubkeys ▸ hchild) hfreeBefore hget
        (by rw [CStoredExtKey.receives, hflags]; exact h.receives) (by rw [CStoredExtKey.Derives, hkp]; exact h.derives)
        hlow'
        (by
          intro n hn
          have hn := hnext n (haheadBefore n hn)
          obtain ⟨hkey, -⟩ | ⟨-, hsame, -⟩ := hcounter
          · exact .inl (hn.trans hkey.symm)
          · exact .inr (hn.trans hsame.symm))
        (fun hs => Nat.lt_irrefl _ (hbelow' _ hlow' hs))
      refine .inr ⟨hone, hbelow', honly.1, ?_⟩
      intro n hle hn
      by_cases heq : n = (sek'.passKey nKey).nGenerated
      · rw [heq]
        exact honly.2
      · have hne : n.toNat ≠ (sek'.passKey nKey).nGenerated.toNat := fun h => heq (UInt32.toNat_inj.mp h)
        apply hkept
        apply hup n hle
        obtain ⟨-, hnum⟩ | ⟨-, hsame, -⟩ := hcounter
        · omega
        · rw [hsame] at hn
          exact hn

theorem advances_chain {sea : CExtKeyAccount} {id : CKeyID} {ak : CEKAKey} {sek sek' : CStoredExtKey}
    (h : Advances ops sea id ak sek sek') : sek'.kp = sek.kp ∧ sek'.nFlags = sek.nFlags := by
  cases h with
  | promoted hahead => exact ⟨rfl, rfl⟩
  | new fHardened n hlow hderive hkey => cases fHardened <;> exact ⟨rfl, rfl⟩

/-- With all children derivable the child at the counter is the next one. -/
theorem advances_counter {sea : CExtKeyAccount} {id : CKeyID} {nKey : UInt32}
    {sek sek' : CStoredExtKey} (hderives : sek.Derives ops) (hlow : sek.nGenerated.toNat < 2 ^ 31)
    (h : Advances ops sea id ⟨nChain, nKey⟩ sek sek') :
    (nKey = sek.nGenerated ∧ sek'.nGenerated.toNat = sek.nGenerated.toNat + 1) ∨
      (sek'.nGenerated = sek.nGenerated ∧ (nKey.toNat < 2 ^ 31 → sea.AheadChild nChain nKey)) := by
  have hone : (1 : UInt32).toNat = 1 := rfl
  cases h with
  | promoted hahead => exact .inr ⟨rfl, fun _ => ⟨id, hahead⟩⟩
  | new fHardened n hn hderive hkey =>
    cases fHardened with
    | false =>
      left
      obtain ⟨pubkey, hderive⟩ := hderive
      obtain ⟨pk, hpk⟩ := Option.isSome_iff_exists.mp (hderives _ hlow)
      have hnext := deriveKey_of_derives ops sek hlow hpk
      have hsame : sek.nGenerated = nKey := (Prod.mk.inj (Option.some.inj (hnext.symm.trans hderive))).2
      have hnKey : nKey = n := hkey
      refine ⟨hsame.symm, ?_⟩
      simp only [CStoredExtKey.setCounter, Bool.false_eq_true, if_false, UInt32.toNat_add]
      rw [hsame, hnKey]
      omega
    | true =>
      right
      refine ⟨rfl, ?_⟩
      intro hlow
      have hbit : nKey.toNat = 2 ^ 31 + n.toNat := by
        rw [show nKey = n ||| 0x80000000 from hkey]
        exact toNat_hardened hn
      omega

theorem windowKept_setPack {sea : CExtKeyAccount} (h : WindowKept ops nChain nFirst nKeys sea) (nPack : UInt32) :
    WindowKept ops nChain nFirst nKeys (sea.setPack nPack) := by
  obtain hlast | ⟨sek, hw⟩ := h
  · exact .inl hlast
  · exact .inr ⟨sek, hw.chain, hw.receives, hw.derives, hw.start, hw.low, hw.saved, hw.ahead, hw.covered⟩

/-- A chain whose counters change, where the child at the old counter is saved if they pass it. -/
theorem windowKept_setChain {sea : CExtKeyAccount} {sek sek' : CStoredExtKey}
    (h : InWindow ops nChain nFirst nKeys sea sek) (hkp : sek'.kp = sek.kp) (hflags : sek'.nFlags = sek.nFlags)
    (hcounter : (sea.SavedChild nChain sek.nGenerated ∧ sek'.nGenerated.toNat = sek.nGenerated.toNat + 1) ∨
      sek'.nGenerated = sek.nGenerated) :
    WindowKept ops nChain nFirst nKeys (sea.setChain nChain sek') := by
  have hG := h.low
  have hstart := h.start
  have hpub : sek'.kp.pubkey = sek.kp.pubkey := by rw [hkp]
  have hkept : ∀ n, sea.Recognised ops nChain n → (sea.setChain nChain sek').Recognised ops nChain n := by
    intro n hn
    exact recognised_setChain ops h.chain hpub hn
  have hget : (sea.setChain nChain sek').getChain nChain = some sek' := by
    rw [getChain_setChain sea (by simp [h.chain]), if_pos rfl]
  have hreceives : sek'.receives := by
    rw [CStoredExtKey.receives, hflags]
    exact h.receives
  have hderives : sek'.Derives ops := by
    rw [CStoredExtKey.Derives, hkp]
    exact h.derives
  obtain ⟨hsaved, hnext⟩ | hsame := hcounter
  · obtain hall | ⟨-, hbelow, -⟩ := h.covered
    · by_cases hlast : sek.nGenerated.toNat = 2 ^ 31 - 1
      · left
        have hvalue : sek.nGenerated = 0x7FFFFFFF := UInt32.toNat_inj.mp hlast
        rw [hvalue] at hsaved
        exact hsaved
      · exact .inr ⟨sek', hget, hreceives, hderives, by omega, by omega, h.saved, h.ahead,
          .inl fun n hle hn => hkept n (hall n hle hn)⟩
    · exact absurd (hbelow _ hG hsaved) (Nat.lt_irrefl _)
  · right
    rw [← hsame] at hG hstart
    refine ⟨sek', hget, hreceives, hderives, hstart, hG, h.saved, h.ahead, ?_⟩
    obtain hall | ⟨hone, hbelow, hnext, hup⟩ := h.covered
    · exact .inl fun n hle hn => hkept n (hall n hle hn)
    · rw [hsame]
      exact .inr ⟨hone, hbelow, hnext, fun n hle hn => hkept n (hup n hle hn)⟩

theorem inWindow_setChain {sea : CExtKeyAccount} {sekWindow sek sek' : CStoredExtKey}
    (h : InWindow ops nChain nFirst nKeys sea sekWindow) {nChain' : UInt32} (hchain : sea.getChain nChain' = some sek)
    (hpub : sek'.kp.pubkey = sek.kp.pubkey) (hother : nChain ≠ nChain') :
    InWindow ops nChain nFirst nKeys (sea.setChain nChain' sek') sekWindow := by
  have hkept : ∀ n, sea.Recognised ops nChain n → (sea.setChain nChain' sek').Recognised ops nChain n := by
    intro n hn
    exact recognised_setChain ops hchain hpub hn
  refine ⟨?_, h.receives, h.derives, h.start, h.low, h.saved, h.ahead, ?_⟩
  · rw [getChain_setChain sea (by simp [hchain]), if_neg hother]
    exact h.chain
  · obtain hall | ⟨hone, hbelow, hnext, hup⟩ := h.covered
    · exact .inl fun n hle hn => hkept n (hall n hle hn)
    · exact .inr ⟨hone, hbelow, hnext, fun n hle hn => hkept n (hup n hle hn)⟩

/-- The counter after the save: it is behind the child at the old counter once that one is saved. -/
theorem passKey_counter {sek sek' : CStoredExtKey} {nKey : UInt32} {Ahead : Prop}
    (hlow : sek.nGenerated.toNat < 2 ^ 31)
    (h : (nKey = sek.nGenerated ∧ sek'.nGenerated.toNat = sek.nGenerated.toNat + 1) ∨
      (sek'.nGenerated = sek.nGenerated ∧ Ahead)) :
    (nKey = sek.nGenerated ∧ (sek'.passKey nKey).nGenerated.toNat = sek.nGenerated.toNat + 1) ∨
      (nKey ≠ sek.nGenerated ∧ (sek'.passKey nKey).nGenerated = sek.nGenerated ∧ Ahead) := by
  have hone : (1 : UInt32).toNat = 1 := rfl
  obtain ⟨hkey, hnext⟩ | ⟨hsame, hahead⟩ := h
  · left
    have hne : nKey ≠ sek'.nGenerated := by
      intro heq
      rw [← heq, hkey] at hnext
      omega
    exact ⟨hkey, by rw [CStoredExtKey.passKey, if_neg hne]; exact hnext⟩
  · by_cases hkey : nKey = sek.nGenerated
    · left
      refine ⟨hkey, ?_⟩
      rw [CStoredExtKey.passKey, if_pos (hkey.trans hsame.symm)]
      simp only [hsame, UInt32.toNat_add]
      omega
    · right
      have hne : nKey ≠ sek'.nGenerated := by rwa [hsame]
      exact ⟨hkey, by rw [CStoredExtKey.passKey, if_neg hne]; exact hsame, hahead⟩

/-- What a call does to the window. -/
theorem windowKept_step {st : KeyState} (hright : st.sea.Right ops)
    (hdistinct : DistinctChildren ops st.sea.pubkeys) (h : WindowKept ops nChain nFirst nKeys st.sea)
    (call : KeyCall) : WindowKept ops nChain nFirst nKeys (keyStep ops st call).2.sea := by
  obtain ⟨nPack, hsea⟩ | ⟨id, ak, sek, sek', nPack, hchain, hchild, hadvances, hsea⟩ :=
    keyStep_effect ops hright call
  · rw [hsea]
    exact windowKept_setPack ops h nPack
  obtain ⟨idLast, hlast⟩ | ⟨sekWindow, hwindow⟩ := h
  · exact .inl ⟨idLast, keyStep_mapKeys ops hlast⟩
  obtain ⟨hkp, hflags⟩ := advances_chain ops hadvances
  rw [hsea]
  apply windowKept_setPack
  obtain ⟨nParent, nKey⟩ := ak
  by_cases hown : nChain = nParent
  · subst hown
    obtain rfl : sekWindow = sek := Option.some.inj (hwindow.chain.symm.trans hchain)
    have hcounter := advances_counter ops hwindow.derives hwindow.low hadvances
    cases hkey : st.sea.mapKeys id with
    | some ak =>
      obtain rfl := hdistinct ak _ id (hright.keys id ak hkey) hchild
      have hsaved : st.sea.SavedChild nChain nKey := ⟨id, hkey⟩
      rw [saveKey_of_saved ops _ (by simp [hkey])]
      apply windowKept_setChain ops hwindow hkp hflags
      obtain ⟨hnKey, hnext⟩ | ⟨hsame, -⟩ := hcounter
      · exact .inl ⟨hnKey ▸ hsaved, hnext⟩
      · exact .inr hsame
    | none =>
      exact windowKept_own ops hwindow hright hdistinct hchild hkey rfl hkp hflags
        (passKey_counter hwindow.low hcounter)
  · exact .inr ⟨sekWindow, inWindow_other ops (inWindow_setChain ops hwindow hchain (by rw [hkp]) hown) hown⟩

theorem windowKept_run (calls : List KeyCall) {st : KeyState} (hright : st.sea.Right ops)
    (hdistinct : DistinctChildren ops st.sea.pubkeys) (h : WindowKept ops nChain nFirst nKeys st.sea) :
    WindowKept ops nChain nFirst nKeys (keyRun ops st calls).sea := by
  induction calls generalizing st with
  | nil => exact h
  | cons call calls ih =>
    apply ih (right_step ops hright call) _ (windowKept_step ops hright hdistinct h call)
    rw [keyStep_pubkeys]
    exact hdistinct

end Invariant

section Start

variable (ops : ExtKeyOps) {nChain : UInt32}

theorem addLookAhead_kept {sea : CExtKeyAccount} {id : CKeyID} (h : (sea.mapLookAhead id).isSome)
    (nChain' : UInt32) (nKeys : Nat) : ((sea.addLookAhead ops nChain' nKeys).mapLookAhead id).isSome := by
  cases hchain : sea.getChain nChain' with
  | none => simpa [CExtKeyAccount.addLookAhead, hchain] using h
  | some pc =>
    rw [(addLookAhead_eq ops sea nChain' nKeys).2.2 pc hchain]
    exact lookAheadLoop_kept ops _ _ h

/-- Looking ahead on other chains. -/
theorem initLookAhead_other (chains : List (UInt32 × Nat)) (hother : nChain ∉ chains.map Prod.fst)
    (sea : CExtKeyAccount) :
    (∀ n, (sea.initLookAhead ops chains).AheadChild nChain n → sea.AheadChild nChain n) ∧
      ∀ id, (sea.mapLookAhead id).isSome → ((sea.initLookAhead ops chains).mapLookAhead id).isSome := by
  induction chains generalizing sea with
  | nil => exact ⟨fun n hn => hn, fun id h => h⟩
  | cons e chains ih =>
    obtain ⟨hne, hrest⟩ : nChain ≠ e.1 ∧ nChain ∉ chains.map Prod.fst := by simpa using hother
    obtain ⟨hahead, hkept⟩ := ih hrest (sea.addLookAhead ops e.1 e.2)
    constructor
    · intro n hn
      obtain ⟨id, hid⟩ := hahead n hn
      obtain hold | ⟨hparent, -⟩ := addLookAhead_entry ops hid
      · exact ⟨id, hold⟩
      · exact absurd hparent hne
    · intro id h
      exact hkept id (addLookAhead_kept ops h e.1 e.2)

/-- What the look-ahead of a chain starts with: the next `nKeys` children. -/
structure StartsWith (nChain : UInt32) (sea : CExtKeyAccount) (pc : CStoredExtKey) (nKeys : Nat) : Prop where
  right : sea.Right ops
  chain : sea.getChain nChain = some pc
  unsaved : ∀ id, sea.mapKeys id = none
  ahead : ∀ n, sea.AheadChild nChain n →
    pc.nGenerated.toNat ≤ n.toNat ∧ n.toNat < pc.nGenerated.toNat + nKeys
  covered : ∀ n : UInt32, pc.nGenerated.toNat ≤ n.toNat → n.toNat < pc.nGenerated.toNat + nKeys →
    n.toNat < 2 ^ 31 → ∀ id, childID ops sea.pubkeys ⟨nChain, n⟩ = some id → (sea.mapLookAhead id).isSome

theorem startsWith_init {sea : CExtKeyAccount} (hkeys : ∀ id, sea.mapKeys id = none)
    (hnone : ∀ id, sea.mapLookAhead id = none) {pc : CStoredExtKey} (hchain : sea.getChain nChain = some pc)
    (hderives : pc.Derives ops) (hlow : pc.nGenerated.toNat < 2 ^ 31) {chains : List (UInt32 × Nat)} {nKeys : Nat}
    (hmem : (nChain, nKeys) ∈ chains) (hnodup : (chains.map Prod.fst).Nodup) :
    StartsWith ops nChain (sea.initLookAhead ops chains) pc nKeys := by
  have hright : sea.Right ops := by
    refine ⟨?_, ?_, ?_⟩
    · simp [KeysRight, hkeys]
    · simp [KeysRight, hnone]
    · simp [hnone]
  obtain ⟨hmapKeys, hvExtKeys, hrightInit⟩ := initLookAhead_spec ops chains sea hright
  have hget : (sea.initLookAhead ops chains).getChain nChain = some pc := by
    rw [CExtKeyAccount.getChain, hvExtKeys]
    exact hchain
  have hpubkeys : (sea.initLookAhead ops chains).pubkeys = sea.pubkeys := by
    simp only [CExtKeyAccount.pubkeys, hvExtKeys]
  obtain ⟨pre, post, rfl⟩ := List.append_of_mem hmem
  obtain ⟨hpre, hpost⟩ : nChain ∉ pre.map Prod.fst ∧ nChain ∉ post.map Prod.fst := by
    simp only [List.map_append, List.map_cons, List.nodup_append, List.nodup_cons] at hnodup
    exact ⟨fun h => hnodup.2.2 nChain h nChain (by simp) rfl, hnodup.2.1.1⟩
  have hsplit : sea.initLookAhead ops (pre ++ (nChain, nKeys) :: post) =
      (((sea.initLookAhead ops pre).addLookAhead ops nChain nKeys).initLookAhead ops post) := by
    simp [CExtKeyAccount.initLookAhead]
  obtain ⟨hpreKeys, hpreChains, -⟩ := initLookAhead_spec ops pre sea hright
  have hpreGet : (sea.initLookAhead ops pre).getChain nChain = some pc := by
    rw [CExtKeyAccount.getChain, hpreChains]
    exact hchain
  have hmap := (addLookAhead_eq ops (sea.initLookAhead ops pre) nChain nKeys).2.2 pc hpreGet
  obtain ⟨hadded, hentries⟩ := lookAheadLoop_window ops (sea.initLookAhead ops pre).mapKeys pc hderives
    (by rw [hpreKeys]; exact hkeys) nChain nKeys pc.nGenerated pc.nGenerated (sea.initLookAhead ops pre).mapLookAhead
    (.inl hlow)
  obtain ⟨hpostAhead, hpostKept⟩ :=
    initLookAhead_other ops post hpost ((sea.initLookAhead ops pre).addLookAhead ops nChain nKeys)
  refine ⟨hrightInit, hget, by simp [hmapKeys, hkeys], ?_, ?_⟩
  · intro n hn
    rw [hsplit] at hn
    obtain ⟨id, hid⟩ := hpostAhead n hn
    rw [hmap] at hid
    obtain hold | hbounds := hentries id _ hid
    · obtain ⟨id', hid'⟩ := (initLookAhead_other ops pre hpre sea).1 n ⟨id, hold⟩
      simp [hnone] at hid'
    · exact hbounds
  · intro n hle hlt hn id hid
    rw [hpubkeys, childID_of_chain ops hchain, Option.map_eq_some_iff] at hid
    obtain ⟨pk, hpk, rfl⟩ := hid
    rw [hsplit]
    apply hpostKept
    rw [hmap]
    exact hadded n hle hlt hn pk hpk

end Start

section Kept

variable (ops : ExtKeyOps) {nChain : UInt32} {sea : CExtKeyAccount} {pc : CStoredExtKey} {nKeys : Nat}

/-- The window at the start, of one key or up to the last child. -/
theorem windowKept_start (h : StartsWith ops nChain sea pc nKeys) (hreceives : pc.receives)
    (hderives : pc.Derives ops) (hlow : pc.nGenerated.toNat < 2 ^ 31)
    (hkeys : nKeys = 1 ∨ 2 ^ 31 ≤ pc.nGenerated.toNat + nKeys) :
    WindowKept ops nChain pc.nGenerated.toNat nKeys sea := by
  have hnoneSaved : ∀ n, ¬ sea.SavedChild nChain n := by
    intro n hn
    obtain ⟨id, hid⟩ := hn
    simp [h.unsaved] at hid
  refine .inr ⟨pc, h.chain, hreceives, hderives, Nat.le_refl _, hlow, fun n _ hn => absurd hn (hnoneSaved n),
    fun n hn => (h.ahead n hn).1, ?_⟩
  obtain hone | hend := hkeys
  · right
    refine ⟨hone, fun n _ hn => absurd hn (hnoneSaved n), ?_, ?_⟩
    · intro n hn
      have hbounds := h.ahead n hn
      exact UInt32.toNat_inj.mp (by omega)
    · intro n hle hn id hid
      exact .inr (h.covered n hle (by omega) (by omega) id hid)
  · left
    intro n hle hn id hid
    exact .inr (h.covered n hle (by omega) hn id hid)

theorem inTransaction_sea {α : Type} (call : KeyState → Option α × KeyState) (st : KeyState)
    (h : st.db.outcome 0 = true) : (inTransaction call st).2.sea = (call ⟨st.sea, st.db.next⟩).2.sea := by
  rw [inTransaction, AccountDB.commitWrite_eq, h]
  simp only [if_true, id]
  cases call ⟨st.sea, st.db.next⟩ with
  | mk result st' =>
    cases result with
    | none => rfl
    | some a =>
      simp only [AccountDB.commitWrite_eq]
      cases st'.db.outcome 0 <;> rfl

/-- A payment to a key of the look-ahead, with a database that can be written. -/
theorem haveKey_promotes (st : KeyState) (hdb : st.db.outcome 0 = true) {id : CKeyID} {ak : CEKAKey}
    (hfree : st.sea.mapKeys id = none) (hahead : st.sea.mapLookAhead id = some ak) :
    ∃ nPack, (haveKey ops st id).2.sea = (st.sea.saveKey ops id ak).2.setPack nPack := by
  obtain ⟨nPack, hsea, -⟩ := extKeySaveKey_cases ops ⟨st.sea, st.db.next⟩ hfree ak
  refine ⟨nPack, ?_⟩
  simp only [haveKey, lookAheadKey_eq_some.mpr ⟨hfree, hahead⟩]
  rw [inTransaction_sea _ _ hdb, ← hsea, saveKeyCall]
  cases extKeySaveKey ops ⟨st.sea, st.db.next⟩ id ak with
  | mk ok st' => cases ok <;> rfl

/-- The first save adds the child at the counter to the look-ahead, and nothing else. -/
theorem aheadChild_of_first (h : StartsWith ops nChain sea pc nKeys) (hreceives : pc.receives)
    (hderives : pc.Derives ops) (hdistinct : DistinctChildren ops sea.pubkeys)
    (hlow : pc.nGenerated.toNat + 1 < 2 ^ 31) {id : CKeyID}
    (hid : childID ops sea.pubkeys ⟨nChain, pc.nGenerated⟩ = some id) {n : UInt32}
    (hn : (sea.saveKey ops id ⟨nChain, pc.nGenerated⟩).2.AheadChild nChain n) :
    n.toNat = pc.nGenerated.toNat + 1 ∨ n.toNat < pc.nGenerated.toNat + nKeys := by
  have hfree := h.unsaved id
  have hone : (1 : UInt32).toNat = 1 := rfl
  have hpass : pc.passKey pc.nGenerated = { pc with nGenerated := pc.nGenerated + 1 } := by
    simp [CStoredExtKey.passKey]
  have hnext : (pc.passKey pc.nGenerated).nGenerated.toNat = pc.nGenerated.toNat + 1 := by
    rw [hpass]
    simp only [UInt32.toNat_add]
    omega
  have hlowNext : (pc.passKey pc.nGenerated).nGenerated.toNat < 2 ^ 31 := by omega
  obtain ⟨pk, hpk⟩ := Option.isSome_iff_exists.mp (hderives (pc.passKey pc.nGenerated).nGenerated hlowNext)
  have hidNext : childID ops sea.pubkeys ⟨nChain, (pc.passKey pc.nGenerated).nGenerated⟩ = some (ops.getID pk) := by
    rw [childID_of_chain ops h.chain, hpk]
    rfl
  have hnew : (sea.saveKey ops id ⟨nChain, pc.nGenerated⟩).2.mapKeys (ops.getID pk) = none := by
    have hne : ops.getID pk ≠ id := by
      intro heq
      rw [heq] at hidNext
      have hsame := (CEKAKey.mk.inj (hdistinct _ _ id hidNext hid)).2
      rw [hsame] at hnext
      omega
    rw [saveKey_mapKeys ops hfree, Function.update_of_ne hne]
    exact h.unsaved _
  obtain ⟨id', hid'⟩ := hn
  rw [saveKey_ahead_next ops ⟨nChain, pc.nGenerated⟩ hfree h.chain (by rw [hpass]; exact hreceives) hlowNext hpk
    hnew] at hid'
  by_cases heq : id' = ops.getID pk
  · rw [heq, Function.update_self] at hid'
    have hsame := (CEKAKey.mk.inj (Option.some.inj hid')).2
    exact .inl (hsame ▸ hnext)
  · rw [Function.update_of_ne heq] at hid'
    by_cases hidEq : id' = id
    · simp [hidEq] at hid'
    · rw [Function.update_of_ne hidEq] at hid'
      exact .inr (h.ahead n ⟨_, hid'⟩).2

/-- After the first save of a longer window the child behind it is missing. -/
theorem notKept_of_first (h : StartsWith ops nChain sea pc nKeys) (hreceives : pc.receives)
    (hderives : pc.Derives ops) (hdistinct : DistinctChildren ops sea.pubkeys) (hmany : 2 ≤ nKeys)
    (hend : pc.nGenerated.toNat + nKeys < 2 ^ 31) {id : CKeyID}
    (hid : childID ops sea.pubkeys ⟨nChain, pc.nGenerated⟩ = some id) :
    ¬ (sea.saveKey ops id ⟨nChain, pc.nGenerated⟩).2.LookAheadKept ops nChain nKeys := by
  intro hkept
  have hfree := h.unsaved id
  have hlow : pc.nGenerated.toNat < 2 ^ 31 := by omega
  have honly : ∀ n, (sea.saveKey ops id ⟨nChain, pc.nGenerated⟩).2.SavedChild nChain n → pc.nGenerated = n := by
    intro n hn
    obtain ⟨id', hid'⟩ | hak := savedChild_saveKey ops hfree hn
    · simp [h.unsaved] at hid'
    · exact (CEKAKey.mk.inj hak).2
  -- the child behind the window, and its id
  have hvalue : (UInt32.ofNat (pc.nGenerated.toNat + nKeys)).toNat = pc.nGenerated.toNat + nKeys :=
    UInt32.toNat_ofNat_of_lt (by have hsize : UInt32.size = 2 ^ 32 := rfl; omega)
  generalize UInt32.ofNat (pc.nGenerated.toNat + nKeys) = nLast at hvalue
  obtain ⟨pkLast, hpkLast⟩ := Option.isSome_iff_exists.mp (hderives nLast (by omega))
  have hidLast : childID ops sea.pubkeys ⟨nChain, nLast⟩ = some (ops.getID pkLast) := by
    rw [childID_of_chain ops h.chain, hpkLast]
    rfl
  have hpubkeys := saveKey_pubkeys ops hfree ⟨nChain, pc.nGenerated⟩
  have hrecognised := hkept pc.nGenerated hlow (savedChild_self ops hfree)
    (fun m' _ hm' => by rw [honly m' hm']) nLast (by omega) (by omega) (by omega) (ops.getID pkLast)
    (by rw [hpubkeys]; exact hidLast)
  have hright := right_saveKey ops h.right hid
  obtain hsaved | hahead := hrecognised
  · obtain ⟨ak, hak⟩ := Option.isSome_iff_exists.mp hsaved
    have hchild := hright.keys _ ak hak
    rw [hpubkeys] at hchild
    obtain rfl := hdistinct ak _ _ hchild hidLast
    have hlast := honly nLast ⟨_, hak⟩
    rw [hlast] at hvalue
    omega
  · obtain ⟨ak, hak⟩ := Option.isSome_iff_exists.mp hahead
    have hchild := hright.ahead _ ak hak
    rw [hpubkeys] at hchild
    obtain rfl := hdistinct ak _ _ hchild hidLast
    have hbound := aheadChild_of_first ops h hreceives hderives hdistinct (by omega) hid ⟨_, hak⟩
    omega

/-- A payment to the first child of a longer window. -/
theorem notKept_of_payment (h : StartsWith ops nChain sea pc nKeys) (hreceives : pc.receives)
    (hderives : pc.Derives ops) (hdistinct : DistinctChildren ops sea.pubkeys) (hmany : 2 ≤ nKeys)
    (hend : pc.nGenerated.toNat + nKeys < 2 ^ 31) {id : CKeyID}
    (hid : childID ops sea.pubkeys ⟨nChain, pc.nGenerated⟩ = some id) (db : AccountDB)
    (hdb : db.outcome 0 = true) :
    ¬ (keyRun ops ⟨sea, db⟩ [.haveKey id]).sea.LookAheadKept ops nChain nKeys := by
  obtain ⟨ak, hak⟩ := Option.isSome_iff_exists.mp
    (h.covered pc.nGenerated (Nat.le_refl _) (by omega) (by omega) id hid)
  obtain rfl := hdistinct ak _ _ (h.right.ahead _ ak hak) hid
  obtain ⟨nPack, hsea⟩ := haveKey_promotes ops ⟨sea, db⟩ hdb (h.unsaved _) hak
  have hrun : (keyRun ops ⟨sea, db⟩ [.haveKey id]).sea =
    (sea.saveKey ops id ⟨nChain, pc.nGenerated⟩).2.setPack nPack := hsea
  rw [hrun]
  exact notKept_of_first ops h hreceives hderives hdistinct hmany hend hid

/-- A chain with a window of `nKeys` keys keeps it in every run exactly if the window is one key at most,
or reaches the end of the chain. -/
theorem lookAhead_kept_iff (nChain : UInt32) (nKeys : Nat) (sea : CExtKeyAccount) (hkeys : ∀ id, sea.mapKeys id = none)
    (hnone : ∀ id, sea.mapLookAhead id = none) (pc : CStoredExtKey) (hchain : sea.getChain nChain = some pc)
    (hreceives : pc.receives) (hderives : pc.Derives ops) (hlow : pc.nGenerated.toNat < 2 ^ 31)
    (hdistinct : DistinctChildren ops sea.pubkeys) (chains : List (UInt32 × Nat))
    (hmem : (nChain, nKeys) ∈ chains) (hnodup : (chains.map Prod.fst).Nodup) :
    (∀ db calls, (keyRun ops ⟨sea.initLookAhead ops chains, db⟩ calls).sea.LookAheadKept ops nChain nKeys) ↔
      nKeys ≤ 1 ∨ 2 ^ 31 ≤ pc.nGenerated.toNat + nKeys := by
  have hstart := startsWith_init ops hkeys hnone hchain hderives hlow hmem hnodup
  have hpubkeys : (sea.initLookAhead ops chains).pubkeys = sea.pubkeys := by
    have hright : sea.Right ops := ⟨by simp [KeysRight, hkeys], by simp [KeysRight, hnone], by simp [hnone]⟩
    simp only [CExtKeyAccount.pubkeys, (initLookAhead_spec ops chains sea hright).2.1]
  rw [← hpubkeys] at hdistinct
  generalize sea.initLookAhead ops chains = start at hstart hdistinct
  constructor
  · intro hall
    by_contra hlong
    rw [not_or, Nat.not_le, Nat.not_le] at hlong
    obtain ⟨pk, hpk⟩ := Option.isSome_iff_exists.mp (hderives pc.nGenerated hlow)
    have hid : childID ops start.pubkeys ⟨nChain, pc.nGenerated⟩ = some (ops.getID pk) := by
      rw [childID_of_chain ops hstart.chain, hpk]
      rfl
    let db : AccountDB := ⟨fun _ => none, start.toAccountRecord, [], [], [], []⟩
    exact notKept_of_payment ops hstart hreceives hderives hdistinct hlong.1 hlong.2 hid db rfl
      (hall db [.haveKey (ops.getID pk)])
  · intro hfew db calls
    by_cases hzero : nKeys = 0
    · intro m _ _ _ n hlt hle
      omega
    · apply lookAheadKept_of_windowKept
      exact windowKept_run ops calls hstart.right hdistinct
        (windowKept_start ops hstart hreceives hderives hlow (by omega))

end Kept

section Scene

theorem plainOps_derives (pubkey : Bytes) : (plainChain pubkey).Derives plainOps := by
  intro n _
  rfl

/-- A window of one key is kept in every run. -/
theorem oneAhead_kept : (plainChain [2]).receives ∧ ∀ db calls,
    (keyRun plainOps ⟨plainAccount.initLookAhead plainOps [(1, 1)], db⟩ calls).sea.LookAheadKept plainOps 1 1 := by
  have hiff := lookAhead_kept_iff plainOps 1 1 plainAccount (fun _ => rfl) (fun _ => rfl) (plainChain [2]) rfl
    (by decide) (plainOps_derives [2]) (by decide) plainOps_distinct [(1, 1)] (by simp) (by simp)
  exact ⟨by decide, hiff.mpr (.inl (Nat.le_refl 1))⟩

/-- The usual window of a hundred keys: after a payment to the first child the hundredth child behind it
is not noticed. -/
theorem hundredAhead_notKept :
    (plainChain [2]).receives ∧
      ¬ (keyRun plainOps ⟨plainAccount.initLookAhead plainOps [(1, N_DEFAULT_LOOKAHEAD)], plainRecords 0 []⟩
        [.haveKey (plainChild 0)]).sea.LookAheadKept plainOps 1 N_DEFAULT_LOOKAHEAD := by
  refine ⟨by decide, ?_⟩
  have hstart : StartsWith plainOps 1 (plainAccount.initLookAhead plainOps [(1, N_DEFAULT_LOOKAHEAD)]) (plainChain [2])
      N_DEFAULT_LOOKAHEAD :=
    startsWith_init plainOps (fun _ => rfl) (fun _ => rfl) rfl (plainOps_derives [2]) (by decide) (by simp) (by simp)
  have hpubkeys : (plainAccount.initLookAhead plainOps [(1, N_DEFAULT_LOOKAHEAD)]).pubkeys = plainAccount.pubkeys :=
    addLookAhead_pubkeys plainOps plainAccount 1 N_DEFAULT_LOOKAHEAD
  apply notKept_of_payment plainOps hstart (by decide) (plainOps_derives [2]) (hpubkeys ▸ plainOps_distinct)
    (by decide) (by decide) _ _ rfl
  rw [hpubkeys]
  rfl

end Scene

end AliasWallet
