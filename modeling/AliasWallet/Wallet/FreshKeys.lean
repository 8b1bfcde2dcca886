import AliasWallet.Wallet.KeyMaps

/-!
# New keys of an account

`NewKeyFromAccount` takes the next child from a counter. A promoted key of the look-ahead advances the
counter only where it is the next child, so one promoted ahead of the counter is derived again. As long
as none is, every new key is new.
-/

namespace AliasWallet
open Lib

section Runs

variable (ops : ExtKeyOps)

/-- The keys returned by a sequence of calls. -/
def keyResults : KeyState → List KeyCall → List Bytes
  | _, [] => []
  | st, call :: calls => (keyStep ops st call).1.toList ++ keyResults (keyStep ops st call).2 calls

/-- An account without keys. -/
structure KeyState.Empty (st : KeyState) : Prop where
  mapKeys : ∀ id, st.sea.mapKeys id = none
  mapLookAhead : ∀ id, st.sea.mapLookAhead id = none
  keyPacks : st.db.keyPacks = []

/-- The account with its look-ahead. -/
def KeyState.initLookAhead (st : KeyState) (chains : List (UInt32 × Nat)) : KeyState :=
  ⟨st.sea.initLookAhead ops chains, st.db⟩

/-- A promoted key is not ahead of the counter of its chain. No hardened key is asked for when the
counter of the others is about to start again at zero. -/
def CountedCall (st : KeyState) : KeyCall → Prop
  | .haveKey id => ∀ ak sek, st.sea.lookAheadKey id = some ak → st.sea.getChain ak.nParent = some sek →
      ak.nKey ≤ sek.nGenerated
  | .newKey _ fInternal fHardened => fHardened = true → ∀ sek,
      st.sea.getChain (st.sea.activeChain fInternal) = some sek → sek.nGenerated ≠ 0xFFFFFFFF

/-- Every call of the run is such a call. -/
def CountedRun : KeyState → List KeyCall → Prop
  | _, [] => True
  | st, call :: calls => CountedCall st call ∧ CountedRun (keyStep ops st call).2 calls

end Runs

section Invariant

variable (ops : ExtKeyOps)

/-- The child is below the counters of the chain. -/
def CStoredExtKey.Below (sek : CStoredExtKey) (nKey : UInt32) : Prop :=
  if nKey.toNat < 2 ^ 31 then nKey.toNat < sek.nGenerated.toNat
  else nKey.toNat < 2 ^ 31 + sek.nHGenerated.toNat

/-- The counters of the chain have not gone back. -/
def CStoredExtKey.Behind (sek sek' : CStoredExtKey) : Prop :=
  sek'.kp.pubkey = sek.kp.pubkey ∧ sek.nGenerated.toNat ≤ sek'.nGenerated.toNat ∧
    sek.nHGenerated.toNat ≤ sek'.nHGenerated.toNat

theorem below_of_behind {sek sek' : CStoredExtKey} (h : sek.Behind sek') {nKey : UInt32} (hbelow : sek.Below nKey) :
    sek'.Below nKey := by
  obtain ⟨-, hgenerated, hhardened⟩ := h
  unfold CStoredExtKey.Below at hbelow ⊢
  by_cases hlow : nKey.toNat < 2 ^ 31
  · simp only [hlow, if_true] at hbelow ⊢
    exact Nat.lt_of_lt_of_le hbelow hgenerated
  · simp only [hlow, if_false] at hbelow ⊢
    omega

/-- The keys of an account are children below the counters. -/
structure CExtKeyAccount.Counted (sea : CExtKeyAccount) : Prop where
  right : sea.Right ops
  below : ∀ id ak sek, sea.mapKeys id = some ak → sea.getChain ak.nParent = some sek → sek.Below ak.nKey

/-- They are also in the packs at most once. -/
structure KeysCounted (st : KeyState) : Prop where
  counted : st.sea.Counted ops
  numbered : st.db.keyPacks.Numbered
  packed : ∀ e ∈ st.db.keyPacks.entries, (st.sea.mapKeys e.1).isSome
  nodup : (st.db.keyPacks.entries.map Prod.fst).Nodup

theorem right_of_empty {st : KeyState} (h : st.Empty) : st.sea.Right ops := by
  constructor
  · simp [KeysRight, h.mapKeys]
  · simp [KeysRight, h.mapLookAhead]
  · simp [h.mapLookAhead]

theorem initLookAhead_pubkeys {st : KeyState} (h : st.Empty) (chains : List (UInt32 × Nat)) :
    (st.initLookAhead ops chains).sea.pubkeys = st.sea.pubkeys := by
  simp only [KeyState.initLookAhead, CExtKeyAccount.pubkeys,
    (initLookAhead_spec ops chains st.sea (right_of_empty ops h)).2.1]

theorem keysCounted_init {st : KeyState} (h : st.Empty) (chains : List (UInt32 × Nat)) :
    KeysCounted ops (st.initLookAhead ops chains) := by
  obtain ⟨hkeys, -, hright⟩ := initLookAhead_spec ops chains st.sea (right_of_empty ops h)
  have hempty : ∀ id, (st.sea.initLookAhead ops chains).mapKeys id = none := by simp [hkeys, h.mapKeys]
  have hpacks : (st.initLookAhead ops chains).db.keyPacks = [] := h.keyPacks
  constructor
  · exact ⟨hright, by simp [KeyState.initLookAhead, hempty]⟩
  · simp [hpacks, Packs.Numbered]
  · simp [hpacks, Packs.entries]
  · simp [hpacks, Packs.entries]

theorem behind_passKey {sek : CStoredExtKey} {nKey : UInt32}
    (h : nKey = sek.nGenerated → sek.nGenerated ≠ 0xFFFFFFFF) : sek.Behind (sek.passKey nKey) := by
  refine ⟨by simp, ?_, by simp⟩
  unfold CStoredExtKey.passKey
  split
  · rename_i heq
    have hlast := h heq
    rw [ne_eq, ← UInt32.toNat_inj] at hlast
    have hmax : (0xFFFFFFFF : UInt32).toNat = 2 ^ 32 - 1 := rfl
    have hone : (1 : UInt32).toNat = 1 := rfl
    have hlt := sek.nGenerated.toNat_lt
    simp only [UInt32.toNat_add]
    omega
  · exact Nat.le_refl _

/-- A chain may be replaced by itself with its counters advanced. -/
theorem counted_setChain {sea : CExtKeyAccount} (h : sea.Counted ops) {nChain : UInt32} {sek sek' : CStoredExtKey}
    (hchain : sea.getChain nChain = some sek) (hbehind : sek.Behind sek') :
    (sea.setChain nChain sek').Counted ops := by
  refine ⟨right_setChain ops h.right hchain hbehind.1, ?_⟩
  intro id ak sek'' hkey hget
  rw [getChain_setChain sea (by simp [hchain])] at hget
  split at hget
  · rename_i hparent
    obtain rfl := Option.some.inj hget
    exact below_of_behind hbehind (h.below id ak sek hkey (hparent ▸ hchain))
  · exact h.below id ak sek'' hkey hget

/-- A saved child that the counters then cover. -/
theorem counted_saveKey {sea : CExtKeyAccount} (h : sea.Counted ops) {id : CKeyID} {ak : CEKAKey}
    (hfree : sea.mapKeys id = none) (hchild : childID ops sea.pubkeys ak = some id)
    (hbehind : ∀ sek, sea.getChain ak.nParent = some sek → sek.Behind (sek.passKey ak.nKey))
    (hbelow : ∀ sek, sea.getChain ak.nParent = some sek → (sek.passKey ak.nKey).Below ak.nKey) :
    (sea.saveKey ops id ak).2.Counted ops := by
  constructor
  · exact right_saveKey ops h.right hchild
  · intro id' ak' sek' hkey hget
    rw [saveKey_mapKeys ops hfree] at hkey
    rw [saveKey_getChain ops hfree] at hget
    by_cases hparent : ak'.nParent = ak.nParent
    · rw [if_pos hparent, hparent, Option.map_eq_some_iff] at hget
      obtain ⟨sek, hsek, rfl⟩ := hget
      by_cases hid : id' = id
      · subst hid
        simp only [Function.update_self, Option.some.injEq] at hkey
        exact hkey ▸ hbelow sek hsek
      · rw [Function.update_of_ne hid] at hkey
        exact below_of_behind (hbehind sek hsek) (h.below id' ak' sek hkey (hparent ▸ hsek))
    · rw [if_neg hparent] at hget
      have hid : id' ≠ id := by
        intro hid
        simp only [hid, Function.update_self, Option.some.injEq] at hkey
        exact hparent (hkey ▸ rfl)
      rw [Function.update_of_ne hid] at hkey
      exact h.below id' ak' sek' hkey hget

/-- Packs to which a key is appended that was not in the account. -/
theorem packs_appended {st st' : KeyState} (h : KeysCounted ops st) {id : CKeyID} {ak : CEKAKey}
    (hfree : st.sea.mapKeys id = none) (hkeys : st'.sea.mapKeys = Function.update st.sea.mapKeys id (some ak))
    (hpacks : st'.db.keyPacks = st.db.keyPacks ∨ st'.db.keyPacks = st.appended id ak) :
    st'.db.keyPacks.Numbered ∧ (∀ e ∈ st'.db.keyPacks.entries, (st'.sea.mapKeys e.1).isSome) ∧
      (st'.db.keyPacks.entries.map Prod.fst).Nodup := by
  have hold : ∀ e ∈ st.db.keyPacks.entries, (st'.sea.mapKeys e.1).isSome := by
    intro e he
    rw [hkeys]
    by_cases hid : e.1 = id
    · simp [hid]
    · rw [Function.update_of_ne hid]
      exact h.packed e he
  obtain hsame | happended := hpacks
  · rw [hsame]
    exact ⟨h.numbered, hold, h.nodup⟩
  · have hperm := Packs.entries_append h.numbered st.sea.nPack (id, ak)
    rw [happended]
    refine ⟨Packs.numbered_write h.numbered _ _, ?_, ?_⟩
    · intro e he
      obtain rfl | he := List.mem_cons.mp (hperm.mem_iff.mp he)
      · simp [hkeys]
      · exact hold e he
    · rw [KeyState.appended, (hperm.map Prod.fst).nodup_iff]
      refine List.nodup_cons.mpr ⟨?_, h.nodup⟩
      intro hmem
      obtain ⟨e, he, heq⟩ := List.mem_map.mp hmem
      have hsome := h.packed e he
      rw [heq, hfree] at hsome
      cases hsome

theorem counted_setPack {sea : CExtKeyAccount} (h : sea.Counted ops) (nPack : UInt32) :
    (sea.setPack nPack).Counted ops := ⟨right_setPack ops h.right nPack, h.below⟩

/-- A promoted key that is not ahead of its counter. -/
theorem keysCounted_promotes {st st' : KeyState} (h : KeysCounted ops st) {id : CKeyID} {ak : CEKAKey}
    (hpromotes : st.Promotes ops id ak st')
    (hcall : ∀ sek, st.sea.getChain ak.nParent = some sek → ak.nKey ≤ sek.nGenerated) : KeysCounted ops st' := by
  have hlow := h.counted.right.aheadLow id ak hpromotes.ahead
  obtain ⟨nPack, hsea⟩ := hpromotes.saved
  have hkeys : st'.sea.mapKeys = Function.update st.sea.mapKeys id (some ak) := by
    rw [hsea]
    exact saveKey_mapKeys ops hpromotes.free ak
  obtain ⟨hnumbered, hpacked, hnodup⟩ := packs_appended ops h hpromotes.free hkeys hpromotes.packs
  refine ⟨?_, hnumbered, hpacked, hnodup⟩
  rw [hsea]
  apply counted_setPack
  apply counted_saveKey ops h.counted hpromotes.free (h.counted.right.ahead id ak hpromotes.ahead)
  · intro sek _
    apply behind_passKey
    intro heq hlast
    rw [heq, hlast] at hlow
    exact absurd hlow (by decide)
  · intro sek hsek
    have hle : ak.nKey.toNat ≤ sek.nGenerated.toNat := hcall sek hsek
    have hone : (1 : UInt32).toNat = 1 := rfl
    simp only [CStoredExtKey.Below, hlow, if_true, CStoredExtKey.passKey]
    split
    · rename_i heq
      rw [UInt32.toNat_add, ← heq]
      omega
    · rename_i hne
      rw [← UInt32.toNat_inj] at hne
      omega

end Invariant

section Generated

variable (ops : ExtKeyOps) {st : KeyState} {d : DerivedKey} {fWalletLocked fInternal fHardened : Bool}

/-- The child that is derived was not in the account. -/
theorem derived_fresh (hdistinct : DistinctChildren ops st.sea.pubkeys) (h : st.sea.Counted ops)
    (hd : deriveNewKey ops fWalletLocked st.sea fInternal fHardened = some d) :
    childID ops st.sea.pubkeys ⟨d.nChain, d.nChildOut⟩ = some (ops.getID d.pubkey) ∧
      st.sea.mapKeys (ops.getID d.pubkey) = none := by
  obtain ⟨-, hchain, hnext⟩ := deriveNewKey_spec ops hd
  obtain ⟨n, hle, hlow, hout, -, -⟩ := deriveNextKey_spec ops hnext
  have hchild := deriveNewKey_childID ops hd
  refine ⟨hchild, ?_⟩
  cases hkey : st.sea.mapKeys (ops.getID d.pubkey) with
  | none => rfl
  | some ak =>
    obtain rfl := hdistinct ak ⟨d.nChain, d.nChildOut⟩ _ (h.right.keys _ ak hkey) hchild
    have hbelow := h.below _ _ d.sek hkey hchain
    unfold CStoredExtKey.Below at hbelow
    cases fHardened with
    | false =>
      simp only [Bool.false_eq_true, if_false] at hout
      simp only [hout, hlow, if_true] at hbelow
      exact absurd hbelow (Nat.not_lt.mpr hle)
    | true =>
      simp only [if_true] at hout
      have hbit : ¬ (2 ^ 31 + n.toNat < 2 ^ 31) := by omega
      simp only [hout, toNat_hardened hlow, hbit, if_false] at hbelow
      have hcounter : d.sek.nHGenerated.toNat ≤ n.toNat := hle
      omega

/-- A new key. -/
theorem keysCounted_generates (hdistinct : DistinctChildren ops st.sea.pubkeys) (h : KeysCounted ops st)
    (hd : deriveNewKey ops fWalletLocked st.sea fInternal fHardened = some d)
    (hcall : CountedCall st (.newKey fWalletLocked fInternal fHardened)) {result : Option Bytes} {st' : KeyState}
    (hgenerates : st.Generates ops d result st') : KeysCounted ops st' := by
  obtain ⟨hchild, hfree⟩ := derived_fresh ops hdistinct h.counted hd
  obtain ⟨hactive, hchain, hnext⟩ := deriveNewKey_spec ops hd
  obtain ⟨n, hle, hlow, hout, hpub, hsekNext⟩ := deriveNextKey_spec ops hnext
  obtain ⟨nPack, hsea⟩ := hgenerates.saved
  have hone : (1 : UInt32).toNat = 1 := rfl
  have hnum : (n + 1).toNat = n.toNat + 1 := by
    rw [UInt32.toNat_add]
    omega
  have hbehind : d.sek.Behind d.sekNext := by
    rw [hsekNext]
    cases fHardened with
    | false => exact ⟨rfl, by simp only [CStoredExtKey.setCounter]; exact hnum ▸ Nat.le_succ_of_le hle, Nat.le_refl _⟩
    | true => exact ⟨rfl, Nat.le_refl _, by simp only [CStoredExtKey.setCounter]; exact hnum ▸ Nat.le_succ_of_le hle⟩
  have hpubkeys := pubkeys_setChain st.sea hchain hbehind.1
  have hfree' : ((st.sea.setChain d.nChain d.sekNext).setPack nPack).mapKeys (ops.getID d.pubkey) = none := hfree
  have hkeys : st'.sea.mapKeys =
      Function.update st.sea.mapKeys (ops.getID d.pubkey) (some ⟨d.nChain, d.nChildOut⟩) := by
    rw [hsea]
    exact saveKey_mapKeys ops hfree' _
  obtain ⟨hnumbered, hpacked, hnodup⟩ := packs_appended ops h hfree hkeys (hgenerates.packs.imp And.right And.right)
  refine ⟨?_, hnumbered, hpacked, hnodup⟩
  have hget : ∀ sek, ((st.sea.setChain d.nChain d.sekNext).setPack nPack).getChain d.nChain = some sek →
      sek = d.sekNext := by
    intro sek hsek
    rw [getChain_setPack, getChain_setChain st.sea (by simp [hchain]), if_pos rfl] at hsek
    exact (Option.some.inj hsek).symm
  have hlast : d.sekNext.nGenerated ≠ 0xFFFFFFFF := by
    rw [hsekNext]
    cases fHardened with
    | false =>
      intro hmax
      have hmaxNat := congrArg UInt32.toNat hmax
      simp only [CStoredExtKey.setCounter, Bool.false_eq_true, if_false, hnum] at hmaxNat
      have hmax32 : (0xFFFFFFFF : UInt32).toNat = 2 ^ 32 - 1 := rfl
      omega
    | true => exact hcall rfl d.sek (hactive ▸ hchain)
  have hbelow : d.sekNext.Below d.nChildOut := by
    rw [hsekNext, hout]
    cases fHardened with
    | false =>
      simp only [CStoredExtKey.Below, CStoredExtKey.setCounter, Bool.false_eq_true, if_false, hlow, if_true, hnum]
      exact Nat.lt_succ_self _
    | true => simp [CStoredExtKey.Below, CStoredExtKey.setCounter, toNat_hardened hlow, hnum]
  rw [hsea]
  apply counted_saveKey ops (counted_setPack ops (counted_setChain ops h.counted hchain hbehind) nPack) hfree'
  · rw [pubkeys_setPack, hpubkeys]
    exact hchild
  · intro sek hsek
    rw [hget sek hsek]
    exact behind_passKey fun _ => hlast
  · intro sek hsek
    rw [hget sek hsek]
    exact below_of_behind (behind_passKey fun _ => hlast) hbelow

end Generated

section Fresh

variable (ops : ExtKeyOps)

/-- The invariant over a call. -/
theorem keysCounted_step {st : KeyState} (hdistinct : DistinctChildren ops st.sea.pubkeys) (h : KeysCounted ops st)
    {call : KeyCall} (hcall : CountedCall st call) : KeysCounted ops (keyStep ops st call).2 := by
  cases call with
  | haveKey id =>
    obtain ⟨hsea, hpacks⟩ | ⟨ak, hpromotes⟩ := haveKey_cases ops st id
    · refine ⟨?_, ?_, ?_, ?_⟩ <;> simp only [keyStep, hsea, hpacks]
      exacts [h.counted, h.numbered, h.packed, h.nodup]
    · apply keysCounted_promotes ops h hpromotes
      intro sek hsek
      exact hcall ak sek (lookAheadKey_eq_some.mpr ⟨hpromotes.free, hpromotes.ahead⟩) hsek
  | newKey fWalletLocked fInternal fHardened =>
    obtain ⟨-, ⟨nPack, hsea⟩, hpacks⟩ | ⟨d, hd, hgenerates⟩ := newKey_cases ops fWalletLocked fInternal fHardened st
    · refine ⟨?_, ?_, ?_, ?_⟩ <;> simp only [keyStep, hsea, hpacks]
      exacts [counted_setPack ops h.counted nPack, h.numbered, h.packed, h.nodup]
    · exact keysCounted_generates ops hdistinct h hd hcall hgenerates

/-- A returned key was not in the account before, and is afterwards. -/
theorem keyStep_fresh {st : KeyState} (hdistinct : DistinctChildren ops st.sea.pubkeys) (h : st.sea.Counted ops)
    {call : KeyCall} {pubkey : Bytes} (hresult : (keyStep ops st call).1 = some pubkey) :
    st.sea.mapKeys (ops.getID pubkey) = none ∧
      ((keyStep ops st call).2.sea.mapKeys (ops.getID pubkey)).isSome := by
  cases call with
  | haveKey id => cases hresult
  | newKey fWalletLocked fInternal fHardened =>
    obtain ⟨hnone, -⟩ | ⟨d, hd, hgenerates⟩ := newKey_cases ops fWalletLocked fInternal fHardened st
    · exact absurd (hnone.symm.trans hresult) (by simp)
    obtain ⟨hnone, -⟩ | ⟨hsome, -⟩ := hgenerates.packs
    · exact absurd (hnone.symm.trans hresult) (by simp)
    obtain rfl : pubkey = d.pubkey := Option.some.inj (hresult.symm.trans hsome)
    have hfree := (derived_fresh ops hdistinct h hd).2
    obtain ⟨nPack, hsea⟩ := hgenerates.saved
    refine ⟨hfree, ?_⟩
    simp only [keyStep, hsea]
    rw [saveKey_mapKeys ops (by exact hfree)]
    simp

theorem keysCounted_run (calls : List KeyCall) {st : KeyState} (hdistinct : DistinctChildren ops st.sea.pubkeys)
    (h : KeysCounted ops st) (hcounted : CountedRun ops st calls) : KeysCounted ops (keyRun ops st calls) := by
  induction calls generalizing st with
  | nil => exact h
  | cons call calls ih =>
    apply ih _ (keysCounted_step ops hdistinct h hcounted.1) hcounted.2
    rw [keyStep_pubkeys]
    exact hdistinct

/-- The keys returned by a run are new to the account, and different. -/
theorem keyResults_fresh (calls : List KeyCall) {st : KeyState} (hdistinct : DistinctChildren ops st.sea.pubkeys)
    (h : KeysCounted ops st) (hcounted : CountedRun ops st calls) :
    (∀ pubkey ∈ keyResults ops st calls, st.sea.mapKeys (ops.getID pubkey) = none) ∧
      (keyResults ops st calls).Nodup := by
  induction calls generalizing st with
  | nil => simp [keyResults]
  | cons call calls ih =>
    have hdistinct' : DistinctChildren ops (keyStep ops st call).2.sea.pubkeys := by
      rw [keyStep_pubkeys]
      exact hdistinct
    obtain ⟨hnew, hnodup⟩ := ih hdistinct' (keysCounted_step ops hdistinct h hcounted.1) hcounted.2
    have hlater : ∀ pubkey ∈ keyResults ops (keyStep ops st call).2 calls,
        st.sea.mapKeys (ops.getID pubkey) = none := by
      intro pubkey hmem
      cases hkey : st.sea.mapKeys (ops.getID pubkey) with
      | none => rfl
      | some ak =>
        have hkept : (keyStep ops st call).2.sea.mapKeys (ops.getID pubkey) = some ak := keyStep_mapKeys ops hkey
        rw [hnew pubkey hmem] at hkept
        cases hkept
    rw [keyResults]
    cases hresult : (keyStep ops st call).1 with
    | none => exact ⟨hlater, hnodup⟩
    | some pubkey =>
      obtain ⟨hfree, hsaved⟩ := keyStep_fresh ops hdistinct h.counted hresult
      simp only [Option.toList_some, List.singleton_append, List.forall_mem_cons, List.nodup_cons]
      refine ⟨⟨hfree, hlater⟩, ?_, hnodup⟩
      intro hmem
      rw [hnew pubkey hmem] at hsaved
      cases hsaved

theorem countedRun_append {pre post : List KeyCall} {st : KeyState} (h : CountedRun ops st (pre ++ post)) :
    CountedRun ops st pre := by
  induction pre generalizing st with
  | nil => trivial
  | cons call pre ih => exact ⟨h.1, ih h.2⟩

/-- In every run in which no promoted key is ahead of its counter, a returned key was not in the account
before the call, no key is returned twice, and none is twice in the packs. -/
theorem newKeys_fresh (st : KeyState) (hempty : st.Empty) (chains : List (UInt32 × Nat))
    (hdistinct : DistinctChildren ops st.sea.pubkeys) (calls : List KeyCall)
    (hcounted : CountedRun ops (st.initLookAhead ops chains) calls) :
    (∀ pre call post pubkey, calls = pre ++ call :: post →
      (keyStep ops (keyRun ops (st.initLookAhead ops chains) pre) call).1 = some pubkey →
      (keyRun ops (st.initLookAhead ops chains) pre).sea.mapKeys (ops.getID pubkey) = none) ∧
    (keyResults ops (st.initLookAhead ops chains) calls).Nodup ∧
    ((keyRun ops (st.initLookAhead ops chains) calls).db.keyPacks.entries.map Prod.fst).Nodup := by
  have hstart := keysCounted_init ops hempty chains
  have hdistinct' : DistinctChildren ops (st.initLookAhead ops chains).sea.pubkeys := by
    rw [initLookAhead_pubkeys ops hempty]
    exact hdistinct
  refine ⟨?_, (keyResults_fresh ops calls hdistinct' hstart hcounted).2,
    (keysCounted_run ops calls hdistinct' hstart hcounted).nodup⟩
  intro pre call post pubkey hcalls hresult
  subst hcalls
  have hpre := keysCounted_run ops pre hdistinct' hstart (countedRun_append ops hcounted)
  apply (keyStep_fresh ops _ hpre.counted hresult).1
  rw [keyRun_pubkeys]
  exact hdistinct'

end Fresh

section Scene

/-- The records of a new account with three chains, each looking two keys ahead. -/
def plainDB : AccountDB where
  extKeys id := ([[1], [2], [3]].find? fun pubkey => plainOps.getID pubkey == id).map fun pubkey =>
    { plainChain pubkey with nLookAhead := some 2 }
  account := plainAccount.toAccountRecord
  keyPacks := []
  stealthKeyPacks := []
  stealthChildPacks := []
  outcomes := []

/-- The account without keys. -/
def plainState : KeyState := ⟨plainAccount, { plainRecords 0 [] with keyPacks := [] }⟩

/-- The id of a child of the second chain. -/
def plainChild (n : Nat) : CKeyID := plainOps.getID ([2] ++ leBytes 4 n)

theorem plainState_empty : plainState.Empty := ⟨fun _ => rfl, fun _ => rfl, rfl⟩

theorem plainOps_childID {pubkeys : List Bytes} {ak : CEKAKey} {id : CKeyID}
    (h : childID plainOps pubkeys ak = some id) :
    ∃ pubkey, pubkeys[ak.nParent.toNat]? = some pubkey ∧
      id = BitVec.ofNat 160 (leNat (pubkey ++ leBytes 4 ak.nKey.toNat)) := by
  unfold childID at h
  cases hpubkey : pubkeys[ak.nParent.toNat]? with
  | none => simp [hpubkey] at h
  | some pubkey =>
    simp only [hpubkey, plainOps, Option.map_some, Option.some.injEq] at h
    exact ⟨pubkey, rfl, h.symm⟩

theorem plainOps_distinct : DistinctChildren plainOps plainAccount.pubkeys := by
  intro ak ak' id hid hid'
  obtain ⟨pubkey, hget, rfl⟩ := plainOps_childID hid
  obtain ⟨pubkey', hget', heq⟩ := plainOps_childID hid'
  have hpubkeys : plainAccount.pubkeys = [[1], [2], [3]] := rfl
  rw [hpubkeys] at hget hget'
  -- a child is its chain plus 256 times its number
  have hvalue : ∀ {n : UInt32} {k : Nat} {pk : Bytes}, [[1], [2], [3]][k]? = some pk →
      k < 3 ∧ leNat (pk ++ leBytes 4 n.toNat) = k + 1 + 256 * n.toNat := by
    intro n k pk hpk
    have hlt := n.toNat_lt
    have hnumber := leNat_leBytes_of_lt 4 n.toNat (by omega)
    match k, hpk with
    | 0, hpk | 1, hpk | 2, hpk =>
      simp only [List.getElem?_cons_zero, List.getElem?_cons_succ, Option.some.injEq] at hpk
      subst hpk
      simp [hnumber, leNat]
  obtain ⟨hk, hv⟩ := hvalue (n := ak.nKey) hget
  obtain ⟨hk', hv'⟩ := hvalue (n := ak'.nKey) hget'
  have hnat := congrArg BitVec.toNat heq
  rw [BitVec.toNat_ofNat, BitVec.toNat_ofNat, hv, hv'] at hnat
  have hlt := ak.nKey.toNat_lt
  have hlt' := ak'.nKey.toNat_lt
  rw [Nat.mod_eq_of_lt (by omega), Nat.mod_eq_of_lt (by omega)] at hnat
  have hparent : ak.nParent = ak'.nParent := UInt32.toNat_inj.mp (by omega)
  have hkey : ak.nKey = ak'.nKey := UInt32.toNat_inj.mp (by omega)
  cases ak
  cases ak'
  simp_all

/-- The first child is paid to, then a key is asked for: it is the second child, and new. -/
theorem promotedFirst_fresh :
    let st := plainState.initLookAhead plainOps [(1, 3)]
    let calls := [.haveKey (plainChild 0), .newKey false false false]
    (keyResults plainOps st calls).map plainOps.getID = [plainChild 1] ∧
      ((keyRun plainOps st calls).db.keyPacks.entries.map Prod.fst).Nodup := by
  intro st calls
  have hcounted : CountedRun plainOps st calls := by
    refine ⟨?_, by simp [CountedCall], trivial⟩
    intro ak sek hahead _
    have hfirst : st.sea.lookAheadKey (plainChild 0) = some ⟨1, 0⟩ := by decide +kernel
    obtain rfl := Option.some.inj (hfirst.symm.trans hahead)
    simp
  exact ⟨by decide +kernel,
    (newKeys_fresh plainOps plainState plainState_empty [(1, 3)] plainOps_distinct calls hcounted).2.2⟩

/-- The second child is paid to before the first one is asked for: asking for two keys returns it, and
it is in the packs twice. -/
theorem promotedAhead_derivedAgain :
    plainState.Empty ∧ DistinctChildren plainOps plainState.sea.pubkeys ∧
      let st := keyRun plainOps (plainState.initLookAhead plainOps [(1, 3)])
        [.haveKey (plainChild 1), .newKey false false false]
      (st.sea.mapKeys (plainChild 1)).isSome ∧
        ((keyStep plainOps st (.newKey false false false)).1.map plainOps.getID = some (plainChild 1)) ∧
        ¬ ((keyStep plainOps st (.newKey false false false)).2.db.keyPacks.entries.map Prod.fst).Nodup := by
  refine ⟨plainState_empty, plainOps_distinct, ?_⟩
  decide +kernel

end Scene

end AliasWallet
