import AliasWallet.Anon.RingSize
import AliasWallet.Chain.AcceptBlock
import AliasWallet.Chain.ConnectSpec
import AliasWallet.Wallet.UndoExact

/-!
# What the chain accepts and what the wallet records

`ProcessAnonTransaction` checks the rings of a connected block once more, with conditions of its own,
and `ConnectBlock` does not look at the answer. Here these conditions are compared with those of
`CheckAnonInputs`: what is left of them for a transaction of an accepted block.
-/

namespace AliasWallet
open Lib

section Coins

/-- What the checks of a ring read of a coin. -/
def CAnonOutput.coin (ao : CAnonOutput) : Int64 × Int := (ao.nValue, ao.nBlockHeight)

/-- The same coins are recorded, with their values and heights. -/
def SameCoins (d d' : Bytes → Option CAnonOutput) : Prop :=
  ∀ key, (d' key).map CAnonOutput.coin = (d key).map CAnonOutput.coin

/-- The coins are still recorded, with their values. -/
def ValuesKept (d d' : Bytes → Option CAnonOutput) : Prop :=
  ∀ key ao, d key = some ao → ∃ ao', d' key = some ao' ∧ ao'.nValue = ao.nValue

theorem SameCoins.trans {d d' d'' : Bytes → Option CAnonOutput} (h : SameCoins d d')
    (h' : SameCoins d' d'') : SameCoins d d'' := fun key => (h' key).trans (h key)

theorem SameCoins.get {d d' : Bytes → Option CAnonOutput} (h : SameCoins d d') {key : Bytes}
    {ao : CAnonOutput} (hao : d key = some ao) :
    ∃ ao', d' key = some ao' ∧ ao'.nValue = ao.nValue ∧ ao'.nBlockHeight = ao.nBlockHeight := by
  have hcoin := h key
  rw [hao, Option.map_some, Option.map_eq_some_iff] at hcoin
  obtain ⟨ao', hao', heq⟩ := hcoin
  exact ⟨ao', hao', congrArg Prod.fst heq, congrArg Prod.snd heq⟩

theorem SameCoins.symm {d d' : Bytes → Option CAnonOutput} (h : SameCoins d d') : SameCoins d' d :=
  fun key => (h key).symm

theorem Compromises.sameCoins {P : Bytes → Prop} {d d' : Bytes → Option CAnonOutput}
    (h : Compromises P d d') : SameCoins d d' := by
  intro key
  by_cases hP : P key
  · obtain ⟨ao, hao, hao'⟩ := h.marked key hP
    rw [hao, hao']
    rfl
  · rw [h.others key hP]

theorem ValuesKept.trans {d d' d'' : Bytes → Option CAnonOutput} (h : ValuesKept d d')
    (h' : ValuesKept d' d'') : ValuesKept d d'' := by
  intro key ao hao
  obtain ⟨ao', hao', hvalue⟩ := h key ao hao
  obtain ⟨ao'', hao'', hvalue'⟩ := h' key ao' hao'
  exact ⟨ao'', hao'', hvalue'.trans hvalue⟩

theorem SameCoins.valuesKept {d d' : Bytes → Option CAnonOutput} (h : SameCoins d d') :
    ValuesKept d d' := by
  intro key ao hao
  obtain ⟨ao', hao', hvalue, -⟩ := h.get hao
  exact ⟨ao', hao', hvalue⟩

/-- The key at a position of the ring of an input. -/
def memberKey (txin : CTxIn) (ri : Nat) : Bytes :=
  Lib.slot EC_COMPRESSED_SIZE (ringPubkeys txin.scriptSig txin.extractRingSize) ri

/-- The values that the loop over a ring carries from member to member, where it compares them well. -/
structure ValueRun (outputs : Bytes → Option CAnonOutput) (txin : CTxIn) (f : Nat → Int64) : Prop where
  first : f 0 = -1
  next : ∀ ri < txin.extractRingSize, ∃ ao, outputs (cpubKeyBytes (memberKey txin ri)) = some ao ∧
    (f ri = -1 ∨ f ri = ao.nValue) ∧ f (ri + 1) = ao.nValue

theorem ValueRun.mono {d d' : Bytes → Option CAnonOutput} {txin : CTxIn} {f : Nat → Int64}
    (h : ValueRun d txin f) (hkept : ValuesKept d d') : ValueRun d' txin f := by
  refine ⟨h.first, fun ri hri => ?_⟩
  obtain ⟨ao, hao, hvalue, hnext⟩ := h.next ri hri
  obtain ⟨ao', hao', heq⟩ := hkept _ ao hao
  exact ⟨ao', hao', heq ▸ hvalue, heq ▸ hnext⟩

end Coins

section Process

variable {Pt L : Type} (env : NodeEnv Pt L) (c : ChainState) (loc : L) (tx : CTransaction)

/-- The depth that `ProcessAnonTransaction` asks for. -/
def processDepth : Int :=
  if tx.isAnonCoinStake then env.p.getAnonStakeMinConfirmations else MIN_ANON_SPEND_DEPTH

def DeepForProcess (ao : CAnonOutput) : Prop :=
  ao.nBlockHeight ≠ 0 ∧ processDepth env tx ≤ c.nBestHeight - ao.nBlockHeight + 1

theorem processRingMember_isSome_iff (vchImage pPubkeys : Bytes) (nRingSize ri : Nat)
    (s : AnonStore × Int64) (ao : CAnonOutput)
    (hao : s.1.disk.anonOutputs (cpubKeyBytes (Lib.slot EC_COMPRESSED_SIZE pPubkeys ri)) = some ao)
    (hvalue : s.2 = -1 ∨ s.2 = ao.nValue) :
    (processRingMember env c true tx vchImage pPubkeys nRingSize ri s).isSome ↔
      ¬ (isAnonCoinCompromised env s.1 (Lib.slot EC_COMPRESSED_SIZE pPubkeys ri) vchImage = true ∧
        env.p.isProtocolV3 c.nBestHeight = true) ∧ DeepForProcess env c tx ao := by
  have hmatch : ¬ (s.2 ≠ -1 ∧ s.2 ≠ ao.nValue) := by
    rintro ⟨hfirst, hother⟩
    exact hvalue.elim hfirst hother
  have hcoin : ∀ b : Bool, (if b = true then { ao with nCompromised := 1 } else ao).nValue = ao.nValue ∧
      (if b = true then { ao with nCompromised := 1 } else ao).nBlockHeight = ao.nBlockHeight := by
    intro b
    cases b <;> exact ⟨rfl, rfl⟩
  have hdeep : (ao.nBlockHeight = 0 ∨ c.nBestHeight - ao.nBlockHeight + 1 < processDepth env tx) ↔
      ¬ DeepForProcess env c tx ao := by
    unfold DeepForProcess
    omega
  rw [Option.isSome_iff_exists]
  simp only [processRingMember, hao, Option.bind_eq_bind, Option.bind_some, Option.bind_none,
    Option.ite_none_left_eq_some, Option.pure_def, (hcoin _).1, (hcoin _).2, hmatch,
    not_false_eq_true, true_and]
  constructor
  · rintro ⟨s', hclean, hshallow, -⟩
    exact ⟨hclean, not_not.mp fun hno => hshallow (hdeep.mpr hno)⟩
  · rintro ⟨hclean, hyes⟩
    by_cases hone : nRingSize = 1
    · rw [if_pos hone]
      exact ⟨_, hclean, fun hno => hdeep.mp hno hyes, rfl⟩
    · rw [if_neg hone]
      exact ⟨_, hclean, fun hno => hdeep.mp hno hyes, rfl⟩

theorem processRingMember_value (vchImage pPubkeys : Bytes) (nRingSize ri : Nat)
    (s s' : AnonStore × Int64) (ao : CAnonOutput)
    (hao : s.1.disk.anonOutputs (cpubKeyBytes (Lib.slot EC_COMPRESSED_SIZE pPubkeys ri)) = some ao)
    (h : processRingMember env c true tx vchImage pPubkeys nRingSize ri s = some s') :
    s'.2 = ao.nValue := by
  have hcoin : ∀ b : Bool, (if b = true then { ao with nCompromised := 1 } else ao).nValue = ao.nValue := by
    intro b
    cases b <;> rfl
  simp only [processRingMember, hao, Option.bind_eq_bind, Option.bind_some, Option.bind_none,
    Option.ite_none_left_eq_some, Option.pure_def] at h
  obtain ⟨-, -, -, h⟩ := h
  split at h <;> rw [← Option.some.inj h] <;> exact hcoin _

theorem range_split {n : Nat} {done rest : List Nat} {x : Nat}
    (h : List.range n = done ++ x :: rest) : x = done.length ∧ x < n := by
  have hx : (List.range n)[done.length]? = some x := by
    rw [h, List.getElem?_append_right le_rfl, Nat.sub_self, List.getElem?_cons_zero]
  obtain ⟨hlt, hx⟩ := List.getElem?_eq_some_iff.mp hx
  rw [List.getElem_range] at hx
  rw [List.length_range] at hlt
  exact ⟨hx.symm, hx ▸ hlt⟩

/-- A ring whose values agree passes where at protocol V3 no member is compromised, and all members are
deep enough. -/
theorem processRing_isSome_iff (vchImage : Bytes) (txin : CTxIn) (st : AnonStore) (f : Nat → Int64)
    (hrun : ValueRun st.disk.anonOutputs txin f) :
    (processRing env c true tx vchImage (ringPubkeys txin.scriptSig txin.extractRingSize)
        txin.extractRingSize st).isSome ↔
      ∀ ri < txin.extractRingSize,
        ¬ (isAnonCoinCompromised env st (memberKey txin ri) vchImage = true ∧
          env.p.isProtocolV3 c.nBestHeight = true) ∧
        ∃ ao, st.disk.anonOutputs (cpubKeyBytes (memberKey txin ri)) = some ao ∧
          DeepForProcess env c tx ao := by
  unfold processRing
  -- the rounds see the coins of `st`, only their marks differ, and carry the values of the run
  have hmember : ∀ ri < txin.extractRingSize, ∀ t : AnonStore × Int64,
      (SameCoins st.disk.anonOutputs t.1.disk.anonOutputs ∧ t.2 = f ri) →
      ∃ ao ao', st.disk.anonOutputs (cpubKeyBytes (memberKey txin ri)) = some ao ∧
        t.1.disk.anonOutputs (cpubKeyBytes (memberKey txin ri)) = some ao' ∧
        (t.2 = -1 ∨ t.2 = ao'.nValue) ∧ f (ri + 1) = ao'.nValue ∧
        ao'.nBlockHeight = ao.nBlockHeight := by
    rintro ri hri t ⟨hsame, hcarry⟩
    obtain ⟨ao, hao, hvalue, hnext⟩ := hrun.next ri hri
    obtain ⟨ao', hao', hval, hheight⟩ := hsame.get hao
    exact ⟨ao, ao', hao, hao', by rw [hcarry, hval]; exact hvalue, by rw [hval]; exact hnext, hheight⟩
  rw [foldlM_isSome_iff
    (fun done t => OnlyOutputs st t.1 ∧ SameCoins st.disk.anonOutputs t.1.disk.anonOutputs ∧
      t.2 = f done.length)
    (fun _ ri => ¬ (isAnonCoinCompromised env st (memberKey txin ri) vchImage = true ∧
        env.p.isProtocolV3 c.nBestHeight = true) ∧
      ∃ ao, st.disk.anonOutputs (cpubKeyBytes (memberKey txin ri)) = some ao ∧
        DeepForProcess env c tx ao)
    (List.range txin.extractRingSize) (st, -1) ⟨OnlyOutputs.refl st, fun _ => rfl, hrun.first.symm⟩]
  · constructor
    · intro hall ri hri
      obtain ⟨done, rest, hsplit⟩ := List.append_of_mem (List.mem_range.mpr hri)
      exact hall done ri rest hsplit
    · intro hall done ri rest hsplit
      exact hall ri (range_split hsplit).2
  · rintro done ri rest hsplit t ⟨houtputs, hsame, hcarry⟩
    obtain ⟨rfl, hri⟩ := range_split hsplit
    obtain ⟨ao, ao', hao, hao', hvalue, -, hheight⟩ := hmember _ hri t ⟨hsame, hcarry⟩
    have hiff := processRingMember_isSome_iff env c tx vchImage
      (ringPubkeys txin.scriptSig txin.extractRingSize) txin.extractRingSize done.length t ao' hao' hvalue
    have hdeep : DeepForProcess env c tx ao' ↔ DeepForProcess env c tx ao := by
      unfold DeepForProcess
      rw [hheight]
    rw [hiff, isAnonCoinCompromised_onlyOutputs env houtputs, hdeep]
    apply and_congr_right
    intro _
    constructor
    · intro h
      exact ⟨ao, hao, h⟩
    · rintro ⟨ao₁, hao₁, h⟩
      obtain rfl : ao = ao₁ := Option.some.inj (hao.symm.trans hao₁)
      exact h
  · rintro done ri rest hsplit t t' ⟨houtputs, hsame, hcarry⟩ hround
    obtain ⟨rfl, hri⟩ := range_split hsplit
    obtain ⟨ao, ao', -, hao', -, hnext, -⟩ := hmember _ hri t ⟨hsame, hcarry⟩
    refine ⟨houtputs.trans (processRingMember_outputs env c true tx _ _ _ _ t t' hround),
      hsame.trans (processRingMember_compromises env c tx _ _ _ _ t t' hround).sameCoins, ?_⟩
    rw [processRingMember_value env c tx _ _ _ _ t t' ao' hao' hround, List.length_append,
      List.length_singleton, hnext]

/-- What `CheckAnonInputs` has checked of an input, as far as it is checked again. -/
structure InputChecked (outputs : Bytes → Option CAnonOutput) (txin : CTxIn) : Prop where
  size : ¬ (txin.extractRingSize < (getRingSizeMinMax env.p tx.nTime.toNat).1 ∨
    txin.extractRingSize > (getRingSizeMinMax env.p tx.nTime.toNat).2)
  length : ¬ (¬ isLayoutAB txin.scriptSig txin.extractRingSize ∧ txin.scriptSig.length <
    2 + (EC_COMPRESSED_SIZE + EC_SECRET_SIZE + EC_SECRET_SIZE) * txin.extractRingSize)
  run : ∃ f, ValueRun outputs txin f

/-- What is left for an input to be recorded: its image is not recorded for another known
transaction, the wallet has the transaction of an own coin, at protocol V3 no old image of a ring
member is spent, by this input, an earlier one of the transaction or before, and the members are
deep. -/
structure InputRecordable (st : AnonStore) (earlier : List Bytes) (txin : CTxIn) (i : Nat) : Prop where
  notSpent : ¬ spentElsewhere env c tx st txin.extractKeyImage i
  known : ownCoinKnown env loc
    ((env.wallet.readOldOutputLink loc txin.extractKeyImage).getD txin.extractKeyImage)
  clean : env.p.isProtocolV3 c.nBestHeight → ∀ ri < txin.extractRingSize,
    ¬ (oldKeyImage env (memberKey txin ri) ∈ txin.extractKeyImage :: earlier ∨
      (getKeyImage st.disk st.pool (oldKeyImage env (memberKey txin ri))).isSome)
  deep : ∀ ri < txin.extractRingSize, ∃ ao,
    st.disk.anonOutputs (cpubKeyBytes (memberKey txin ri)) = some ao ∧ DeepForProcess env c tx ao

/-- What the inputs before have changed: their images are recorded and coins may be marked. -/
structure InputsAfter (st : AnonStore) (earlier : List Bytes) (st' : AnonStore) : Prop where
  images : ImagesAfter st earlier st'
  txIndex : st'.disk.txIndex = st.disk.txIndex
  coins : SameCoins st.disk.anonOutputs st'.disk.anonOutputs

theorem spentElsewhere_after {st st' : AnonStore} {earlier : List Bytes} (h : InputsAfter st earlier st')
    {vchImage : Bytes} (hnew : vchImage ∉ earlier) (i : Nat) :
    spentElsewhere env c tx st' vchImage i = spentElsewhere env c tx st vchImage i := by
  simp only [spentElsewhere, getKeyImage, h.images.others vchImage hnew, h.images.pool, h.txIndex]

theorem processAnonInput_isSome_iff (nBlockHeight : Int) {st st' : AnonStore} {earlier : List Bytes}
    {txin : CTxIn} (i : Nat) (hafter : InputsAfter st earlier st')
    (hchecked : InputChecked env tx st.disk.anonOutputs txin)
    (hnew : txin.extractKeyImage ∉ earlier) :
    (processAnonInput env c loc true tx nBlockHeight txin i st').isSome ↔
      InputRecordable env c loc tx st earlier txin i := by
  obtain ⟨f, hrun⟩ := hchecked.run
  have hring := processRing_isSome_iff env c tx txin.extractKeyImage txin st' f
    (hrun.mono hafter.coins.valuesKept)
  have hsplit : (processAnonInput env c loc true tx nBlockHeight txin i st').isSome ↔
      ¬ spentElsewhere env c tx st txin.extractKeyImage i ∧
        ownCoinKnown env loc
          ((env.wallet.readOldOutputLink loc txin.extractKeyImage).getD txin.extractKeyImage) ∧
        (processRing env c true tx txin.extractKeyImage
          (ringPubkeys txin.scriptSig txin.extractRingSize) txin.extractRingSize st').isSome := by
    rw [← spentElsewhere_after env c tx hafter hnew i, Option.isSome_iff_exists]
    simp only [processAnonInput, Option.bind_eq_bind, Option.bind_none, Option.ite_none_left_eq_some,
      Option.bind_eq_some_iff, Option.pure_def, Option.some.injEq, not_not, hchecked.size,
      hchecked.length, not_false_eq_true, true_and]
    constructor
    · rintro ⟨st'', hfree, hknown, s, hs, -⟩
      exact ⟨hfree, hknown, Option.isSome_iff_exists.mpr ⟨s, hs⟩⟩
    · rintro ⟨hfree, hknown, hs⟩
      obtain ⟨s, hs⟩ := Option.isSome_iff_exists.mp hs
      exact ⟨_, hfree, hknown, s, hs, rfl⟩
  have hmember : ∀ ri, (∃ ao, st'.disk.anonOutputs (cpubKeyBytes (memberKey txin ri)) = some ao ∧
      DeepForProcess env c tx ao) ↔ ∃ ao, st.disk.anonOutputs (cpubKeyBytes (memberKey txin ri)) = some ao ∧
      DeepForProcess env c tx ao := by
    have hdir : ∀ d d' : Bytes → Option CAnonOutput, SameCoins d d' → ∀ key,
        (∃ ao, d key = some ao ∧ DeepForProcess env c tx ao) →
        ∃ ao, d' key = some ao ∧ DeepForProcess env c tx ao := by
      rintro d d' hsame key ⟨ao, hao, hdeep⟩
      obtain ⟨ao', hao', -, hheight⟩ := hsame.get hao
      exact ⟨ao', hao', by unfold DeepForProcess; rw [hheight]; exact hdeep⟩
    intro ri
    exact ⟨hdir _ _ hafter.coins.symm _, hdir _ _ hafter.coins _⟩
  rw [hsplit, hring]
  simp only [hafter.images.compromised, hmember]
  constructor
  · rintro ⟨hfree, hknown, hmembers⟩
    exact ⟨hfree, hknown, fun hv3 ri hri hspent => (hmembers ri hri).1 ⟨hspent, hv3⟩,
      fun ri hri => (hmembers ri hri).2⟩
  · intro h
    exact ⟨h.notSpent, h.known, fun ri hri =>
      ⟨fun hboth => h.clean hboth.2 ri hri hboth.1, h.deep ri hri⟩⟩

theorem zipIdx_split {α : Type} {l : List α} {done rest : List (α × Nat)} {x : α × Nat}
    (h : l.zipIdx = done ++ x :: rest) :
    l = done.map Prod.fst ++ x.1 :: rest.map Prod.fst ∧ x.2 = done.length := by
  constructor
  · have hfst := congrArg (List.map Prod.fst) h
    rwa [List.zipIdx_map_fst, List.map_append, List.map_cons] at hfst
  · have hx : l.zipIdx[done.length]? = some x := by
      rw [h, List.getElem?_append_right le_rfl, Nat.sub_self, List.getElem?_cons_zero]
    rw [List.getElem?_zipIdx, Option.map_eq_some_iff] at hx
    obtain ⟨a, -, rfl⟩ := hx
    exact Nat.zero_add _

theorem imagesOf_append_singleton (vin : List CTxIn) (txin : CTxIn) :
    imagesOf (vin ++ [txin]) =
      imagesOf vin ++ if txin.isAnonInput then [txin.extractKeyImage] else [] := by
  unfold imagesOf
  rw [List.filter_append, List.map_append]
  by_cases hanon : txin.isAnonInput
  · simp [hanon]
  · simp [hanon]

/-- An image of an input is none of those before it. -/
theorem image_new {before after : List CTxIn} {txin : CTxIn}
    (hnodup : (imagesOf (before ++ txin :: after)).Nodup) (hanon : txin.isAnonInput) :
    txin.extractKeyImage ∉ imagesOf before := by
  unfold imagesOf at hnodup ⊢
  rw [List.filter_append, List.map_append, List.filter_cons_of_pos hanon, List.map_cons,
    List.nodup_append] at hnodup
  intro hmem
  exact hnodup.2.2 _ hmem _ List.mem_cons_self rfl

theorem InputsAfter.step (nBlockHeight : Int) {st st' st'' : AnonStore} {earlier : List Bytes}
    {txin : CTxIn} {i : Nat} (h : InputsAfter st earlier st')
    (hround : processAnonInput env c loc true tx nBlockHeight txin i st' = some st'') :
    InputsAfter st (earlier ++ [txin.extractKeyImage]) st'' := by
  obtain ⟨hmarks, himages⟩ :=
    processAnonInput_effect env c loc tx nBlockHeight txin i st st' st'' earlier h.images hround
  exact ⟨himages, (processAnonInput_records env c loc tx nBlockHeight txin i st' st'' hround).1.trans
    h.txIndex, h.coins.trans hmarks.sameCoins⟩

/-- The inputs of a checked transaction are processed exactly when each can be recorded. -/
theorem processAnonInputs_isSome_iff (nBlockHeight : Int) (st : AnonStore)
    (hchecked : ∀ txin ∈ tx.vin, txin.isAnonInput → InputChecked env tx st.disk.anonOutputs txin)
    (hnodup : (imagesOf tx.vin).Nodup) :
    (tx.vin.zipIdx.foldlM (fun st e =>
        if e.1.isAnonInput then processAnonInput env c loc true tx nBlockHeight e.1 e.2 st
        else some st) st : Option AnonStore).isSome ↔
      ∀ before txin after, tx.vin = before ++ txin :: after → txin.isAnonInput →
        InputRecordable env c loc tx st (imagesOf before) txin before.length := by
  rw [foldlM_isSome_iff
    (fun done t => InputsAfter st (imagesOf (done.map Prod.fst)) t)
    (fun done e => e.1.isAnonInput →
      InputRecordable env c loc tx st (imagesOf (done.map Prod.fst)) e.1 e.2)
    tx.vin.zipIdx st ⟨⟨rfl, by simp [imagesOf], fun _ _ => rfl⟩, rfl, fun _ => rfl⟩]
  · constructor
    · intro hall before txin after hvin hanon
      have hzip : tx.vin.zipIdx = before.zipIdx ++ (txin, before.length) :: after.zipIdx (before.length + 1) := by
        rw [hvin, List.zipIdx_append, List.zipIdx_cons, Nat.zero_add]
      simpa [List.zipIdx_map_fst] using hall _ _ _ hzip hanon
    · intro hall done e rest hsplit hanon
      obtain ⟨hvin, hi⟩ := zipIdx_split hsplit
      have hrec := hall _ _ _ hvin hanon
      rwa [List.length_map, ← hi] at hrec
  · intro done e rest hsplit t ht
    obtain ⟨hvin, -⟩ := zipIdx_split hsplit
    by_cases hanon : e.1.isAnonInput
    · rw [if_pos hanon, processAnonInput_isSome_iff env c loc tx nBlockHeight e.2 ht
        (hchecked e.1 (by rw [hvin]; simp) hanon) (image_new (hvin ▸ hnodup) hanon)]
      simp only [hanon, true_implies]
    · simp [hanon]
  · intro done e rest hsplit t t' ht hround
    rw [List.map_append, List.map_singleton, imagesOf_append_singleton]
    by_cases hanon : e.1.isAnonInput
    · rw [if_pos hanon] at hround ⊢
      exact ht.step env c loc tx nBlockHeight hround
    · rw [if_neg hanon] at hround ⊢
      rw [List.append_nil, ← Option.some.inj hround]
      exact ht

theorem processAnonOutputs_isSome (nBlockHeight : Int) (l : List (CTxOut × Nat)) (st : AnonStore) :
    (l.foldlM (fun st e =>
      if e.1.isAnonOutput then processAnonOutput env true tx nBlockHeight e.1 e.2 st else some st)
      st : Option AnonStore).isSome := by
  induction l generalizing st with
  | nil => rfl
  | cons e l ih =>
    have hround : ∃ st', (if e.1.isAnonOutput then processAnonOutput env true tx nBlockHeight e.1 e.2 st
        else some st) = some st' := by
      by_cases hanon : e.1.isAnonOutput
      · rw [if_pos hanon]
        simp only [processAnonOutput, if_true]
        cases st.disk.anonOutputs (cpubKeyBytes e.1.extractAnonPk) with
        | none => exact ⟨_, rfl⟩
        | some ao => exact ⟨_, rfl⟩
      · rw [if_neg hanon]
        exact ⟨st, rfl⟩
    obtain ⟨st', hst'⟩ := hround
    rw [List.foldlM_cons, hst']
    exact ih st'

/-- What a transaction of an accepted block needs to be recorded. -/
structure Recordable (st : AnonStore) : Prop where
  notCoinBase : tx.isCoinBase → tx.keyImages = []
  inputs : ∀ before txin after, tx.vin = before ++ txin :: after → txin.isAnonInput →
    InputRecordable env c loc tx st (imagesOf before) txin before.length

theorem processAnonTransaction_isSome_iff (nBlockHeight : Int) (st : AnonStore)
    (hchecked : ¬ tx.isCoinBase → ∀ txin ∈ tx.vin, txin.isAnonInput →
      InputChecked env tx st.disk.anonOutputs txin)
    (hnodup : (imagesOf tx.vin).Nodup) :
    (processAnonTransaction env c loc true tx nBlockHeight st).isSome ↔ Recordable env c loc tx st := by
  have hinputs : (processAnonTransaction env c loc true tx nBlockHeight st).isSome ↔
      (tx.vin.zipIdx.foldlM (fun st e =>
        if e.1.isAnonInput then processAnonInput env c loc true tx nBlockHeight e.1 e.2 st
        else some st) st : Option AnonStore).isSome := by
    rw [processAnonTransaction, Option.bind_eq_bind]
    cases (tx.vin.zipIdx.foldlM (fun st e =>
        if e.1.isAnonInput then processAnonInput env c loc true tx nBlockHeight e.1 e.2 st
        else some st) st : Option AnonStore) with
    | none => rfl
    | some st' =>
      rw [Option.bind_some]
      exact iff_of_true (processAnonOutputs_isSome env tx nBlockHeight tx.vout.zipIdx st') rfl
  by_cases hbase : tx.isCoinBase
  · by_cases hnone : tx.keyImages = []
    · have hplain : ∀ txin ∈ tx.vin, ¬ txin.isAnonInput := by
        simpa [CTransaction.keyImages, List.filter_eq_nil_iff] using hnone
      rw [hinputs, processAnonInputs_isSome_iff env c loc tx nBlockHeight st
        (fun txin hmem hanon => absurd hanon (hplain txin hmem)) hnodup]
      exact ⟨fun h => ⟨fun _ => hnone, h⟩, fun h => h.inputs⟩
    · rw [processAnonTransaction_coinBase env c loc tx nBlockHeight st hbase hnone]
      exact iff_of_false Bool.false_ne_true fun h => hnone (h.notCoinBase hbase)
  · rw [hinputs, processAnonInputs_isSome_iff env c loc tx nBlockHeight st (hchecked hbase) hnodup]
    exact ⟨fun h => ⟨fun hyes => absurd hyes hbase, h⟩, fun h => h.inputs⟩

end Process

section Block

variable {Pt L : Type} (env : NodeEnv Pt L) (c : ChainState) (pool : CTxMemPool)

/-- `CheckTransaction` sees to it that no image occurs twice in a transaction. -/
theorem imagesOf_nodup (p : ChainParams) (tx : CTransaction) (hversion : tx.nVersion = ANON_TXN_VERSION)
    (hcheck : tx.checkTransaction p) : (imagesOf tx.vin).Nodup := by
  simp only [CTransaction.checkTransaction, Bool.and_eq_true, decide_eq_true_eq] at hcheck
  have hunique : ((tx.vin.filter CTxIn.isAnonInput).map tx.uniqueOutPoint).Nodup :=
    hcheck.1.1.2.sublist (List.filter_sublist.map _)
  have hpoint : ∀ txin ∈ tx.vin.filter CTxIn.isAnonInput,
      tx.uniqueOutPoint txin = ⟨txin.prevout.hash, txin.prevout.n &&& 0xFF⟩ := by
    intro txin hmem
    have hskip : tx.skipsInput txin := by
      rw [CTransaction.skipsInput, hversion, (List.mem_filter.mp hmem).2]
      rfl
    rw [CTransaction.uniqueOutPoint, if_pos hskip]
  apply List.Nodup.map_on _ hunique.of_map
  intro txin hmem txin' hmem' himage
  obtain ⟨hhash, hbyte⟩ := (extractKeyImage_eq_iff txin txin').mp himage
  apply List.inj_on_of_nodup_map hunique hmem hmem'
  have hmask : txin.prevout.n &&& 0xFF = txin'.prevout.n &&& 0xFF := by
    apply UInt32.toNat_inj.mp
    rw [UInt32.toNat_and, UInt32.toNat_and]
    exact (Nat.and_two_pow_sub_one_eq_mod _ 8).trans
      (hbyte.trans (Nat.and_two_pow_sub_one_eq_mod _ 8).symm)
  rw [hpoint txin hmem, hpoint txin' hmem', hhash, hmask]

theorem inputChecked_of_accepted (v : AnonView) (tx : CTransaction) (fCheckExists : Bool)
    (haccept : (checkAnonInputs env.p env.E env.C.hash v tx fCheckExists).isOk) (txin : CTxIn)
    (hmem : txin ∈ tx.vin) (hanon : txin.isAnonInput) :
    InputChecked env tx v.readAnonOutput txin := by
  obtain ⟨preimage, -, hinputs⟩ := (checkAnonInputs_isOk_iff _ _ _ _ _ _).mp haccept
  obtain ⟨i, hi⟩ := List.mem_iff_getElem?.mp hmem
  have hok := hinputs i txin hi hanon
  rw [checkAnonInput_isOk, Bool.and_eq_true, Bool.and_eq_true] at hok
  obtain ⟨f, hfirst, hrun⟩ := ringRulesOk_run env.p v tx txin i hok.1.2
  have hrules := hok.1.2
  simp only [ringRulesOk, Bool.and_eq_true, decide_eq_true_eq] at hrules
  refine ⟨by omega, ?_, f, hfirst, fun ri hri => ?_⟩
  · rintro ⟨hplain, hshort⟩
    have hlong := hrules.2
    rw [if_neg hplain, Bool.and_eq_true, decide_eq_true_eq] at hlong
    omega
  · obtain ⟨ao, hao, hvalue, -, hnext⟩ := hrun ri hri
    exact ⟨ao, hao, hvalue, hnext⟩

/-- Nothing that was recorded is lost, and coins keep their values. -/
structure RecordsKept (d d' : Disk) : Prop where
  values : ValuesKept d.anonOutputs d'.anonOutputs
  images : ∀ k, (d.keyImages k).isSome → (d'.keyImages k).isSome

theorem RecordsKept.refl (d : Disk) : RecordsKept d d :=
  ⟨fun _ ao hao => ⟨ao, hao, rfl⟩, fun _ h => h⟩

theorem RecordsKept.trans {d d' d'' : Disk} (h : RecordsKept d d') (h' : RecordsKept d' d'') :
    RecordsKept d d'' :=
  ⟨h.values.trans h'.values, fun k hk => h'.images k (h.images k hk)⟩

theorem RecordsKept.outputs {d d' : Disk} (h : RecordsKept d d') {key : Bytes}
    (hkey : (d.anonOutputs key).isSome) : (d'.anonOutputs key).isSome := by
  obtain ⟨ao, hao⟩ := Option.isSome_iff_exists.mp hkey
  obtain ⟨ao', hao', -⟩ := h.values key ao hao
  rw [hao', Option.isSome_some]

theorem processAnonOutput_valuesKept (tx : CTransaction) (nBlockHeight : Int) (txout : CTxOut) (i : Nat)
    (st st' : AnonStore) (h : processAnonOutput env true tx nBlockHeight txout i st = some st') :
    ValuesKept st.disk.anonOutputs st'.disk.anonOutputs := by
  intro key ao hao
  simp only [processAnonOutput, if_true] at h
  by_cases hkey : key = cpubKeyBytes txout.extractAnonPk
  · rw [← hkey, hao, Option.some.injEq] at h
    rw [← h]
    exact ⟨_, Function.update_self _ _ _, rfl⟩
  · refine ⟨ao, ?_, rfl⟩
    split at h <;> rw [← Option.some.inj h] <;>
      exact (Function.update_of_ne hkey _ _).trans hao

theorem processAnonTransaction_kept (loc : L) (tx : CTransaction) (nBlockHeight : Int)
    (st st' : AnonStore) (h : processAnonTransaction env c loc true tx nBlockHeight st = some st') :
    RecordsKept st.disk st'.disk ∧ (∀ k ∈ tx.keyImages, (st'.disk.keyImages k).isSome) ∧
      ∀ key ∈ anonKeys tx.vout, (st'.disk.anonOutputs key).isSome := by
  have hrecords := processAnonTransaction_records env c loc tx nBlockHeight st st' h
  rw [processAnonTransaction, Option.bind_eq_bind, Option.bind_eq_some_iff] at h
  obtain ⟨st₁, hinputs, houtputs⟩ := h
  have hmarks := processAnonInputs_compromises env c loc tx nBlockHeight tx.vin.zipIdx st st st₁ []
    ⟨rfl, by simp, fun _ _ => rfl⟩ hinputs
  have hvalues : ValuesKept st.disk.anonOutputs st'.disk.anonOutputs := by
    refine foldlM_preserves (fun t : AnonStore => ValuesKept st.disk.anonOutputs t.disk.anonOutputs)
      tx.vout.zipIdx st₁ st' hmarks.sameCoins.valuesKept ?_ houtputs
    intro t e _ t' ht hround
    by_cases hanon : e.1.isAnonOutput
    · rw [if_pos hanon] at hround
      exact ht.trans (processAnonOutput_valuesKept env tx nBlockHeight e.1 e.2 t t' hround)
    · rw [if_neg hanon] at hround
      rw [← Option.some.inj hround]
      exact ht
  have hown : ∀ k ∈ tx.keyImages, (st'.disk.keyImages k).isSome := by
    intro k hk
    obtain ⟨ski, hski, -⟩ := hrecords.own k hk
    rw [hski, Option.isSome_some]
  refine ⟨⟨hvalues, fun k hk => ?_⟩, hown, fun key hkey => ?_⟩
  · by_cases hmem : k ∈ tx.keyImages
    · exact hown k hmem
    · rw [hrecords.others k hmem]
      exact hk
  · have heffect := processAnonOutputs_effect env tx nBlockHeight tx.vout.zipIdx st₁ st' houtputs
    rw [List.zipIdx_map_fst] at heffect
    exact heffect.1 key hkey

theorem syncConnect_kept (nBlockHeight : Int) (s : Disk × L) (tx : CTransaction) :
    RecordsKept s.1 (syncConnect env c pool nBlockHeight s tx).1 := by
  unfold syncConnect
  by_cases hversion : tx.nVersion = ANON_TXN_VERSION
  · rw [if_pos hversion]
    cases hprocess : processAnonTransaction env c s.2 true tx nBlockHeight ⟨s.1, pool⟩ with
    | none => exact RecordsKept.refl s.1
    | some st => exact (processAnonTransaction_kept env c s.2 tx nBlockHeight ⟨s.1, pool⟩ st hprocess).1
  · rw [if_neg hversion]
    exact RecordsKept.refl s.1

theorem foldl_syncConnect_kept (nBlockHeight : Int) (vtx : List CTransaction) (s : Disk × L) :
    RecordsKept s.1 (vtx.foldl (syncConnect env c pool nBlockHeight) s).1 := by
  induction vtx generalizing s with
  | nil => exact RecordsKept.refl s.1
  | cons tx vtx ih => exact (syncConnect_kept env c pool nBlockHeight s tx).trans (ih _)

/-- The records and the wallet when `ConnectBlock` has handed these transactions of the block over. -/
def walletAfter (s : Session L) (block : CBlock) (pindex : CBlockIndex) (pre : List CTransaction) :
    Disk × L :=
  pre.foldl (syncConnect env c pool (getBlockHeightFromHash c (block.getHash env.H)))
    (s.disk, env.wallet.cacheAnonStats s.loc s.disk (CBlockIndex.nHeight pindex.tail))

theorem walletAfter_kept (s : Session L) (block : CBlock) (pindex : CBlockIndex)
    (pre : List CTransaction) : RecordsKept s.disk (walletAfter env c pool s block pindex pre).1 :=
  foldl_syncConnect_kept env c pool (getBlockHeightFromHash c (block.getHash env.H)) pre
    (s.disk, env.wallet.cacheAnonStats s.loc s.disk (CBlockIndex.nHeight pindex.tail))

/-- `ProcessAnonTransaction` succeeds when the transaction is handed over after `pre`. -/
def ProcessedAfter (s : Session L) (block : CBlock) (pindex : CBlockIndex) (pre : List CTransaction)
    (tx : CTransaction) : Prop :=
  (processAnonTransaction env c (walletAfter env c pool s block pindex pre).2 true tx
    (getBlockHeightFromHash c (block.getHash env.H))
    ⟨(walletAfter env c pool s block pindex pre).1, pool⟩).isSome

/-- The images and anonymous outputs of a transaction are recorded. -/
def RecordedIn (d : Disk) (tx : CTransaction) : Prop :=
  (∀ k ∈ tx.keyImages, (d.keyImages k).isSome) ∧
    ∀ key ∈ anonKeys tx.vout, (d.anonOutputs key).isSome

variable {env c pool}

theorem recordedIn_of_processed {s : Session L} {block : CBlock} {pindex : CBlockIndex}
    {pre post : List CTransaction} {tx : CTransaction} (hversion : tx.nVersion = ANON_TXN_VERSION)
    (hprocessed : ProcessedAfter env c pool s block pindex pre tx) :
    RecordedIn (walletAfter env c pool s block pindex (pre ++ tx :: post)).1 tx := by
  obtain ⟨st, hst⟩ := Option.isSome_iff_exists.mp hprocessed
  obtain ⟨-, himages, houtputs⟩ := processAnonTransaction_kept env c _ tx _ _ st hst
  have hkept : RecordsKept st.disk (walletAfter env c pool s block pindex (pre ++ tx :: post)).1 := by
    have hlater := foldl_syncConnect_kept env c pool (getBlockHeightFromHash c (block.getHash env.H)) post
      (syncConnect env c pool (getBlockHeightFromHash c (block.getHash env.H))
        (walletAfter env c pool s block pindex pre) tx)
    have hround : (syncConnect env c pool (getBlockHeightFromHash c (block.getHash env.H))
        (walletAfter env c pool s block pindex pre) tx).1 = st.disk := by
      rw [syncConnect, if_pos hversion, hst]
    rw [hround] at hlater
    rwa [walletAfter, List.foldl_append, List.foldl_cons]
  exact ⟨fun k hk => hkept.images k (himages k hk), fun key hkey => hkept.outputs (houtputs key hkey)⟩

/-- The anonymous transactions of a block that `ConnectBlock` accepts are all processed, and their
images and outputs recorded, exactly when each can be recorded at its turn. -/
theorem connectBlock_records_iff (s s' : Session L) (block : CBlock) (pindex : CBlockIndex)
    (h : connectBlock env c pool false s block pindex = (s', true)) :
    ((∀ pre tx post, block.vtx = pre ++ tx :: post → tx.nVersion = ANON_TXN_VERSION →
        ProcessedAfter env c pool s block pindex pre tx) ∧
      ∀ tx ∈ block.vtx, tx.nVersion = ANON_TXN_VERSION → RecordedIn s'.disk tx) ↔
    ∀ pre tx post, block.vtx = pre ++ tx :: post → tx.nVersion = ANON_TXN_VERSION →
      Recordable env c (walletAfter env c pool s block pindex pre).2 tx
        ⟨(walletAfter env c pool s block pindex pre).1, pool⟩ := by
  have haccept : (connectBlock env c pool false s block pindex).2 = true := by rw [h]
  rw [connectBlock_accepts, Bool.and_eq_true] at haccept
  obtain ⟨hblock, hchecks⟩ := haccept
  have htx : ∀ tx ∈ block.vtx, tx.checkTransaction env.p := by
    simp only [checkBlock, Bool.and_eq_true, List.all_eq_true] at hblock
    exact fun tx hmem => (hblock.1.1.1.2 tx hmem).1
  have hiff : ∀ pre tx post, block.vtx = pre ++ tx :: post → tx.nVersion = ANON_TXN_VERSION →
      (ProcessedAfter env c pool s block pindex pre tx ↔
        Recordable env c (walletAfter env c pool s block pindex pre).2 tx
          ⟨(walletAfter env c pool s block pindex pre).1, pool⟩) := by
    intro pre tx post hsplit hversion
    have hmem : tx ∈ block.vtx := by
      rw [hsplit]
      exact List.mem_append_right pre List.mem_cons_self
    apply processAnonTransaction_isSome_iff
    · intro hbase txin hin hanon
      have hchecked := inputChecked_of_accepted env (sessionView env c pool s) tx true
        (checkTransactions_anonChecked env c pool s block pindex false hchecks tx hmem hbase hversion)
        txin hin hanon
      obtain ⟨f, hrun⟩ := hchecked.run
      exact ⟨hchecked.size, hchecked.length, f,
        hrun.mono (walletAfter_kept env c pool s block pindex pre).values⟩
    · exact imagesOf_nodup env.p tx hversion (htx tx hmem)
  have hdisk : s'.disk = (walletAfter env c pool s block pindex block.vtx).1 := by
    rcases connectBlock_cases env c pool s block pindex with ⟨t, -, hrecord⟩ | ⟨loc, hfail⟩
    · rw [hrecord, Prod.mk.injEq] at h
      rw [← h.1]
      rfl
    · rw [hfail, Prod.mk.injEq] at h
      exact absurd h.2 Bool.false_ne_true
  constructor
  · rintro ⟨hprocessed, -⟩ pre tx post hsplit hversion
    exact (hiff pre tx post hsplit hversion).mp (hprocessed pre tx post hsplit hversion)
  · intro hrecordable
    have hprocessed : ∀ pre tx post, block.vtx = pre ++ tx :: post → tx.nVersion = ANON_TXN_VERSION →
        ProcessedAfter env c pool s block pindex pre tx := fun pre tx post hsplit hversion =>
      (hiff pre tx post hsplit hversion).mpr (hrecordable pre tx post hsplit hversion)
    refine ⟨hprocessed, fun tx hmem hversion => ?_⟩
    obtain ⟨pre, post, hsplit⟩ := List.append_of_mem hmem
    rw [hdisk, hsplit]
    exact recordedIn_of_processed hversion (hprocessed pre tx post hsplit hversion)

end Block

section OldCoin

def oldCoinIndex : CBlockIndex :=
  (List.range 12).reverse.map fun i =>
    { hash := BitVec.ofNat 256 (i + 1), nFile := 1, nBlockPos := (1000 * i).toUInt32
      nTime := (1540000000 + 16 * i).toUInt32, nChainTrust := i + 1 }

/-- A spend of two coins in the AB layout. -/
def oldCoinTx : CTransaction where
  nVersion := ANON_TXN_VERSION
  nTime := 1540000500
  vin := [redirectInput]
  vout := [⟨499990000, payToPubKeyHash 1⟩]
  nLockTime := 0

def oldCoinBlock : CBlock :=
  sealedBlock 12 1540000600 4
    [⟨1, 1540000600, [⟨.null, [1, 12], 0xFFFFFFFF⟩], [⟨0, []⟩], 0⟩, oldCoinTx]

/-- The old image of the first coin of the ring. -/
def oldCoinImage : Bytes := beBytes 33 0x03cb317544e542110b4f442ea84472e043082345e956a93c6b9ef744a3c1b1d566

/-- Both coins are recorded in block 1; the images of `spent` are recorded as well. -/
def oldCoinSession (spent : List Bytes) : Session Unit where
  disk := {
    txIndex := fun _ => none
    keyImages := fun k => if k ∈ spent then some ⟨7, 0, 5 * COIN, 2⟩ else none
    anonOutputs := fun pk => (redirectView.readAnonOutput pk).map fun ao => { ao with nBlockHeight := 1 }
    hashBestChain := none }
  batch := TxBatch.empty
  loc := ()
  supply _ := ⟨0, 0, 0⟩

def oldCoinConnect (spent : List Bytes) : Session Unit × Bool :=
  connectBlock (fileNode regTestParams []) (singleChain oldCoinIndex 1540001000) CTxMemPool.empty
    false (oldCoinSession spent) oldCoinBlock
    (⟨oldCoinBlock.getHash ⟨sha256d, fun _ => 0⟩, 1, 12000, 1540000600, 13⟩ :: oldCoinIndex)

private theorem oldCoinConnect_eval :
    (let r := oldCoinConnect [oldCoinImage]
    r.2 && (r.1.disk.keyImages redirectInput.extractKeyImage).isNone) = true := by
  simp only [oldCoinConnect, oldCoinBlock, fileNode_eq_eval, sealedBlock_eq_eval, sha256d_eq_eval]
  decide +kernel

/-- A ring with a coin whose old image is recorded: the block is accepted, and the image of the spend
is not recorded. -/
theorem oldCoinRing_notRecorded :
    (oldCoinConnect [oldCoinImage]).2 = true ∧ oldCoinTx ∈ oldCoinBlock.vtx ∧
      oldCoinTx.nVersion = ANON_TXN_VERSION ∧
      redirectInput.extractKeyImage ∈ oldCoinTx.keyImages ∧
      ¬ RecordedIn (oldCoinConnect [oldCoinImage]).1.disk oldCoinTx := by
  have heval := oldCoinConnect_eval
  simp only [Bool.and_eq_true, Option.isNone_iff_eq_none] at heval
  have hmem : redirectInput.extractKeyImage ∈ oldCoinTx.keyImages := by decide +kernel
  refine ⟨heval.1, List.mem_cons_of_mem _ List.mem_cons_self, rfl, hmem, fun hrecorded => ?_⟩
  have himage := hrecorded.1 _ hmem
  rw [heval.2] at himage
  exact Bool.false_ne_true himage

theorem recordable_of_plain {Pt L : Type} (env : NodeEnv Pt L) (c : ChainState) (loc : L)
    (tx : CTransaction) (st : AnonStore) (hplain : ∀ txin ∈ tx.vin, ¬ txin.isAnonInput) :
    Recordable env c loc tx st where
  notCoinBase _ := by simpa [CTransaction.keyImages, List.filter_eq_nil_iff] using hplain
  inputs before txin after hvin hanon := by
    refine absurd hanon (hplain txin ?_)
    rw [hvin]
    exact List.mem_append_right before List.mem_cons_self

def mintConnect : Session Unit × Bool :=
  connectBlock (testNode (minedFile.take 2)) (singleChain (minedIndex 1) 1530002000) CTxMemPool.empty false
    (fileSession (minedFile.take 2)) (minedChainBlock 2) (minedIndex 2)

/-- Block 2 records the coin that it mints. -/
theorem mintBlock_recorded : mintConnect.2 = true ∧ RecordedIn mintConnect.1.disk mintTx := by
  have haccept : mintConnect.2 = true := by
    simp only [mintConnect, fileSession, testNode_eq_eval, minedFile_eq_eval, minedChainBlock_eq_eval,
      BlockFile.txIndex_eq_eval]
    decide +kernel
  have hconnect : mintConnect = (mintConnect.1, true) := by rw [← haccept]
  have hmint : mintTx ∈ (minedChainBlock 2).vtx := by
    rw [minedChainBlock_eq_eval]
    decide +kernel
  have hiff := @connectBlock_records_iff _ _ (testNode (minedFile.take 2))
    (singleChain (minedIndex 1) 1530002000) CTxMemPool.empty (fileSession (minedFile.take 2)) mintConnect.1
    (minedChainBlock 2) (minedIndex 2) hconnect
  refine ⟨haccept, (hiff.mpr ?_).2 mintTx hmint rfl⟩
  intro pre tx post hsplit hversion
  apply recordable_of_plain
  have hmem : tx ∈ (minedChainBlock 2).vtx := by
    rw [hsplit]
    exact List.mem_append_right pre List.mem_cons_self
  have hall : ∀ tx ∈ (minedChainBlock 2).vtx, ∀ txin ∈ tx.vin, ¬ txin.isAnonInput := by
    rw [minedChainBlock_eq_eval]
    decide +kernel
  exact hall tx hmem

end OldCoin

end AliasWallet
