import AliasWallet.Wallet.AnonSpec
import AliasWallet.Chain.ConcreteNode

/-!
# Undoing an anonymous transaction

`UndoAnonTransaction` erases the key images and the outputs that `ProcessAnonTransaction` records. It
knows nothing of the coins that processing marked as compromised, nor of records that were there before.
-/

namespace AliasWallet
open Lib

section Marks

/-- The outputs under `P` have become compromised, all others are the same. -/
structure Compromises (P : Bytes → Prop) (d d' : Bytes → Option CAnonOutput) : Prop where
  marked : ∀ key, P key → ∃ ao, d key = some ao ∧ d' key = some { ao with nCompromised := 1 }
  others : ∀ key, ¬ P key → d' key = d key

namespace Compromises

variable {P Q : Bytes → Prop} {d d' d'' : Bytes → Option CAnonOutput}

theorem refl (d : Bytes → Option CAnonOutput) : Compromises (fun _ => False) d d where
  marked _ h := h.elim
  others _ _ := rfl

theorem congr (h : Compromises P d d') (hPQ : ∀ key, P key ↔ Q key) : Compromises Q d d' where
  marked key hkey := h.marked key ((hPQ key).mpr hkey)
  others key hkey := h.others key fun hP => hkey ((hPQ key).mp hP)

theorem trans (h : Compromises P d d') (h' : Compromises Q d' d'') :
    Compromises (fun key => P key ∨ Q key) d d'' := by
  constructor
  · intro key hkey
    by_cases hP : P key
    · obtain ⟨ao, hao, hao'⟩ := h.marked key hP
      refine ⟨ao, hao, ?_⟩
      by_cases hQ : Q key
      · obtain ⟨ao', hmid, hend⟩ := h'.marked key hQ
        obtain rfl := Option.some.inj (hao'.symm.trans hmid)
        exact hend
      · rw [h'.others key hQ, hao']
    · obtain ⟨ao, hao, hao'⟩ := h'.marked key (hkey.resolve_left hP)
      rw [h.others key hP] at hao
      exact ⟨ao, hao, hao'⟩
  · intro key hkey
    rw [not_or] at hkey
    rw [h'.others key hkey.2, h.others key hkey.1]

/-- One output, if the condition holds. -/
theorem update {key : Bytes} {ao : CAnonOutput} (hao : d key = some ao) (C : Prop) [Decidable C] :
    Compromises (fun key' => key' = key ∧ C) d
      (if C then Function.update d key (some { ao with nCompromised := 1 }) else d) := by
  by_cases hC : C
  · rw [if_pos hC]
    constructor
    · rintro key' ⟨rfl, -⟩
      exact ⟨ao, hao, Function.update_self _ _ _⟩
    · intro key' hkey
      exact Function.update_of_ne (fun heq => hkey ⟨heq, hC⟩) _ _
  · rw [if_neg hC]
    exact (refl d).congr fun key' => by simp [hC]

/-- Nothing has changed exactly when all marked outputs were compromised before. -/
theorem eq_iff (h : Compromises P d d') (key : Bytes) :
    d' key = d key ↔ ∀ ao, P key → d key = some ao → ao.nCompromised = 1 := by
  by_cases hP : P key
  · obtain ⟨ao, hao, hao'⟩ := h.marked key hP
    rw [hao, hao', Option.some.injEq]
    constructor
    · rintro heq ao' - hsome
      rw [← Option.some.inj hsome, ← heq]
    · intro hone
      rw [← hone ao hP rfl]
  · simp [h.others key hP, hP]

end Compromises

end Marks

section Process

variable {Pt L : Type} (env : NodeEnv Pt L) (c : ChainState) (loc : L) (tx : CTransaction)

theorem processRingMember_compromises (vchImage pPubkeys : Bytes) (nRingSize ri : Nat)
    (s s' : AnonStore × Int64)
    (h : processRingMember env c true tx vchImage pPubkeys nRingSize ri s = some s') :
    Compromises (fun key => key = cpubKeyBytes (Lib.slot EC_COMPRESSED_SIZE pPubkeys ri) ∧
        (nRingSize = 1 ∨
          isAnonCoinCompromised env s.1 (Lib.slot EC_COMPRESSED_SIZE pPubkeys ri) vchImage = true))
      s.1.disk.anonOutputs s'.1.disk.anonOutputs := by
  simp only [processRingMember, Option.bind_eq_bind, Option.bind_none, Option.bind_eq_some_iff,
    Option.ite_none_left_eq_some, Option.pure_def] at h
  obtain ⟨ao, hao, -, -, -, h⟩ := h
  have hmark : s'.1.disk.anonOutputs =
      if nRingSize = 1 ∨
          isAnonCoinCompromised env s.1 (Lib.slot EC_COMPRESSED_SIZE pPubkeys ri) vchImage = true then
        Function.update s.1.disk.anonOutputs (cpubKeyBytes (Lib.slot EC_COMPRESSED_SIZE pPubkeys ri))
          (some { ao with nCompromised := 1 })
      else s.1.disk.anonOutputs := by
    generalize isAnonCoinCompromised env s.1 (Lib.slot EC_COMPRESSED_SIZE pPubkeys ri) vchImage =
      fCompromised at h ⊢
    by_cases hone : nRingSize = 1
    · simp only [hone, and_self, if_true, Option.some.injEq, true_or] at h ⊢
      rw [← h]
      cases fCompromised <;> simp [AnonStore.writeAnonOutput]
    · simp only [hone, and_false, if_false, Option.some.injEq, false_or] at h ⊢
      rw [← h]
      cases fCompromised <;> simp [AnonStore.writeAnonOutput]
  rw [hmark]
  exact Compromises.update hao _

theorem isAnonCoinCompromised_onlyOutputs {st st' : AnonStore} (h : OnlyOutputs st st')
    (pk vchImage : Bytes) :
    isAnonCoinCompromised env st' pk vchImage = isAnonCoinCompromised env st pk vchImage := by
  simp only [isAnonCoinCompromised, getKeyImage, h.keyImages, h.pool]

/-- The members are all compared with the key images from before the ring. -/
theorem processRing_compromises (vchImage pPubkeys : Bytes) (nRingSize : Nat) (st : AnonStore)
    (s' : AnonStore × Int64)
    (h : processRing env c true tx vchImage pPubkeys nRingSize st = some s') :
    Compromises (fun key => ∃ ri < nRingSize, key = cpubKeyBytes (Lib.slot EC_COMPRESSED_SIZE pPubkeys ri) ∧
        (nRingSize = 1 ∨
          isAnonCoinCompromised env st (Lib.slot EC_COMPRESSED_SIZE pPubkeys ri) vchImage = true))
      st.disk.anonOutputs s'.1.disk.anonOutputs := by
  have hfold : ∀ (l : List Nat) (s : AnonStore × Int64), OnlyOutputs st s.1 →
      l.foldlM (fun s ri => processRingMember env c true tx vchImage pPubkeys nRingSize ri s) s =
        some s' →
      Compromises (fun key => ∃ ri ∈ l, key = cpubKeyBytes (Lib.slot EC_COMPRESSED_SIZE pPubkeys ri) ∧
          (nRingSize = 1 ∨
            isAnonCoinCompromised env st (Lib.slot EC_COMPRESSED_SIZE pPubkeys ri) vchImage = true))
        s.1.disk.anonOutputs s'.1.disk.anonOutputs := by
    intro l
    induction l with
    | nil =>
      intro s _ hl
      obtain rfl : s = s' := by simpa using hl
      exact (Compromises.refl _).congr fun key => by simp
    | cons ri l ih =>
      intro s hs hl
      rw [List.foldlM_cons, Option.bind_eq_bind, Option.bind_eq_some_iff] at hl
      obtain ⟨t, hround, hl⟩ := hl
      have hmember := processRingMember_compromises env c tx vchImage pPubkeys nRingSize ri s t hround
      rw [isAnonCoinCompromised_onlyOutputs env hs] at hmember
      have hrest := ih t (hs.trans
        (processRingMember_outputs env c true tx vchImage pPubkeys nRingSize ri s t hround)) hl
      refine (hmember.trans hrest).congr fun key => ?_
      simp
  refine (hfold _ _ (OnlyOutputs.refl st) h).congr fun key => ?_
  simp

/-- The coins of a ring that an input marks: all in a ring of one, otherwise those whose old image is
spent, by this input, by an earlier one or before. -/
def InputMarks (st : AnonStore) (earlier : List Bytes) (txin : CTxIn) (key : Bytes) : Prop :=
  ∃ ri < txin.extractRingSize, ∃ pk,
    pk = Lib.slot EC_COMPRESSED_SIZE (ringPubkeys txin.scriptSig txin.extractRingSize) ri ∧
    key = cpubKeyBytes pk ∧
    (txin.extractRingSize = 1 ∨ oldKeyImage env pk ∈ txin.extractKeyImage :: earlier ∨
      (getKeyImage st.disk st.pool (oldKeyImage env pk)).isSome)

/-- The images of the anonymous ones among some inputs. -/
def imagesOf (vin : List CTxIn) : List Bytes :=
  (vin.filter CTxIn.isAnonInput).map CTxIn.extractKeyImage

/-- The coins that the inputs mark. -/
def InputsMark (st : AnonStore) (earlier : List Bytes) (vin : List CTxIn) (key : Bytes) : Prop :=
  ∃ before txin after, vin = before ++ txin :: after ∧ txin.isAnonInput ∧
    InputMarks env st (earlier ++ imagesOf before) txin key

/-- What the inputs so far have done to the images. -/
structure ImagesAfter (st : AnonStore) (images : List Bytes) (st' : AnonStore) : Prop where
  pool : st'.pool = st.pool
  own : ∀ k ∈ images, (st'.disk.keyImages k).isSome
  others : ∀ k, k ∉ images → st'.disk.keyImages k = st.disk.keyImages k

theorem ImagesAfter.compromised {st st' : AnonStore} {images : List Bytes}
    (h : ImagesAfter st images st') (pk vchImage : Bytes) :
    isAnonCoinCompromised env st' pk vchImage = true ↔
      oldKeyImage env pk ∈ vchImage :: images ∨
        (getKeyImage st.disk st.pool (oldKeyImage env pk)).isSome := by
  simp only [isAnonCoinCompromised, getKeyImage, Bool.or_eq_true, beq_iff_eq, h.pool, List.mem_cons,
    eq_comm (a := vchImage)]
  by_cases hmem : oldKeyImage env pk ∈ images
  · have hsome := h.own _ hmem
    simp [hmem, hsome]
  · simp [hmem, h.others _ hmem]

theorem processAnonInput_effect (nBlockHeight : Int) (txin : CTxIn) (i : Nat) (st₀ st st' : AnonStore)
    (earlier : List Bytes) (hst : ImagesAfter st₀ earlier st)
    (h : processAnonInput env c loc true tx nBlockHeight txin i st = some st') :
    Compromises (InputMarks env st₀ earlier txin) st.disk.anonOutputs st'.disk.anonOutputs ∧
      ImagesAfter st₀ (earlier ++ [txin.extractKeyImage]) st' := by
  simp only [processAnonInput, Option.bind_eq_bind, Option.bind_none, Option.bind_eq_some_iff,
    Option.ite_none_left_eq_some, Option.pure_def, Option.some.injEq] at h
  obtain ⟨-, -, -, -, s, hring, rfl⟩ := h
  have houtputs := processRing_outputs env c true tx _ _ _ st s hring
  constructor
  · refine (processRing_compromises env c tx _ _ _ st s hring).congr fun key => ?_
    simp only [hst.compromised, InputMarks, exists_eq_left]
  · constructor
    · exact houtputs.pool.trans hst.pool
    · intro k hk
      simp only [AnonStore.writeKeyImage, if_true]
      by_cases hthis : k = txin.extractKeyImage
      · simp [hthis]
      · have hbefore : k ∈ earlier := by simpa [hthis] using hk
        simpa [hthis, houtputs.keyImages] using hst.own k hbefore
    · intro k hk
      simp only [List.mem_append, List.mem_singleton, not_or] at hk
      simp [AnonStore.writeKeyImage, hk.2, houtputs.keyImages, hst.others k hk.1]

theorem inputsMark_cons_of_pos {st : AnonStore} {earlier : List Bytes} {txin : CTxIn} {vin : List CTxIn}
    (hanon : txin.isAnonInput) (key : Bytes) :
    InputsMark env st earlier (txin :: vin) key ↔
      InputMarks env st earlier txin key ∨
        InputsMark env st (earlier ++ [txin.extractKeyImage]) vin key := by
  constructor
  · rintro ⟨before, txin', after, hvin, hanon', hmarks⟩
    cases before with
    | nil =>
      simp only [List.nil_append, List.cons.injEq] at hvin
      left
      simpa [imagesOf, hvin.1] using hmarks
    | cons x before =>
      simp only [List.cons_append, List.cons.injEq] at hvin
      right
      refine ⟨before, txin', after, hvin.2, hanon', ?_⟩
      simpa [imagesOf, ← hvin.1, hanon] using hmarks
  · rintro (hmarks | ⟨before, txin', after, rfl, hanon', hmarks⟩)
    · exact ⟨[], txin, vin, rfl, hanon, by simpa [imagesOf] using hmarks⟩
    · exact ⟨txin :: before, txin', after, rfl, hanon', by simpa [imagesOf, hanon] using hmarks⟩

theorem inputsMark_cons_of_neg {st : AnonStore} {earlier : List Bytes} {txin : CTxIn} {vin : List CTxIn}
    (hanon : ¬ txin.isAnonInput) (key : Bytes) :
    InputsMark env st earlier (txin :: vin) key ↔ InputsMark env st earlier vin key := by
  constructor
  · rintro ⟨before, txin', after, hvin, hanon', hmarks⟩
    cases before with
    | nil =>
      simp only [List.nil_append, List.cons.injEq] at hvin
      exact absurd (hvin.1 ▸ hanon') hanon
    | cons x before =>
      simp only [List.cons_append, List.cons.injEq] at hvin
      refine ⟨before, txin', after, hvin.2, hanon', ?_⟩
      simpa [imagesOf, ← hvin.1, hanon] using hmarks
  · rintro ⟨before, txin', after, rfl, hanon', hmarks⟩
    exact ⟨txin :: before, txin', after, rfl, hanon', by simpa [imagesOf, hanon] using hmarks⟩

/-- The inputs mark the coins of their rings. -/
theorem processAnonInputs_compromises (nBlockHeight : Int) (l : List (CTxIn × Nat))
    (st₀ st st' : AnonStore) (earlier : List Bytes) (hst : ImagesAfter st₀ earlier st)
    (h : l.foldlM (fun st e =>
      if e.1.isAnonInput then processAnonInput env c loc true tx nBlockHeight e.1 e.2 st else some st)
      st = some st') :
    Compromises (InputsMark env st₀ earlier (l.map Prod.fst)) st.disk.anonOutputs
      st'.disk.anonOutputs := by
  induction l generalizing st earlier with
  | nil =>
    obtain rfl : st = st' := by simpa using h
    exact (Compromises.refl _).congr fun key => by simp [InputsMark]
  | cons e l ih =>
    rw [List.foldlM_cons, Option.bind_eq_bind, Option.bind_eq_some_iff] at h
    obtain ⟨st₁, hround, hl⟩ := h
    by_cases hanon : e.1.isAnonInput
    · rw [if_pos hanon] at hround
      obtain ⟨hmarks, hafter⟩ :=
        processAnonInput_effect env c loc tx nBlockHeight e.1 e.2 st₀ st st₁ earlier hst hround
      refine (hmarks.trans (ih st₁ _ hafter hl)).congr fun key => ?_
      exact (inputsMark_cons_of_pos env hanon key).symm
    · rw [if_neg hanon, Option.some.injEq] at hround
      subst hround
      refine (ih st earlier hst hl).congr fun key => ?_
      exact (inputsMark_cons_of_neg env hanon key).symm

/-- The keys of the anonymous outputs. -/
def anonKeys (vout : List CTxOut) : List Bytes :=
  (vout.filter CTxOut.isAnonOutput).map fun txout => cpubKeyBytes txout.extractAnonPk

/-- The outputs are all recorded, and nothing else. -/
theorem processAnonOutputs_effect (nBlockHeight : Int) (l : List (CTxOut × Nat)) (st st' : AnonStore)
    (h : l.foldlM (fun st e =>
      if e.1.isAnonOutput then processAnonOutput env true tx nBlockHeight e.1 e.2 st else some st)
      st = some st') :
    (∀ key ∈ anonKeys (l.map Prod.fst), (st'.disk.anonOutputs key).isSome) ∧
      ∀ key, key ∉ anonKeys (l.map Prod.fst) →
        st'.disk.anonOutputs key = st.disk.anonOutputs key := by
  have hwrite : ∀ (st st' : AnonStore) (e : CTxOut × Nat),
      processAnonOutput env true tx nBlockHeight e.1 e.2 st = some st' →
        ∃ ao, st'.disk.anonOutputs =
          Function.update st.disk.anonOutputs (cpubKeyBytes e.1.extractAnonPk) (some ao) := by
    intro st st' e hround
    simp only [processAnonOutput, if_true] at hround
    split at hround <;> exact ⟨_, by rw [← Option.some.inj hround]; rfl⟩
  induction l generalizing st with
  | nil =>
    obtain rfl : st = st' := by simpa using h
    simp [anonKeys]
  | cons e l ih =>
    rw [List.foldlM_cons, Option.bind_eq_bind, Option.bind_eq_some_iff] at h
    obtain ⟨st₁, hround, hl⟩ := h
    obtain ⟨hown, hothers⟩ := ih st₁ hl
    by_cases hanon : e.1.isAnonOutput
    · rw [if_pos hanon] at hround
      obtain ⟨ao, hao⟩ := hwrite st st₁ e hround
      have hkeys : anonKeys ((e :: l).map Prod.fst) =
          cpubKeyBytes e.1.extractAnonPk :: anonKeys (l.map Prod.fst) := by simp [anonKeys, hanon]
      rw [hkeys]
      constructor
      · intro key hkey
        by_cases hlater : key ∈ anonKeys (l.map Prod.fst)
        · exact hown key hlater
        · obtain rfl : key = cpubKeyBytes e.1.extractAnonPk := by simpa [hlater] using hkey
          simp [hothers _ hlater, hao]
      · intro key hkey
        rw [List.mem_cons, not_or] at hkey
        rw [hothers key hkey.2, hao, Function.update_of_ne hkey.1]
    · rw [if_neg hanon, Option.some.injEq] at hround
      subst hround
      have hkeys : anonKeys ((e :: l).map Prod.fst) = anonKeys (l.map Prod.fst) := by
        simp [anonKeys, hanon]
      rw [hkeys]
      exact ⟨hown, hothers⟩

end Process

section Undo

variable {Pt L : Type} (env : NodeEnv Pt L) (pool : CTxMemPool) (loc : L) (tx : CTransaction)

/-- The image is gone or recorded under the hash of the transaction. -/
def OwnOrGone (d : Disk) (k : Bytes) : Prop :=
  d.keyImages k = none ∨ ∃ ski, d.keyImages k = some ski ∧ ski.txnHash = env.txid tx

theorem undoAnonInput_eq (txin : CTxIn) (d : Disk) (hown : OwnOrGone env tx d txin.extractKeyImage)
    (hknown : ownCoinKnown env loc txin.extractKeyImage) :
    undoAnonInput env pool loc tx txin d =
      ({ d with keyImages := Function.update d.keyImages txin.extractKeyImage none }, true) := by
  rcases hown with hgone | ⟨ski, hski, hhash⟩
  · have hsame : { d with keyImages := Function.update d.keyImages txin.extractKeyImage none } = d := by
      rw [← hgone, Function.update_eq_self]
    simp only [undoAnonInput, hknown, hsame]
    split
    · rfl
    · split <;> rfl
  · simp [undoAnonInput, getKeyImage, hski, hhash, hknown]

theorem undoAnonInputs_eq (vin : List CTxIn) (d : Disk)
    (hown : ∀ k ∈ imagesOf vin, OwnOrGone env tx d k)
    (hknown : ∀ k ∈ imagesOf vin, ownCoinKnown env loc k) :
    undoAnonInputs env pool loc tx vin d =
      ({ d with keyImages := fun k => if k ∈ imagesOf vin then none else d.keyImages k }, true) := by
  induction vin generalizing d with
  | nil => simp [undoAnonInputs, imagesOf]
  | cons txin vin ih =>
    rw [undoAnonInputs]
    by_cases hanon : txin.isAnonInput
    · have himages : imagesOf (txin :: vin) = txin.extractKeyImage :: imagesOf vin := by
        simp [imagesOf, hanon]
      rw [himages] at hown hknown
      rw [if_pos hanon, undoAnonInput_eq env pool loc tx txin d (hown _ List.mem_cons_self)
        (hknown _ List.mem_cons_self)]
      simp only
      rw [ih]
      · rw [himages]
        congr 2
        funext k
        by_cases hk : k = txin.extractKeyImage <;> simp [hk]
      · intro k hk
        by_cases hthis : k = txin.extractKeyImage
        · exact .inl (by simp [hthis])
        · simpa [OwnOrGone, hthis] using hown k (List.mem_cons_of_mem _ hk)
      · intro k hk
        exact hknown k (List.mem_cons_of_mem _ hk)
    · have himages : imagesOf (txin :: vin) = imagesOf vin := by simp [imagesOf, hanon]
      rw [himages] at hown hknown
      rw [if_neg hanon, ih d hown hknown, himages]

/-- Different outputs that are all there are erased. -/
theorem undoAnonOutputs_eq (vout : List CTxOut) (d : Disk) (hnodup : (anonKeys vout).Nodup)
    (hthere : ∀ key ∈ anonKeys vout, (d.anonOutputs key).isSome) :
    undoAnonOutputs vout d =
      ({ d with anonOutputs := fun key => if key ∈ anonKeys vout then none else d.anonOutputs key },
        true) := by
  induction vout generalizing d with
  | nil => simp [undoAnonOutputs, anonKeys]
  | cons txout vout ih =>
    simp only [undoAnonOutputs]
    by_cases hanon : txout.isAnonOutput
    · have hkeys : anonKeys (txout :: vout) = cpubKeyBytes txout.extractAnonPk :: anonKeys vout := by
        simp [anonKeys, hanon]
      rw [hkeys] at hnodup hthere
      obtain ⟨ao, hao⟩ := Option.isSome_iff_exists.mp (hthere _ List.mem_cons_self)
      simp only [hanon, if_true, hao]
      rw [ih]
      · rw [hkeys]
        congr 2
        funext key
        by_cases hkey : key = cpubKeyBytes txout.extractAnonPk <;> simp [hkey]
      · exact (List.nodup_cons.mp hnodup).2
      · intro key hkey
        have hne : key ≠ cpubKeyBytes txout.extractAnonPk := by
          rintro rfl
          exact (List.nodup_cons.mp hnodup).1 hkey
        simpa [hne] using hthere key (List.mem_cons_of_mem _ hkey)
    · have hkeys : anonKeys (txout :: vout) = anonKeys vout := by simp [anonKeys, hanon]
      rw [hkeys] at hnodup hthere
      simp only [hanon, Bool.false_eq_true, if_false]
      rw [ih d hnodup hthere, hkeys]

end Undo

section Exact

variable {Pt L : Type} (env : NodeEnv Pt L)

/-- What the records must be before a transaction for its undoing to restore them: no record of its
images and outputs, and no coin left to mark. -/
structure Restorable (st : AnonStore) (tx : CTransaction) : Prop where
  images : ∀ k ∈ tx.keyImages, st.disk.keyImages k = none
  outputs : ∀ key ∈ anonKeys tx.vout, st.disk.anonOutputs key = none
  members : ∀ key ao, InputsMark env st [] tx.vin key → st.disk.anonOutputs key = some ao →
    ao.nCompromised = 1

/-- Undoing a transaction of a block restores the records exactly when they were restorable. -/
theorem undoAnonTransaction_restores_iff (c : ChainState) (loc loc' : L) (pool' : CTxMemPool)
    (tx : CTransaction) (nBlockHeight : Int) (st st' : AnonStore) (hcheck : tx.checkAnonOutputs env.p)
    (hprocess : processAnonTransaction env c loc true tx nBlockHeight st = some st')
    (hknown : ∀ k ∈ tx.keyImages, ownCoinKnown env loc' k) :
    ((undoAnonTransaction env pool' loc' tx st'.disk).1.keyImages = st.disk.keyImages ∧
        (undoAnonTransaction env pool' loc' tx st'.disk).1.anonOutputs = st.disk.anonOutputs) ↔
      Restorable env st tx := by
  have hrecords := processAnonTransaction_records env c loc tx nBlockHeight st st' hprocess
  rw [processAnonTransaction, Option.bind_eq_bind, Option.bind_eq_some_iff] at hprocess
  obtain ⟨st₁, hinputs, houtputs⟩ := hprocess
  have hmarks := processAnonInputs_compromises env c loc tx nBlockHeight tx.vin.zipIdx st st st₁ []
    ⟨rfl, by simp, fun _ _ => rfl⟩ hinputs
  obtain ⟨hthere, hothers⟩ := processAnonOutputs_effect env tx nBlockHeight tx.vout.zipIdx st₁ st' houtputs
  rw [List.zipIdx_map_fst] at hmarks hthere hothers
  have hnodup : (anonKeys tx.vout).Nodup := by
    simp only [CTransaction.checkAnonOutputs, Bool.and_eq_true, decide_eq_true_eq] at hcheck
    exact hcheck.2
  have hundo : (undoAnonTransaction env pool' loc' tx st'.disk).1 = { st'.disk with
      keyImages := fun k => if k ∈ tx.keyImages then none else st'.disk.keyImages k
      anonOutputs := fun key =>
        if key ∈ anonKeys tx.vout then none else st'.disk.anonOutputs key } := by
    rw [undoAnonTransaction, undoAnonInputs_eq env pool' loc' tx tx.vin st'.disk
      (fun k hk => .inr (hrecords.own k hk)) hknown]
    simp only
    rw [undoAnonOutputs_eq tx.vout _ hnodup]
    · rfl
    · exact hthere
  rw [hundo]
  constructor
  · rintro ⟨himages, hkeys⟩
    constructor
    · intro k hk
      rw [← congrFun himages k]
      simp [hk]
    · intro key hkey
      rw [← congrFun hkeys key]
      simp [hkey]
    · intro key ao hmark hao
      have hkey := congrFun hkeys key
      by_cases hout : key ∈ anonKeys tx.vout
      · simp [hout, hao] at hkey
      · simp only [hout, if_false, hothers key hout] at hkey
        exact (hmarks.eq_iff key).mp hkey ao hmark hao
  · intro hrestorable
    constructor
    · funext k
      by_cases hk : k ∈ tx.keyImages
      · simp [hk, hrestorable.images k hk]
      · simp [hk, hrecords.others k hk]
    · funext key
      by_cases hkey : key ∈ anonKeys tx.vout
      · simp [hkey, hrestorable.outputs key hkey]
      · simp only [hkey, if_false, hothers key hkey]
        exact (hmarks.eq_iff key).mpr fun ao => hrestorable.members key ao

end Exact

section Scene

def spendChain : ChainState := singleChain (minedIndex 12) 1530002000

/-- The coin of a ring of one stays marked. -/
theorem coinSpend_staysMarked :
    ¬ ∀ (st st' : AnonStore) (tx : CTransaction), tx.checkAnonOutputs testNetParams →
      processAnonTransaction (testNode minedFile) spendChain () true tx 13 st = some st' →
      (undoAnonTransaction (testNode minedFile) st.pool () tx st'.disk).1.keyImages = st.disk.keyImages ∧
        (undoAnonTransaction (testNode minedFile) st.pool () tx st'.disk).1.anonOutputs =
          st.disk.anonOutputs := by
  intro hall
  have hrun : (processAnonTransaction (testNode minedFile) spendChain () true firstSpend 13
      ⟨minedDisk, CTxMemPool.empty⟩).map (fun st' =>
        ((undoAnonTransaction (testNode minedFile) CTxMemPool.empty () firstSpend st'.disk).1.anonOutputs
          coinPk).map CAnonOutput.nCompromised) = some (some 1) := by
    decide +kernel
  obtain ⟨st', hprocess, hmark⟩ := Option.map_eq_some_iff.mp hrun
  have hsame := (hall ⟨minedDisk, CTxMemPool.empty⟩ st' firstSpend (by decide) hprocess).2
  rw [hsame] at hmark
  revert hmark
  decide +kernel

/-- The mint of block 2 is undone. -/
theorem mintTx_restored :
    ∃ st', processAnonTransaction (testNode minedFile) (singleChain (minedIndex 1) 1530002000) () true
        mintTx 2 ⟨⟨fun _ => none, fun _ => none, fun _ => none, none⟩, CTxMemPool.empty⟩ = some st' ∧
      (st'.disk.anonOutputs coinPk).isSome ∧
      (undoAnonTransaction (testNode minedFile) CTxMemPool.empty () mintTx st'.disk).1.anonOutputs =
        fun _ => none := by
  have hrun : (processAnonTransaction (testNode minedFile) (singleChain (minedIndex 1) 1530002000) () true
      mintTx 2 ⟨⟨fun _ => none, fun _ => none, fun _ => none, none⟩, CTxMemPool.empty⟩).map (fun st' =>
        (st'.disk.anonOutputs coinPk).isSome) = some true := by
    decide +kernel
  obtain ⟨st', hprocess, hsome⟩ := Option.map_eq_some_iff.mp hrun
  refine ⟨st', hprocess, hsome, ?_⟩
  apply ((undoAnonTransaction_restores_iff (testNode minedFile) _ () () CTxMemPool.empty mintTx 2 _ st'
    (by decide) hprocess (by decide)).mpr ⟨by simp, by simp, by simp⟩).2

end Scene

end AliasWallet
