import AliasWallet.Wallet.AnonTransaction
import AliasWallet.Lib.Fold

/-!
# What the wallet writes

`ProcessAnonTransaction` in a block records every key image of the transaction under its hash and
otherwise touches only anonymous outputs; `UndoAnonTransaction` erases at most the images recorded
under that hash.
-/

namespace AliasWallet
open Lib

/-- The images of the anonymous inputs. -/
def CTransaction.keyImages (tx : CTransaction) : List Bytes :=
  (tx.vin.filter CTxIn.isAnonInput).map CTxIn.extractKeyImage

/-- Only anonymous outputs have changed. -/
structure OnlyOutputs (st st' : AnonStore) : Prop where
  txIndex : st'.disk.txIndex = st.disk.txIndex
  hashBestChain : st'.disk.hashBestChain = st.disk.hashBestChain
  keyImages : st'.disk.keyImages = st.disk.keyImages
  pool : st'.pool = st.pool

namespace OnlyOutputs

theorem refl (st : AnonStore) : OnlyOutputs st st := ⟨rfl, rfl, rfl, rfl⟩

theorem trans {st st' st'' : AnonStore} (h : OnlyOutputs st st') (h' : OnlyOutputs st' st'') :
    OnlyOutputs st st'' :=
  ⟨h'.txIndex.trans h.txIndex, h'.hashBestChain.trans h.hashBestChain,
    h'.keyImages.trans h.keyImages, h'.pool.trans h.pool⟩

theorem write (st : AnonStore) (pk : Bytes) (ao : CAnonOutput) :
    OnlyOutputs st (st.writeAnonOutput pk ao) := ⟨rfl, rfl, rfl, rfl⟩

end OnlyOutputs

section Process

variable {Pt L : Type} (env : NodeEnv Pt L) (c : ChainState) (loc : L) (fInBlock : Bool)
  (tx : CTransaction)

theorem processRingMember_outputs (vchImage pPubkeys : Bytes) (nRingSize ri : Nat)
    (s s' : AnonStore × Int64)
    (h : processRingMember env c fInBlock tx vchImage pPubkeys nRingSize ri s = some s') :
    OnlyOutputs s.1 s'.1 := by
  simp only [processRingMember, Option.bind_eq_bind, Option.bind_none, Option.bind_eq_some_iff,
    Option.ite_none_left_eq_some, Option.pure_def] at h
  obtain ⟨ao, -, -, -, -, h⟩ := h
  have hmark : ∀ (b : Bool) (pk : Bytes) (ao : CAnonOutput),
      OnlyOutputs s.1 (if b = true then s.1.writeAnonOutput pk ao else s.1) := by
    intro b pk ao
    cases b with
    | false => exact OnlyOutputs.refl s.1
    | true => exact OnlyOutputs.write s.1 pk ao
  split at h
  · rw [Option.some.injEq] at h
    rw [← h]
    exact (hmark _ _ _).trans (OnlyOutputs.write _ _ _)
  · rw [Option.some.injEq] at h
    rw [← h]
    exact hmark _ _ _

theorem processRing_outputs (vchImage pPubkeys : Bytes) (nRingSize : Nat) (st : AnonStore)
    (s' : AnonStore × Int64)
    (h : processRing env c fInBlock tx vchImage pPubkeys nRingSize st = some s') :
    OnlyOutputs st s'.1 := by
  refine foldlM_preserves (fun s : AnonStore × Int64 => OnlyOutputs st s.1) (List.range nRingSize)
    (st, -1) s' (OnlyOutputs.refl st) ?_ h
  intro s ri _ t hs hround
  exact hs.trans (processRingMember_outputs env c fInBlock tx vchImage pPubkeys nRingSize ri s t hround)

/-- An input that passes is recorded under the hash of the transaction. -/
theorem processAnonInput_records (nBlockHeight : Int) (txin : CTxIn) (i : Nat) (st st' : AnonStore)
    (h : processAnonInput env c loc true tx nBlockHeight txin i st = some st') :
    st'.disk.txIndex = st.disk.txIndex ∧ st'.disk.hashBestChain = st.disk.hashBestChain ∧
      ∃ ski, ski.txnHash = env.txid tx ∧ st'.disk.keyImages =
        Function.update st.disk.keyImages txin.extractKeyImage (some ski) := by
  simp only [processAnonInput, Option.bind_eq_bind, Option.bind_none, Option.bind_eq_some_iff,
    Option.ite_none_left_eq_some, Option.pure_def, Option.some.injEq] at h
  obtain ⟨-, -, -, -, s, hring, rfl⟩ := h
  have houtputs := processRing_outputs env c true tx _ _ _ st s hring
  exact ⟨houtputs.txIndex, houtputs.hashBestChain, _, rfl,
    congrArg (Function.update · txin.extractKeyImage _) houtputs.keyImages⟩

theorem processAnonOutput_outputs (nBlockHeight : Int) (txout : CTxOut) (i : Nat) (st st' : AnonStore)
    (h : processAnonOutput env fInBlock tx nBlockHeight txout i st = some st') :
    OnlyOutputs st st' := by
  simp only [processAnonOutput] at h
  cases hao : st.disk.anonOutputs (cpubKeyBytes txout.extractAnonPk) with
  | none =>
    simp only [hao, Option.some.injEq] at h
    rw [← h]
    exact OnlyOutputs.write _ _ _
  | some ao =>
    simp only [hao, Option.ite_none_right_eq_some, Option.some.injEq] at h
    rw [← h.2]
    exact OnlyOutputs.write _ _ _

/-- The given images are recorded under the hash of the transaction, all others are as before. -/
structure ImagesRecorded (images : List Bytes) (d d' : Disk) : Prop where
  txIndex : d'.txIndex = d.txIndex
  hashBestChain : d'.hashBestChain = d.hashBestChain
  own : ∀ k ∈ images, ∃ ski, d'.keyImages k = some ski ∧ ski.txnHash = env.txid tx
  others : ∀ k, k ∉ images → d'.keyImages k = d.keyImages k

private theorem processAnonInputs_records (nBlockHeight : Int) (l : List (CTxIn × Nat))
    (st st' : AnonStore)
    (h : l.foldlM (fun st e =>
      if e.1.isAnonInput then processAnonInput env c loc true tx nBlockHeight e.1 e.2 st else some st)
      st = some st') :
    ImagesRecorded env tx (((l.map Prod.fst).filter CTxIn.isAnonInput).map CTxIn.extractKeyImage)
      st.disk st'.disk := by
  induction l generalizing st with
  | nil =>
    obtain rfl : st = st' := by simpa using h
    exact ⟨rfl, rfl, by simp, fun _ _ => rfl⟩
  | cons e l ih =>
    rw [List.foldlM_cons, Option.bind_eq_bind, Option.bind_eq_some_iff] at h
    obtain ⟨st₁, hround, hl⟩ := h
    have hrest := ih st₁ hl
    by_cases hanon : e.1.isAnonInput
    · rw [if_pos hanon] at hround
      obtain ⟨hindex, hbest, ski, hski, himages⟩ :=
        processAnonInput_records env c loc tx nBlockHeight e.1 e.2 st st₁ hround
      simp only [List.map_cons, List.filter_cons_of_pos hanon]
      refine ⟨hrest.txIndex.trans hindex, hrest.hashBestChain.trans hbest, ?_, ?_⟩
      · intro k hk
        by_cases hlater : k ∈ ((l.map Prod.fst).filter CTxIn.isAnonInput).map CTxIn.extractKeyImage
        · exact hrest.own k hlater
        · obtain rfl : k = e.1.extractKeyImage := by simpa [hlater] using hk
          refine ⟨ski, ?_, hski⟩
          rw [hrest.others _ hlater, himages, Function.update_self]
      · intro k hk
        rw [List.mem_cons, not_or] at hk
        rw [hrest.others k hk.2, himages, Function.update_of_ne hk.1]
    · rw [if_neg hanon, Option.some.injEq] at hround
      subst hround
      simpa [hanon] using hrest

private theorem processAnonOutputs_outputs (nBlockHeight : Int) (l : List (CTxOut × Nat))
    (st st' : AnonStore)
    (h : l.foldlM (fun st e =>
      if e.1.isAnonOutput then processAnonOutput env fInBlock tx nBlockHeight e.1 e.2 st else some st)
      st = some st') : OnlyOutputs st st' := by
  refine foldlM_preserves (OnlyOutputs st) l st st' (OnlyOutputs.refl st) ?_ h
  intro t e _ t' ht hround
  by_cases hanon : e.1.isAnonOutput
  · rw [if_pos hanon] at hround
    exact ht.trans (processAnonOutput_outputs env fInBlock tx nBlockHeight e.1 e.2 t t' hround)
  · rw [if_neg hanon, Option.some.injEq] at hround
    rwa [← hround]

/-- The records after a transaction of a block. -/
theorem processAnonTransaction_records (nBlockHeight : Int) (st st' : AnonStore)
    (h : processAnonTransaction env c loc true tx nBlockHeight st = some st') :
    ImagesRecorded env tx tx.keyImages st.disk st'.disk := by
  rw [processAnonTransaction, Option.bind_eq_bind, Option.bind_eq_some_iff] at h
  obtain ⟨st₁, hinputs, houtputs⟩ := h
  have hin := processAnonInputs_records env c loc tx nBlockHeight tx.vin.zipIdx st st₁ hinputs
  have hout := processAnonOutputs_outputs env true tx nBlockHeight tx.vout.zipIdx st₁ st' houtputs
  rw [List.zipIdx_map_fst] at hin
  refine ⟨hout.txIndex.trans hin.txIndex, hout.hashBestChain.trans hin.hashBestChain, ?_, ?_⟩
  · intro k hk
    rw [hout.keyImages]
    exact hin.own k hk
  · intro k hk
    rw [hout.keyImages]
    exact hin.others k hk

theorem getRingSizeMinMax_le (p : ChainParams) (nTime : Int) :
    (getRingSizeMinMax p nTime).2 ≤ MAX_RING_SIZE := by
  unfold getRingSizeMinMax
  split
  · simp only [MIN_RING_SIZE, MAX_RING_SIZE]
    split <;> omega
  · exact le_rfl

/-- A coinbase with an anonymous input is never recorded: its null prevout stands for a ring of
65535 members. -/
theorem processAnonTransaction_coinBase (nBlockHeight : Int) (st : AnonStore) (hbase : tx.isCoinBase)
    (hanon : tx.keyImages ≠ []) :
    processAnonTransaction env c loc true tx nBlockHeight st = none := by
  unfold CTransaction.isCoinBase at hbase
  match hvin : tx.vin with
  | [] => simp [hvin] at hbase
  | _ :: _ :: _ => simp [hvin] at hbase
  | [txin] =>
    simp only [hvin, Bool.and_eq_true, COutPoint.isNull, beq_iff_eq] at hbase
    have hinput : txin.isAnonInput := by
      by_contra hplain
      simp [CTransaction.keyImages, hvin, hplain] at hanon
    have hsize : txin.extractRingSize > (getRingSizeMinMax env.p tx.nTime.toNat).2 := by
      have hle := getRingSizeMinMax_le env.p tx.nTime.toNat
      have hring : txin.extractRingSize = 65535 := by
        rw [CTxIn.extractRingSize, hbase.1.2]
        rfl
      simp only [MAX_RING_SIZE] at hle
      omega
    simp [processAnonTransaction, processAnonInput, hvin, hinput, hsize]

end Process

section Undo

variable {Pt L : Type} (env : NodeEnv Pt L) (pool : CTxMemPool) (loc : L) (tx : CTransaction)

/-- What `UndoAnonTransaction` may do: images recorded under another hash stay. -/
structure ImagesUndone (d d' : Disk) : Prop where
  txIndex : d'.txIndex = d.txIndex
  hashBestChain : d'.hashBestChain = d.hashBestChain
  kept : ∀ k ski, d.keyImages k = some ski → ski.txnHash ≠ env.txid tx → d'.keyImages k = some ski

theorem ImagesUndone.refl (d : Disk) : ImagesUndone env tx d d := ⟨rfl, rfl, fun _ _ h _ => h⟩

theorem ImagesUndone.trans {d d' d'' : Disk} (h : ImagesUndone env tx d d')
    (h' : ImagesUndone env tx d' d'') : ImagesUndone env tx d d'' :=
  ⟨h'.txIndex.trans h.txIndex, h'.hashBestChain.trans h.hashBestChain,
    fun k ski hk hne => h'.kept k ski (h.kept k ski hk hne) hne⟩

theorem undoAnonInput_undone (txin : CTxIn) (d : Disk) :
    ImagesUndone env tx d (undoAnonInput env pool loc tx txin d).1 := by
  simp only [undoAnonInput]
  cases hski : getKeyImage d pool txin.extractKeyImage with
  | none => exact ImagesUndone.refl env tx d
  | some ski =>
    by_cases hown : ski.txnHash = env.txid tx
    · simp only [hown, ne_eq, not_true_eq_false, if_false]
      refine ⟨rfl, rfl, ?_⟩
      intro k ski' hk hne
      by_cases hkey : k = txin.extractKeyImage
      · subst hkey
        rw [getKeyImage, hk, Option.some_or, Option.some.injEq] at hski
        exact absurd (hski ▸ hown) hne
      · simpa [hkey] using hk
    · simp only [hown, ne_eq, not_false_eq_true, if_true]
      exact ImagesUndone.refl env tx d

theorem undoAnonInputs_undone (vin : List CTxIn) (d : Disk) :
    ImagesUndone env tx d (undoAnonInputs env pool loc tx vin d).1 := by
  induction vin generalizing d with
  | nil => exact ImagesUndone.refl env tx d
  | cons txin vin ih =>
    have hone := undoAnonInput_undone env pool loc tx txin d
    unfold undoAnonInputs
    by_cases hanon : txin.isAnonInput
    · rw [if_pos hanon]
      cases hundo : undoAnonInput env pool loc tx txin d with
      | mk d₁ fOk =>
        rw [hundo] at hone
        cases fOk with
        | true => exact hone.trans env tx (ih d₁)
        | false => exact hone
    · rw [if_neg hanon]
      exact ih d

theorem undoAnonOutputs_undone (vout : List CTxOut) (d : Disk) :
    ImagesUndone env tx d (undoAnonOutputs vout d).1 := by
  induction vout generalizing d with
  | nil => exact ImagesUndone.refl env tx d
  | cons txout vout ih =>
    simp only [undoAnonOutputs]
    by_cases hanon : txout.isAnonOutput
    · rw [if_pos hanon]
      cases d.anonOutputs (cpubKeyBytes txout.extractAnonPk) with
      | none => exact ImagesUndone.refl env tx d
      | some ao =>
        have herase : ImagesUndone env tx d { d with
            anonOutputs := Function.update d.anonOutputs (cpubKeyBytes txout.extractAnonPk) none } :=
          ⟨rfl, rfl, fun _ _ h _ => h⟩
        exact herase.trans env tx (ih _)
    · rw [if_neg hanon]
      exact ih d

theorem undoAnonTransaction_undone (d : Disk) :
    ImagesUndone env tx d (undoAnonTransaction env pool loc tx d).1 := by
  have hin := undoAnonInputs_undone env pool loc tx tx.vin d
  unfold undoAnonTransaction
  cases hundo : undoAnonInputs env pool loc tx tx.vin d with
  | mk d₁ fOk =>
    rw [hundo] at hin
    cases fOk with
    | true => exact hin.trans env tx (undoAnonOutputs_undone env tx tx.vout d₁)
    | false => exact hin

end Undo

section Sync

variable {Pt L : Type} (env : NodeEnv Pt L) (c : ChainState) (pool : CTxMemPool)

/-- The wallet never writes the transaction index. -/
theorem syncConnect_txIndex (nBlockHeight : Int) (s : Disk × L) (tx : CTransaction) :
    (syncConnect env c pool nBlockHeight s tx).1.txIndex = s.1.txIndex := by
  unfold syncConnect
  by_cases hversion : tx.nVersion = ANON_TXN_VERSION
  · rw [if_pos hversion]
    cases hprocess : processAnonTransaction env c s.2 true tx nBlockHeight ⟨s.1, pool⟩ with
    | none => rfl
    | some st => exact (processAnonTransaction_records env c s.2 tx nBlockHeight ⟨s.1, pool⟩ st hprocess).txIndex
  · rw [if_neg hversion]

theorem syncDisconnect_undone (s : Disk × L) (tx : CTransaction) :
    ImagesUndone env tx s.1 (syncDisconnect env pool s tx).1 := by
  unfold syncDisconnect
  by_cases hversion : tx.nVersion = ANON_TXN_VERSION
  · rw [if_pos hversion]
    exact undoAnonTransaction_undone env pool s.2 tx s.1
  · rw [if_neg hversion]
    exact ImagesUndone.refl env tx s.1

theorem foldl_syncConnect_txIndex (nBlockHeight : Int) (vtx : List CTransaction) (s : Disk × L) :
    (vtx.foldl (syncConnect env c pool nBlockHeight) s).1.txIndex = s.1.txIndex := by
  induction vtx generalizing s with
  | nil => rfl
  | cons tx vtx ih =>
    rw [List.foldl_cons, ih]
    exact syncConnect_txIndex env c pool nBlockHeight s tx

theorem foldl_syncDisconnect_txIndex (vtx : List CTransaction) (s : Disk × L) :
    (vtx.foldl (syncDisconnect env pool) s).1.txIndex = s.1.txIndex := by
  induction vtx generalizing s with
  | nil => rfl
  | cons tx vtx ih =>
    rw [List.foldl_cons, ih]
    exact (syncDisconnect_undone env pool s tx).txIndex

/-- Transparent transactions change nothing in the database. -/
theorem foldl_syncConnect_transparent (nBlockHeight : Int) (vtx : List CTransaction) (s : Disk × L)
    (hplain : ∀ tx ∈ vtx, tx.nVersion ≠ ANON_TXN_VERSION) :
    (vtx.foldl (syncConnect env c pool nBlockHeight) s).1 = s.1 := by
  induction vtx generalizing s with
  | nil => rfl
  | cons tx vtx ih =>
    rw [List.foldl_cons, ih _ fun t ht => hplain t (List.mem_cons_of_mem tx ht), syncConnect,
      if_neg (hplain tx List.mem_cons_self)]

theorem foldl_syncDisconnect_transparent (vtx : List CTransaction) (s : Disk × L)
    (hplain : ∀ tx ∈ vtx, tx.nVersion ≠ ANON_TXN_VERSION) :
    (vtx.foldl (syncDisconnect env pool) s).1 = s.1 := by
  induction vtx generalizing s with
  | nil => rfl
  | cons tx vtx ih =>
    rw [List.foldl_cons, ih _ fun t ht => hplain t (List.mem_cons_of_mem tx ht), syncDisconnect,
      if_neg (hplain tx List.mem_cons_self)]

end Sync

end AliasWallet
