import AliasWallet.Lib.WrappingSum
import AliasWallet.Anon.OutputBinding
import AliasWallet.Wallet.AnonSpec
import AliasWallet.Chain.ConnectSpec
import AliasWallet.Chain.ConcreteNode

/-!
# Value conservation

What a connected transaction pays out is covered by its inputs over the integers. The output values
and the transparent inputs are tested after each addition; the sum over the rings is not, but it can
only lose by wrapping.
-/

namespace AliasWallet
open Lib

section Amounts

variable (tx : CTransaction)

/-- The output values, over the integers. -/
def CTransaction.paidOut : Int := (tx.vout.map fun txout => txout.nValue.toInt).sum

/-- The value of the output that a transparent input spends. -/
def spentValue (inputs : MapPrevTx) (txin : CTxIn) : Int :=
  ((getOutputFor inputs txin).map fun txout => txout.nValue.toInt).getD 0

/-- The value of a ring: that of its first member. -/
def ringValue (v : AnonView) (txin : CTxIn) : Int :=
  ((ringMember v txin 0).map fun ao => ao.nValue.toInt).getD 0

/-- The inputs that `ConnectInputs` leaves to `CheckAnonInputs`. -/
def CTransaction.ringInputs : List CTxIn := tx.vin.filter tx.skipsInput

end Amounts

section Outputs

variable (tx : CTransaction)

theorem checkOutputs_sum (fMarkers : Bool) (vout : List CTxOut) (nValueOut : Int64)
    (hsum : 0 ≤ nValueOut) (h : CTransaction.checkOutputs fMarkers vout nValueOut) :
    0 ≤ (vout.map fun txout => txout.nValue.toInt).sum ∧
      nValueOut.toInt + (vout.map fun txout => txout.nValue.toInt).sum < 2 ^ 63 := by
  induction vout generalizing nValueOut with
  | nil =>
    have hlt := nValueOut.toInt_lt
    simpa using hlt
  | cons txout vout ih =>
    simp only [CTransaction.checkOutputs, moneyRange, Bool.and_eq_true, decide_eq_true_eq] at h
    obtain ⟨⟨⟨⟨-, hvalue⟩, -⟩, hnext, -⟩, hrest⟩ := h
    have hexact := toInt_add_of_nonneg nValueOut txout.nValue hsum hvalue hnext
    have htail := ih (nValueOut + txout.nValue) hnext hrest
    have hpos := toInt_nonneg hvalue
    simp only [List.map_cons, List.sum_cons]
    omega

/-- Past `CheckTransaction` the sum of `GetValueOut` does not wrap. -/
theorem getValueOut_toInt (p : ChainParams) (h : tx.checkTransaction p) :
    tx.getValueOut.toInt = tx.paidOut := by
  simp only [CTransaction.checkTransaction, Bool.and_eq_true] at h
  obtain ⟨⟨⟨⟨-, houtputs⟩, -⟩, -⟩, -⟩ := h
  have hsum := checkOutputs_sum _ tx.vout 0 (by decide) houtputs
  have hmap : (tx.vout.map CTxOut.nValue).map Int64.toInt = tx.vout.map fun txout => txout.nValue.toInt := by
    rw [List.map_map]
    rfl
  rw [CTransaction.getValueOut, toInt_sum, hmap, CTransaction.paidOut]
  refine Int.bmod_eq_of_le ?_ ?_
  · omega
  · have hzero : (0 : Int64).toInt = 0 := rfl
    omega

end Outputs

section Inputs

variable {Pt L : Type} (env : NodeEnv Pt L) (pindexBlock : CBlockIndex) (tx : CTransaction)

/-- A round of the first loop of `ConnectInputs`. -/
theorem checkInputValue_sum (inputs : MapPrevTx) (nValueIn nValueIn' : Int64) (txin : CTxIn)
    (hsum : 0 ≤ nValueIn) (h : checkInputValue env pindexBlock tx inputs nValueIn txin = some nValueIn') :
    0 ≤ nValueIn' ∧ nValueIn'.toInt =
      nValueIn.toInt + if tx.skipsInput txin then 0 else spentValue inputs txin := by
  by_cases hskip : tx.skipsInput txin
  · simp only [checkInputValue, hskip, if_true, Option.pure_def, Option.some.injEq] at h
    subst h
    simpa [hskip] using hsum
  · simp only [checkInputValue, hskip, Bool.false_eq_true, if_false, Option.bind_eq_bind,
      Option.bind_eq_some_iff, Prod.exists, Option.pure_def, Option.bind_none,
      Option.ite_none_left_eq_some] at h
    obtain ⟨txindex, txPrev, hprev, txout, hout, -, -, h⟩ := h
    have hranges : (moneyRange txout.nValue && moneyRange (nValueIn + txout.nValue)) = true ∧
        nValueIn + txout.nValue = nValueIn' := by
      split at h
      · simp only [Option.ite_none_left_eq_some, Option.ite_none_right_eq_some, Option.some.injEq] at h
        exact h.2.2
      · simpa only [Option.ite_none_right_eq_some, Option.some.injEq] using h
    obtain ⟨hmoney, rfl⟩ := hranges
    simp only [moneyRange, Bool.and_eq_true, decide_eq_true_eq] at hmoney
    obtain ⟨⟨hvalue, -⟩, hnext, -⟩ := hmoney
    refine ⟨hnext, ?_⟩
    rw [toInt_add_of_nonneg nValueIn txout.nValue hsum hvalue hnext, if_neg hskip]
    simp [spentValue, getOutputFor, hprev, hout]

/-- The first loop of `ConnectInputs` adds the transparent inputs up without wrapping. -/
theorem checkInputValues_sum (inputs : MapPrevTx) (vin : List CTxIn) (nValueIn nValueIn' : Int64)
    (hsum : 0 ≤ nValueIn)
    (h : vin.foldlM (checkInputValue env pindexBlock tx inputs) nValueIn = some nValueIn') :
    0 ≤ nValueIn' ∧ nValueIn'.toInt = nValueIn.toInt +
      ((vin.filter fun txin => !tx.skipsInput txin).map (spentValue inputs)).sum := by
  induction vin generalizing nValueIn with
  | nil =>
    simp only [List.foldlM_nil, Option.pure_def, Option.some.injEq] at h
    simpa [h] using hsum
  | cons txin vin ih =>
    simp only [List.foldlM_cons, Option.bind_eq_bind, Option.bind_eq_some_iff] at h
    obtain ⟨nNext, hround, hrest⟩ := h
    obtain ⟨hnext, hvalue⟩ := checkInputValue_sum env pindexBlock tx inputs nValueIn nNext txin hsum hround
    obtain ⟨hlast, htotal⟩ := ih nNext hnext hrest
    refine ⟨hlast, ?_⟩
    rw [htotal, hvalue]
    by_cases hskip : tx.skipsInput txin
    · simp [hskip]
    · simp [hskip, add_assoc]

theorem getRingSizeMinMax_pos (p : ChainParams) (nTime : Int) : 0 < (getRingSizeMinMax p nTime).1 := by
  unfold getRingSizeMinMax
  split
  · exact (by decide : 0 < MIN_RING_SIZE)
  · exact Nat.one_pos

/-- The ring of an accepted input has one value, and the check returns it. -/
theorem checkAnonInput_ringValue (p : ChainParams) (E : Curve Pt) (hash : HashFn) (v : AnonView)
    (hv : v.NonNegative) (fCheckExists : Bool) (preimage : UInt256) (txin : CTxIn) (i : Nat)
    (nCoinValue : Int64)
    (h : checkAnonInput p E hash v tx fCheckExists preimage txin i = .ok nCoinValue) :
    nCoinValue.toInt = ringValue v txin ∧ 0 ≤ ringValue v txin ∧
      ∀ ri < txin.extractRingSize, (ringMember v txin ri).map (fun ao => ao.nValue.toInt) =
        some (ringValue v txin) := by
  obtain ⟨hsize, hmembers⟩ := checkAnonInput_value p E hash v tx fCheckExists preimage txin i hv _ h
  have hpos := (getRingSizeMinMax_pos p tx.nTime.toNat).trans_le hsize
  obtain ⟨ao, hao, rfl⟩ := hmembers 0 hpos
  have hvalue : ringValue v txin = ao.nValue.toInt := by simp [ringValue, hao]
  refine ⟨hvalue.symm, hvalue ▸ toInt_nonneg (hv _ _ hao), fun ri hri => ?_⟩
  obtain ⟨ao', hao', hsame⟩ := hmembers ri hri
  simp [hao', hsame, hvalue]

/-- `CheckAnonInputs` adds the ring values up, wrapping. -/
theorem checkAnonInputsFrom_sum (p : ChainParams) (E : Curve Pt) (hash : HashFn) (v : AnonView)
    (hv : v.NonNegative) (fCheckExists : Bool) (preimage : UInt256) (vin : List CTxIn) (i : Nat)
    (nSumValue nSumValue' : Int64)
    (h : checkAnonInputsFrom p E hash v tx fCheckExists preimage vin i nSumValue = .ok nSumValue') :
    nSumValue'.toInt.bmod (2 ^ 64) =
        (nSumValue.toInt + ((vin.filter CTxIn.isAnonInput).map (ringValue v)).sum).bmod (2 ^ 64) ∧
      ∀ txin ∈ vin, txin.isAnonInput → 0 ≤ ringValue v txin ∧
        ∀ ri < txin.extractRingSize, (ringMember v txin ri).map (fun ao => ao.nValue.toInt) =
          some (ringValue v txin) := by
  induction vin generalizing i nSumValue with
  | nil =>
    simp only [checkAnonInputsFrom, Except.ok.injEq] at h
    simp [h]
  | cons txin vin ih =>
    unfold checkAnonInputsFrom at h
    by_cases hanon : txin.isAnonInput
    · rw [if_pos hanon] at h
      obtain ⟨nCoinValue, hinput, hrest⟩ := (bind_eq_ok_iff _ _ _).mp h
      obtain ⟨hvalue, hring⟩ := checkAnonInput_ringValue tx p E hash v hv fCheckExists preimage txin i
        nCoinValue hinput
      obtain ⟨hsum, hall⟩ := ih (i + 1) (nSumValue + nCoinValue) hrest
      refine ⟨?_, ?_⟩
      · rw [hsum, Int64.toInt_add, Int.bmod_add_bmod, hvalue, List.filter_cons_of_pos hanon,
          List.map_cons, List.sum_cons, add_assoc]
      · intro t ht hanon'
        rcases List.mem_cons.mp ht with rfl | ht
        · exact hring
        · exact hall t ht hanon'
    · rw [if_neg hanon] at h
      obtain ⟨hsum, hall⟩ := ih (i + 1) nSumValue h
      refine ⟨?_, ?_⟩
      · rw [hsum, List.filter_cons_of_neg hanon]
      · intro t ht hanon'
        rcases List.mem_cons.mp ht with rfl | ht
        · exact absurd hanon' hanon
        · exact hall t ht hanon'

/-- The anonymous part of the value that `ConnectInputs` compares. -/
theorem anonValueIn_sum (view : AnonView) (hv : view.NonNegative) (nSumAnon : Int64)
    (h : anonValueIn env tx view = some nSumAnon) :
    nSumAnon.toInt.bmod (2 ^ 64) = ((tx.ringInputs.map (ringValue view)).sum).bmod (2 ^ 64) ∧
      ∀ txin ∈ tx.ringInputs, 0 ≤ ringValue view txin ∧
        ∀ ri < txin.extractRingSize, (ringMember view txin ri).map (fun ao => ao.nValue.toInt) =
          some (ringValue view txin) := by
  unfold anonValueIn at h
  by_cases hversion : tx.nVersion = ANON_TXN_VERSION
  · have hinputs : tx.ringInputs = tx.vin.filter CTxIn.isAnonInput := by
      refine List.filter_congr fun txin _ => ?_
      simp [CTransaction.skipsInput, hversion]
    rw [if_pos hversion] at h
    have hok : checkAnonInputs env.p env.E env.C.hash view tx true = .ok nSumAnon := by
      cases hcheck : checkAnonInputs env.p env.E env.C.hash view tx true with
      | error e => simp [hcheck, Except.toOption] at h
      | ok n =>
        simp only [hcheck, Except.toOption, Option.some.injEq] at h
        rw [h]
    unfold checkAnonInputs at hok
    split at hok
    · cases hok
    · obtain ⟨hsum, hall⟩ := checkAnonInputsFrom_sum tx env.p env.E env.C.hash view hv true _ tx.vin 0 0
        nSumAnon hok
      refine ⟨?_, ?_⟩
      · rw [hsum, hinputs]
        simp
      · intro txin htxin
        rw [hinputs, List.mem_filter] at htxin
        exact hall txin htxin.1 htxin.2
  · have hinputs : tx.ringInputs = [] := by
      simp [CTransaction.ringInputs, CTransaction.skipsInput, hversion]
    rw [if_neg hversion, Option.some.injEq] at h
    rw [hinputs, ← h]
    exact ⟨rfl, fun txin htxin => by cases htxin⟩

/-- A connected transaction pays out no more than its transparent inputs and its rings are worth, and
each of its rings has one value. -/
theorem connectInputs_conserves (c : ChainState) (view : AnonView) (inputs : MapPrevTx)
    (mapTestPool : MapTestPool) (posThisTx : CDiskTxPos) (fBlock : Bool) (flags : ScriptFlags)
    (hv : view.NonNegative) (hbase : ¬ tx.isCoinBase) (hstake : ¬ tx.isCoinStake)
    (hcheck : tx.checkTransaction env.p)
    (h : (connectInputs env c pindexBlock tx view inputs mapTestPool posThisTx fBlock flags).isSome) :
    tx.paidOut ≤ (tx.transparentInputs.map (spentValue inputs)).sum +
        (tx.ringInputs.map (ringValue view)).sum ∧
      ∀ txin ∈ tx.ringInputs, ∀ ri < txin.extractRingSize,
        (ringMember view txin ri).map (fun ao => ao.nValue.toInt) = some (ringValue view txin) := by
  obtain ⟨mapTestPool', h⟩ := Option.isSome_iff_exists.mp h
  simp only [connectInputs, hbase, if_false, Option.bind_eq_bind, Option.bind_eq_some_iff,
    Bool.false_eq_true, Prod.exists, Option.ite_none_right_eq_some] at h
  obtain ⟨nValueIn, hvalues, -, -, -, nSumAnon, hanon, hfees, -⟩ := h
  obtain ⟨hpos, htransparent⟩ := checkInputValues_sum env pindexBlock tx inputs tx.vin 0 nValueIn
    (by decide) hvalues
  obtain ⟨hrings, hall⟩ := anonValueIn_sum env tx view hv nSumAnon hanon
  refine ⟨?_, fun txin htxin => (hall txin htxin).2⟩
  have hsum : 0 ≤ (tx.transparentInputs.map (spentValue inputs)).sum +
      (tx.ringInputs.map (ringValue view)).sum := by
    have hleft : nValueIn.toInt = (tx.transparentInputs.map (spentValue inputs)).sum := by
      rw [htransparent]
      exact zero_add _
    have hright : 0 ≤ (tx.ringInputs.map (ringValue view)).sum := by
      apply List.sum_nonneg
      intro x hx
      obtain ⟨txin, htxin, rfl⟩ := List.mem_map.mp hx
      exact (hall txin htxin).1
    rw [← hleft]
    exact add_nonneg (toInt_nonneg hpos) hright
  simp only [checkFees, hstake, Bool.false_or, Bool.and_eq_true, decide_eq_true_eq] at hfees
  calc tx.paidOut
      = tx.getValueOut.toInt := (getValueOut_toInt tx env.p hcheck).symm
    _ ≤ (nValueIn + nSumAnon).toInt := Int64.le_iff_toInt_le.mp hfees.1.1.1
    _ = (nValueIn.toInt + nSumAnon.toInt.bmod (2 ^ 64)).bmod (2 ^ 64) := by
      rw [Int64.toInt_add, Int.add_bmod_bmod]
    _ = ((tx.transparentInputs.map (spentValue inputs)).sum +
          (tx.ringInputs.map (ringValue view)).sum).bmod (2 ^ 64) := by
      rw [hrings, Int.add_bmod_bmod, htransparent]
      simp [CTransaction.transparentInputs]
    _ ≤ _ := bmod_le_self _ hsum

end Inputs

section Records

variable {Pt L : Type} (env : NodeEnv Pt L) (c : ChainState) (loc : L) (fInBlock : Bool)
  (tx : CTransaction)

/-- No anonymous output is recorded with a negative value. -/
def NonNegativeRecords (d : Disk) : Prop := ∀ pk ao, d.anonOutputs pk = some ao → 0 ≤ ao.nValue

/-- What the checks of a session read. -/
theorem NonNegativeRecords.view {d : Disk} (h : NonNegativeRecords d) (pool : CTxMemPool)
    (readTxIndex : UInt256 → Option CTxIndex) : (env.anonView c pool d readTxIndex).NonNegative := h

theorem NonNegativeRecords.write {st : AnonStore} (h : NonNegativeRecords st.disk) (key : Bytes)
    (ao : CAnonOutput) (hao : 0 ≤ ao.nValue) : NonNegativeRecords (st.writeAnonOutput key ao).disk := by
  intro pk ao' hread
  by_cases hkey : pk = key
  · have hnew : ao = ao' := by simpa [AnonStore.writeAnonOutput, hkey] using hread
    rwa [← hnew]
  · exact h pk ao' (by simpa [AnonStore.writeAnonOutput, hkey] using hread)

theorem NonNegativeRecords.erase {d : Disk} (h : NonNegativeRecords d) (key : Bytes) :
    NonNegativeRecords { d with anonOutputs := Function.update d.anonOutputs key none } := by
  intro pk ao hread
  by_cases hkey : pk = key
  · simp [hkey] at hread
  · exact h pk ao (by simpa [hkey] using hread)

theorem processRingMember_nonNegative (vchImage pPubkeys : Bytes) (nRingSize ri : Nat)
    (s s' : AnonStore × Int64) (hs : NonNegativeRecords s.1.disk)
    (h : processRingMember env c fInBlock tx vchImage pPubkeys nRingSize ri s = some s') :
    NonNegativeRecords s'.1.disk := by
  simp only [processRingMember, Option.bind_eq_bind, Option.bind_none, Option.bind_eq_some_iff,
    Option.ite_none_left_eq_some, Option.pure_def] at h
  obtain ⟨ao, hao, -, -, -, h⟩ := h
  have hvalue : 0 ≤ ao.nValue := hs _ ao hao
  -- the mark of a compromised coin leaves its value alone
  generalize isAnonCoinCompromised env s.1 (Lib.slot EC_COMPRESSED_SIZE pPubkeys ri) vchImage =
    fCompromised at h
  cases fCompromised with
  | false =>
    simp only [Bool.false_eq_true, if_false] at h
    split at h
    · rw [← Option.some.inj h]
      exact hs.write _ _ hvalue
    · rw [← Option.some.inj h]
      exact hs
  | true =>
    simp only [if_true] at h
    split at h
    · rw [← Option.some.inj h]
      apply NonNegativeRecords.write
      · exact hs.write _ _ hvalue
      · exact hvalue
    · rw [← Option.some.inj h]
      exact hs.write _ _ hvalue

theorem processAnonInput_nonNegative (nBlockHeight : Int) (txin : CTxIn) (i : Nat) (st st' : AnonStore)
    (hst : NonNegativeRecords st.disk)
    (h : processAnonInput env c loc fInBlock tx nBlockHeight txin i st = some st') :
    NonNegativeRecords st'.disk := by
  simp only [processAnonInput, Option.bind_eq_bind, Option.bind_none, Option.bind_eq_some_iff,
    Option.ite_none_left_eq_some, Option.pure_def, Option.some.injEq] at h
  obtain ⟨-, -, -, -, s, hring, rfl⟩ := h
  have hs : NonNegativeRecords s.1.disk := by
    refine foldlM_preserves (fun s : AnonStore × Int64 => NonNegativeRecords s.1.disk) _ (st, -1) s hst
      ?_ hring
    intro t ri _ t' ht hround
    exact processRingMember_nonNegative env c fInBlock tx _ _ _ ri t t' ht hround
  cases fInBlock with
  | false => exact hs
  | true => exact hs

theorem processAnonOutput_nonNegative (nBlockHeight : Int) (txout : CTxOut) (i : Nat) (st st' : AnonStore)
    (hst : NonNegativeRecords st.disk) (hout : 0 ≤ txout.nValue)
    (h : processAnonOutput env fInBlock tx nBlockHeight txout i st = some st') :
    NonNegativeRecords st'.disk := by
  simp only [processAnonOutput] at h
  cases hao : st.disk.anonOutputs (cpubKeyBytes txout.extractAnonPk) with
  | none =>
    simp only [hao, Option.some.injEq] at h
    rw [← h]
    exact hst.write _ _ hout
  | some ao =>
    simp only [hao, Option.ite_none_right_eq_some, Option.some.injEq] at h
    rw [← h.2]
    exact hst.write _ _ (hst _ ao hao)

theorem processAnonTransaction_nonNegative (nBlockHeight : Int) (st st' : AnonStore)
    (hst : NonNegativeRecords st.disk) (hout : ∀ txout ∈ tx.vout, 0 ≤ txout.nValue)
    (h : processAnonTransaction env c loc fInBlock tx nBlockHeight st = some st') :
    NonNegativeRecords st'.disk := by
  rw [processAnonTransaction, Option.bind_eq_bind, Option.bind_eq_some_iff] at h
  obtain ⟨st₁, hinputs, houtputs⟩ := h
  have hst₁ : NonNegativeRecords st₁.disk := by
    refine foldlM_preserves (fun st : AnonStore => NonNegativeRecords st.disk) _ st st₁ hst ?_ hinputs
    intro t e _ t' ht hround
    split at hround
    · exact processAnonInput_nonNegative env c loc fInBlock tx nBlockHeight e.1 e.2 t t' ht hround
    · rwa [← Option.some.inj hround]
  refine foldlM_preserves (fun st : AnonStore => NonNegativeRecords st.disk) _ st₁ st' hst₁ ?_ houtputs
  intro t e he t' ht hround
  split at hround
  · exact processAnonOutput_nonNegative env fInBlock tx nBlockHeight e.1 e.2 t t' ht
      (hout e.1 (List.fst_mem_of_mem_zipIdx he)) hround
  · rwa [← Option.some.inj hround]

theorem checkOutputs_nonneg (fMarkers : Bool) (vout : List CTxOut) (nValueOut : Int64)
    (h : CTransaction.checkOutputs fMarkers vout nValueOut) : ∀ txout ∈ vout, 0 ≤ txout.nValue := by
  induction vout generalizing nValueOut with
  | nil => simp
  | cons txout vout ih =>
    simp only [CTransaction.checkOutputs, Bool.and_eq_true, decide_eq_true_eq] at h
    intro t ht
    rcases List.mem_cons.mp ht with rfl | ht
    · exact h.1.1.1.2
    · exact ih _ h.2 t ht

theorem checkTransaction_nonneg (p : ChainParams) (h : tx.checkTransaction p) :
    ∀ txout ∈ tx.vout, 0 ≤ txout.nValue := by
  simp only [CTransaction.checkTransaction, Bool.and_eq_true] at h
  exact checkOutputs_nonneg _ tx.vout 0 h.1.1.1.2

/-- The outputs of a block that passes `CheckBlock`. -/
theorem checkBlock_nonneg {p : ChainParams} {H : BlockHash} {nAdjustedTime nBestHeight : Int}
    {fCheckPOW fCheckMerkleRoot : Bool} {block : CBlock}
    (h : checkBlock p H nAdjustedTime nBestHeight fCheckPOW fCheckMerkleRoot block = true) :
    ∀ tx ∈ block.vtx, ∀ txout ∈ tx.vout, 0 ≤ txout.nValue := by
  simp only [checkBlock, Bool.and_eq_true] at h
  intro tx htx
  have hchecked := List.all_eq_true.mp h.1.1.1.2 tx htx
  rw [Bool.and_eq_true] at hchecked
  exact checkTransaction_nonneg tx p hchecked.1

theorem syncConnect_nonNegative (pool : CTxMemPool) (nBlockHeight : Int) (s : Disk × L)
    (hs : NonNegativeRecords s.1) (hout : ∀ txout ∈ tx.vout, 0 ≤ txout.nValue) :
    NonNegativeRecords (syncConnect env c pool nBlockHeight s tx).1 := by
  unfold syncConnect
  split
  · cases hprocess : processAnonTransaction env c s.2 true tx nBlockHeight ⟨s.1, pool⟩ with
    | none => exact hs
    | some st => exact processAnonTransaction_nonNegative env c s.2 true tx nBlockHeight _ st hs hout hprocess
  · exact hs

/-- `ConnectBlock` records no negative value. -/
theorem connectBlock_nonNegative (pool : CTxMemPool) (s : Session L) (block : CBlock)
    (pindex : CBlockIndex) (hs : NonNegativeRecords s.disk) :
    NonNegativeRecords (connectBlock env c pool false s block pindex).1.disk := by
  have haccepts := connectBlock_accepts env c pool s block pindex false
  rcases connectBlock_cases env c pool s block pindex with ⟨t, -, hconnect⟩ | ⟨loc, hconnect⟩
  · rw [hconnect, eq_comm, Bool.and_eq_true] at haccepts
    have hvalues := checkBlock_nonneg haccepts.1
    rw [hconnect]
    simp only [recordBlock]
    refine List.foldlRecOn (motive := fun s : Disk × L => NonNegativeRecords s.1) block.vtx _ ?_ ?_
    · exact hs
    · intro t ht tx htx
      exact syncConnect_nonNegative env c tx pool _ t ht (hvalues tx htx)
  · rw [hconnect]
    exact hs

theorem undoAnonInputs_anonOutputs (pool : CTxMemPool) (vin : List CTxIn) (d : Disk) :
    (undoAnonInputs env pool loc tx vin d).1.anonOutputs = d.anonOutputs := by
  induction vin generalizing d with
  | nil => rfl
  | cons txin vin ih =>
    have hround : (undoAnonInput env pool loc tx txin d).1.anonOutputs = d.anonOutputs := by
      simp only [undoAnonInput]
      split
      · rfl
      · split
        · rfl
        · rfl
    unfold undoAnonInputs
    split
    · split
      · rename_i d' heq
        rw [heq] at hround
        rw [ih d', hround]
      · rename_i d' heq
        rwa [heq] at hround
    · exact ih d

theorem undoAnonOutputs_nonNegative (vout : List CTxOut) (d : Disk) (hd : NonNegativeRecords d) :
    NonNegativeRecords (undoAnonOutputs vout d).1 := by
  induction vout generalizing d with
  | nil => exact hd
  | cons txout vout ih =>
    simp only [undoAnonOutputs]
    split
    · split
      · exact hd
      · exact ih _ (hd.erase _)
    · exact ih d hd

theorem undoAnonTransaction_nonNegative (pool : CTxMemPool) (d : Disk) (hd : NonNegativeRecords d) :
    NonNegativeRecords (undoAnonTransaction env pool loc tx d).1 := by
  have hinputs : NonNegativeRecords (undoAnonInputs env pool loc tx tx.vin d).1 := by
    intro pk ao hread
    rw [undoAnonInputs_anonOutputs] at hread
    exact hd pk ao hread
  unfold undoAnonTransaction
  split
  · rename_i d' heq
    rw [heq] at hinputs
    exact undoAnonOutputs_nonNegative tx.vout d' hinputs
  · rename_i d' heq
    rwa [heq] at hinputs

/-- `DisconnectBlock` only erases records. -/
theorem disconnectBlock_nonNegative (pool : CTxMemPool) (s : Session L) (block : CBlock)
    (pindex : CBlockIndex) (hs : NonNegativeRecords s.disk) :
    NonNegativeRecords (disconnectBlock env pool s block pindex).1.disk := by
  have hsync : NonNegativeRecords (block.vtx.foldl (syncDisconnect env pool) (s.disk, s.loc)).1 := by
    refine List.foldlRecOn (motive := fun s : Disk × L => NonNegativeRecords s.1) block.vtx _ hs ?_
    intro t ht tx htx
    simp only [syncDisconnect]
    split
    · exact undoAnonTransaction_nonNegative env t.2 tx pool t.1 ht
    · exact ht
  simp only [disconnectBlock]
  split
  · exact hs
  · split
    · exact hsync
    · exact hsync

end Records

section Mixed

/-- A transaction with an output of three coins. -/
def threeCoins : CTransaction where
  nVersion := 1
  nTime := 1540000000
  vin := []
  vout := [⟨3 * COIN, payToPubKeyHash 1⟩]
  nLockTime := 0

/-- A spend of a ring of five coins together with that output, below the last checkpoint. -/
def mixedTx : CTransaction where
  nVersion := ANON_TXN_VERSION
  nTime := 1550000000
  vin := [redirectInput, ⟨⟨7, 0⟩, [0x51, 0x51], 0xFFFFFFFF⟩]
  vout := [⟨799990000, payToPubKeyHash 1⟩]
  nLockTime := 0

def mixedInputs : MapPrevTx :=
  Function.update (fun _ => none) 7 (some (CTxIndex.new ⟨1, 9, 9⟩ 1, threeCoins))

private theorem redirectView_nonNegative : redirectView.NonNegative := by
  intro pk ao hao
  obtain ⟨ri, -, rfl⟩ := Option.map_eq_some_iff.mp hao
  exact (by decide : (0 : Int64) ≤ 5 * COIN)

/-- The spend is connected, and what it pays is covered. -/
theorem mixedTx_conserves :
    (connectInputs (fileNode mainParams []) (singleChain [] 0) [] mixedTx redirectView mixedInputs
        (fun _ => none) ⟨1, 8, 8⟩ true (blockScriptFlags mainParams 0)).isSome ∧
      mixedTx.paidOut ≤ (mixedTx.transparentInputs.map (spentValue mixedInputs)).sum +
        (mixedTx.ringInputs.map (ringValue redirectView)).sum := by
  have hconnect : (connectInputs (fileNode mainParams []) (singleChain [] 0) [] mixedTx redirectView
      mixedInputs (fun _ => none) ⟨1, 8, 8⟩ true (blockScriptFlags mainParams 0)).isSome := by
    decide +kernel
  refine ⟨hconnect, ?_⟩
  exact (connectInputs_conserves (fileNode mainParams []) [] mixedTx (singleChain [] 0) redirectView
    mixedInputs (fun _ => none) ⟨1, 8, 8⟩ true (blockScriptFlags mainParams 0)
    redirectView_nonNegative (by decide +kernel) (by decide +kernel) (by decide +kernel) hconnect).1

end Mixed

end AliasWallet
