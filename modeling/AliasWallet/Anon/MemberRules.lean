import AliasWallet.Anon.CheckInputs
import AliasWallet.Crypto.Concrete

/-!
# What acceptance of anonymous inputs says about the ring members

`CheckAnonInputs` accepts a transaction exactly when it accepts each anonymous input. For both
layouts an accepted ring has one value and the required depth; only the AB layout is free of
compromised members.
-/

namespace AliasWallet
open Lib

section Spec

variable {Pt : Type} (p : ChainParams) (E : Curve Pt) (hash : HashFn) (v : AnonView)
  (tx : CTransaction)

private theorem checkAnonInputsFrom_isOk (fCheckExists : Bool) (preimage : UInt256)
    (vin : List CTxIn) (i : Nat) (nSumValue : Int64) :
    (checkAnonInputsFrom p E hash v tx fCheckExists preimage vin i nSumValue).isOk ↔
      ∀ k txin, vin[k]? = some txin → txin.isAnonInput →
        (checkAnonInput p E hash v tx fCheckExists preimage txin (i + k)).isOk := by
  induction vin generalizing i nSumValue with
  | nil => simp [checkAnonInputsFrom, Except.isOk, Except.toBool]
  | cons txin vin ih =>
    have hshift : (∀ k t, vin[k]? = some t → t.isAnonInput →
          (checkAnonInput p E hash v tx fCheckExists preimage t (i + 1 + k)).isOk) ↔
        ∀ k t, (txin :: vin)[k + 1]? = some t → t.isAnonInput →
          (checkAnonInput p E hash v tx fCheckExists preimage t (i + (k + 1))).isOk := by
      simp only [List.getElem?_cons_succ, Nat.add_assoc, Nat.add_comm 1]
    have hsplit : (∀ k t, (txin :: vin)[k]? = some t → t.isAnonInput →
          (checkAnonInput p E hash v tx fCheckExists preimage t (i + k)).isOk) ↔
        (txin.isAnonInput → (checkAnonInput p E hash v tx fCheckExists preimage txin i).isOk) ∧
        ∀ k t, (txin :: vin)[k + 1]? = some t → t.isAnonInput →
          (checkAnonInput p E hash v tx fCheckExists preimage t (i + (k + 1))).isOk := by
      constructor
      · intro h
        exact ⟨fun ha => h 0 txin rfl ha, fun k t => h (k + 1) t⟩
      · intro h k t ht ha
        cases k with
        | zero =>
          obtain rfl : txin = t := by simpa using ht
          exact h.1 ha
        | succ k => exact h.2 k t ht ha
    rw [hsplit, ← hshift]
    unfold checkAnonInputsFrom
    by_cases ha : txin.isAnonInput
    · cases hc : checkAnonInput p E hash v tx fCheckExists preimage txin i with
      | error e => simp [ha, bind, Except.bind, Except.isOk, Except.toBool]
      | ok nCoinValue =>
        simp only [ha, if_true, bind, Except.bind]
        rw [ih]
        simp [Except.isOk, Except.toBool]
    · simp only [ha, if_false, Bool.false_eq_true]
      rw [ih]
      simp

/-- `CheckAnonInputs` accepts exactly when the pre-image exists and every anonymous input passes. -/
theorem checkAnonInputs_isOk_iff (fCheckExists : Bool) :
    (checkAnonInputs p E hash v tx fCheckExists).isOk ↔
      ∃ preimage, getTxnPreImage hash tx = some preimage ∧
        ∀ i txin, tx.vin[i]? = some txin → txin.isAnonInput →
          (checkAnonInput p E hash v tx fCheckExists preimage txin i).isOk := by
  unfold checkAnonInputs
  cases hpre : getTxnPreImage hash tx with
  | none => simp [Except.isOk, Except.toBool]
  | some preimage =>
    rw [checkAnonInputsFrom_isOk]
    simp

/-- The ring part of the check of an input: its size and its members. -/
def ringRulesOk (txin : CTxIn) (i : Nat) : Bool :=
  let s := txin.scriptSig
  let nRingSize := txin.extractRingSize
  let (nMinRingSize, nMaxRingSize) := getRingSizeMinMax p tx.nTime.toNat
  decide (nMinRingSize ≤ nRingSize ∧ nRingSize ≤ nMaxRingSize) &&
    if isLayoutAB s nRingSize then
      (forRange nRingSize (checkRingMemberAB p v tx i (abPubkeys s nRingSize)) (-1)).isOk
    else
      decide (2 + (EC_COMPRESSED_SIZE + EC_SECRET_SIZE + EC_SECRET_SIZE) * nRingSize ≤ s.length) &&
        (forRange nRingSize (fun ri nCoinValue =>
          Prod.snd <$> checkRingMember p v tx i (plainPubkeys s) ri nCoinValue) (-1)).isOk

/-- The signature part: only the plain layout reads the pre-image. -/
def signatureOk (preimage : UInt256) (txin : CTxIn) : Bool :=
  let s := txin.scriptSig
  let nRingSize := txin.extractRingSize
  let hp := hashToEC E hash (p.isProtocolV3 v.nBestHeight)
  if isLayoutAB s nRingSize then
    (verifyRingSignatureAB E hash hp txin.extractKeyImage nRingSize (abPubkeys s nRingSize)
      (abSigC s) (abSigS s)).isOk
  else
    (verifyRingSignature E hash hp txin.extractKeyImage preimage nRingSize (plainPubkeys s)
      (plainSigc s nRingSize) (plainSigr s nRingSize)).isOk

private theorem isOk_bind_match {α ε : Type} (x : Except ε α) (y : RingSigM Unit) (e : ε) :
    (x >>= fun a => match y with
      | .ok () => (pure a : Except ε α)
      | .error _ => throw e).isOk = (x.isOk && y.isOk) := by
  cases x with
  | error e' => simp [bind, Except.bind, Except.isOk, Except.toBool]
  | ok a =>
    cases y with
    | error e' => simp [bind, Except.bind, Except.isOk, Except.toBool, throw, throwThe,
        MonadExceptOf.throw]
    | ok u => simp [bind, Except.bind, Except.isOk, Except.toBool, pure, Except.pure]

/-- An input passes when its key image is free, its ring follows the rules and it is signed. -/
theorem checkAnonInput_isOk (fCheckExists : Bool) (preimage : UInt256) (txin : CTxIn) (i : Nat) :
    (checkAnonInput p E hash v tx fCheckExists preimage txin i).isOk =
      (keyImageFree hash v tx fCheckExists txin && ringRulesOk p v tx txin i &&
        signatureOk p E hash v preimage txin) := by
  unfold checkAnonInput ringRulesOk signatureOk
  by_cases hfree : keyImageFree hash v tx fCheckExists txin
  swap
  · simp [hfree, bind, Except.bind, throw, throwThe,
      MonadExceptOf.throw, Except.isOk, Except.toBool]
  by_cases hsize : txin.extractRingSize < (getRingSizeMinMax p tx.nTime.toNat).1 ∨
      txin.extractRingSize > (getRingSizeMinMax p tx.nTime.toNat).2
  · have hrange : ¬ ((getRingSizeMinMax p tx.nTime.toNat).1 ≤ txin.extractRingSize ∧
        txin.extractRingSize ≤ (getRingSizeMinMax p tx.nTime.toNat).2) := by omega
    simp [hfree, hsize, hrange, bind, Except.bind, throw, throwThe,
      MonadExceptOf.throw, Except.isOk, Except.toBool]
  have hrange : (getRingSizeMinMax p tx.nTime.toNat).1 ≤ txin.extractRingSize ∧
      txin.extractRingSize ≤ (getRingSizeMinMax p tx.nTime.toNat).2 := by omega
  by_cases hab : isLayoutAB txin.scriptSig txin.extractRingSize
  · simp only [hfree, not_true_eq_false, if_false, hsize, hab, if_true, hrange, and_self,
      decide_true, Bool.true_and, checkAnonInputAB]
    exact isOk_bind_match _ _ _
  · by_cases hshort : txin.scriptSig.length <
        2 + (EC_COMPRESSED_SIZE + EC_SECRET_SIZE + EC_SECRET_SIZE) * txin.extractRingSize
    · have hlong : ¬ 2 + (EC_COMPRESSED_SIZE + EC_SECRET_SIZE + EC_SECRET_SIZE) *
          txin.extractRingSize ≤ txin.scriptSig.length := by omega
      simp [hfree, hsize, hab, hrange, checkAnonInputPlain, hshort, hlong, bind, Except.bind, throw, throwThe,
      MonadExceptOf.throw, Except.isOk, Except.toBool]
    · have hlong : 2 + (EC_COMPRESSED_SIZE + EC_SECRET_SIZE + EC_SECRET_SIZE) *
          txin.extractRingSize ≤ txin.scriptSig.length := by omega
      simp only [hfree, not_true_eq_false, if_false, hsize, hab, Bool.false_eq_true, hrange,
        and_self, decide_true, Bool.true_and, checkAnonInputPlain, hshort, hlong]
      exact isOk_bind_match _ _ _

/-- Acceptance of a transaction whose only input is anonymous. -/
theorem checkAnonInputs_isOk_of_single (fCheckExists : Bool) (txin : CTxIn) (hvin : tx.vin = [txin])
    (hlen : 2 + txin.extractRingSize * EC_COMPRESSED_SIZE ≤ txin.scriptSig.length)
    (hfree : keyImageFree hash v tx fCheckExists txin) (hring : ringRulesOk p v tx txin 0)
    (hsig : signatureOk p E hash v (hash (preImageBytes tx)) txin) :
    (checkAnonInputs p E hash v tx fCheckExists).isOk := by
  rw [checkAnonInputs_isOk_iff]
  refine ⟨hash (preImageBytes tx), if_pos (by simp [hvin, hlen]), ?_⟩
  intro i t hi hanon
  obtain ⟨rfl, rfl⟩ : i = 0 ∧ t = txin := by
    cases i with
    | zero => simpa [hvin, eq_comm] using hi
    | succ i => simp [hvin] at hi
  rw [checkAnonInput_isOk, hfree, hring, hsig]
  rfl

end Spec

section Members

variable {Pt : Type} (p : ChainParams) (E : Curve Pt) (hash : HashFn) (v : AnonView)
  (tx : CTransaction)

/-- The recorded outputs have the values that `CheckTransaction` lets through; in particular none
has the loops' mark `-1` for no value yet. -/
def AnonView.NonNegative : Prop := ∀ pk ao, v.readAnonOutput pk = some ao → 0 ≤ ao.nValue

def ringMember (txin : CTxIn) (ri : Nat) : Option CAnonOutput :=
  v.readAnonOutput (cpubKeyBytes (slot EC_COMPRESSED_SIZE
    (ringPubkeys txin.scriptSig txin.extractRingSize) ri))

def DeepEnough (ao : CAnonOutput) : Prop :=
  ao.nBlockHeight ≠ 0 ∧ minBlockHeight p tx ao ≤ v.nBestHeight - ao.nBlockHeight + 1

/-- What the AB loop asks of a member beside its value. -/
def AdmittedAB (ao : CAnonOutput) : Prop :=
  DeepEnough p v tx ao ∧
    (p.isForkV3 tx.nTime.toNat → ao.nValue ≤ p.nMaxAnonOutput → ¬ ao.nCompromised > 0)

/-- No member of a regular denomination is marked compromised. -/
def NoCompromisedMember (txin : CTxIn) : Prop :=
  ∀ ri < txin.extractRingSize, ∀ ao, ringMember v txin ri = some ao →
    ao.nValue ≤ p.nMaxAnonOutput → ¬ ao.nCompromised > 0

/-- The rules for the members of a ring, whatever its layout. -/
structure RingRules (txin : CTxIn) : Prop where
  recorded : ∀ ri < txin.extractRingSize, ∃ ao, ringMember v txin ri = some ao
  sameValue : ∀ ri < txin.extractRingSize, ∀ rj < txin.extractRingSize, ∀ ao ao',
    ringMember v txin ri = some ao → ringMember v txin rj = some ao' → ao.nValue = ao'.nValue
  deep : ∀ ri < txin.extractRingSize, ∀ ao, ringMember v txin ri = some ao → DeepEnough p v tx ao
  notCompromised : NoCompromisedMember p v txin

private theorem checkRingMember_eq_ok_iff (i : Nat) (pPubkeys : Bytes) (ri : Nat)
    (nCoinValue : Int64) (r : CAnonOutput × Int64) :
    checkRingMember p v tx i pPubkeys ri nCoinValue = .ok r ↔
      ∃ ao, v.readAnonOutput (cpubKeyBytes (slot EC_COMPRESSED_SIZE pPubkeys ri)) = some ao ∧
        (nCoinValue = -1 ∨ nCoinValue = ao.nValue) ∧ DeepEnough p v tx ao ∧ r = (ao, ao.nValue) := by
  unfold checkRingMember DeepEnough
  cases hread : v.readAnonOutput (cpubKeyBytes (slot EC_COMPRESSED_SIZE pPubkeys ri)) with
  | none => simp [throw, throwThe, MonadExceptOf.throw]
  | some ao =>
    by_cases hvalue : nCoinValue ≠ -1 ∧ nCoinValue ≠ ao.nValue
    · simp [hvalue, bind, Except.bind, throw, throwThe, MonadExceptOf.throw]
    · have hyes : nCoinValue = -1 ∨ nCoinValue = ao.nValue := by
        by_contra hno
        exact hvalue (by simpa using hno)
      by_cases hdepth : ao.nBlockHeight = 0 ∨
          v.nBestHeight - ao.nBlockHeight + 1 < minBlockHeight p tx ao
      · have hshallow : ¬ (ao.nBlockHeight ≠ 0 ∧
            minBlockHeight p tx ao ≤ v.nBestHeight - ao.nBlockHeight + 1) := by omega
        simp [hvalue, hdepth, hshallow, bind, Except.bind, throw, throwThe, MonadExceptOf.throw]
      · have hdeep : ao.nBlockHeight ≠ 0 ∧
            minBlockHeight p tx ao ≤ v.nBestHeight - ao.nBlockHeight + 1 := by omega
        simp only [hvalue, hdepth, if_false]
        simp [hyes, hdeep, pure, Except.pure, eq_comm]

theorem checkRingMember_value_eq_ok_iff (i : Nat) (pPubkeys : Bytes) (ri : Nat)
    (nCoinValue nCoinValue' : Int64) :
    Prod.snd <$> checkRingMember p v tx i pPubkeys ri nCoinValue = .ok nCoinValue' ↔
      ∃ ao, v.readAnonOutput (cpubKeyBytes (slot EC_COMPRESSED_SIZE pPubkeys ri)) = some ao ∧
        (nCoinValue = -1 ∨ nCoinValue = ao.nValue) ∧ DeepEnough p v tx ao ∧
        nCoinValue' = ao.nValue := by
  rw [map_eq_pure_bind, bind_eq_ok_iff]
  simp only [checkRingMember_eq_ok_iff, pure, Except.pure, Except.ok.injEq]
  constructor
  · rintro ⟨r, ⟨ao, hread, hvalue, hdeep, rfl⟩, hout⟩
    exact ⟨ao, hread, hvalue, hdeep, hout.symm⟩
  · rintro ⟨ao, hread, hvalue, hdeep, hout⟩
    exact ⟨(ao, ao.nValue), ⟨ao, hread, hvalue, hdeep, rfl⟩, hout.symm⟩

theorem checkRingMemberAB_eq_ok_iff (i : Nat) (pPubkeys : Bytes) (ri : Nat)
    (nCoinValue nCoinValue' : Int64) :
    checkRingMemberAB p v tx i pPubkeys ri nCoinValue = .ok nCoinValue' ↔
      ∃ ao, v.readAnonOutput (cpubKeyBytes (slot EC_COMPRESSED_SIZE pPubkeys ri)) = some ao ∧
        (nCoinValue = -1 ∨ nCoinValue = ao.nValue) ∧ AdmittedAB p v tx ao ∧
        nCoinValue' = ao.nValue := by
  unfold checkRingMemberAB AdmittedAB
  rw [bind_eq_ok_iff]
  have hguard : ∀ ao : CAnonOutput,
      (do
        if p.isForkV3 tx.nTime.toNat ∧ ao.nValue ≤ p.nMaxAnonOutput ∧ ao.nCompromised > 0 then
          throw (.compromised i ri)
        return ao.nValue : Except AnonInputError Int64) = .ok nCoinValue' ↔
      (p.isForkV3 tx.nTime.toNat → ao.nValue ≤ p.nMaxAnonOutput → ¬ ao.nCompromised > 0) ∧
        nCoinValue' = ao.nValue := by
    intro ao
    by_cases hbad : p.isForkV3 tx.nTime.toNat ∧ ao.nValue ≤ p.nMaxAnonOutput ∧ ao.nCompromised > 0
    · simp [hbad, bind, Except.bind, throw, throwThe, MonadExceptOf.throw]
    · have hgood : p.isForkV3 tx.nTime.toNat → ao.nValue ≤ p.nMaxAnonOutput →
          ¬ ao.nCompromised > 0 := by
        intro hfork hle hgt
        exact hbad ⟨hfork, hle, hgt⟩
      rw [and_iff_right hgood]
      simp only [hbad, if_false]
      simp only [pure, Except.pure, Except.ok.injEq, eq_comm]
  constructor
  · rintro ⟨r, hr, hrest⟩
    obtain ⟨ao, hread, hvalue, hdeep, rfl⟩ := (checkRingMember_eq_ok_iff p v tx i pPubkeys ri _ r).mp hr
    obtain ⟨hcomp, hout⟩ := (hguard ao).mp hrest
    exact ⟨ao, hread, hvalue, ⟨hdeep, hcomp⟩, hout⟩
  · rintro ⟨ao, hread, hvalue, ⟨hdeep, hcomp⟩, hout⟩
    exact ⟨(ao, ao.nValue), (checkRingMember_eq_ok_iff p v tx i pPubkeys ri _ _).mpr
      ⟨ao, hread, hvalue, hdeep, rfl⟩, (hguard ao).mpr ⟨hcomp, hout⟩⟩

/-- A loop over the members that compares each value with the one before, ended well: every member
is there and admitted, and its value is the loop's result. -/
private theorem memberLoop_value (n : Nat) (body : Nat → Int64 → Except AnonInputError Int64)
    (member : Nat → Option CAnonOutput) (Admitted : CAnonOutput → Prop)
    (hnonneg : ∀ ri ao, member ri = some ao → 0 ≤ ao.nValue)
    (hbody : ∀ ri c c', body ri c = .ok c' ↔ ∃ ao, member ri = some ao ∧
      (c = -1 ∨ c = ao.nValue) ∧ Admitted ao ∧ c' = ao.nValue)
    (c : Int64) (hc : forRange n body (-1) = .ok c) (ri : Nat) (hri : ri < n) :
    ∃ ao, member ri = some ao ∧ Admitted ao ∧ ao.nValue = c := by
  obtain ⟨f, -, hlast, hstep⟩ := (forRange_eq_ok_iff n body (-1) c).mp hc
  have hmem : ∀ rj < n, ∃ ao, member rj = some ao ∧ (f rj = -1 ∨ f rj = ao.nValue) ∧
      Admitted ao ∧ f (rj + 1) = ao.nValue := fun rj hrj => (hbody rj _ _).mp (hstep rj hrj)
  -- from the first member on the carried value is that member's value
  have hfirst : ∀ rj < n, f (rj + 1) = f 1 := by
    intro rj hrj
    induction rj with
    | zero => rfl
    | succ rj ih =>
      obtain ⟨ao, hao, hprev, -, hnext⟩ := hmem (rj + 1) hrj
      obtain ⟨ao₀, hao₀, -, -, hout⟩ := hmem rj (by omega)
      have hne : f (rj + 1) ≠ -1 := by
        intro hneg
        have hpos := hnonneg rj ao₀ hao₀
        rw [← hout, hneg] at hpos
        exact absurd hpos (by decide)
      rcases hprev with hneg | heq
      · exact absurd hneg hne
      · rw [hnext, ← heq]
        exact ih (by omega)
  obtain ⟨ao, hao, -, hadm, hout⟩ := hmem ri hri
  refine ⟨ao, hao, hadm, ?_⟩
  have hend : f 1 = c := by
    rw [← hlast, ← hfirst (n - 1) (by omega), Nat.sub_add_cancel (by omega)]
  rw [← hout, hfirst ri hri, hend]

/-- Such a loop ends well exactly when every member is there, is admitted and has the one value. -/
theorem memberLoop_isOk_iff (n : Nat) (body : Nat → Int64 → Except AnonInputError Int64)
    (member : Nat → Option CAnonOutput) (Admitted : CAnonOutput → Prop)
    (hnonneg : ∀ ri ao, member ri = some ao → 0 ≤ ao.nValue)
    (hbody : ∀ ri c c', body ri c = .ok c' ↔ ∃ ao, member ri = some ao ∧
      (c = -1 ∨ c = ao.nValue) ∧ Admitted ao ∧ c' = ao.nValue) :
    (forRange n body (-1)).isOk ↔
      (∀ ri < n, ∃ ao, member ri = some ao ∧ Admitted ao) ∧
      ∀ ri < n, ∀ rj < n, ∀ ao ao', member ri = some ao → member rj = some ao' →
        ao.nValue = ao'.nValue := by
  have hisOk : (forRange n body (-1)).isOk ↔ ∃ c, forRange n body (-1) = .ok c := by
    cases forRange n body (-1) with
    | error e => simp [Except.isOk, Except.toBool]
    | ok c => simp [Except.isOk, Except.toBool]
  rw [hisOk]
  constructor
  · rintro ⟨c, hc⟩
    have hmem := memberLoop_value n body member Admitted hnonneg hbody c hc
    refine ⟨fun ri hri => ?_, fun ri hri rj hrj ao ao' hao hao' => ?_⟩
    · obtain ⟨ao, hao, hadm, -⟩ := hmem ri hri
      exact ⟨ao, hao, hadm⟩
    · obtain ⟨ao₁, hao₁, -, hval⟩ := hmem ri hri
      obtain ⟨ao₂, hao₂, -, hval'⟩ := hmem rj hrj
      obtain rfl : ao₁ = ao := by simpa [hao₁] using hao
      obtain rfl : ao₂ = ao' := by simpa [hao₂] using hao'
      rw [hval, hval']
  · rintro ⟨hmem, hsame⟩
    -- the value carried into round `ri` is that of the member before
    have hinv := forRange_total n body
      (fun ri c => ri = 0 ∧ c = -1 ∨ ∃ rj < n, ri = rj + 1 ∧ ∃ ao, member rj = some ao ∧ c = ao.nValue)
      (-1) (Or.inl ⟨rfl, rfl⟩) (by
        intro ri hri c hc
        obtain ⟨ao, hao, hadm⟩ := hmem ri hri
        refine ⟨ao.nValue, (hbody ri c _).mpr ⟨ao, hao, ?_, hadm, rfl⟩,
          Or.inr ⟨ri, hri, rfl, ao, hao, rfl⟩⟩
        rcases hc with ⟨-, hneg⟩ | ⟨rj, hrj, -, ao', hao', hval⟩
        · exact Or.inl hneg
        · exact Or.inr (hval.trans (hsame rj hrj ri hri ao' ao hao' hao)))
    obtain ⟨c, hc, -⟩ := hinv
    exact ⟨c, hc⟩

/-- What the ring part of the check proves; only the AB loop excludes compromised members. -/
theorem ringRulesOk_spec (txin : CTxIn) (i : Nat) (hv : v.NonNegative)
    (hfork : p.isForkV3 tx.nTime.toNat) (hok : ringRulesOk p v tx txin i) :
    RingRules p v tx txin ↔
      (¬ isLayoutAB txin.scriptSig txin.extractRingSize → NoCompromisedMember p v txin) := by
  have hrules : ∀ Admitted : CAnonOutput → Prop, (∀ ao, Admitted ao → DeepEnough p v tx ao) →
      (∀ ri < txin.extractRingSize, ∃ ao, ringMember v txin ri = some ao ∧ Admitted ao) ∧
        (∀ ri < txin.extractRingSize, ∀ rj < txin.extractRingSize, ∀ ao ao',
          ringMember v txin ri = some ao → ringMember v txin rj = some ao' →
            ao.nValue = ao'.nValue) →
      NoCompromisedMember p v txin → RingRules p v tx txin := by
    rintro Admitted hdeep ⟨hmem, hsame⟩ hcomp
    refine ⟨fun ri hri => ?_, hsame, fun ri hri ao hao => ?_, hcomp⟩
    · obtain ⟨ao, hao, -⟩ := hmem ri hri
      exact ⟨ao, hao⟩
    · obtain ⟨ao', hao', hadm⟩ := hmem ri hri
      obtain rfl : ao' = ao := by simpa [hao'] using hao
      exact hdeep ao' hadm
  have hnonneg : ∀ ri ao, ringMember v txin ri = some ao → 0 ≤ ao.nValue := fun ri ao hao => hv _ _ hao
  unfold ringRulesOk at hok
  by_cases hab : isLayoutAB txin.scriptSig txin.extractRingSize
  · simp only [hab, if_true, Bool.and_eq_true] at hok
    have hloop := (memberLoop_isOk_iff _ _ (ringMember v txin) (AdmittedAB p v tx) hnonneg (by
        intro ri c c'
        rw [checkRingMemberAB_eq_ok_iff]
        simp only [ringMember, ringPubkeys, hab, if_true])).mp hok.2
    have hcomp : NoCompromisedMember p v txin := by
      intro ri hri ao hao
      obtain ⟨ao', hao', hadm⟩ := hloop.1 ri hri
      obtain rfl : ao' = ao := by simpa [hao'] using hao
      exact hadm.2 hfork
    simp only [hab, not_true_eq_false, false_implies, iff_true]
    exact hrules _ (fun ao h => h.1) hloop hcomp
  · simp only [hab, Bool.false_eq_true, if_false, Bool.and_eq_true] at hok
    have hloop := (memberLoop_isOk_iff _ _ (ringMember v txin) (DeepEnough p v tx) hnonneg (by
        intro ri c c'
        rw [checkRingMember_value_eq_ok_iff]
        simp only [ringMember, ringPubkeys, hab, Bool.false_eq_true, if_false])).mp hok.2.2
    simp only [hab, Bool.false_eq_true, not_false_eq_true, true_implies]
    exact ⟨fun h => h.notCompromised, hrules _ (fun ao h => h) hloop⟩

/-- The value that `CheckAnonInputs` adds for an accepted input is that of each ring member. -/
theorem checkAnonInput_value (fCheckExists : Bool) (preimage : UInt256) (txin : CTxIn) (i : Nat)
    (hv : v.NonNegative) (nCoinValue : Int64)
    (h : checkAnonInput p E hash v tx fCheckExists preimage txin i = .ok nCoinValue) :
    (getRingSizeMinMax p tx.nTime.toNat).1 ≤ txin.extractRingSize ∧
      ∀ ri < txin.extractRingSize, ∃ ao, ringMember v txin ri = some ao ∧ ao.nValue = nCoinValue := by
  have hnonneg : ∀ ri ao, ringMember v txin ri = some ao → 0 ≤ ao.nValue := fun ri ao hao => hv _ _ hao
  have hok : (checkAnonInput p E hash v tx fCheckExists preimage txin i).isOk := by
    rw [h]
    rfl
  rw [checkAnonInput_isOk, Bool.and_eq_true, Bool.and_eq_true] at hok
  have hring := hok.1.2
  simp only [ringRulesOk, Bool.and_eq_true, decide_eq_true_eq] at hring
  refine ⟨hring.1.1, fun ri hri => ?_⟩
  have hsize : ¬ (txin.extractRingSize < (getRingSizeMinMax p tx.nTime.toNat).1 ∨
      txin.extractRingSize > (getRingSizeMinMax p tx.nTime.toNat).2) := by omega
  simp only [checkAnonInput, hok.1.1, not_true_eq_false, if_false, hsize] at h
  by_cases hab : isLayoutAB txin.scriptSig txin.extractRingSize
  · simp only [hab, if_true, checkAnonInputAB] at h
    obtain ⟨c, hc, hsig⟩ := (bind_eq_ok_iff _ _ _).mp h
    obtain ⟨ao, hao, -, hval⟩ := memberLoop_value _ _ (ringMember v txin) (AdmittedAB p v tx) hnonneg (by
      intro rj c c'
      rw [checkRingMemberAB_eq_ok_iff]
      simp only [ringMember, ringPubkeys, hab, if_true]) c hc ri hri
    refine ⟨ao, hao, hval.trans ?_⟩
    split at hsig
    · simpa [pure, Except.pure] using hsig
    · cases hsig
  · simp only [hab, Bool.false_eq_true, if_false, Bool.and_eq_true, decide_eq_true_eq] at hring
    have hlong : ¬ txin.scriptSig.length <
        2 + (EC_COMPRESSED_SIZE + EC_SECRET_SIZE + EC_SECRET_SIZE) * txin.extractRingSize := by omega
    simp only [hab, Bool.false_eq_true, if_false, checkAnonInputPlain, hlong] at h
    obtain ⟨c, hc, hsig⟩ := (bind_eq_ok_iff _ _ _).mp h
    obtain ⟨ao, hao, -, hval⟩ := memberLoop_value _ _ (ringMember v txin) (DeepEnough p v tx) hnonneg (by
      intro rj c c'
      rw [checkRingMember_value_eq_ok_iff]
      simp only [ringMember, ringPubkeys, hab, Bool.false_eq_true, if_false]) c hc ri hri
    refine ⟨ao, hao, hval.trans ?_⟩
    split at hsig
    · simpa [pure, Except.pure] using hsig
    · cases hsig

/-- After fork V3 the rings of an accepted transaction follow the member rules exactly when its
rings in the plain layout hold no compromised member: the plain loop does not look at the mark. -/
theorem checkAnonInputs_ringRules_iff (fCheckExists : Bool) (hv : v.NonNegative)
    (hfork : p.isForkV3 tx.nTime.toNat)
    (haccept : (checkAnonInputs p E hash v tx fCheckExists).isOk) :
    (∀ txin ∈ tx.vin, txin.isAnonInput → RingRules p v tx txin) ↔
      ∀ txin ∈ tx.vin, txin.isAnonInput → ¬ isLayoutAB txin.scriptSig txin.extractRingSize →
        NoCompromisedMember p v txin := by
  obtain ⟨preimage, -, hinputs⟩ := (checkAnonInputs_isOk_iff p E hash v tx fCheckExists).mp haccept
  have hring : ∀ txin ∈ tx.vin, txin.isAnonInput → (RingRules p v tx txin ↔
      (¬ isLayoutAB txin.scriptSig txin.extractRingSize → NoCompromisedMember p v txin)) := by
    intro txin hmem hanon
    obtain ⟨i, hi⟩ := List.mem_iff_getElem?.mp hmem
    have hok := hinputs i txin hi hanon
    rw [checkAnonInput_isOk, Bool.and_eq_true, Bool.and_eq_true] at hok
    exact ringRulesOk_spec p v tx txin i hv hfork hok.1.2
  constructor
  · intro h txin hmem hanon
    exact (hring txin hmem hanon).mp (h txin hmem hanon)
  · intro h txin hmem hanon
    exact (hring txin hmem hanon).mpr (h txin hmem hanon)

end Members

section CompromisedMember

/-- Ten recorded outputs, the ring of the spend below. -/
def plainRing : Bytes :=
  [0x02d392e6545329969c9c77e729907b803fd14d37820b83df465a52cca4edcf1573,
    0x02593931c1b44a9dd7a99ec85c3b76570b98d871384d83961ace51d10be1a1e89e,
    0x037e169257b2ba239d76c77949321021f437561246fa3de28cf7cbe7bc0b1de672,
    0x03a34c250e24eca42964089045aae407260b787dc8b6f0be8bc6772d91a181966a,
    0x03f18e1db42755253a91ae8966e47265d6aca31f46fc2337096ae17692655644ff,
    0x03efdb9300d2712c6f8ecaa2875bde9a9a077a8386a7cb8abf9bf4a0aa7a83d4e4,
    0x0340359d3462caf6315970732be218020797d4ef09252692c2c6f80f5ce86317f9,
    0x02ad94b66f88a1cdf49ff9e1f12f113eee043203ca242ae0749b385ecb1fe532fd,
    0x03828e1ac69c114361a1c2213ca903f988037a68eead4e07712cb124008dc71314,
    0x02fa5232dd5f450ed028bfbc2f4097e4d1cb164a5f568915fa6d78be7f497e5fd0].flatMap (beBytes 33)

def plainRingSigc : Bytes :=
  [0xbe1ff2594580553f575e5c1ddd22fa3ef9fb836714823ceeb60d9d9b000e4666,
    0x6c661acf2bfe95e66450adb298b051ea2a0097edae179920e9bd790a5cf2e300,
    0x758469b7946ac534738d6f604c53de43df6aa3a5ec00659592690476597a5594,
    0x0d0a0de82c773b2c4d86c0f395610b4ff3f151570bad6a3a8e5458963a85b58e,
    0x96a55d8890d92498e17d4c2ac23b46abd50a291849265c29d95bf3547da8c65d,
    0xd06eca7112385e1a13decf36b43f7fd3e93df30406532b67dffae7b750867719,
    0xbef38e0dc994344d5b3635cd171470a10e7886b11f56fc1d8753729b753358f3,
    0x430a3c4f3296bae428c823b4fb6fd2889700d7a3f2df3dc0fafb56956d8c8a14,
    0xa53fc719a42cbaec459882c929c269a3436c90e596af46851d98ef5b1f7c3fc6,
    0xc7eb7b3e1e55442315194370c9d408e96e2aa0e93663c7c50287fbcd6b96fa45].flatMap (beBytes 32)

def plainRingSigr : Bytes :=
  [0x4a9562c2d3422676c73a6ce2db1888a1f9e3aa2c2fbafeb61754d1a2d733df18,
    0x8b62dab9a3529861c13f902fe09d92c1a621b3602607b813779b2eca3ba7a86f,
    0x3c2239df89c1bc1d694809408e2035a6e9d7f3fd28446ea060404ca1460177fe,
    0x322ce609b6d67b13d62c0f7d0f90df09d853b1109e9d953adb5ddc0f88287355,
    0x5d312a9386cbe6d39d8d04b21a081ee4c97d66db90c04e5bdfe26d41dd485525,
    0x16e4c386db31ab0b88c9874b58074256db4a8c07822be882d5ff664854f01f41,
    0xfc15d15c743295816479c272f23f93925bf27459fea2dd3bd4770a4890088ee5,
    0xe74b22ace9cdd61b7ff2dfd1fc3d3a8146df7d6f7be51f97e36320dcafdaf6c0,
    0xe978c1a8aef3e87454102a41bd1219700e84776fcd48be65f3e59474f1fe26c6,
    0x0c78bbbaf14dccb028aaa71a759f2c454b12145b99261352b7f7793be85c7a3f].flatMap (beBytes 32)

def plainRingInput : CTxIn where
  prevout := ⟨0xb7d0d86e5e52c5f8a847abc71cadc1b0320991f97dfdc6fafbbce4f285810d03, 0xa0094⟩
  scriptSig := [OP_RETURN, OP_ANON_MARKER] ++ plainRing ++ plainRingSigc ++ plainRingSigr
  nSequence := 0xFFFFFFFF

/-- A spend after fork V3 in the plain layout, signed with the key of member 4. -/
def plainRingTx : CTransaction where
  nVersion := ANON_TXN_VERSION
  nTime := 1600000000
  vin := [plainRingInput]
  vout := [⟨499990000, payToPubKeyHash 0x102030405060708090a0b0c0d0e0f1011121314⟩]
  nLockTime := 0

/-- The members have one value and one height, and member 7 carries `mark`. -/
def plainRingMember (mark : UInt8) (ri : Nat) : CAnonOutput where
  outpoint := ⟨0, ri.toUInt32⟩
  nValue := 5 * COIN
  nBlockHeight := 1300000
  nCompromised := if ri = 7 then mark else 0
  fCoinStake := false

def plainRingView (mark : UInt8) : AnonView where
  getKeyImage _ := none
  txnHashInSystem _ := false
  readAnonOutput pk :=
    (((List.range 10).map (slot EC_COMPRESSED_SIZE plainRing)).idxOf? pk).map (plainRingMember mark)
  nBestHeight := 1400000

private theorem spendView_nonNegative (mark : UInt8) : (plainRingView mark).NonNegative := by
  intro pk ao hao
  obtain ⟨ri, -, rfl⟩ := Option.map_eq_some_iff.mp hao
  exact (by decide : (0 : Int64) ≤ 5 * COIN)

private theorem spend_signed : (verifyRingSignature secp256k1 sha256d
    (hashToEC secp256k1 sha256d true) plainRingInput.extractKeyImage (sha256d (preImageBytes plainRingTx)) 10
    (plainPubkeys plainRingInput.scriptSig) (plainSigc plainRingInput.scriptSig 10)
    (plainSigr plainRingInput.scriptSig 10)).isOk = true := by
  rw [sha256d_eq_eval, secp256k1_eq_eval]
  decide +kernel

private theorem spend_accepted (mark : UInt8)
    (hring : ringRulesOk mainParams (plainRingView mark) plainRingTx plainRingInput 0) :
    (checkAnonInputs mainParams secp256k1 sha256d (plainRingView mark) plainRingTx false).isOk := by
  have hplain : isLayoutAB plainRingInput.scriptSig plainRingInput.extractRingSize = false := by decide +kernel
  have hsize : plainRingInput.extractRingSize = 10 := by decide
  have hsig : signatureOk mainParams secp256k1 sha256d (plainRingView mark)
      (sha256d (preImageBytes plainRingTx)) plainRingInput = true := by
    rw [signatureOk, hplain, if_neg (by decide), hsize]
    exact spend_signed
  exact checkAnonInputs_isOk_of_single mainParams secp256k1 sha256d (plainRingView mark) plainRingTx false
    plainRingInput rfl (by decide +kernel) rfl hring hsig

/-- The plain layout carries a compromised member past the check. -/
theorem compromisedRing_accepted :
    (checkAnonInputs mainParams secp256k1 sha256d (plainRingView 1) plainRingTx false).isOk ∧
      (plainRingView 1).NonNegative ∧ mainParams.isForkV3 plainRingTx.nTime.toNat ∧
      ¬ ∀ txin ∈ plainRingTx.vin, txin.isAnonInput → RingRules mainParams (plainRingView 1) plainRingTx txin := by
  refine ⟨spend_accepted 1 (by decide +kernel), spendView_nonNegative 1, by decide, fun hrules => ?_⟩
  have hno := (hrules plainRingInput (List.mem_singleton.mpr rfl) (by decide +kernel)).notCompromised
  exact hno 7 (by decide) (plainRingMember 1 7) (by decide +kernel) (by decide) (by decide)

/-- With no member marked the same spend is accepted and its ring follows the rules. -/
theorem cleanRing_ringRules :
    (checkAnonInputs mainParams secp256k1 sha256d (plainRingView 0) plainRingTx false).isOk ∧
      ∀ txin ∈ plainRingTx.vin, txin.isAnonInput → RingRules mainParams (plainRingView 0) plainRingTx txin := by
  have haccept := spend_accepted 0 (by decide +kernel)
  refine ⟨haccept, (checkAnonInputs_ringRules_iff mainParams secp256k1 sha256d (plainRingView 0) plainRingTx
    false (spendView_nonNegative 0) (by decide) haccept).mpr ?_⟩
  intro txin _ _ _ ri _ ao hao _
  obtain ⟨rj, -, rfl⟩ := Option.map_eq_some_iff.mp hao
  simp [plainRingMember]

end CompromisedMember

end AliasWallet
