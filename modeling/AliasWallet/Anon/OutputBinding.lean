import AliasWallet.Anon.MemberRules

/-!
# Is an anonymous spend bound to its outputs?

The plain signature hashes the pre-image of the transaction, the AB signature does not. So the
inputs of an accepted transaction can be put over other outputs exactly when all of them are in the
AB layout and nothing else about the new transaction stops it.
-/

namespace AliasWallet
open Lib

section Commitment

variable {Pt : Type} (E : Curve Pt) (hash : HashFn) (hp : Bytes → Option Pt)

/-- The challenge sum and the points that `verifyRingSignature` hashes behind the pre-image. -/
def plainCommitment (keyImage : Bytes) (nRingSize : Nat) (pPubkeys pSigc pSigr : Bytes) :
    RingSigM (Nat × Bytes) := do
  let ptKi ← orFail (E.oct2point keyImage)
  forRange nRingSize (verifyRingSignatureStep E hp ptKi pPubkeys pSigc pSigr) (0, [])

/-- The challenge of a plain signature. -/
def plainChallenge (txnHash : UInt256) (points : Bytes) : Nat :=
  bnOfHash (hash (uint256Bytes txnHash ++ points)) % E.order

private theorem verifyLoop_shift (ptKi : Pt) (pPubkeys pSigc pSigr : Bytes) (n s : Nat)
    (pre : Bytes) :
    forRange n (verifyRingSignatureStep E hp ptKi pPubkeys pSigc pSigr) (s, pre) =
      (fun st => (st.1, pre ++ st.2)) <$>
        forRange n (verifyRingSignatureStep E hp ptKi pPubkeys pSigc pSigr) (s, []) := by
  induction n with
  | zero => simp [forRange, Functor.map, Except.map]
  | succ n ih =>
    rw [forRange, ih, forRange]
    cases forRange n (verifyRingSignatureStep E hp ptKi pPubkeys pSigc pSigr) (s, []) with
    | error e => rfl
    | ok st =>
      simp only [Functor.map, Except.map, bind, Except.bind, verifyRingSignatureStep]
      cases orFail (E.bn2point (beNat (slot EC_COMPRESSED_SIZE pPubkeys n))) with
      | error e => rfl
      | ok ptPk =>
        cases orFail (hp (slot EC_COMPRESSED_SIZE pPubkeys n)) with
        | error e => rfl
        | ok ptT3 =>
          dsimp only
          cases tempData E (plainL E ptPk (beNat (slot EC_SECRET_SIZE pSigc n))
              (beNat (slot EC_SECRET_SIZE pSigr n))) (plainR E ptKi ptT3
              (beNat (slot EC_SECRET_SIZE pSigc n)) (beNat (slot EC_SECRET_SIZE pSigr n))) with
          | error e => rfl
          | ok data => simp [pure, Except.pure]

/-- A plain signature is accepted when the challenge sum is the challenge of its points. -/
theorem verifyRingSignature_isOk_iff (keyImage : Bytes) (txnHash : UInt256) (nRingSize : Nat)
    (pPubkeys pSigc pSigr : Bytes) (hq : 0 < E.order) :
    (verifyRingSignature E hash hp keyImage txnHash nRingSize pPubkeys pSigc pSigr).isOk ↔
      ∃ bnSum points, plainCommitment E hp keyImage nRingSize pPubkeys pSigc pSigr =
        .ok (bnSum, points) ∧ plainChallenge E hash txnHash points = bnSum % E.order := by
  unfold verifyRingSignature plainCommitment
  cases orFail (E.oct2point keyImage) with
  | error e => simp [bind, Except.bind, Except.isOk, Except.toBool]
  | ok ptKi =>
    simp only [bind, Except.bind]
    rw [verifyLoop_shift]
    cases forRange nRingSize (verifyRingSignatureStep E hp ptKi pPubkeys pSigc pSigr) (0, []) with
    | error e => simp [Functor.map, Except.map, Except.isOk, Except.toBool]
    | ok st =>
      have hzero := modSub_eq_zero_iff (plainChallenge E hash txnHash st.2) st.1 E.order hq
      rw [show plainChallenge E hash txnHash st.2 % E.order = plainChallenge E hash txnHash st.2 from
        Nat.mod_mod _ _] at hzero
      have hpair : (∃ bnSum points, (Except.ok st : RingSigM (Nat × Bytes)) = .ok (bnSum, points) ∧
          plainChallenge E hash txnHash points = bnSum % E.order) ↔
          plainChallenge E hash txnHash st.2 = st.1 % E.order := by
        constructor
        · rintro ⟨bnSum, points, hst, heq⟩
          cases hst
          exact heq
        · intro heq
          exact ⟨st.1, st.2, rfl, heq⟩
      rw [hpair, ← hzero]
      simp only [Functor.map, Except.map]
      rw [show bnOfHash (hash (uint256Bytes txnHash ++ st.2)) % E.order =
        plainChallenge E hash txnHash st.2 from rfl]
      by_cases hbnT : modSub (plainChallenge E hash txnHash st.2) st.1 E.order = 0
      · simp [hbnT, Except.isOk, Except.toBool, pure, Except.pure]
      · simp [hbnT, Except.isOk, Except.toBool, throw, throwThe, MonadExceptOf.throw]

end Commitment

section Binding

variable {Pt : Type} (p : ChainParams) (E : Curve Pt) (hash : HashFn) (v : AnonView)

/-- An input without its sequence number. -/
def CTxIn.spend (txin : CTxIn) : COutPoint × Bytes := (txin.prevout, txin.scriptSig)

/-- The same prevouts and scriptSigs over other outputs. -/
structure SameInputs (T T' : CTransaction) : Prop where
  inputs : T'.vin.map CTxIn.spend = T.vin.map CTxIn.spend
  outputs : T'.vout ≠ T.vout

/-- The hash does not collide on the two transactions: not on their ids, not on their pre-images
and, behind these, not on the points of a plain signature of theirs. -/
structure NoCollision (T T' : CTransaction) : Prop where
  txid : T.getHash hash ≠ T'.getHash hash
  preImage : getTxnPreImage hash T ≠ getTxnPreImage hash T'
  challenge : ∀ txin ∈ T.vin, ¬ isLayoutAB txin.scriptSig txin.extractRingSize →
    ∀ pre pre' bnSum points,
    getTxnPreImage hash T = some pre → getTxnPreImage hash T' = some pre' →
    plainCommitment E (hashToEC E hash (p.isProtocolV3 v.nBestHeight)) txin.extractKeyImage
      txin.extractRingSize (plainPubkeys txin.scriptSig)
      (plainSigc txin.scriptSig txin.extractRingSize)
      (plainSigr txin.scriptSig txin.extractRingSize) = .ok (bnSum, points) →
    plainChallenge E hash pre points ≠ plainChallenge E hash pre' points

/-- The ring of an AB input passes under the time and the kind of `tx`. -/
structure RingAdmittedAB (tx : CTransaction) (txin : CTxIn) : Prop where
  size : (getRingSizeMinMax p tx.nTime.toNat).1 ≤ txin.extractRingSize ∧
    txin.extractRingSize ≤ (getRingSizeMinMax p tx.nTime.toNat).2
  members : ∀ ri < txin.extractRingSize, ∀ ao, ringMember v txin ri = some ao →
    AdmittedAB p v tx ao

/-- The image of the input is recorded as spent by `T`, and the check holds this against others. -/
def RecordedBy (fCheckExists : Bool) (T : CTransaction) (txin : CTxIn) : Prop :=
  (∃ ski, v.getKeyImage txin.extractKeyImage = some ski ∧ ski.txnHash = T.getHash hash) ∧
    (fCheckExists → v.txnHashInSystem (T.getHash hash))

private theorem isOk_iff_exists {ε α : Type} (x : Except ε α) : x.isOk ↔ ∃ a, x = .ok a := by
  cases x with
  | error e => simp [Except.isOk, Except.toBool]
  | ok a => simp [Except.isOk, Except.toBool]

/-- Two AB loops over one ring differ only in what they ask of a member. -/
private theorem ringRulesOk_transfer (T T' : CTransaction) (txin : CTxIn) (i : Nat)
    (hab : isLayoutAB txin.scriptSig txin.extractRingSize) (hok : ringRulesOk p v T txin i) :
    ringRulesOk p v T' txin i ↔ RingAdmittedAB p v T' txin := by
  have hpk : ringPubkeys txin.scriptSig txin.extractRingSize =
      abPubkeys txin.scriptSig txin.extractRingSize := by simp [ringPubkeys, hab]
  unfold ringRulesOk at hok ⊢
  simp only [hab, if_true, Bool.and_eq_true, decide_eq_true_eq] at hok ⊢
  obtain ⟨-, hloop⟩ := hok
  obtain ⟨c, hc⟩ := (isOk_iff_exists _).mp hloop
  obtain ⟨f, hf0, hfn, hstep⟩ := (forRange_eq_ok_iff _ _ _ _).mp hc
  constructor
  · rintro ⟨hsize, hloop'⟩
    refine ⟨hsize, fun ri hri ao hao => ?_⟩
    obtain ⟨c', hc'⟩ := (isOk_iff_exists _).mp hloop'
    obtain ⟨g, -, -, hstep'⟩ := (forRange_eq_ok_iff _ _ _ _).mp hc'
    obtain ⟨ao', hread, -, hadm, -⟩ :=
      (checkRingMemberAB_eq_ok_iff p v T' i _ ri _ _).mp (hstep' ri hri)
    rw [ringMember, hpk, hread] at hao
    obtain rfl : ao' = ao := by simpa using hao
    exact hadm
  · rintro ⟨hsize, hmembers⟩
    refine ⟨hsize, (isOk_iff_exists _).mpr ⟨c, (forRange_eq_ok_iff _ _ _ _).mpr
      ⟨f, hf0, hfn, fun ri hri => ?_⟩⟩⟩
    obtain ⟨ao, hread, hvalue, -, hout⟩ :=
      (checkRingMemberAB_eq_ok_iff p v T i _ ri _ _).mp (hstep ri hri)
    have hao : ringMember v txin ri = some ao := by rw [ringMember, hpk, hread]
    exact (checkRingMemberAB_eq_ok_iff p v T' i _ ri _ _).mpr
      ⟨ao, hread, hvalue, hmembers ri hri ao hao, hout⟩

private theorem keyImageFree_transfer (fCheckExists : Bool) (T T' : CTransaction) (txin : CTxIn)
    (hid : T.getHash hash ≠ T'.getHash hash) (hfree : keyImageFree hash v T fCheckExists txin) :
    keyImageFree hash v T' fCheckExists txin ↔ ¬ RecordedBy hash v fCheckExists T txin := by
  unfold keyImageFree at hfree ⊢
  unfold RecordedBy
  cases hki : v.getKeyImage txin.extractKeyImage with
  | none => simp
  | some ski =>
    simp only [hki, Bool.or_eq_true, beq_iff_eq, Bool.and_eq_true, Bool.not_eq_true'] at hfree ⊢
    by_cases hT : ski.txnHash = T.getHash hash
    · simp [hT, hid]
    · have hrest := hfree.resolve_left hT
      simp [hrest, hT]

private theorem checkAnonInput_nSequence (tx : CTransaction) (fCheckExists : Bool)
    (preimage : UInt256) (txin txin' : CTxIn) (i : Nat)
    (hsame : txin'.spend = txin.spend) :
    txin'.isAnonInput = txin.isAnonInput ∧
      checkAnonInput p E hash v tx fCheckExists preimage txin' i =
        checkAnonInput p E hash v tx fCheckExists preimage txin i := by
  obtain ⟨prevout, scriptSig, nSequence⟩ := txin
  obtain ⟨prevout', scriptSig', nSequence'⟩ := txin'
  obtain ⟨rfl, rfl⟩ : prevout' = prevout ∧ scriptSig' = scriptSig := by
    simpa [CTxIn.spend] using hsame
  exact ⟨rfl, rfl⟩

/-- Acceptance of `T'`, read over the inputs of `T`. -/
private theorem accept_over_inputs (T T' : CTransaction) (fCheckExists : Bool)
    (hsame : SameInputs T T') :
    (checkAnonInputs p E hash v T' fCheckExists).isOk ↔
      ∃ preimage, getTxnPreImage hash T' = some preimage ∧
        ∀ i txin, T.vin[i]? = some txin → txin.isAnonInput →
          (checkAnonInput p E hash v T' fCheckExists preimage txin i).isOk := by
  have hat : ∀ i : Nat, T'.vin[i]?.map CTxIn.spend = T.vin[i]?.map CTxIn.spend := by
    intro i
    rw [← List.getElem?_map, ← List.getElem?_map, hsame.inputs]
  rw [checkAnonInputs_isOk_iff]
  refine exists_congr fun preimage => and_congr_right fun _ => ?_
  constructor
  · intro h i txin hi hanon
    have hi' := hat i
    rw [hi] at hi'
    obtain ⟨txin', hget, heq⟩ := Option.map_eq_some_iff.mp hi'
    have hcheck := checkAnonInput_nSequence p E hash v T' fCheckExists preimage txin txin' i heq
    rw [← hcheck.2]
    exact h i txin' hget (hcheck.1.trans hanon)
  · intro h i txin' hi hanon
    have hi' := (hat i).symm
    rw [hi] at hi'
    obtain ⟨txin, hget, heq⟩ := Option.map_eq_some_iff.mp hi'
    have hcheck := checkAnonInput_nSequence p E hash v T' fCheckExists preimage txin txin' i heq.symm
    rw [hcheck.2]
    exact h i txin hget (hcheck.1.symm.trans hanon)

private theorem getTxnPreImage_isSome (T T' : CTransaction) (hsame : SameInputs T T') :
    (getTxnPreImage hash T').isSome = (getTxnPreImage hash T).isSome := by
  have hfits : ∀ tx : CTransaction, (getTxnPreImage hash tx).isSome =
      (tx.vin.map CTxIn.spend).all (fun io =>
        decide (2 + io.1.n.toNat / 2 ^ 16 % 2 ^ 16 * EC_COMPRESSED_SIZE ≤ io.2.length)) := by
    intro tx
    rw [List.all_map]
    unfold getTxnPreImage
    split
    · rename_i h
      rw [Option.isSome_some]
      exact h.symm
    · rename_i h
      rw [Option.isSome_none]
      exact (Bool.not_eq_true _ ▸ h).symm
  rw [hfits, hfits, hsame.inputs]

/-- The plain signature of an accepted input does not verify over another pre-image. -/
private theorem plain_not_signed (T T' : CTransaction) (hq : 0 < E.order)
    (hcol : NoCollision p E hash v T T') (txin : CTxIn) (hmem : txin ∈ T.vin)
    (hplain : ¬ isLayoutAB txin.scriptSig txin.extractRingSize) (pre pre' : UInt256)
    (hpre : getTxnPreImage hash T = some pre) (hpre' : getTxnPreImage hash T' = some pre')
    (hsigned : signatureOk p E hash v pre txin) : ¬ signatureOk p E hash v pre' txin := by
  intro hsigned'
  simp only [signatureOk, hplain] at hsigned hsigned'
  rw [if_neg (by simp), verifyRingSignature_isOk_iff _ _ _ _ _ _ _ _ _ hq] at hsigned hsigned'
  obtain ⟨bnSum, points, hcommit, hchal⟩ := hsigned
  obtain ⟨bnSum', points', hcommit', hchal'⟩ := hsigned'
  rw [hcommit] at hcommit'
  obtain ⟨rfl, rfl⟩ : bnSum = bnSum' ∧ points = points' := by simpa using hcommit'
  exact hcol.challenge txin hmem hplain pre pre' bnSum points hpre hpre' hcommit
    (hchal.trans hchal'.symm)

/-- The inputs of an accepted transaction do not carry over to other outputs exactly when one of
them is in the plain layout, or has its image recorded by `T`, or its ring is not admitted in `T'`:
the AB signature alone binds nothing. -/
theorem checkAnonInputs_bound_iff (T T' : CTransaction) (fCheckExists : Bool) (hq : 0 < E.order)
    (haccept : (checkAnonInputs p E hash v T fCheckExists).isOk) (hsame : SameInputs T T')
    (hcol : NoCollision p E hash v T T') :
    ¬ (checkAnonInputs p E hash v T' fCheckExists).isOk ↔
      ∃ txin ∈ T.vin, txin.isAnonInput ∧
        (¬ isLayoutAB txin.scriptSig txin.extractRingSize ∨
          RecordedBy hash v fCheckExists T txin ∨ ¬ RingAdmittedAB p v T' txin) := by
  obtain ⟨pre, hpre, hinputs⟩ := (checkAnonInputs_isOk_iff p E hash v T fCheckExists).mp haccept
  have hsome := getTxnPreImage_isSome hash T T' hsame
  rw [hpre, Option.isSome_some] at hsome
  obtain ⟨pre', hpre'⟩ := Option.isSome_iff_exists.mp hsome
  -- one input at a time
  have hinput : ∀ i txin, T.vin[i]? = some txin → txin.isAnonInput →
      ((checkAnonInput p E hash v T' fCheckExists pre' txin i).isOk ↔
        ¬ (¬ isLayoutAB txin.scriptSig txin.extractRingSize ∨
          RecordedBy hash v fCheckExists T txin ∨ ¬ RingAdmittedAB p v T' txin)) := by
    intro i txin hi hanon
    have hok := hinputs i txin hi hanon
    rw [checkAnonInput_isOk, Bool.and_eq_true, Bool.and_eq_true] at hok ⊢
    obtain ⟨⟨hfree, hring⟩, hsigned⟩ := hok
    by_cases hab : isLayoutAB txin.scriptSig txin.extractRingSize
    · have hsigned' : signatureOk p E hash v pre' txin := by
        simpa only [signatureOk, hab, if_true] using hsigned
      rw [keyImageFree_transfer hash v fCheckExists T T' txin hcol.txid hfree,
        ringRulesOk_transfer p v T T' txin i hab hring]
      simp [hab, hsigned']
    · have hnot := plain_not_signed p E hash v T T' hq hcol txin (List.mem_of_getElem? hi) hab pre pre'
        hpre hpre' hsigned
      simp [hab, hnot]
  rw [accept_over_inputs p E hash v T T' fCheckExists hsame]
  constructor
  · intro hno
    by_contra hall
    refine hno ⟨pre', hpre', fun i txin hi hanon => (hinput i txin hi hanon).mpr fun hbad => ?_⟩
    exact hall ⟨txin, List.mem_of_getElem? hi, hanon, hbad⟩
  · rintro ⟨txin, hmem, hanon, hbad⟩ ⟨preimage, hpreimage, hall⟩
    obtain ⟨i, hi⟩ := List.mem_iff_getElem?.mp hmem
    obtain rfl : pre' = preimage := by simpa [hpre'] using hpreimage
    exact (hinput i txin hi hanon).mp (hall i txin hi hanon) hbad

/-- The challenges differ when a run of the commitment shows it. -/
private theorem challenge_ne_of_all (T T' : CTransaction) (txin : CTxIn)
    (hrun : ((plainCommitment E (hashToEC E hash (p.isProtocolV3 v.nBestHeight)) txin.extractKeyImage
      txin.extractRingSize (plainPubkeys txin.scriptSig)
      (plainSigc txin.scriptSig txin.extractRingSize)
      (plainSigr txin.scriptSig txin.extractRingSize)).toOption.all fun st =>
        plainChallenge E hash (hash (preImageBytes T)) st.2 !=
          plainChallenge E hash (hash (preImageBytes T')) st.2) = true)
    (pre pre' : UInt256) (bnSum : Nat) (points : Bytes) (hpre : getTxnPreImage hash T = some pre)
    (hpre' : getTxnPreImage hash T' = some pre')
    (hcommit : plainCommitment E (hashToEC E hash (p.isProtocolV3 v.nBestHeight))
      txin.extractKeyImage txin.extractRingSize (plainPubkeys txin.scriptSig)
      (plainSigc txin.scriptSig txin.extractRingSize)
      (plainSigr txin.scriptSig txin.extractRingSize) = .ok (bnSum, points)) :
    plainChallenge E hash pre points ≠ plainChallenge E hash pre' points := by
  have hvalue : ∀ tx h, getTxnPreImage hash tx = some h → h = hash (preImageBytes tx) := by
    intro tx h hsome
    unfold getTxnPreImage at hsome
    split at hsome
    · exact (Option.some.inj hsome).symm
    · cases hsome
  rw [hcommit] at hrun
  rw [hvalue T pre hpre, hvalue T' pre' hpre']
  simpa [Except.toOption] using hrun

end Binding

section Redirect

def redirectRing : Bytes :=
  [0x0332d82ea88f83153669b2af9a16553c8b7d84c1ace8c3e29d38c29417c945111b,
    0x024a647e43da24103f5f977b9a2d2ed8dbb796bd92f87f6bdd632b5ba81568c202].flatMap (beBytes 33)

def redirectSigS : Bytes :=
  [0x1d827746aa30b877a2a67cdb0a5baa2588ed5c9c8abe83eac2a88f13b6dcf9f4,
    0xe724b609d0f7f2eaa8171d1dc3bc9e2c1afcdd6c66d83b3092c449f602883377].flatMap (beBytes 32)

/-- An input in the AB layout, signed with the key of member 1. -/
def redirectInput : CTxIn where
  prevout := ⟨0xb2adf99d38a33fa3ea987c39ef4349d77e9b303d442c28763b133301ad246b03, 0x200f7⟩
  scriptSig := [OP_RETURN, OP_ANON_MARKER] ++
    beBytes 32 0x5e847541611d8b36272b93965212f6cbc0cf9739b28494363b02398de3492288 ++ redirectSigS ++ redirectRing
  nSequence := 0xFFFFFFFF

/-- A spend of that input to one key. -/
def redirectTx (keyID : Nat) : CTransaction where
  nVersion := ANON_TXN_VERSION
  nTime := 1550000000
  vin := [redirectInput]
  vout := [⟨499990000, payToPubKeyHash keyID⟩]
  nLockTime := 0

/-- The members, recorded with one value and one height. -/
def redirectView : AnonView where
  getKeyImage _ := none
  txnHashInSystem _ := false
  readAnonOutput pk :=
    (((List.range 2).map (slot EC_COMPRESSED_SIZE redirectRing)).idxOf? pk).map fun ri =>
      { outpoint := ⟨0, ri.toUInt32⟩, nValue := 5 * COIN, nBlockHeight := 900000
        nCompromised := 0, fCoinStake := false }
  nBestHeight := 1000000

theorem redirect_signed (preimage : UInt256) :
    signatureOk mainParams secp256k1 sha256d redirectView preimage redirectInput = true := by
  have hab : isLayoutAB redirectInput.scriptSig redirectInput.extractRingSize = true := by
    decide +kernel
  have hsig : (verifyRingSignatureAB secp256k1 sha256d
      (hashToEC secp256k1 sha256d (mainParams.isProtocolV3 redirectView.nBestHeight))
      redirectInput.extractKeyImage redirectInput.extractRingSize
      (abPubkeys redirectInput.scriptSig redirectInput.extractRingSize)
      (abSigC redirectInput.scriptSig) (abSigS redirectInput.scriptSig)).isOk = true := by
    rw [sha256d_eq_eval, secp256k1_eq_eval]
    decide +kernel
  rw [signatureOk, hab, if_pos rfl]
  exact hsig

private theorem redirect_accepted (keyID : Nat)
    (hring : ringRulesOk mainParams redirectView (redirectTx keyID) redirectInput 0) :
    (checkAnonInputs mainParams secp256k1 sha256d redirectView (redirectTx keyID) false).isOk :=
  checkAnonInputs_isOk_of_single mainParams secp256k1 sha256d redirectView (redirectTx keyID) false
    redirectInput rfl (by decide +kernel) rfl hring (redirect_signed _)

/-- An accepted AB spend, redirected to another key: the transactions and their pre-images differ,
and both are accepted. -/
theorem redirectedSpend_accepted :
    (checkAnonInputs mainParams secp256k1 sha256d redirectView (redirectTx 1) false).isOk ∧
      (redirectTx 1).vin = (redirectTx 2).vin ∧ (redirectTx 1).vout ≠ (redirectTx 2).vout ∧
      getTxnPreImage sha256d (redirectTx 1) ≠ getTxnPreImage sha256d (redirectTx 2) ∧
      (checkAnonInputs mainParams secp256k1 sha256d redirectView (redirectTx 2) false).isOk :=
  ⟨redirect_accepted 1 (by decide +kernel), rfl, by decide +kernel, by decide +kernel,
    redirect_accepted 2 (by decide +kernel)⟩

def singlePk : Bytes := beBytes 33 0x02e883375870144e134573f45c09f53f8f086d0b3103e6d53678802b8c3b62f6e6

/-- A ring of one in the plain layout, as it was allowed before fork V3. -/
def singleInput : CTxIn where
  prevout := ⟨0x4541d6ea776f08fa077580a016f6ca2d5e4d5087dd929fa2d400de28bbae8703, 0x10013⟩
  scriptSig := [OP_RETURN, OP_ANON_MARKER] ++ singlePk ++
    beBytes 32 0xce3e3b70f7c1943e8628353e9bf9fcfbca8e32f368eed4716ae241a7c79568ca ++
    beBytes 32 0xc2ad947b5df7327cde100c32d8030355d011ce6379c75e605c4c343e214eae74
  nSequence := 0xFFFFFFFF

def singleTx (keyID : Nat) : CTransaction where
  nVersion := ANON_TXN_VERSION
  nTime := 1550000000
  vin := [singleInput]
  vout := [⟨499990000, payToPubKeyHash keyID⟩]
  nLockTime := 0

def singleView : AnonView where
  getKeyImage _ := none
  txnHashInSystem _ := false
  readAnonOutput pk := if pk = singlePk then some {
      outpoint := ⟨0, 0⟩, nValue := 5 * COIN, nBlockHeight := 900000, nCompromised := 0
      fCoinStake := false } else none
  nBestHeight := 1000000

private theorem single_noCollision :
    NoCollision mainParams secp256k1 sha256d singleView (singleTx 1) (singleTx 2) := by
  refine ⟨by decide +kernel, by decide +kernel, fun txin hmem _ => ?_⟩
  obtain rfl := List.mem_singleton.mp hmem
  exact challenge_ne_of_all mainParams secp256k1 sha256d singleView (singleTx 1) (singleTx 2)
    singleInput (by decide +kernel)

/-- A plain spend cannot be redirected. -/
theorem singleSpend_bound :
    (checkAnonInputs mainParams secp256k1 sha256d singleView (singleTx 1) false).isOk ∧
      ¬ (checkAnonInputs mainParams secp256k1 sha256d singleView (singleTx 2) false).isOk := by
  have haccept : (checkAnonInputs mainParams secp256k1 sha256d singleView (singleTx 1) false).isOk := by
    rw [sha256d_eq_eval, secp256k1_eq_eval]
    decide +kernel
  refine ⟨haccept, (checkAnonInputs_bound_iff mainParams secp256k1 sha256d singleView (singleTx 1)
    (singleTx 2) false (by decide) haccept ⟨rfl, by decide⟩ single_noCollision).mpr ?_⟩
  exact ⟨singleInput, List.mem_singleton.mpr rfl, by decide +kernel, Or.inl (by decide +kernel)⟩

end Redirect

end AliasWallet
