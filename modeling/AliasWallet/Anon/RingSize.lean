import AliasWallet.Anon.MemberRules

/-!
# The size of a ring and its keys

The loops over a ring look at each position by itself. What is accepted has as many positions as the
input claims, each with a recorded key; that the keys differ is asked nowhere.
-/

namespace AliasWallet
open Lib

section Keys

variable {Pt : Type} (p : ChainParams) (E : Curve Pt) (hash : HashFn) (v : AnonView)
  (tx : CTransaction)

/-- The public keys of a ring, position by position. -/
def ringKeys (txin : CTxIn) : List Bytes :=
  (List.range txin.extractRingSize).map
    (slot EC_COMPRESSED_SIZE (ringPubkeys txin.scriptSig txin.extractRingSize))

/-- A ring of an admitted size, each key that of a recorded output at its depth. -/
structure RingFilled (txin : CTxIn) : Prop where
  size_ge : (getRingSizeMinMax p tx.nTime.toNat).1 ≤ (ringKeys txin).length
  size_le : (ringKeys txin).length ≤ (getRingSizeMinMax p tx.nTime.toNat).2
  recorded : ∀ pk ∈ ringKeys txin, ∃ ao, v.readAnonOutput (cpubKeyBytes pk) = some ao ∧
    DeepEnough p v tx ao

/-- Both inputs claim rings of one size in one layout, and the second has room for its signature. -/
structure SameRingShape (txin txin' : CTxIn) : Prop where
  size : txin'.extractRingSize = txin.extractRingSize
  layout : isLayoutAB txin'.scriptSig txin.extractRingSize = isLayoutAB txin.scriptSig txin.extractRingSize
  length : 2 + (EC_COMPRESSED_SIZE + EC_SECRET_SIZE + EC_SECRET_SIZE) * txin.extractRingSize ≤
    txin'.scriptSig.length ∨ isLayoutAB txin.scriptSig txin.extractRingSize

theorem ringKeys_length (txin : CTxIn) : (ringKeys txin).length = txin.extractRingSize := by
  simp [ringKeys]

theorem mem_ringKeys {txin : CTxIn} {pk : Bytes} :
    pk ∈ ringKeys txin ↔ ∃ ri < txin.extractRingSize,
      slot EC_COMPRESSED_SIZE (ringPubkeys txin.scriptSig txin.extractRingSize) ri = pk := by
  simp [ringKeys]

/-- A loop over the members that ends well, with the value that it carries into each round. -/
private theorem memberLoop_run (n : Nat) (body : Nat → Int64 → Except AnonInputError Int64)
    (member : Nat → Option CAnonOutput) (Admitted : CAnonOutput → Prop)
    (hbody : ∀ ri c c', body ri c = .ok c' ↔ ∃ ao, member ri = some ao ∧
      (c = -1 ∨ c = ao.nValue) ∧ Admitted ao ∧ c' = ao.nValue)
    (hok : (forRange n body (-1)).isOk) :
    ∃ f : Nat → Int64, f 0 = -1 ∧ ∀ ri < n, ∃ ao, member ri = some ao ∧
      (f ri = -1 ∨ f ri = ao.nValue) ∧ Admitted ao ∧ f (ri + 1) = ao.nValue := by
  obtain ⟨c, hc⟩ : ∃ c, forRange n body (-1) = .ok c := by
    cases hloop : forRange n body (-1) with
    | error e => simp [hloop, Except.isOk, Except.toBool] at hok
    | ok c => exact ⟨c, rfl⟩
  obtain ⟨f, hfirst, -, hstep⟩ := (forRange_eq_ok_iff n body (-1) c).mp hc
  exact ⟨f, hfirst, fun ri hri => (hbody ri _ _).mp (hstep ri hri)⟩

private theorem bodyAB (txin : CTxIn) (i : Nat)
    (hab : isLayoutAB txin.scriptSig txin.extractRingSize = true) (ri : Nat) (c c' : Int64) :
    checkRingMemberAB p v tx i (abPubkeys txin.scriptSig txin.extractRingSize) ri c = .ok c' ↔
      ∃ ao, ringMember v txin ri = some ao ∧ (c = -1 ∨ c = ao.nValue) ∧ AdmittedAB p v tx ao ∧
        c' = ao.nValue := by
  rw [checkRingMemberAB_eq_ok_iff]
  simp only [ringMember, ringPubkeys, hab, if_true]

private theorem bodyPlain (txin : CTxIn) (i : Nat)
    (hab : isLayoutAB txin.scriptSig txin.extractRingSize = false) (ri : Nat) (c c' : Int64) :
    Prod.snd <$> checkRingMember p v tx i (plainPubkeys txin.scriptSig) ri c = .ok c' ↔
      ∃ ao, ringMember v txin ri = some ao ∧ (c = -1 ∨ c = ao.nValue) ∧ DeepEnough p v tx ao ∧
        c' = ao.nValue := by
  rw [checkRingMember_value_eq_ok_iff]
  simp only [ringMember, ringPubkeys, hab, Bool.false_eq_true, if_false]

/-- The members of a ring that passes, and the value that the loop carries from one to the next. -/
theorem ringRulesOk_run (txin : CTxIn) (i : Nat) (hok : ringRulesOk p v tx txin i) :
    ∃ f : Nat → Int64, f 0 = -1 ∧ ∀ ri < txin.extractRingSize, ∃ ao, ringMember v txin ri = some ao ∧
      (f ri = -1 ∨ f ri = ao.nValue) ∧ DeepEnough p v tx ao ∧ f (ri + 1) = ao.nValue := by
  simp only [ringRulesOk, Bool.and_eq_true, decide_eq_true_eq] at hok
  have hmembers := hok.2
  cases hab : isLayoutAB txin.scriptSig txin.extractRingSize with
  | true =>
    rw [hab, if_pos rfl] at hmembers
    obtain ⟨f, hfirst, hrun⟩ := memberLoop_run _ _ _ _ (bodyAB p v tx txin i hab) hmembers
    refine ⟨f, hfirst, fun ri hri => ?_⟩
    obtain ⟨ao, hao, hvalue, hadm, hnext⟩ := hrun ri hri
    exact ⟨ao, hao, hvalue, hadm.1, hnext⟩
  | false =>
    rw [hab, if_neg Bool.false_ne_true, Bool.and_eq_true] at hmembers
    exact memberLoop_run _ _ _ _ (bodyPlain p v tx txin i hab) hmembers.2

theorem ringFilled_of_ringRulesOk (txin : CTxIn) (i : Nat) (hok : ringRulesOk p v tx txin i) :
    RingFilled p v tx txin := by
  obtain ⟨f, -, hrun⟩ := ringRulesOk_run p v tx txin i hok
  simp only [ringRulesOk, Bool.and_eq_true, decide_eq_true_eq] at hok
  refine ⟨?_, ?_, fun pk hpk => ?_⟩
  · rw [ringKeys_length]
    exact hok.1.1
  · rw [ringKeys_length]
    exact hok.1.2
  · obtain ⟨ri, hri, rfl⟩ := mem_ringKeys.mp hpk
    obtain ⟨ao, hao, -, hdeep, -⟩ := hrun ri hri
    exact ⟨ao, hao, hdeep⟩

/-- The member of a ring whose keys all occur in another one is a member of that one. -/
private theorem ringMember_of_subset {txin txin' : CTxIn}
    (hkeys : ringKeys txin' ⊆ ringKeys txin) (ri : Nat) (hri : ri < txin'.extractRingSize) :
    ∃ rj < txin.extractRingSize, ringMember v txin' ri = ringMember v txin rj := by
  obtain ⟨rj, hrj, hslot⟩ := mem_ringKeys.mp (hkeys (mem_ringKeys.mpr ⟨ri, hri, rfl⟩))
  exact ⟨rj, hrj, by rw [ringMember, ringMember, hslot]⟩

/-- The two halves of the member loop carry over to a ring that repeats keys. -/
private theorem members_of_subset {txin txin' : CTxIn} (Admitted : CAnonOutput → Prop)
    (hkeys : ringKeys txin' ⊆ ringKeys txin)
    (hmembers : (∀ ri < txin.extractRingSize, ∃ ao, ringMember v txin ri = some ao ∧ Admitted ao) ∧
      ∀ ri < txin.extractRingSize, ∀ rj < txin.extractRingSize, ∀ ao ao',
        ringMember v txin ri = some ao → ringMember v txin rj = some ao' → ao.nValue = ao'.nValue) :
    (∀ ri < txin'.extractRingSize, ∃ ao, ringMember v txin' ri = some ao ∧ Admitted ao) ∧
      ∀ ri < txin'.extractRingSize, ∀ rj < txin'.extractRingSize, ∀ ao ao',
        ringMember v txin' ri = some ao → ringMember v txin' rj = some ao' → ao.nValue = ao'.nValue := by
  constructor
  · intro ri hri
    obtain ⟨rj, hrj, heq⟩ := ringMember_of_subset v hkeys ri hri
    rw [heq]
    exact hmembers.1 rj hrj
  · intro ri hri rj hrj ao ao' hao hao'
    obtain ⟨rk, hrk, heq⟩ := ringMember_of_subset v hkeys ri hri
    obtain ⟨rl, hrl, heq'⟩ := ringMember_of_subset v hkeys rj hrj
    exact hmembers.2 rk hrk rl hrl ao ao' (heq ▸ hao) (heq' ▸ hao')

/-- The ring checks do not see how often a key occurs. -/
theorem ringRulesOk_of_subset {txin txin' : CTxIn} (i j : Nat) (hv : v.NonNegative)
    (hshape : SameRingShape txin txin') (hkeys : ringKeys txin' ⊆ ringKeys txin)
    (hok : ringRulesOk p v tx txin i) : ringRulesOk p v tx txin' j := by
  have hnonneg : ∀ txin ri ao, ringMember v txin ri = some ao → 0 ≤ ao.nValue :=
    fun txin ri ao hao => hv _ _ hao
  have hsize := hshape.size
  have hlayout : isLayoutAB txin'.scriptSig txin'.extractRingSize =
      isLayoutAB txin.scriptSig txin.extractRingSize := by
    rw [hsize]
    exact hshape.layout
  simp only [ringRulesOk, Bool.and_eq_true, decide_eq_true_eq] at hok ⊢
  refine ⟨by rw [hsize]; exact hok.1, ?_⟩
  cases hab : isLayoutAB txin.scriptSig txin.extractRingSize with
  | true =>
    have hab' := hlayout.trans hab
    have hloop := hok.2
    rw [hab, if_pos rfl, memberLoop_isOk_iff _ _ _ _ (hnonneg txin) (bodyAB p v tx txin i hab)] at hloop
    rw [hab', if_pos rfl, memberLoop_isOk_iff _ _ _ _ (hnonneg txin') (bodyAB p v tx txin' j hab')]
    exact members_of_subset v _ hkeys hloop
  | false =>
    have hab' := hlayout.trans hab
    have hloop := hok.2
    rw [hab, if_neg Bool.false_ne_true, Bool.and_eq_true,
      memberLoop_isOk_iff _ _ _ _ (hnonneg txin) (bodyPlain p v tx txin i hab)] at hloop
    rw [hab', if_neg Bool.false_ne_true, Bool.and_eq_true,
      memberLoop_isOk_iff _ _ _ _ (hnonneg txin') (bodyPlain p v tx txin' j hab')]
    refine ⟨decide_eq_true ?_, members_of_subset v _ hkeys hloop.2⟩
    rw [hsize]
    exact hshape.length.resolve_right (by rw [hab]; exact Bool.false_ne_true)

/-- An accepted input has a ring of the size that it claims, each position with a recorded key. The
positions are not compared: a ring of the same shape made of some of these keys, repeated at will,
passes the same checks. -/
theorem checkAnonInputs_ringFilled (fCheckExists : Bool)
    (haccept : (checkAnonInputs p E hash v tx fCheckExists).isOk) (txin : CTxIn)
    (hmem : txin ∈ tx.vin) (hanon : txin.isAnonInput) :
    RingFilled p v tx txin ∧
      (v.NonNegative → ∀ (txin' : CTxIn) (j : Nat), SameRingShape txin txin' →
        ringKeys txin' ⊆ ringKeys txin → ringRulesOk p v tx txin' j) := by
  obtain ⟨preimage, -, hinputs⟩ := (checkAnonInputs_isOk_iff p E hash v tx fCheckExists).mp haccept
  obtain ⟨i, hi⟩ := List.mem_iff_getElem?.mp hmem
  have hok := hinputs i txin hi hanon
  rw [checkAnonInput_isOk, Bool.and_eq_true, Bool.and_eq_true] at hok
  exact ⟨ringFilled_of_ringRulesOk p v tx txin i hok.1.2,
    fun hv txin' j hshape hkeys => ringRulesOk_of_subset p v tx i j hv hshape hkeys hok.1.2⟩

end Keys

section OneKey

def oneKey : Bytes := beBytes 33 0x033cf45c2c9124800746474e2024013b59af967e69bf0a9465adefeb57d6b21e04

def oneKeySigS : Bytes :=
  [0x2834411032de19cdc9cbdb29a8c9dbe9bf223a86de2b2da39f6b1c271bb1fd62,
    0xa10b1d3d2c5f7e53066f099a62bbd0a9283dc0307a49634a4edcc5e70cc11b53,
    0xa888f660975276ce48184c967450de5ef26a3e7feba469f2a5756de56231862f,
    0x26dde66c509f47687844a2f83a2ebff6c800341a8e6325f788b8b1ffa89fd533,
    0x5707e54924fbd06870ee80091647f8c9c8245b13c065c55379f9f2349545a99e,
    0x6bbb2aa0adb1ca4d79f02320cc4ac61fe22be4e21ff984d4ef15517da9b2334e,
    0x95a7938203b49ccbec2df369f7cc63f5a78df447c044b485d61713dc1c61ec8a,
    0xe5b3d4c3181f6f9f63e8e71c9de7bf82563474b477d0c011c1f1d5d92f6647b0,
    0x8504d44269349df81ec3e8c2941066a5fc423565e0aa5760974bf825f9201711,
    0xbe51479e5f96c516df7b9adca47719d6c4ad8141effcec6d01537eb2a8273f43].flatMap (beBytes 32)

/-- An input in the AB layout whose ring of ten is one key ten times. -/
def oneKeyInput : CTxIn where
  prevout := ⟨0x9fe70d815314f023d52f7e62ce166d7bd247a69b2b09a2c18d58176b7f8bdd02, 0xa0011⟩
  scriptSig := [OP_RETURN, OP_ANON_MARKER] ++
    beBytes 32 0x0876c4406bb6e2923c4d244845c5c2a140f651d316d655c6fcb5d4d214828eba ++ oneKeySigS ++
    (List.replicate 10 oneKey).flatten
  nSequence := 0xFFFFFFFF

/-- A spend after fork V3. -/
def oneKeyTx : CTransaction where
  nVersion := ANON_TXN_VERSION
  nTime := 1600000000
  vin := [oneKeyInput]
  vout := [⟨499990000, payToPubKeyHash 1⟩]
  nLockTime := 0

/-- Only that key is recorded. -/
def oneKeyView : AnonView where
  getKeyImage _ := none
  txnHashInSystem _ := false
  readAnonOutput pk := if pk = oneKey then some {
      outpoint := ⟨0, 0⟩, nValue := 5 * COIN, nBlockHeight := 1300000, nCompromised := 0
      fCoinStake := false } else none
  nBestHeight := 1400000

private theorem oneKey_signed : (verifyRingSignatureAB secp256k1 sha256d
    (hashToEC secp256k1 sha256d true) oneKeyInput.extractKeyImage 10
    (abPubkeys oneKeyInput.scriptSig 10) (abSigC oneKeyInput.scriptSig)
    (abSigS oneKeyInput.scriptSig)).isOk = true := by
  rw [sha256d_eq_eval, secp256k1_eq_eval]
  decide +kernel

private theorem oneKey_accepted :
    (checkAnonInputs mainParams secp256k1 sha256d oneKeyView oneKeyTx false).isOk := by
  have hab : isLayoutAB oneKeyInput.scriptSig oneKeyInput.extractRingSize = true := by decide +kernel
  have hsize : oneKeyInput.extractRingSize = 10 := by decide
  have hsig : signatureOk mainParams secp256k1 sha256d oneKeyView
      (sha256d (preImageBytes oneKeyTx)) oneKeyInput = true := by
    rw [signatureOk, hab, if_pos rfl, hsize]
    exact oneKey_signed
  exact checkAnonInputs_isOk_of_single mainParams secp256k1 sha256d oneKeyView oneKeyTx false
    oneKeyInput rfl (by decide +kernel) rfl (by decide +kernel) hsig

/-- A ring of the required ten positions with one key in all of them is accepted. -/
theorem oneKeyRing_accepted :
    (checkAnonInputs mainParams secp256k1 sha256d oneKeyView oneKeyTx false).isOk ∧
      oneKeyInput ∈ oneKeyTx.vin ∧ oneKeyInput.isAnonInput ∧
      oneKeyInput.extractRingSize = MIN_RING_SIZE ∧
      ringKeys oneKeyInput = List.replicate 10 oneKey ∧ ¬ (ringKeys oneKeyInput).Nodup :=
  ⟨oneKey_accepted, List.mem_singleton.mpr rfl, by decide +kernel, by decide, by decide +kernel,
    by decide +kernel⟩

theorem oneKeyRing_filled : RingFilled mainParams oneKeyView oneKeyTx oneKeyInput :=
  (checkAnonInputs_ringFilled mainParams secp256k1 sha256d oneKeyView oneKeyTx false oneKey_accepted
    oneKeyInput (List.mem_singleton.mpr rfl) (by decide +kernel)).1

end OneKey

end AliasWallet
