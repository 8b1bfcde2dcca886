import AliasWallet.Chain.ConcreteNode
import AliasWallet.Script.Checks

/-!
# Scripts under the flags of the pool and of a block

The pool and the miner verify scripts under the mandatory flags, a block under fewer or other ones. Two of the
block flags only allow more signature encodings, one makes an operation of a NOP, and the rule for redeem
scripts is dropped. Whatever the pool accepts, a block accepts after the same signature checks.
-/

namespace AliasWallet
open Lib

section Weaker

/-- Flags under which an operation that passes under strict encodings does the same. -/
structure WeakerFlags (flags flags' : EvalFlags) : Prop where
  strict : flags.strictEnc = true
  encoding : ∀ vchSig, checkSignatureEncoding flags vchSig = true → checkSignatureEncoding flags' vchSig = true
  nops : flags'.discourageUpgradableNops = false
  dummy : flags'.nullDummy = true → flags.nullDummy = true
  lockTime : flags'.checkLockTimeVerify = true → flags.checkLockTimeVerify = true

variable {p : ChainParams} {C : ScriptCrypto} {txTo : CTransaction} {nIn : Nat} {flags flags' : EvalFlags}

theorem WeakerFlags.checkOneSig (h : WeakerFlags flags flags') {scriptCode : CScript} {vchSig vchPubKey : Bytes}
    {fOk : Bool} (hcheck : checkOneSig p C txTo nIn flags scriptCode vchSig vchPubKey = some fOk) :
    checkOneSig p C txTo nIn flags' scriptCode vchSig vchPubKey = some fOk := by
  rw [AliasWallet.checkOneSig] at hcheck ⊢
  cases hencoded : checkSignatureEncoding flags vchSig && checkPubKeyEncoding vchPubKey with
  | false =>
    rw [hencoded, h.strict] at hcheck
    exact absurd hcheck (by simp)
  | true =>
    have hboth := Bool.and_eq_true_iff.mp hencoded
    have hencoded' : (checkSignatureEncoding flags' vchSig && checkPubKeyEncoding vchPubKey) = true :=
      Bool.and_eq_true_iff.mpr ⟨h.encoding vchSig hboth.1, hboth.2⟩
    rw [hencoded, h.strict] at hcheck
    rw [hencoded', Bool.not_true, Bool.and_false]
    exact hcheck

/-- A loop that comes to its end makes the same tests. -/
theorem WeakerFlags.multiSigLoop (h : WeakerFlags flags flags') (scriptCode : CScript) (keys sigs : List Bytes)
    {fSuccess : Bool} (hloop : multiSigLoop p C txTo nIn flags scriptCode keys sigs = some fSuccess) :
    multiSigLoop p C txTo nIn flags' scriptCode keys sigs = some fSuccess ∧
      multiSigChecks p C txTo nIn flags' scriptCode keys sigs =
        multiSigChecks p C txTo nIn flags scriptCode keys sigs := by
  induction keys generalizing sigs with
  | nil =>
    cases sigs with
    | nil => exact ⟨hloop, rfl⟩
    | cons vchSig sigs => exact ⟨hloop, rfl⟩
  | cons vchPubKey keys ih =>
    cases sigs with
    | nil => exact ⟨hloop, rfl⟩
    | cons vchSig sigs =>
      rw [AliasWallet.multiSigLoop, Option.bind_eq_bind, Option.bind_eq_some_iff] at hloop
      obtain ⟨fOk, hcheck, hrest⟩ := hloop
      have hcheck' := h.checkOneSig hcheck
      rw [AliasWallet.multiSigLoop, Option.bind_eq_bind, hcheck', Option.bind_some, multiSigChecks, multiSigChecks,
        hcheck, hcheck']
      dsimp only at hrest ⊢
      generalize (if fOk = true then sigs else vchSig :: sigs) = left at hrest ⊢
      by_cases hmore : left.length > keys.length
      · rw [if_pos hmore] at hrest ⊢
        rw [if_pos hmore, if_pos hmore]
        exact ⟨hrest, rfl⟩
      · rw [if_neg hmore] at hrest ⊢
        rw [if_neg hmore, if_neg hmore]
        obtain ⟨hloop', hchecks⟩ := ih left hrest
        exact ⟨hloop', by rw [hchecks]⟩

theorem WeakerFlags.runCheckSig (h : WeakerFlags flags flags') (fVerify : Bool) (st st' : EvalState)
    (hrun : runCheckSig p C txTo nIn flags fVerify st = some st') :
    runCheckSig p C txTo nIn flags' fVerify st = some st' ∧
      ∀ vchPubKey vchSig stack, st.stack = vchPubKey :: vchSig :: stack →
        let scriptCode := CScript.findAndDelete st.codeHash (CScript.push vchSig)
        AliasWallet.checkOneSig p C txTo nIn flags' scriptCode vchSig vchPubKey =
          AliasWallet.checkOneSig p C txTo nIn flags scriptCode vchSig vchPubKey := by
  rw [AliasWallet.runCheckSig] at hrun ⊢
  match hstack : st.stack with
  | [] => exact absurd (hstack ▸ hrun) (by simp)
  | [_] => exact absurd (hstack ▸ hrun) (by simp)
  | vchPubKey :: vchSig :: stack =>
    rw [hstack] at hrun
    dsimp only at hrun ⊢
    rw [Option.bind_eq_bind, Option.bind_eq_some_iff] at hrun
    obtain ⟨fSuccess, hcheck, hrest⟩ := hrun
    have hcheck' := h.checkOneSig hcheck
    refine ⟨by rwa [hcheck'], fun vchPubKey' vchSig' stack' heq => ?_⟩
    simp only [List.cons.injEq] at heq
    obtain ⟨rfl, rfl, -⟩ := heq
    exact hcheck'.trans hcheck.symm

theorem WeakerFlags.runCheckMultiSig (h : WeakerFlags flags flags') (fVerify : Bool) (st st' : EvalState)
    (hrun : runCheckMultiSig p C txTo nIn flags fVerify st = some st') :
    runCheckMultiSig p C txTo nIn flags' fVerify st = some st' ∧
      ∀ keys sigs rest, multiSigOperands st = some (keys, sigs, rest) →
        multiSigChecks p C txTo nIn flags' (multiSigCode st sigs) keys sigs =
          multiSigChecks p C txTo nIn flags (multiSigCode st sigs) keys sigs := by
  rw [runCheckMultiSig_eq, Option.bind_eq_some_iff] at hrun
  obtain ⟨⟨keys, sigs, rest, nOpCount⟩, hoperands, hrun⟩ := hrun
  rw [runCheckMultiSig_eq, hoperands, Option.bind_some]
  cases rest with
  | nil => exact absurd hrun (by simp)
  | cons dummy stack =>
    dsimp only at hrun ⊢
    rw [Option.bind_eq_bind, Option.bind_eq_some_iff] at hrun
    obtain ⟨fSuccess, hloop, hrest⟩ := hrun
    obtain ⟨hloop', hchecks⟩ := h.multiSigLoop _ keys sigs hloop
    refine ⟨?_, fun keys' sigs' rest' hfound => ?_⟩
    · rw [hloop', Option.bind_eq_bind, Option.bind_some]
      have hkept : ¬ (flags.nullDummy ∧ ¬ dummy.isEmpty) := by
        intro hdummy
        rw [if_pos hdummy] at hrest
        exact absurd hrest (by simp)
      have hkept' : ¬ (flags'.nullDummy ∧ ¬ dummy.isEmpty) := fun hdummy => hkept ⟨h.dummy hdummy.1, hdummy.2⟩
      rw [if_neg hkept] at hrest
      rwa [if_neg hkept']
    · simp only [Option.some.injEq, Prod.mk.injEq] at hfound
      obtain ⟨rfl, rfl, -⟩ := hfound
      exact hchecks

theorem WeakerFlags.runCheckLockTimeVerify (h : WeakerFlags flags flags') (st st' : EvalState)
    (hrun : runCheckLockTimeVerify txTo nIn flags st = some st') :
    runCheckLockTimeVerify txTo nIn flags' st = some st' := by
  -- where the operation stays a NOP, the check of the stricter flags has left the state as it is
  have hsame : st' = st := by
    rw [AliasWallet.runCheckLockTimeVerify] at hrun
    split at hrun
    · split at hrun
      · exact absurd hrun (by simp)
      · exact (Option.some.inj hrun).symm
    · split at hrun
      · exact absurd hrun (by simp)
      · rw [Option.bind_eq_bind, Option.bind_eq_some_iff] at hrun
        obtain ⟨nLockTime, -, hpassed⟩ := hrun
        split at hpassed
        · exact absurd hpassed (by simp)
        · exact (Option.some.inj hpassed).symm
  cases hlock : flags'.checkLockTimeVerify with
  | false =>
    rw [AliasWallet.runCheckLockTimeVerify, hlock, h.nops, hsame]
    rfl
  | true =>
    rw [AliasWallet.runCheckLockTimeVerify, h.lockTime hlock] at hrun
    rw [AliasWallet.runCheckLockTimeVerify, hlock]
    exact hrun

theorem WeakerFlags.execOp (h : WeakerFlags flags flags') (fExec : Bool) (op : ScriptOp) (st st' : EvalState)
    (hrun : execOp p C txTo nIn flags fExec op st = some st') :
    execOp p C txTo nIn flags' fExec op st = some st' ∧
      opChecks p C txTo nIn flags' op st = opChecks p C txTo nIn flags op st := by
  unfold AliasWallet.execOp opChecks at *
  cases hop : Opcode.ofByte op.opcode with
  | checkLockTimeVerify =>
    rw [hop] at hrun
    exact ⟨h.runCheckLockTimeVerify st st' hrun, rfl⟩
  | upgradableNop =>
    rw [hop] at hrun
    dsimp only at hrun ⊢
    split at hrun
    · exact absurd hrun (by simp)
    · rw [h.nops]
      exact ⟨hrun, rfl⟩
  | checkSig fVerify =>
    rw [hop] at hrun
    obtain ⟨hrun', hcheck⟩ := h.runCheckSig fVerify st st' hrun
    refine ⟨hrun', ?_⟩
    dsimp only
    match hstack : st.stack with
    | [] => rfl
    | [_] => rfl
    | vchPubKey :: vchSig :: stack =>
      dsimp only
      rw [hcheck vchPubKey vchSig stack hstack]
  | checkMultiSig fVerify =>
    rw [hop] at hrun
    obtain ⟨hrun', hchecks⟩ := h.runCheckMultiSig fVerify st st' hrun
    refine ⟨hrun', ?_⟩
    dsimp only
    cases hoperands : multiSigOperands st with
    | none => rfl
    | some operands => exact hchecks _ _ _ hoperands
  | _ =>
    -- no other operation reads the flags, whatever it needs on the stack
    rw [hop] at hrun
    rcases hstack : st.stack with _ | ⟨_, _ | ⟨_, _ | ⟨_, _⟩⟩⟩ <;> rw [hstack] at hrun <;> exact ⟨hrun, rfl⟩

theorem WeakerFlags.evalStep (h : WeakerFlags flags flags') (op : ScriptOp) (st st' : EvalState)
    (hrun : evalStep p C txTo nIn flags op st = some st') :
    evalStep p C txTo nIn flags' op st = some st' ∧
      stepChecks p C txTo nIn flags' op st = stepChecks p C txTo nIn flags op st := by
  unfold AliasWallet.evalStep stepChecks at *
  dsimp only at hrun ⊢
  generalize (if op.opcode > OP_16 then st.nOpCount + 1 else st.nOpCount) = nOpCount at hrun ⊢
  by_cases hlong : op.vch.length > MAX_SCRIPT_ELEMENT_SIZE
  · rw [if_pos hlong] at hrun
    exact absurd hrun (by simp)
  by_cases hmany : nOpCount > 201
  · rw [if_neg hlong, if_pos hmany] at hrun
    exact absurd hrun (by simp)
  by_cases hdisabled : Opcode.ofByte op.opcode = .disabled
  · rw [if_neg hlong, if_neg hmany, if_pos hdisabled] at hrun
    exact absurd hrun (by simp)
  rw [if_neg hlong, if_neg hmany, if_neg hdisabled] at hrun
  rw [if_neg hlong, if_neg hmany, if_neg hdisabled, if_neg (not_or_intro hlong hmany),
    if_neg (not_or_intro hlong hmany)]
  by_cases hruns : st.vfExec.all id ∨ 0x63 ≤ op.opcode ∧ op.opcode ≤ 0x68
  · rw [if_pos hruns, Option.bind_eq_bind, Option.bind_eq_some_iff] at hrun
    obtain ⟨st₁, hexec, hsize⟩ := hrun
    obtain ⟨hexec', hchecks⟩ := h.execOp _ op _ st₁ hexec
    rw [if_pos hruns, hexec', hchecks]
    exact ⟨hsize, rfl⟩
  · rw [if_neg hruns] at hrun ⊢
    rw [if_neg fun hall => hruns (Or.inl hall), if_neg fun hall => hruns (Or.inl hall)]
    exact ⟨hrun, rfl⟩

theorem WeakerFlags.runOps (h : WeakerFlags flags flags') (ops : List ScriptOp) (st st' : EvalState)
    (hrun : ops.foldlM (fun st op => AliasWallet.evalStep p C txTo nIn flags op st) st = some st') :
    ops.foldlM (fun st op => AliasWallet.evalStep p C txTo nIn flags' op st) st = some st' ∧
      runChecks p C txTo nIn flags' ops st = runChecks p C txTo nIn flags ops st := by
  induction ops generalizing st with
  | nil => exact ⟨hrun, rfl⟩
  | cons op ops ih =>
    rw [List.foldlM_cons, Option.bind_eq_bind, Option.bind_eq_some_iff] at hrun
    obtain ⟨st₁, hstep, hrest⟩ := hrun
    obtain ⟨hstep', hchecks⟩ := h.evalStep op st st₁ hstep
    obtain ⟨hrest', hchecks'⟩ := ih st₁ hrest
    rw [List.foldlM_cons, hstep', runChecks, runChecks, hstep, hstep', hchecks]
    exact ⟨hrest', congrArg _ hchecks'⟩

/-- A script that passes leaves the same stack after the same tests. -/
theorem WeakerFlags.evalScript (h : WeakerFlags flags flags') (stack stack' : List Bytes) (script : CScript)
    (hrun : evalScript p C txTo nIn flags stack script = some stack') :
    evalScript p C txTo nIn flags' stack script = some stack' ∧
      evalChecks p C txTo nIn flags' stack script = evalChecks p C txTo nIn flags stack script := by
  unfold AliasWallet.evalScript evalChecks at *
  by_cases hlong : script.length > 10000
  · rw [if_pos hlong] at hrun
    exact absurd hrun (by simp)
  rw [if_neg hlong, Option.bind_eq_bind, Option.bind_eq_some_iff] at hrun
  obtain ⟨st, hops, hend⟩ := hrun
  obtain ⟨hops', hchecks⟩ := h.runOps _ _ st hops
  rw [if_neg hlong, if_neg hlong, if_neg hlong, hchecks, Option.bind_eq_bind]
  exact ⟨Option.bind_eq_some_iff.mpr ⟨st, hops', hend⟩, rfl⟩

end Weaker

section Verify

variable (p : ChainParams) (C : ScriptCrypto) (txTo : CTransaction) (nIn : Nat)

/-- The signature tests of the two scripts of `VerifyScript`, and those of a redeem script. -/
def verifyChecks (flags : ScriptFlags) (scriptSig scriptPubKey : CScript) : List SigCheck × List SigCheck :=
  let scriptChecks := evalChecks p C txTo nIn flags.toEvalFlags
  match evalScript p C txTo nIn flags.toEvalFlags [] scriptSig with
  | none => (scriptChecks [] scriptSig, [])
  | some stack =>
    (scriptChecks [] scriptSig ++ scriptChecks stack scriptPubKey,
      if evalsToTrue p C txTo nIn flags stack scriptPubKey && flags.p2sh &&
          CScript.isPayToScriptHash scriptPubKey && CScript.isPushOnly scriptSig then
        match stack with
        | pubKeySerialized :: stackCopy => scriptChecks stackCopy pubKeySerialized
        | [] => []
      else [])

theorem blockScriptFlags_weaker (params : ChainParams) (nHeight : Int) :
    WeakerFlags MANDATORY_SCRIPT_VERIFY_FLAGS.toEvalFlags (blockScriptFlags params nHeight).toEvalFlags := by
  constructor
  · rfl
  · intro vchSig hencoding
    rw [checkSignatureEncoding, Bool.or_eq_true, Bool.and_eq_true, Bool.and_eq_true] at *
    rcases hencoding with hempty | hlow
    · exact absurd hempty.1 (by decide)
    · refine Or.inr ⟨hlow.1, ?_⟩
      rw [Bool.or_eq_true] at *
      rcases hlow.2 with hany | hdefined
      · exact absurd hany (by decide)
      · exact Or.inr hdefined
  · rfl
  · exact fun _ => rfl
  · exact fun _ => rfl

/-- A script that the pool accepts is accepted by a block of any height, after the same signature tests but
for those of a redeem script, which the block does not run. -/
theorem verifyScript_relayed (params : ChainParams) (nHeight : Int) (scriptSig scriptPubKey : CScript)
    (hverify : verifyScript p C txTo nIn MANDATORY_SCRIPT_VERIFY_FLAGS scriptSig scriptPubKey = true) :
    verifyScript p C txTo nIn (blockScriptFlags params nHeight) scriptSig scriptPubKey = true ∧
      verifyChecks p C txTo nIn (blockScriptFlags params nHeight) scriptSig scriptPubKey =
        ((verifyChecks p C txTo nIn MANDATORY_SCRIPT_VERIFY_FLAGS scriptSig scriptPubKey).1, []) := by
  have hweaker := blockScriptFlags_weaker params nHeight
  rw [verifyScript] at hverify
  cases hsig : evalScript p C txTo nIn MANDATORY_SCRIPT_VERIFY_FLAGS.toEvalFlags [] scriptSig with
  | none =>
    rw [hsig] at hverify
    exact absurd hverify (by simp)
  | some stack =>
    rw [hsig, Bool.and_eq_true, evalsToTrue] at hverify
    obtain ⟨hsig', hsigChecks⟩ := hweaker.evalScript [] stack scriptSig hsig
    cases hpub : evalScript p C txTo nIn MANDATORY_SCRIPT_VERIFY_FLAGS.toEvalFlags stack scriptPubKey with
    | none =>
      rw [hpub] at hverify
      exact absurd hverify.1 (by simp)
    | some stack' =>
      rw [hpub] at hverify
      obtain ⟨hpub', hpubChecks⟩ := hweaker.evalScript stack stack' scriptPubKey hpub
      have htrue : evalsToTrue p C txTo nIn (blockScriptFlags params nHeight) stack scriptPubKey = true := by
        rw [evalsToTrue, hpub']
        exact hverify.1
      have hflag : (blockScriptFlags params nHeight).p2sh = false := rfl
      constructor
      · rw [verifyScript, hsig']
        dsimp only
        rw [htrue, hflag, Bool.false_and, Bool.not_false, Bool.true_or, Bool.and_self]
      · rw [verifyChecks, verifyChecks, hsig, hsig']
        dsimp only
        rw [hflag, hsigChecks, hpubChecks, Bool.and_false, Bool.false_and, Bool.false_and,
          if_neg Bool.false_ne_true]

/-- A spend that is locked until height 100. -/
def lockedSpend : CTransaction where
  nVersion := 1
  nTime := 1530000000
  vin := [⟨⟨1, 0⟩, [0x01, 100], 0⟩]
  vout := []
  nLockTime := 100

/-- The lock is checked in the pool and is a NOP in an early block. -/
theorem lockedSpend_relayed :
    verifyScript mainParams linkedCrypto lockedSpend 0 (blockScriptFlags mainParams 1) [0x01, 100] [0xb1] = true ∧
      verifyChecks mainParams linkedCrypto lockedSpend 0 (blockScriptFlags mainParams 1) [0x01, 100] [0xb1] =
        ((verifyChecks mainParams linkedCrypto lockedSpend 0 MANDATORY_SCRIPT_VERIFY_FLAGS [0x01, 100] [0xb1]).1,
          []) :=
  verifyScript_relayed mainParams linkedCrypto lockedSpend 0 mainParams 1 [0x01, 100] [0xb1] (by decide +kernel)

end Verify

end AliasWallet
