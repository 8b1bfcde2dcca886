import AliasWallet.Script.MultiSig
import AliasWallet.Script.Parsing

/-!
# The signature operation count (`script.cpp`)

`GetSigOpCount` reads a script without running it. For an `OP_CHECKMULTISIG` behind one of `OP_1` to `OP_16` it counts
that many, the number that the operation then finds on top of the stack.
-/

namespace AliasWallet
open Lib

/-- `unsigned int n` of `GetSigOpCount`. -/
def CScript.sigOpCounter (s : CScript) (fAccurate : Bool) : UInt32 :=
  UInt32.ofNat (CScript.getSigOpCount s fAccurate)

/-- What `GetSigOpCount(const CScript& scriptSig)` returns. -/
def CScript.sigOpCounterP2SH (s scriptSig : CScript) : UInt32 :=
  UInt32.ofNat (CScript.getSigOpCountP2SH s scriptSig)

/-- The tests that come to a call of `CheckSig`: both encodings are good. -/
def checkSigCalls (flags : EvalFlags) (checks : List SigCheck) : Nat :=
  checks.countP fun check => checkSignatureEncoding flags check.vchSig && checkPubKeyEncoding check.vchPubKey

section Counted

/-- What one operation adds to the count. -/
def sigOpCost (fAccurate : Bool) (lastOpcode : UInt8) (op : ScriptOp) : Nat :=
  match Opcode.ofByte op.opcode with
  | .checkSig _ => 1
  | .checkMultiSig _ => if fAccurate ∧ OP_1 ≤ lastOpcode ∧ lastOpcode ≤ OP_16 then CScript.decodeOP_N lastOpcode else 20
  | _ => 0

theorem sigOpCountFrom_cons (fAccurate : Bool) (lastOpcode : UInt8) (op : ScriptOp) (ops : List ScriptOp) :
    CScript.sigOpCountFrom fAccurate lastOpcode (op :: ops) =
      sigOpCost fAccurate lastOpcode op + CScript.sigOpCountFrom fAccurate op.opcode ops := rfl

theorem decodeOP_N_le {lastOpcode : UInt8} (h : lastOpcode ≤ OP_16) : CScript.decodeOP_N lastOpcode ≤ 16 := by
  have hnat : lastOpcode.toNat ≤ 96 := UInt8.le_iff_toNat_le.mp h
  rw [CScript.decodeOP_N]
  omega

theorem sigOpCost_le (fAccurate : Bool) (lastOpcode : UInt8) (op : ScriptOp) :
    sigOpCost fAccurate lastOpcode op ≤ sigOpCost false lastOpcode op := by
  unfold sigOpCost
  split
  · exact le_rfl
  · split
    · rename_i h
      have hle := decodeOP_N_le h.2.2
      rw [if_neg (by simp)]
      omega
    · rw [if_neg (by simp)]
  · exact le_rfl

theorem sigOpCost_le_twenty (fAccurate : Bool) (lastOpcode : UInt8) (op : ScriptOp) :
    sigOpCost fAccurate lastOpcode op ≤ 20 := by
  apply (sigOpCost_le fAccurate lastOpcode op).trans
  unfold sigOpCost
  split <;> simp

theorem sigOpCountFrom_le (fAccurate : Bool) (lastOpcode : UInt8) (ops : List ScriptOp) :
    CScript.sigOpCountFrom fAccurate lastOpcode ops ≤ CScript.sigOpCountFrom false lastOpcode ops := by
  induction ops generalizing lastOpcode with
  | nil => exact le_rfl
  | cons op ops ih =>
    rw [sigOpCountFrom_cons, sigOpCountFrom_cons]
    exact Nat.add_le_add (sigOpCost_le fAccurate lastOpcode op) (ih op.opcode)

theorem sigOpCountFrom_le_length (fAccurate : Bool) (lastOpcode : UInt8) (ops : List ScriptOp) :
    CScript.sigOpCountFrom fAccurate lastOpcode ops ≤ 20 * ops.length := by
  induction ops generalizing lastOpcode with
  | nil => exact le_rfl
  | cons op ops ih =>
    have hop := sigOpCost_le_twenty fAccurate lastOpcode op
    have hops := ih op.opcode
    rw [sigOpCountFrom_cons, List.length_cons]
    omega

/-- An operation has a byte. -/
theorem ops_length_le (s : CScript) : (CScript.ops s).1.length ≤ s.length := by
  induction hn : s.length using Nat.strong_induction_on generalizing s with
  | _ n ih =>
    cases hop : CScript.getOp s with
    | none =>
      cases s with
      | nil => exact Nat.zero_le n
      | cons b s =>
        rw [CScript.ops_of_none (List.cons_ne_nil b s) hop]
        exact Nat.zero_le n
    | some op =>
      have hrest := CScript.getOp_rest hop
      have hlater := ih op.rest.length (by omega) op.rest rfl
      rw [CScript.ops_of_some hop, List.length_cons]
      omega

theorem getSigOpCount_le_length (s : CScript) (fAccurate : Bool) :
    CScript.getSigOpCount s fAccurate ≤ 20 * s.length :=
  (sigOpCountFrom_le_length fAccurate 0xff _).trans (Nat.mul_le_mul_left 20 (ops_length_le s))

/-- The counter does not wrap in a script of fewer than `2 ^ 32 / 20` bytes. -/
theorem sigOpCounter_toNat {s : CScript} (h : 20 * s.length < 2 ^ 32) (fAccurate : Bool) :
    (CScript.sigOpCounter s fAccurate).toNat = CScript.getSigOpCount s fAccurate := by
  have hcount := getSigOpCount_le_length s fAccurate
  rw [CScript.sigOpCounter, UInt32.toNat_ofNat']
  exact Nat.mod_eq_of_lt (by omega)

end Counted

section Bounded

variable {p : ChainParams} {C : ScriptCrypto} {txTo : CTransaction} {nIn : Nat} {flags : EvalFlags}

/-- The loop goes through its keys. -/
theorem multiSigChecks_length (scriptCode : CScript) (keys sigs : List Bytes) :
    (multiSigChecks p C txTo nIn flags scriptCode keys sigs).length ≤ keys.length := by
  induction keys generalizing sigs with
  | nil => cases sigs <;> exact le_rfl
  | cons vchPubKey keys ih =>
    cases sigs with
    | nil => exact Nat.zero_le _
    | cons vchSig sigs =>
      rw [multiSigChecks]
      apply Nat.succ_le_succ
      cases checkOneSig p C txTo nIn flags scriptCode vchSig vchPubKey with
      | none => exact Nat.zero_le _
      | some fOk =>
        dsimp only
        generalize (if fOk = true then sigs else vchSig :: sigs) = left
        by_cases hmany : left.length > keys.length
        · rw [if_pos hmany]
          exact Nat.zero_le _
        · rw [if_neg hmany]
          exact ih left

/-- There are as many keys as the top of the stack says, and at most twenty. -/
theorem multiSigOperands_keys {st : EvalState} {keys sigs rest : List Bytes} {nOpCount : Nat}
    (h : multiSigOperands st = some (keys, sigs, rest, nOpCount)) :
    ∃ vch stack n, st.stack = vch :: stack ∧ castToBigNum vch nDefaultMaxNumSize = some n ∧
      (keys.length : Int) ≤ n ∧ n ≤ 20 := by
  rw [multiSigOperands] at h
  cases hstack : st.stack with
  | nil =>
    rw [hstack] at h
    cases h
  | cons vch stack =>
    rw [hstack] at h
    dsimp only at h
    rw [Option.bind_eq_bind, Option.bind_eq_some_iff] at h
    obtain ⟨n, hn, h⟩ := h
    refine ⟨vch, stack, n, rfl, hn, ?_⟩
    by_cases hrange : n < 0 ∨ n > 20
    · rw [if_pos hrange] at h
      cases h
    rw [if_neg hrange] at h
    by_cases hops : st.nOpCount + n.toNat > 201
    · rw [if_pos hops] at h
      cases h
    rw [if_neg hops] at h
    have hkeys : keys = stack.take n.toNat := by
      revert h
      cases stack.drop n.toNat with
      | nil =>
        intro h
        cases h
      | cons vchSigsCount below =>
        intro h
        dsimp only at h
        rw [Option.bind_eq_bind, Option.bind_eq_some_iff] at h
        obtain ⟨m, -, h⟩ := h
        by_cases hsigs : m < 0 ∨ m > n.toNat
        · rw [if_pos hsigs] at h
          cases h
        rw [if_neg hsigs] at h
        by_cases hshort : below.length ≤ m.toNat
        · rw [if_pos hshort] at h
          cases h
        rw [if_neg hshort] at h
        exact (congrArg Prod.fst (Option.some.inj h)).symm
    rw [hkeys, List.length_take]
    omega

/-- What the last operation leaves on top of the stack, where it is run and one of `OP_1` to `OP_16`. -/
def PushedNumber (lastOpcode : UInt8) (st : EvalState) : Prop :=
  OP_1 ≤ lastOpcode → lastOpcode ≤ OP_16 → st.vfExec.all id = true →
    ∃ stack, st.stack = vchOfBigNum (lastOpcode.toNat - 0x50) :: stack

theorem castToBigNum_pushed {lastOpcode : UInt8} (hlow : OP_1 ≤ lastOpcode) (hhigh : lastOpcode ≤ OP_16) :
    castToBigNum (vchOfBigNum (lastOpcode.toNat - 0x50)) nDefaultMaxNumSize =
      some (CScript.decodeOP_N lastOpcode : Int) := by
  have hsmall : ∀ n : Fin 16, castToBigNum (vchOfBigNum ((n.val + 81 : Nat) - 0x50)) nDefaultMaxNumSize =
      some ((n.val + 81 - 0x50 : Nat) : Int) := by decide
  have hlow' : 81 ≤ lastOpcode.toNat := UInt8.le_iff_toNat_le.mp hlow
  have hhigh' : lastOpcode.toNat ≤ 96 := UInt8.le_iff_toNat_le.mp hhigh
  have hpushed := hsmall ⟨lastOpcode.toNat - 81, by omega⟩
  rw [show lastOpcode.toNat - 81 + 81 = lastOpcode.toNat by omega] at hpushed
  exact hpushed

/-- The tests of an operation are counted. -/
theorem opChecks_length {lastOpcode : UInt8} {st : EvalState} (op : ScriptOp) (hexec : st.vfExec.all id = true)
    (hpushed : PushedNumber lastOpcode st) :
    (opChecks p C txTo nIn flags op st).length ≤ sigOpCost true lastOpcode op := by
  rw [opChecks, sigOpCost]
  cases Opcode.ofByte op.opcode with
  | checkSig fVerify =>
    dsimp only
    split <;> simp
  | checkMultiSig fVerify =>
    dsimp only
    cases hoperands : multiSigOperands st with
    | none => exact Nat.zero_le _
    | some operands =>
      obtain ⟨keys, sigs, rest, nOpCount⟩ := operands
      obtain ⟨vch, stack, n, hstack, hn, hkeys, hmax⟩ := multiSigOperands_keys hoperands
      have hlen := @multiSigChecks_length p C txTo nIn flags
        (multiSigCode st sigs) keys sigs
      dsimp only
      by_cases hlast : OP_1 ≤ lastOpcode ∧ lastOpcode ≤ OP_16
      · obtain ⟨stack', htop⟩ := hpushed hlast.1 hlast.2 hexec
        rw [hstack] at htop
        rw [(List.cons.inj htop).1, castToBigNum_pushed hlast.1 hlast.2] at hn
        have hvalue := Option.some.inj hn
        rw [if_pos ⟨rfl, hlast⟩]
        omega
      · rw [if_neg (fun h => hlast h.2)]
        omega
  | _ => exact Nat.zero_le _

theorem stepChecks_length {lastOpcode : UInt8} {st : EvalState} (op : ScriptOp) (hpushed : PushedNumber lastOpcode st) :
    (stepChecks p C txTo nIn flags op st).length ≤ sigOpCost true lastOpcode op := by
  rw [stepChecks]
  generalize (if op.opcode > OP_16 then st.nOpCount + 1 else st.nOpCount) = nOpCount
  by_cases hlimit : op.vch.length > MAX_SCRIPT_ELEMENT_SIZE ∨ nOpCount > 201
  · rw [if_pos hlimit]
    exact Nat.zero_le _
  rw [if_neg hlimit]
  by_cases hexec : st.vfExec.all id = true
  · rw [if_pos hexec]
    exact opChecks_length op hexec hpushed
  · rw [if_neg hexec]
    exact Nat.zero_le _

theorem ofByte_pushNum {opcode : UInt8} (hlow : OP_1 ≤ opcode) (hhigh : opcode ≤ OP_16) :
    Opcode.ofByte opcode = .pushNum (opcode.toNat - 0x50) := by
  have hbig : ¬ opcode ≤ OP_PUSHDATA4 := fun h => absurd (UInt8.le_trans hlow h) (by decide)
  rw [Opcode.ofByte, if_neg hbig, if_pos ⟨hlow, hhigh⟩]

/-- A round pushes the number of its operation, or runs in a branch that is not taken. -/
theorem evalStep_pushed {op : ScriptOp} {st st' : EvalState} (h : evalStep p C txTo nIn flags op st = some st') :
    PushedNumber op.opcode st' := by
  intro hlow hhigh hexec
  rw [evalStep] at h
  dsimp only at h
  generalize (if op.opcode > OP_16 then st.nOpCount + 1 else st.nOpCount) = nOpCount at h
  by_cases hsize : op.vch.length > MAX_SCRIPT_ELEMENT_SIZE
  · rw [if_pos hsize] at h
    cases h
  rw [if_neg hsize] at h
  by_cases hops : nOpCount > 201
  · rw [if_pos hops] at h
    cases h
  rw [if_neg hops, if_neg (by rw [ofByte_pushNum hlow hhigh]; exact Opcode.noConfusion)] at h
  have hbelowIf : ¬ (0x63 ≤ op.opcode ∧ op.opcode ≤ 0x68) := fun hif =>
    absurd (UInt8.le_trans hif.1 hhigh) (by decide)
  by_cases htaken : st.vfExec.all id = true
  · rw [if_pos (.inl htaken), execOp, ofByte_pushNum hlow hhigh] at h
    simp only [Option.bind_eq_bind, Option.bind_some] at h
    split at h
    · cases h
    · obtain rfl := Option.some.inj h
      exact ⟨st.stack, rfl⟩
  · rw [if_neg (not_or.mpr ⟨htaken, hbelowIf⟩), Option.bind_eq_bind, Option.bind_some] at h
    split at h
    · cases h
    · obtain rfl := Option.some.inj h
      exact absurd hexec htaken

/-- The tests of a run are counted, whatever branches it takes and wherever it stops. -/
theorem runChecks_length (ops : List ScriptOp) (lastOpcode : UInt8) (st : EvalState)
    (hpushed : PushedNumber lastOpcode st) :
    (runChecks p C txTo nIn flags ops st).length ≤ CScript.sigOpCountFrom true lastOpcode ops := by
  induction ops generalizing lastOpcode st with
  | nil => exact le_rfl
  | cons op ops ih =>
    rw [runChecks, sigOpCountFrom_cons, List.length_append]
    apply Nat.add_le_add (stepChecks_length op hpushed)
    cases hstep : evalStep p C txTo nIn flags op st with
    | none => exact Nat.zero_le _
    | some st' => exact ih op.opcode st' (evalStep_pushed hstep)

theorem evalChecks_length (stack : List Bytes) (script : CScript) :
    (evalChecks p C txTo nIn flags stack script).length ≤ CScript.getSigOpCount script true := by
  rw [evalChecks]
  by_cases hlong : script.length > 10000
  · rw [if_pos hlong]
    exact Nat.zero_le _
  · rw [if_neg hlong]
    apply runChecks_length
    intro _ hhigh
    exact absurd hhigh (by decide)

/-- Too long a script is not run, and in one that is run the counter does not wrap. -/
theorem checkSigCalls_le (stack : List Bytes) (script : CScript) :
    checkSigCalls flags (evalChecks p C txTo nIn flags stack script) ≤ (CScript.sigOpCounter script true).toNat := by
  apply List.countP_le_length.trans
  by_cases hlong : script.length > 10000
  · rw [evalChecks, if_pos hlong]
    exact Nat.zero_le _
  · rw [sigOpCounter_toNat (by omega)]
    exact evalChecks_length stack script

end Bounded

section PayToScriptHash

variable {p : ChainParams} {C : ScriptCrypto} {txTo : CTransaction} {nIn : Nat} {flags : EvalFlags}

/-- The value that a push leaves: its operand, or a number. -/
def PushedBy (op : ScriptOp) (vch : Bytes) : Prop :=
  op.opcode ≤ OP_PUSHDATA4 ∧ vch = op.vch ∨
    OP_PUSHDATA4 < op.opcode ∧ ∃ n, Opcode.ofByte op.opcode = .pushNum n ∧ vch = vchOfBigNum n

theorem ofByte_pushData {opcode : UInt8} (h : opcode ≤ OP_PUSHDATA4) : Opcode.ofByte opcode = .pushData := if_pos h

/-- Of the bytes up to `OP_16` only the reserved one is no push. -/
theorem ofByte_isPush {opcode : UInt8} (hlow : OP_PUSHDATA4 < opcode) (hhigh : opcode ≤ OP_16) :
    opcode = 0x50 ∨ ∃ n, Opcode.ofByte opcode = .pushNum n := by
  by_cases hnum : OP_1 ≤ opcode
  · exact .inr ⟨_, ofByte_pushNum hnum hhigh⟩
  · have hlow' : 78 < opcode.toNat := UInt8.lt_iff_toNat_lt.mp hlow
    have hnum' : ¬ 81 ≤ opcode.toNat := fun h => hnum (UInt8.le_iff_toNat_le.mpr h)
    by_cases hneg : opcode.toNat = 79
    · obtain rfl : opcode = 0x4f := UInt8.toNat_inj.mp hneg
      exact .inr ⟨-1, by decide⟩
    · have hreserved : opcode.toNat = 80 := by omega
      exact .inl (UInt8.toNat_inj.mp hreserved)

theorem evalStep_push {op : ScriptOp} {st st' : EvalState} (hpush : op.opcode ≤ OP_16) (hexec : st.vfExec = [])
    (h : evalStep p C txTo nIn flags op st = some st') :
    st'.vfExec = [] ∧ ∃ vch, st'.stack = vch :: st.stack ∧ PushedBy op vch := by
  rw [evalStep] at h
  dsimp only at h
  generalize (if op.opcode > OP_16 then st.nOpCount + 1 else st.nOpCount) = nOpCount at h
  by_cases hsize : op.vch.length > MAX_SCRIPT_ELEMENT_SIZE
  · rw [if_pos hsize] at h
    cases h
  rw [if_neg hsize] at h
  by_cases hops : nOpCount > 201
  · rw [if_pos hops] at h
    cases h
  rw [if_neg hops] at h
  have hrun : st.vfExec.all id = true := by rw [hexec]; rfl
  by_cases hdata : op.opcode ≤ OP_PUSHDATA4
  · rw [ofByte_pushData hdata, if_neg Opcode.noConfusion, if_pos (.inl hrun), execOp, ofByte_pushData hdata] at h
    simp only [Option.bind_eq_bind, Option.bind_some] at h
    split at h
    · cases h
    · obtain rfl := Option.some.inj h
      exact ⟨hexec, op.vch, rfl, .inl ⟨hdata, rfl⟩⟩
  · have hlow := UInt8.not_le.mp hdata
    cases ofByte_isPush hlow hpush with
    | inl hreserved =>
      have hinvalid : Opcode.ofByte op.opcode = .invalid := by rw [hreserved]; decide
      rw [hinvalid, if_neg Opcode.noConfusion, if_pos (.inl hrun), execOp, hinvalid] at h
      cases h
    | inr hnum =>
      obtain ⟨n, hn⟩ := hnum
      rw [hn, if_neg Opcode.noConfusion, if_pos (.inl hrun), execOp, hn] at h
      simp only [Option.bind_eq_bind, Option.bind_some] at h
      split at h
      · cases h
      · obtain rfl := Option.some.inj h
        exact ⟨hexec, vchOfBigNum n, rfl, .inr ⟨hlow, n, hn, rfl⟩⟩

/-- After pushes alone the top of the stack comes from the last of them. -/
theorem foldlM_push (ops : List ScriptOp) (hpush : ∀ op ∈ ops, op.opcode ≤ OP_16) (st st' : EvalState)
    (hexec : st.vfExec = [])
    (h : ops.foldlM (fun st op => evalStep p C txTo nIn flags op st) st = some st') :
    (ops = [] ∧ st' = st) ∨ ∃ op vch stack, ops.getLast? = some op ∧ st'.stack = vch :: stack ∧ PushedBy op vch := by
  induction ops generalizing st with
  | nil => exact .inl ⟨rfl, (Option.some.inj h).symm⟩
  | cons op ops ih =>
    rw [List.foldlM_cons, Option.bind_eq_bind, Option.bind_eq_some_iff] at h
    obtain ⟨st1, hstep, hrun⟩ := h
    have hpush' := List.forall_mem_cons.mp hpush
    obtain ⟨hexec', vch, hstack, hpushed⟩ := evalStep_push hpush'.1 hexec hstep
    right
    cases ih hpush'.2 st1 hexec' hrun with
    | inl hend =>
      obtain ⟨rfl, rfl⟩ := hend
      exact ⟨op, vch, st.stack, rfl, hstack, hpushed⟩
    | inr hlater =>
      obtain ⟨last, vch', stack', hlast, hstack', hpushed'⟩ := hlater
      refine ⟨last, vch', stack', ?_, hstack', hpushed'⟩
      rw [List.getLast?_cons, hlast]
      rfl

/-- A number is no script with a test. -/
theorem getSigOpCount_pushNum {opcode : UInt8} (hlow : OP_PUSHDATA4 < opcode) (hhigh : opcode ≤ OP_16) {n : Int}
    (hn : Opcode.ofByte opcode = .pushNum n) : CScript.getSigOpCount (vchOfBigNum n) true = 0 := by
  have hall : ∀ k : Fin 18, CScript.getSigOpCount (vchOfBigNum ((k.val : Int) - 1)) true = 0 := by decide
  have hlow' : 78 < opcode.toNat := UInt8.lt_iff_toNat_lt.mp hlow
  have hhigh' : opcode.toNat ≤ 96 := UInt8.le_iff_toNat_le.mp hhigh
  have hvalue : n = ((opcode.toNat - 79 : Nat) : Int) - 1 := by
    by_cases hnum : OP_1 ≤ opcode
    · rw [ofByte_pushNum hnum hhigh] at hn
      have heq := Opcode.pushNum.inj hn
      omega
    · have hnum' : ¬ 81 ≤ opcode.toNat := fun h => hnum (UInt8.le_iff_toNat_le.mpr h)
      by_cases hneg : opcode.toNat = 79
      · obtain rfl : opcode = 0x4f := UInt8.toNat_inj.mp hneg
        exact (Opcode.pushNum.inj hn).symm
      · obtain rfl : opcode = 0x50 := UInt8.toNat_inj.mp (by omega : opcode.toNat = 80)
        have hreserved : Opcode.ofByte 0x50 = .invalid := by decide
        rw [hreserved] at hn
        cases hn
  rw [hvalue]
  exact hall ⟨opcode.toNat - 79, by omega⟩

/-- The redeem script is the operand that is counted, or a number. -/
theorem getSigOpCountP2SH_redeem {scriptSig scriptPubKey redeem : CScript} {rest : List Bytes}
    (hp2sh : CScript.isPayToScriptHash scriptPubKey = true) (hpush : CScript.isPushOnly scriptSig = true)
    (heval : evalScript p C txTo nIn flags [] scriptSig = some (redeem :: rest)) :
    CScript.getSigOpCountP2SH scriptPubKey scriptSig = CScript.getSigOpCount redeem true ∨
      CScript.getSigOpCount redeem true = 0 := by
  have hops : ∀ op ∈ (CScript.ops scriptSig).1, op.opcode ≤ OP_16 := by
    intro op hop
    rw [CScript.isPushOnly, Bool.and_eq_true, List.all_eq_true] at hpush
    exact of_decide_eq_true (hpush.2 op hop)
  rw [CScript.getSigOpCountP2SH, if_neg (not_not_intro hp2sh), if_neg (not_not_intro hpush)]
  rw [evalScript] at heval
  by_cases hlong : scriptSig.length > 10000
  · rw [if_pos hlong] at heval
    cases heval
  rw [if_neg hlong, Option.bind_eq_bind, Option.bind_eq_some_iff] at heval
  obtain ⟨st, hrun, hend⟩ := heval
  have hstack : st.stack = redeem :: rest := by
    split at hend
    · exact Option.some.inj hend
    · cases hend
  cases foldlM_push _ hops _ st rfl hrun with
  | inl hempty =>
    rw [hempty.2] at hstack
    cases hstack
  | inr hlast =>
    obtain ⟨op, vch, stack, hlast, hstack', hpushed⟩ := hlast
    rw [hstack] at hstack'
    obtain rfl := (List.cons.inj hstack').1
    rw [hlast]
    cases hpushed with
    | inl hdata => exact .inl (by rw [hdata.2]; rfl)
    | inr hnumber =>
      obtain ⟨hlow, n, hn, rfl⟩ := hnumber
      exact .inr (getSigOpCount_pushNum hlow (hops op (List.mem_of_getLast? hlast)) hn)

theorem redeemCalls_le {scriptSig scriptPubKey redeem : CScript} {rest : List Bytes}
    (hp2sh : CScript.isPayToScriptHash scriptPubKey = true) (hpush : CScript.isPushOnly scriptSig = true)
    (heval : evalScript p C txTo nIn flags [] scriptSig = some (redeem :: rest)) :
    checkSigCalls flags (evalChecks p C txTo nIn flags rest redeem) ≤
      (CScript.sigOpCounterP2SH scriptPubKey scriptSig).toNat := by
  cases getSigOpCountP2SH_redeem hp2sh hpush heval with
  | inl hcounted =>
    rw [CScript.sigOpCounterP2SH, hcounted]
    exact checkSigCalls_le rest redeem
  | inr hzero =>
    have hchecks := @evalChecks_length p C txTo nIn flags rest redeem
    rw [hzero] at hchecks
    exact (List.countP_le_length.trans hchecks).trans (Nat.zero_le _)

end PayToScriptHash

section Bound

/-- The calls of `CheckSig` in any run of any script are counted before it is run, also those of a redeem script. Where
the counter cannot wrap, the count without `fAccurate` is the larger one. -/
theorem sigOps_bound (p : ChainParams) (C : ScriptCrypto) (txTo : CTransaction) (nIn : Nat) (flags : EvalFlags) :
    (∀ (stack : List Bytes) (script : CScript),
      checkSigCalls flags (evalChecks p C txTo nIn flags stack script) ≤ (CScript.sigOpCounter script true).toNat) ∧
    (∀ script : CScript, 20 * script.length < 2 ^ 32 →
      CScript.sigOpCounter script true ≤ CScript.sigOpCounter script false) ∧
    ∀ (scriptSig scriptPubKey redeem : CScript) (rest : List Bytes),
      CScript.isPayToScriptHash scriptPubKey = true → CScript.isPushOnly scriptSig = true →
      evalScript p C txTo nIn flags [] scriptSig = some (redeem :: rest) →
      checkSigCalls flags (evalChecks p C txTo nIn flags rest redeem) ≤
        (CScript.sigOpCounterP2SH scriptPubKey scriptSig).toNat := by
  refine ⟨checkSigCalls_le, fun script hshort => ?_, fun scriptSig scriptPubKey redeem rest => redeemCalls_le⟩
  rw [UInt32.le_iff_toNat_le, sigOpCounter_toNat hshort, sigOpCounter_toNat hshort]
  exact sigOpCountFrom_le true 0xff _

/-- A redeem script with one `OP_CHECKSIG`, behind two empty pushes. -/
theorem sigOps_bound_sample :
    CScript.sigOpCounter [0x51, 0xae] true ≤ CScript.sigOpCounter [0x51, 0xae] false ∧
      checkSigCalls MANDATORY_SCRIPT_VERIFY_FLAGS.toEvalFlags
          (evalChecks mainParams sampleCrypto sampleTx 0 MANDATORY_SCRIPT_VERIFY_FLAGS.toEvalFlags [[], []] [0xac]) ≤
        (CScript.sigOpCounterP2SH (0xa9 :: 0x14 :: List.replicate 20 0 ++ [0x87]) [0, 0, 1, 0xac]).toNat :=
  have hbound := sigOps_bound mainParams sampleCrypto sampleTx 0 MANDATORY_SCRIPT_VERIFY_FLAGS.toEvalFlags
  ⟨hbound.2.1 _ (by decide), hbound.2.2 [0, 0, 1, 0xac] _ [0xac] [[], []] (by decide) (by decide) (by decide)⟩

/-- `n` times `OP_1 OP_CHECKMULTISIG`. -/
def countedPairs : Nat → CScript
  | 0 => []
  | n + 1 => 0x51 :: 0xae :: countedPairs n

theorem sigOpCountFrom_countedPairs (n : Nat) (lastOpcode : UInt8) :
    CScript.sigOpCountFrom true lastOpcode (CScript.ops (countedPairs n)).1 = n ∧
      CScript.sigOpCountFrom false lastOpcode (CScript.ops (countedPairs n)).1 = 20 * n := by
  induction n generalizing lastOpcode with
  | zero => exact ⟨rfl, rfl⟩
  | succ n ih =>
    have hnum : CScript.getOp (countedPairs (n + 1)) = some ⟨0x51, [], 0xae :: countedPairs n⟩ := rfl
    have hcheck : CScript.getOp (0xae :: countedPairs n) = some ⟨0xae, [], countedPairs n⟩ := rfl
    obtain ⟨htrue, hfalse⟩ := ih 0xae
    rw [CScript.ops_of_some hnum, CScript.ops_of_some hcheck]
    simp only [sigOpCountFrom_cons, htrue, hfalse]
    have hone : sigOpCost true lastOpcode ⟨0x51, [], 0xae :: countedPairs n⟩ = 0 := rfl
    have hone' : sigOpCost false lastOpcode ⟨0x51, [], 0xae :: countedPairs n⟩ = 0 := rfl
    have hcost : sigOpCost true 0x51 ⟨0xae, [], countedPairs n⟩ = 1 := rfl
    have hcost' : sigOpCost false 0x51 ⟨0xae, [], countedPairs n⟩ = 20 := rfl
    rw [hone, hone', hcost, hcost']
    omega

/-- The counter without `fAccurate` has wrapped to 4. -/
theorem sigOpCounter_wraps :
    ¬ CScript.sigOpCounter (countedPairs 214748365) true ≤ CScript.sigOpCounter (countedPairs 214748365) false := by
  have hcounts := sigOpCountFrom_countedPairs 214748365 0xff
  rw [CScript.sigOpCounter, CScript.sigOpCounter, CScript.getSigOpCount, CScript.getSigOpCount, hcounts.1, hcounts.2]
  decide

end Bound

end AliasWallet
