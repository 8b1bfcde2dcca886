import AliasWallet.Script.Interpreter

/-!
# The signature tests of a script (`script.cpp`)

`EvalScript` calls `CheckSig` in the order in which its operations run. The tests are listed here for one operation, one
round and a whole script, with the key and the signature that each of them takes from the stack.
-/

namespace AliasWallet
open Lib

section Checks

variable (p : ChainParams) (C : ScriptCrypto) (txTo : CTransaction) (nIn : Nat) (flags : EvalFlags)

/-- A signature that was tested against a key, and what came of it. -/
structure SigCheck where
  scriptCode : CScript
  vchSig : Bytes
  vchPubKey : Bytes
  result : Option Bool
  deriving DecidableEq, Repr

/-- The tests that the loop of `OP_CHECKMULTISIG` makes. -/
def multiSigChecks (scriptCode : CScript) : List Bytes → List Bytes → List SigCheck
  | _, [] => []
  | [], _ :: _ => []
  | vchPubKey :: keys, vchSig :: sigs =>
    let result := checkOneSig p C txTo nIn flags scriptCode vchSig vchPubKey
    ⟨scriptCode, vchSig, vchPubKey, result⟩ ::
      match result with
      | none => []
      | some fOk =>
        let sigs := if fOk then sigs else vchSig :: sigs
        if sigs.length > keys.length then [] else multiSigChecks scriptCode keys sigs

/-- What `OP_CHECKMULTISIG` reads before its loop: the keys, the signatures and the stack below them, which holds
another argument. -/
def multiSigOperands (st : EvalState) : Option (List Bytes × List Bytes × List Bytes × Nat) :=
  match st.stack with
  | [] => none
  | vchKeysCount :: stack => do
    let nKeysCount ← castToBigNum vchKeysCount nDefaultMaxNumSize
    if nKeysCount < 0 ∨ nKeysCount > 20 then none
    let nKeysCount := nKeysCount.toNat
    let nOpCount := st.nOpCount + nKeysCount
    if nOpCount > 201 then none
    let vchSigsCount :: rest := stack.drop nKeysCount | none
    let nSigsCount ← castToBigNum vchSigsCount nDefaultMaxNumSize
    if nSigsCount < 0 ∨ nSigsCount > nKeysCount then none
    let nSigsCount := nSigsCount.toNat
    if rest.length ≤ nSigsCount then none
    return (stack.take nKeysCount, rest.take nSigsCount, rest.drop nSigsCount, nOpCount)

def multiSigCode (st : EvalState) (sigs : List Bytes) : CScript :=
  sigs.foldl (fun code vchSig => CScript.findAndDelete code (CScript.push vchSig)) st.codeHash

/-- The tests of one operation. -/
def opChecks (op : ScriptOp) (st : EvalState) : List SigCheck :=
  match Opcode.ofByte op.opcode with
  | .checkSig _ =>
    match st.stack with
    | vchPubKey :: vchSig :: _ =>
      let scriptCode := CScript.findAndDelete st.codeHash (CScript.push vchSig)
      [⟨scriptCode, vchSig, vchPubKey, checkOneSig p C txTo nIn flags scriptCode vchSig vchPubKey⟩]
    | _ => []
  | .checkMultiSig _ =>
    match multiSigOperands st with
    | none => []
    | some (keys, sigs, _) => multiSigChecks p C txTo nIn flags (multiSigCode st sigs) keys sigs
  | _ => []

/-- The tests of one round of `EvalScript`. -/
def stepChecks (op : ScriptOp) (st : EvalState) : List SigCheck :=
  let nOpCount := if op.opcode > OP_16 then st.nOpCount + 1 else st.nOpCount
  if op.vch.length > MAX_SCRIPT_ELEMENT_SIZE ∨ nOpCount > 201 then []
  else if st.vfExec.all id then opChecks p C txTo nIn flags op { st with nOpCount }
  else []

def runChecks : List ScriptOp → EvalState → List SigCheck
  | [], _ => []
  | op :: ops, st =>
    stepChecks p C txTo nIn flags op st ++
      match evalStep p C txTo nIn flags op st with
      | none => []
      | some st => runChecks ops st

/-- The signature tests of `EvalScript` in their order. -/
def evalChecks (stack : List Bytes) (script : CScript) : List SigCheck :=
  if script.length > 10000 then []
  else runChecks p C txTo nIn flags (CScript.ops script).1
    { stack, altstack := [], vfExec := [], nOpCount := 0, codeHash := script }

variable {p C txTo nIn flags}

/-- The flags play no part before the loop. -/
theorem runCheckMultiSig_eq (fVerify : Bool) (st : EvalState) :
    runCheckMultiSig p C txTo nIn flags fVerify st =
      (multiSigOperands st).bind fun (keys, sigs, rest, nOpCount) =>
        match rest with
        | [] => none
        | dummy :: stack => do
          let fSuccess ← multiSigLoop p C txTo nIn flags (multiSigCode st sigs) keys sigs
          if flags.nullDummy ∧ ¬ dummy.isEmpty then none
          let stack ← pushOrVerify fVerify fSuccess stack
          return { st with stack, nOpCount } := by
  rw [runCheckMultiSig, multiSigOperands]
  cases hstack : st.stack with
  | nil => rfl
  | cons vchKeysCount stack =>
    dsimp only
    cases castToBigNum vchKeysCount nDefaultMaxNumSize with
    | none => rfl
    | some nKeysCount =>
      simp only [Option.bind_eq_bind, Option.bind_some]
      by_cases hkeys : nKeysCount < 0 ∨ nKeysCount > 20
      · rw [if_pos hkeys, if_pos hkeys]
        rfl
      rw [if_neg hkeys, if_neg hkeys]
      by_cases hops : st.nOpCount + nKeysCount.toNat > 201
      · rw [if_pos hops, if_pos hops]
        rfl
      rw [if_neg hops, if_neg hops]
      cases hdrop : stack.drop nKeysCount.toNat with
      | nil => rfl
      | cons vchSigsCount rest =>
        dsimp only
        cases castToBigNum vchSigsCount nDefaultMaxNumSize with
        | none => rfl
        | some nSigsCount =>
          simp only [Option.bind_some]
          by_cases hsigs : nSigsCount < 0 ∨ nSigsCount > nKeysCount.toNat
          · rw [if_pos hsigs, if_pos hsigs]
            rfl
          rw [if_neg hsigs, if_neg hsigs]
          by_cases hshort : rest.length ≤ nSigsCount.toNat
          · rw [if_pos hshort, List.drop_of_length_le hshort]
            rfl
          · rw [if_neg hshort]
            cases rest.drop nSigsCount.toNat <;> rfl

end Checks

end AliasWallet
