import AliasWallet.Lib.OrderedSet
import AliasWallet.Script.SigOps
import AliasWallet.Script.Solver

/-!
# Combining signatures (`script.cpp`)

`CombineSignatures` runs two scriptSigs, whatever `EvalScript` returns for them, and merges the stacks that they leave.
The top of a stack is the head of the list.
-/

namespace AliasWallet
open Lib

section LeftStack

variable (p : ChainParams) (C : ScriptCrypto) (txTo : CTransaction) (nIn : Nat) (flags : EvalFlags)

/-- What an operation that returns false leaves of the stack. Most test before they pop; a `VERIFY` variant has popped
its operands and pushed its result. -/
def failedStack (op : ScriptOp) (st : EvalState) : List Bytes :=
  match Opcode.ofByte op.opcode, st.stack with
  | .pick _, vchN :: s =>
    if s.isEmpty ∨ castToBigNum vchN nDefaultMaxNumSize = none then vchN :: s else s
  | .equal true, _ :: _ :: s => vchFalse :: s
  | .numEqualVerify, vch2 :: vch1 :: s =>
    if castToBigNum vch1 nDefaultMaxNumSize = none ∨ castToBigNum vch2 nDefaultMaxNumSize = none
      then vch2 :: vch1 :: s else vchOfBigNum 0 :: s
  | .checkSig true, vchPubKey :: vchSig :: s =>
    match checkOneSig p C txTo nIn flags (CScript.findAndDelete st.codeHash (CScript.push vchSig)) vchSig vchPubKey with
    | none => vchPubKey :: vchSig :: s
    | some _ => vchFalse :: s
  | .checkMultiSig _, s =>
    match multiSigOperands st with
    | none => s
    | some (keys, sigs, rest, _) =>
      match multiSigLoop p C txTo nIn flags (multiSigCode st sigs) keys sigs with
      | none => s
      | some _ => if flags.nullDummy ∧ ¬ (rest.headD []).isEmpty then rest else vchFalse :: rest.tail
  | _, s => s

/-- The stack after the round that ends `EvalScript`. -/
def leftStack (op : ScriptOp) (st : EvalState) : List Bytes :=
  let fExec := st.vfExec.all id
  let nOpCount := if op.opcode > OP_16 then st.nOpCount + 1 else st.nOpCount
  if op.vch.length > MAX_SCRIPT_ELEMENT_SIZE ∨ nOpCount > 201 ∨ Opcode.ofByte op.opcode = .disabled then st.stack
  else if fExec ∨ 0x63 ≤ op.opcode ∧ op.opcode ≤ 0x68 then
    match execOp p C txTo nIn flags fExec op { st with nOpCount } with
    -- the operation succeeds and leaves too large a stack
    | some st' => st'.stack
    | none => failedStack p C txTo nIn flags op { st with nOpCount }
  else st.stack

def evalRounds : List ScriptOp → EvalState → List Bytes
  | [], st => st.stack
  | op :: ops, st =>
    match evalStep p C txTo nIn flags op st with
    | some st' => evalRounds ops st'
    | none => leftStack p C txTo nIn flags op st

/-- The stack that `EvalScript` leaves, whatever it returns. -/
def evalScriptStack (stack : List Bytes) (script : CScript) : List Bytes :=
  if script.length > 10000 then stack
  else evalRounds p C txTo nIn flags (CScript.ops script).1
    { stack, altstack := [], vfExec := [], nOpCount := 0, codeHash := script }

end LeftStack

section Combine

/-- `set<valtype>` orders its items byte by byte. -/
@[reducible] def valtypeOrder : LinearOrder Bytes :=
  LinearOrder.lift' (fun vch : Bytes => vch.map UInt8.toNat) (List.map_injective_iff.mpr fun _ _ => UInt8.toNat_inj.mp)

attribute [local instance] valtypeOrder

/-- `CTransaction()`. Its time is that of the clock, which nothing reads: there is no input to check. -/
def nullTransaction : CTransaction where
  nVersion := 1
  nTime := 0
  vin := []
  vout := []
  nLockTime := 0

/-- `PushAll`, from the bottom of the stack to its top. -/
def pushAll (values : List Bytes) : CScript := values.reverse.foldl (fun result v => result ++ CScript.push v) []

variable (p : ChainParams) (C : ScriptCrypto) (txTo : CTransaction) (nIn : Nat)

/-- The loop over the keys for one signature: it goes to the first key without one for which it is valid. -/
def matchSig (scriptPubKey : CScript) (keys : List Bytes) (sigs : List (Bytes × Bytes)) (sig : Bytes) :
    List (Bytes × Bytes) :=
  match keys.find? fun pubkey => (sigs.lookup pubkey).isNone && checkSig p C sig pubkey scriptPubKey txTo nIn with
  | some pubkey => (pubkey, sig) :: sigs
  | none => sigs

/-- The loop that builds the merged script. -/
def mergeSigs (sigs : List (Bytes × Bytes)) (nSigsRequired : Nat) : List Bytes → Nat → CScript → CScript × Nat
  | [], nSigsHave, result => (result, nSigsHave)
  | pubkey :: keys, nSigsHave, result =>
    if nSigsHave < nSigsRequired then
      match sigs.lookup pubkey with
      | some sig => mergeSigs sigs nSigsRequired keys (nSigsHave + 1) (result ++ CScript.push sig)
      | none => mergeSigs sigs nSigsRequired keys nSigsHave result
    else (result, nSigsHave)

/-- `CombineMultisig`. -/
def combineMultisig (scriptPubKey : CScript) (vSolutions sigs1 sigs2 : List Bytes) : CScript :=
  let allsigs := (OrderedSet.empty.insertAll (sigs1.filter fun v => !v.isEmpty)).insertAll
    (sigs2.filter fun v => !v.isEmpty)
  let nSigsRequired := ((vSolutions.head?.bind List.head?).getD 0).toNat
  let keys := vSolutions.tail.take (vSolutions.length - 2)
  let sigs := allsigs.elems.foldl (matchSig p C txTo nIn scriptPubKey keys) []
  let (result, nSigsHave) := mergeSigs sigs nSigsRequired keys 0 [OP_0]
  -- missing signatures are filled up
  result ++ List.replicate (nSigsRequired - nSigsHave) OP_0

/-- `CombineSignatures` of two stacks. -/
def combineStacks (scriptPubKey : CScript) (txType : TxnOutType) (vSolutions sigs1 sigs2 : List Bytes) : CScript :=
  match txType, sigs1 with
  | .TX_NONSTANDARD, sigs1 | .TX_NULL_DATA, sigs1 =>
    if sigs1.length ≥ sigs2.length then pushAll sigs1 else pushAll sigs2
  | .TX_PUBKEY, sigs1 | .TX_PUBKEYHASH, sigs1 =>
    if sigs1.getLast?.all List.isEmpty then pushAll sigs2 else pushAll sigs1
  | .TX_SCRIPTHASH, [] => pushAll sigs2
  | .TX_SCRIPTHASH, spk :: below1 =>
    if spk.isEmpty then pushAll sigs2
    else match sigs2 with
      | [] => pushAll (spk :: below1)
      | top2 :: below2 =>
        if top2.isEmpty then pushAll (spk :: below1)
        else
          -- what `Solver` returns is not looked at
          let solved := solver spk []
          combineStacks spk solved.typeRet solved.vSolutionsRet below1 below2 ++ CScript.push spk
  | .TX_MULTISIG, sigs1 => combineMultisig p C txTo nIn scriptPubKey vSolutions sigs1 sigs2

/-- `CombineSignatures`. -/
def combineSignatures (scriptPubKey scriptSig1 scriptSig2 : CScript) : CScript :=
  let solved := solver scriptPubKey []
  let stack1 := evalScriptStack p C nullTransaction 0 SCRIPT_VERIFY_NONE.toEvalFlags [] scriptSig1
  let stack2 := evalScriptStack p C nullTransaction 0 SCRIPT_VERIFY_NONE.toEvalFlags [] scriptSig2
  combineStacks p C txTo nIn scriptPubKey solved.typeRet solved.vSolutionsRet stack1 stack2

end Combine

end AliasWallet
