import AliasWallet.Core.Params
import AliasWallet.Script.Opcodes

/-!
# The script interpreter (`script.cpp`)

`EvalScript` over the list of operations, with the encodings it checks, the signature hash and
`VerifyScript`. The top of a stack is the head of the list.
-/

namespace AliasWallet
open Lib

/-- The primitives that the script operations call. -/
structure ScriptCrypto where
  ripemd160 : Bytes → Bytes
  sha1 : Bytes → Bytes
  sha256 : Bytes → Bytes
  /-- `Hash`, the double SHA-256. -/
  hash : HashFn
  /-- `CPubKey::Verify` of a key with a valid header. -/
  verify : Bytes → UInt256 → Bytes → Bool

/-- The verification flags that `EvalScript` reads. -/
structure EvalFlags where
  nullDummy : Bool
  discourageUpgradableNops : Bool
  strictEnc : Bool
  allowEmptySig : Bool
  fixHashType : Bool
  checkLockTimeVerify : Bool
  deriving DecidableEq, Repr

/-- All verification flags; `SCRIPT_VERIFY_NOCACHE` only steers the signature cache. -/
structure ScriptFlags extends EvalFlags where
  p2sh : Bool
  deriving DecidableEq, Repr

def MANDATORY_SCRIPT_VERIFY_FLAGS : ScriptFlags where
  p2sh := true
  nullDummy := true
  strictEnc := true
  checkLockTimeVerify := true
  discourageUpgradableNops := false
  allowEmptySig := false
  fixHashType := false

def SCRIPT_VERIFY_NONE : ScriptFlags where
  p2sh := false
  nullDummy := false
  strictEnc := false
  checkLockTimeVerify := false
  discourageUpgradableNops := false
  allowEmptySig := false
  fixHashType := false

def MAX_SCRIPT_ELEMENT_SIZE : Nat := 520

def LOCKTIME_THRESHOLD : Nat := 500000000

section Numbers

/-- `CBigNum::setvch`: little endian with the sign in the top bit. -/
def bigNumOfVch (vch : Bytes) : Int :=
  match vch.reverse with
  | [] => 0
  | top :: rest =>
    if top ≥ 0x80 then -(beNat ((top - 0x80) :: rest) : Int) else (beNat (top :: rest) : Int)

/-- `CBigNum::getvch`. -/
def vchOfBigNum (n : Int) : Bytes :=
  match minBytes n.natAbs with
  | [] => []
  | top :: rest =>
    if top ≥ 0x80 then ((if n < 0 then 0x80 else 0x00) :: top :: rest).reverse
    else ((if n < 0 then top + 0x80 else top) :: rest).reverse

/-- `CastToBigNum`; too long an operand throws. -/
def castToBigNum (vch : Bytes) (nMaxNumSize : Nat) : Option Int :=
  if vch.length > nMaxNumSize then none else some (bigNumOfVch vch)

def nDefaultMaxNumSize : Nat := 4

/-- `CastToBool`: some byte is not zero, a sign on top of zeros apart. -/
def castToBool (vch : Bytes) : Bool :=
  match vch.reverse with
  | [] => false
  | top :: rest => rest.any (· ≠ 0) || (decide (top ≠ 0) && decide (top ≠ 0x80))

def vchTrue : Bytes := [1]

def vchFalse : Bytes := []

def vchOfBool (b : Bool) : Bytes := if b then vchTrue else vchFalse

end Numbers

section Encodings

/-- `IsCompressedOrUncompressedPubKey`. -/
def checkPubKeyEncoding (vchPubKey : Bytes) : Bool :=
  match vchPubKey with
  | [] => false
  | h :: _ =>
    if vchPubKey.length < 33 then false
    else if h = 4 then decide (vchPubKey.length = 65)
    else decide (h = 2 ∨ h = 3) && decide (vchPubKey.length = 33)

/-- One of the two integers of a signature: not empty, not negative, not padded. -/
def isDERInteger (tag : UInt8) (v : Bytes) : Bool :=
  tag == 0x02 &&
    match v with
    | [] => false
    | [b] => decide (b < 0x80)
    | b :: c :: _ => decide (b < 0x80) && !(b == 0 && decide (c < 0x80))

def isDERSignature (vchSig : Bytes) (haveHashType : Bool) : Bool :=
  let byte := fun i => vchSig[i]?.getD 0
  let nLenR := (byte 3).toNat
  let nLenS := (byte (5 + nLenR)).toNat
  decide (9 ≤ vchSig.length) && decide (vchSig.length ≤ 73) && byte 0 == 0x30 &&
    decide ((byte 1).toNat = vchSig.length - (if haveHashType then 3 else 2)) &&
    decide (5 + nLenR < vchSig.length) &&
    decide (nLenR + nLenS + (if haveHashType then 7 else 6) = vchSig.length) &&
    isDERInteger (byte 2) (slice vchSig 4 nLenR) &&
    isDERInteger (byte (4 + nLenR)) (slice vchSig (6 + nLenR) nLenS)

def vchMaxModHalfOrder : Nat := 0x7FFFFFFFFFFFFFFFFFFFFFFFFFFFFFFF5D576E7357A4501DDFE92F46681B20A0

/-- `IsLowDERSignature`: the `S` value is positive and at most half the order. -/
def isLowDERSignature (vchSig : Bytes) : Bool :=
  let nLenR := (vchSig[3]?.getD 0).toNat
  let nLenS := (vchSig[5 + nLenR]?.getD 0).toNat
  let S := beNat (slice vchSig (6 + nLenR) nLenS)
  isDERSignature vchSig true && decide (0 < S) && decide (S ≤ vchMaxModHalfOrder)

def isDefinedHashtypeSignature (vchSig : Bytes) : Bool :=
  match vchSig.getLast? with
  | none => false
  | some b => decide (1 ≤ b.toNat % 128 ∧ b.toNat % 128 ≤ 3)

def checkSignatureEncoding (flags : EvalFlags) (vchSig : Bytes) : Bool :=
  (flags.allowEmptySig && vchSig.isEmpty) ||
    (isLowDERSignature vchSig && (flags.fixHashType || isDefinedHashtypeSignature vchSig))

end Encodings

section SignatureHash

/-- `GetForkId`. -/
def getForkId (p : ChainParams) (nTime : Int) : Nat :=
  if nTime ≥ p.nForkV4Time then 4 else if p.isForkV3 nTime then 3 else if p.isForkV2 nTime then 2
  else 0

/-- The inputs as `SIGHASH_NONE` and `SIGHASH_SINGLE` see them: the others may change sequence. -/
def releaseSequences (nIn : Nat) (vin : List CTxIn) : List CTxIn :=
  vin.mapIdx fun i txin => if i = nIn then txin else { txin with nSequence := 0 }

/-- `SignatureHash`; the value 1 stands for an index out of range. -/
def signatureHash (p : ChainParams) (hash : HashFn) (scriptCode : CScript) (txTo : CTransaction)
    (nIn nHashType : Nat) : UInt256 :=
  if nIn ≥ txTo.vin.length then 1
  else
    let scriptCode := CScript.findAndDelete scriptCode [OP_CODESEPARATOR]
    let vin := txTo.vin.mapIdx fun i txin =>
      { txin with scriptSig := if i = nIn then scriptCode else [] }
    let kind := nHashType % 32
    if kind = 3 ∧ nIn ≥ txTo.vout.length then 1
    else
      let vin := if kind = 2 ∨ kind = 3 then releaseSequences nIn vin else vin
      let vout :=
        if kind = 2 then []
        else if kind = 3 then (txTo.vout.take (nIn + 1)).mapIdx fun i txout =>
          if i < nIn then { nValue := -1, scriptPubKey := [] } else txout
        else txTo.vout
      let vin := if nHashType / 128 % 2 = 1 then vin[nIn]?.toList else vin
      let forkId := getForkId p txTo.nTime.toNat
      hash ({ txTo with vin, vout }.bytes ++ leBytes 4 nHashType ++
        (if forkId > 0 then leBytes 4 forkId else []))

/-- `CheckSig` with the hash type that the signature carries. -/
def checkSig (p : ChainParams) (C : ScriptCrypto) (vchSig vchPubKey : Bytes) (scriptCode : CScript)
    (txTo : CTransaction) (nIn : Nat) : Bool :=
  match vchPubKey.head?, vchSig.getLast? with
  | some chHeader, some nHashType =>
    decide (pubKeyLen chHeader ≠ 0) && decide (pubKeyLen chHeader = vchPubKey.length) &&
      C.verify vchPubKey (signatureHash p C.hash scriptCode txTo nIn nHashType.toNat)
        vchSig.dropLast
  | _, _ => false

end SignatureHash

section Eval

/-- The state of `EvalScript`; `codeHash` is the script from `pbegincodehash` on. -/
structure EvalState where
  stack : List Bytes
  altstack : List Bytes
  vfExec : List Bool
  nOpCount : Nat
  codeHash : CScript
  deriving DecidableEq, Repr

def StackOp.run : StackOp → List Bytes → Option (List Bytes)
  | .drop2, _ :: _ :: s => some s
  | .dup2, x2 :: x1 :: s => some (x2 :: x1 :: x2 :: x1 :: s)
  | .dup3, x3 :: x2 :: x1 :: s => some (x3 :: x2 :: x1 :: x3 :: x2 :: x1 :: s)
  | .over2, x4 :: x3 :: x2 :: x1 :: s => some (x2 :: x1 :: x4 :: x3 :: x2 :: x1 :: s)
  | .rot2, x6 :: x5 :: x4 :: x3 :: x2 :: x1 :: s => some (x2 :: x1 :: x6 :: x5 :: x4 :: x3 :: s)
  | .swap2, x4 :: x3 :: x2 :: x1 :: s => some (x2 :: x1 :: x4 :: x3 :: s)
  | .ifDup, x :: s => some (if castToBool x then x :: x :: s else x :: s)
  | .depth, s => some (vchOfBigNum s.length :: s)
  | .drop, _ :: s => some s
  | .dup, x :: s => some (x :: x :: s)
  | .nip, x2 :: _ :: s => some (x2 :: s)
  | .over, x2 :: x1 :: s => some (x1 :: x2 :: x1 :: s)
  | .rot, x3 :: x2 :: x1 :: s => some (x1 :: x3 :: x2 :: s)
  | .swap, x2 :: x1 :: s => some (x1 :: x2 :: s)
  | .tuck, x2 :: x1 :: s => some (x2 :: x1 :: x2 :: s)
  | .size, x :: s => some (vchOfBigNum x.length :: x :: s)
  | _, _ => none

def UnaryOp.run : UnaryOp → Int → Int
  | .add1, bn => bn + 1
  | .sub1, bn => bn - 1
  | .negate, bn => -bn
  | .abs, bn => if bn < 0 then -bn else bn
  | .not, bn => if bn = 0 then 1 else 0
  | .notEqual0, bn => if bn = 0 then 0 else 1

def intOfBool (b : Bool) : Int := if b then 1 else 0

def BinaryOp.run : BinaryOp → Int → Int → Int
  | .add, bn1, bn2 => bn1 + bn2
  | .sub, bn1, bn2 => bn1 - bn2
  | .boolAnd, bn1, bn2 => intOfBool (decide (bn1 ≠ 0) && decide (bn2 ≠ 0))
  | .boolOr, bn1, bn2 => intOfBool (decide (bn1 ≠ 0) || decide (bn2 ≠ 0))
  | .numEqual, bn1, bn2 => intOfBool (decide (bn1 = bn2))
  | .numNotEqual, bn1, bn2 => intOfBool (decide (bn1 ≠ bn2))
  | .lessThan, bn1, bn2 => intOfBool (decide (bn1 < bn2))
  | .greaterThan, bn1, bn2 => intOfBool (decide (bn1 > bn2))
  | .lessThanOrEqual, bn1, bn2 => intOfBool (decide (bn1 ≤ bn2))
  | .greaterThanOrEqual, bn1, bn2 => intOfBool (decide (bn1 ≥ bn2))
  | .min, bn1, bn2 => if bn1 < bn2 then bn1 else bn2
  | .max, bn1, bn2 => if bn1 > bn2 then bn1 else bn2

def HashOp.run (C : ScriptCrypto) : HashOp → Bytes → Bytes
  | .ripemd160, vch => C.ripemd160 vch
  | .sha1, vch => C.sha1 vch
  | .sha256, vch => C.sha256 vch
  | .hash160, vch => C.ripemd160 (C.sha256 vch)
  | .hash256, vch => uint256Bytes (C.hash vch)

/-- `CheckLockTime`. -/
def checkLockTime (txTo : CTransaction) (nIn : Nat) (nLockTime : Int) : Bool :=
  let txLockTime : Int := txTo.nLockTime.toNat
  (decide (txLockTime < LOCKTIME_THRESHOLD) == decide (nLockTime < LOCKTIME_THRESHOLD)) &&
    decide (nLockTime ≤ txLockTime) &&
    match txTo.vin[nIn]? with
    | some txin => !txin.isFinal
    | none => false

variable (p : ChainParams) (C : ScriptCrypto) (txTo : CTransaction) (nIn : Nat) (flags : EvalFlags)

/-- The test of one signature against one key; `none` where `STRICTENC` ends the script. -/
def checkOneSig (scriptCode : CScript) (vchSig vchPubKey : Bytes) : Option Bool :=
  let encoded := checkSignatureEncoding flags vchSig && checkPubKeyEncoding vchPubKey
  if flags.strictEnc && !encoded then none
  else some (encoded && checkSig p C vchSig vchPubKey scriptCode txTo nIn)

/-- The loop of `OP_CHECKMULTISIG` over keys and signatures. -/
def multiSigLoop (scriptCode : CScript) : List Bytes → List Bytes → Option Bool
  | _, [] => some true
  | [], _ :: _ => some false
  | vchPubKey :: keys, vchSig :: sigs => do
    let fOk ← checkOneSig p C txTo nIn flags scriptCode vchSig vchPubKey
    let sigs := if fOk then sigs else vchSig :: sigs
    if sigs.length > keys.length then some false else multiSigLoop scriptCode keys sigs

/-- The result of an operation that ends in a boolean, or the check of its `VERIFY` variant. -/
def pushOrVerify (fVerify fSuccess : Bool) (stack : List Bytes) : Option (List Bytes) :=
  if fVerify then (if fSuccess then some stack else none) else some (vchOfBool fSuccess :: stack)

def runCheckSig (fVerify : Bool) (st : EvalState) : Option EvalState :=
  match st.stack with
  | vchPubKey :: vchSig :: stack => do
    let scriptCode := CScript.findAndDelete st.codeHash (CScript.push vchSig)
    let fSuccess ← checkOneSig p C txTo nIn flags scriptCode vchSig vchPubKey
    let stack ← pushOrVerify fVerify fSuccess stack
    return { st with stack }
  | _ => none

/-- `OP_CHECKMULTISIG`, with the extra argument that it consumes. -/
def runCheckMultiSig (fVerify : Bool) (st : EvalState) : Option EvalState :=
  match st.stack with
  | [] => none
  | vchKeysCount :: stack => do
    let nKeysCount ← castToBigNum vchKeysCount nDefaultMaxNumSize
    if nKeysCount < 0 ∨ nKeysCount > 20 then none
    let nKeysCount := nKeysCount.toNat
    let nOpCount := st.nOpCount + nKeysCount
    if nOpCount > 201 then none
    let keys := stack.take nKeysCount
    let vchSigsCount :: stack := stack.drop nKeysCount | none
    let nSigsCount ← castToBigNum vchSigsCount nDefaultMaxNumSize
    if nSigsCount < 0 ∨ nSigsCount > nKeysCount then none
    let nSigsCount := nSigsCount.toNat
    let sigs := stack.take nSigsCount
    let dummy :: stack := stack.drop nSigsCount | none
    let scriptCode := sigs.foldl
      (fun code vchSig => CScript.findAndDelete code (CScript.push vchSig)) st.codeHash
    let fSuccess ← multiSigLoop p C txTo nIn flags scriptCode keys sigs
    if flags.nullDummy ∧ ¬ dummy.isEmpty then none
    let stack ← pushOrVerify fVerify fSuccess stack
    return { st with stack, nOpCount }

def runCheckLockTimeVerify (st : EvalState) : Option EvalState :=
  if ¬ flags.checkLockTimeVerify then
    if flags.discourageUpgradableNops then none else some st
  else match st.stack with
    | [] => none
    | vch :: _ => do
      let nLockTime ← castToBigNum vch 5
      if nLockTime < 0 ∨ ¬ checkLockTime txTo nIn nLockTime then none else some st

/-- The `switch` of `EvalScript`; `rest` is the script behind the operation. -/
def execOp (fExec : Bool) (op : ScriptOp) (st : EvalState) : Option EvalState :=
  match Opcode.ofByte op.opcode, st.stack with
  | .pushData, s => some { st with stack := op.vch :: s }
  | .pushNum n, s => some { st with stack := vchOfBigNum n :: s }
  | .nop, _ => some st
  | .checkLockTimeVerify, _ => runCheckLockTimeVerify txTo nIn flags st
  | .upgradableNop, _ => if flags.discourageUpgradableNops then none else some st
  | .opIf fNot, s =>
    if fExec then
      match s with
      | [] => none
      | vch :: s => some { st with stack := s, vfExec := (castToBool vch ^^ fNot) :: st.vfExec }
    else some { st with vfExec := false :: st.vfExec }
  | .opElse, _ =>
    match st.vfExec with
    | [] => none
    | b :: vfExec => some { st with vfExec := (!b) :: vfExec }
  | .endIf, _ =>
    match st.vfExec with
    | [] => none
    | _ :: vfExec => some { st with vfExec }
  | .verify, vch :: s => if castToBool vch then some { st with stack := s } else none
  | .toAltStack, vch :: s => some { st with stack := s, altstack := vch :: st.altstack }
  | .fromAltStack, s =>
    match st.altstack with
    | [] => none
    | vch :: altstack => some { st with stack := vch :: s, altstack }
  | .stack op, s => do return { st with stack := ← op.run s }
  | .pick fRoll, vchN :: s => do
    if s.isEmpty then none
    let n ← castToBigNum vchN nDefaultMaxNumSize
    if n < 0 ∨ n ≥ s.length then none
    let vch ← s[n.toNat]?
    return { st with stack := vch :: (if fRoll then s.eraseIdx n.toNat else s) }
  | .equal fVerify, x2 :: x1 :: s => do
    return { st with stack := ← pushOrVerify fVerify (x1 == x2) s }
  | .unary op, vch :: s => do
    let bn ← castToBigNum vch nDefaultMaxNumSize
    return { st with stack := vchOfBigNum (op.run bn) :: s }
  | .binary op, vch2 :: vch1 :: s => do
    let bn1 ← castToBigNum vch1 nDefaultMaxNumSize
    let bn2 ← castToBigNum vch2 nDefaultMaxNumSize
    return { st with stack := vchOfBigNum (op.run bn1 bn2) :: s }
  | .numEqualVerify, vch2 :: vch1 :: s => do
    let bn1 ← castToBigNum vch1 nDefaultMaxNumSize
    let bn2 ← castToBigNum vch2 nDefaultMaxNumSize
    return { st with stack := ← pushOrVerify true (decide (bn1 = bn2)) s }
  | .within, vch3 :: vch2 :: vch1 :: s => do
    let bn1 ← castToBigNum vch1 nDefaultMaxNumSize
    let bn2 ← castToBigNum vch2 nDefaultMaxNumSize
    let bn3 ← castToBigNum vch3 nDefaultMaxNumSize
    return { st with stack := vchOfBool (decide (bn2 ≤ bn1 ∧ bn1 < bn3)) :: s }
  | .hash op, vch :: s => some { st with stack := op.run C vch :: s }
  | .codeSeparator, _ => some { st with codeHash := op.rest }
  | .checkSig fVerify, _ => runCheckSig p C txTo nIn flags fVerify st
  | .checkMultiSig fVerify, _ => runCheckMultiSig p C txTo nIn flags fVerify st
  | _, _ => none

/-- One round of `EvalScript`. -/
def evalStep (op : ScriptOp) (st : EvalState) : Option EvalState := do
  let fExec := st.vfExec.all id
  if op.vch.length > MAX_SCRIPT_ELEMENT_SIZE then none
  let nOpCount := if op.opcode > OP_16 then st.nOpCount + 1 else st.nOpCount
  if nOpCount > 201 then none
  if Opcode.ofByte op.opcode = .disabled then none
  let st := { st with nOpCount }
  -- `OP_IF` to `OP_ENDIF` also run where the branch is not taken
  let st ← if fExec ∨ 0x63 ≤ op.opcode ∧ op.opcode ≤ 0x68
    then execOp p C txTo nIn flags fExec op st else some st
  if st.stack.length + st.altstack.length > 1000 then none else some st

/-- `EvalScript`: the stack that it leaves, or `none` where it returns false. -/
def evalScript (stack : List Bytes) (script : CScript) : Option (List Bytes) := do
  if script.length > 10000 then none
  let (ops, ok) := CScript.ops script
  let st ← ops.foldlM (fun st op => evalStep p C txTo nIn flags op st)
    { stack, altstack := [], vfExec := [], nOpCount := 0, codeHash := script }
  if ok ∧ st.vfExec.isEmpty then some st.stack else none

end Eval

section Verify

variable (p : ChainParams) (C : ScriptCrypto) (txTo : CTransaction) (nIn : Nat) (flags : ScriptFlags)

/-- A script that ends with a true value on top. -/
def evalsToTrue (stack : List Bytes) (script : CScript) : Bool :=
  match evalScript p C txTo nIn flags.toEvalFlags stack script with
  | some (top :: _) => castToBool top
  | _ => false

/-- The rule for spends of a script hash: literals only, and the last of them is run as a script on
the others. -/
def verifyRedeemScript (scriptSig : CScript) (stackCopy : List Bytes) : Bool :=
  CScript.isPushOnly scriptSig &&
    match stackCopy with
    | pubKeySerialized :: stackCopy => evalsToTrue p C txTo nIn flags stackCopy pubKeySerialized
    | [] => false

/-- `VerifyScript`. -/
def verifyScript (scriptSig scriptPubKey : CScript) : Bool :=
  match evalScript p C txTo nIn flags.toEvalFlags [] scriptSig with
  | none => false
  | some stack =>
    evalsToTrue p C txTo nIn flags stack scriptPubKey &&
      (!(flags.p2sh && CScript.isPayToScriptHash scriptPubKey) ||
        verifyRedeemScript p C txTo nIn flags scriptSig stack)

/-- `VerifySignature` of input `nIn` against the transaction it spends. -/
def verifySignature (txFrom : CTransaction) : Bool :=
  match txTo.vin[nIn]? with
  | none => false
  | some txin =>
    match txFrom.vout[txin.prevout.n.toNat]? with
    | none => false
    | some txout =>
      txin.prevout.hash == txFrom.getHash C.hash &&
        verifyScript p C txTo nIn flags txin.scriptSig txout.scriptPubKey

end Verify

end AliasWallet
