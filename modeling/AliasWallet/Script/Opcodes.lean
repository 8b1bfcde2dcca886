import AliasWallet.Core.Transaction

/-!
# Scripts as lists of operations (`script.h`)

`GetOp2` reads one operation; the loops of the source over a script run over the list of the
operations that it reads one after the other.
-/

namespace AliasWallet
open Lib

abbrev CScript := Bytes

def OP_PUSHDATA1 : UInt8 := 0x4c

def OP_PUSHDATA2 : UInt8 := 0x4d

def OP_PUSHDATA4 : UInt8 := 0x4e

def OP_1 : UInt8 := 0x51

def OP_16 : UInt8 := 0x60

def OP_EQUAL : UInt8 := 0x87

def OP_HASH160 : UInt8 := 0xa9

def OP_CODESEPARATOR : UInt8 := 0xab

/-- The operations on the top of the stack alone. -/
inductive StackOp
  | drop2 | dup2 | dup3 | over2 | rot2 | swap2 | ifDup | depth | drop | dup | nip | over | rot
  | swap | tuck | size
  deriving DecidableEq, Repr

inductive UnaryOp
  | add1 | sub1 | negate | abs | not | notEqual0
  deriving DecidableEq, Repr

inductive BinaryOp
  | add | sub | boolAnd | boolOr | numEqual | numNotEqual | lessThan | greaterThan
  | lessThanOrEqual | greaterThanOrEqual | min | max
  deriving DecidableEq, Repr

inductive HashOp
  | ripemd160 | sha1 | sha256 | hash160 | hash256
  deriving DecidableEq, Repr

/-- The cases of the `switch` of `EvalScript`; `verify` marks the variant that ends in a check. -/
inductive Opcode
  | pushData
  | pushNum (n : Int)
  | nop
  | checkLockTimeVerify
  | upgradableNop
  | opIf (fNot : Bool)
  | opElse
  | endIf
  | verify
  | toAltStack
  | fromAltStack
  | stack (op : StackOp)
  | pick (fRoll : Bool)
  | equal (fVerify : Bool)
  | unary (op : UnaryOp)
  | binary (op : BinaryOp)
  | numEqualVerify
  | within
  | hash (op : HashOp)
  | codeSeparator
  | checkSig (fVerify : Bool)
  | checkMultiSig (fVerify : Bool)
  | disabled
  | invalid
  deriving DecidableEq, Repr

/-- The operations without an operand, by their byte; the rest of the table is `invalid`. -/
def opcodeTable : List (Nat × Opcode) :=
  [(0x4f, .pushNum (-1)),
   (0x61, .nop), (0x63, .opIf false), (0x64, .opIf true), (0x67, .opElse), (0x68, .endIf),
   (0x69, .verify), (0x6b, .toAltStack), (0x6c, .fromAltStack),
   (0x6d, .stack .drop2), (0x6e, .stack .dup2), (0x6f, .stack .dup3), (0x70, .stack .over2),
   (0x71, .stack .rot2), (0x72, .stack .swap2), (0x73, .stack .ifDup), (0x74, .stack .depth),
   (0x75, .stack .drop), (0x76, .stack .dup), (0x77, .stack .nip), (0x78, .stack .over),
   (0x79, .pick false), (0x7a, .pick true), (0x7b, .stack .rot), (0x7c, .stack .swap),
   (0x7d, .stack .tuck), (0x7e, .disabled), (0x7f, .disabled), (0x80, .disabled),
   (0x81, .disabled), (0x82, .stack .size), (0x83, .disabled), (0x84, .disabled),
   (0x85, .disabled), (0x86, .disabled), (0x87, .equal false), (0x88, .equal true),
   (0x8b, .unary .add1), (0x8c, .unary .sub1), (0x8d, .disabled), (0x8e, .disabled),
   (0x8f, .unary .negate), (0x90, .unary .abs), (0x91, .unary .not), (0x92, .unary .notEqual0),
   (0x93, .binary .add), (0x94, .binary .sub), (0x95, .disabled), (0x96, .disabled),
   (0x97, .disabled), (0x98, .disabled), (0x99, .disabled), (0x9a, .binary .boolAnd),
   (0x9b, .binary .boolOr), (0x9c, .binary .numEqual), (0x9d, .numEqualVerify),
   (0x9e, .binary .numNotEqual), (0x9f, .binary .lessThan), (0xa0, .binary .greaterThan),
   (0xa1, .binary .lessThanOrEqual), (0xa2, .binary .greaterThanOrEqual), (0xa3, .binary .min),
   (0xa4, .binary .max), (0xa5, .within), (0xa6, .hash .ripemd160), (0xa7, .hash .sha1),
   (0xa8, .hash .sha256), (0xa9, .hash .hash160), (0xaa, .hash .hash256), (0xab, .codeSeparator),
   (0xac, .checkSig false), (0xad, .checkSig true), (0xae, .checkMultiSig false),
   (0xaf, .checkMultiSig true), (0xb0, .upgradableNop), (0xb1, .checkLockTimeVerify),
   (0xb2, .upgradableNop), (0xb3, .upgradableNop), (0xb4, .upgradableNop), (0xb5, .upgradableNop),
   (0xb6, .upgradableNop), (0xb7, .upgradableNop), (0xb8, .upgradableNop)]

/-- The case of a byte. `OP_RETURN`, the reserved bytes and `OP_ANON_MARKER` fall to `default`. -/
def Opcode.ofByte (b : UInt8) : Opcode :=
  if b ≤ OP_PUSHDATA4 then .pushData
  else if OP_1 ≤ b ∧ b ≤ OP_16 then .pushNum (b.toNat - 0x50)
  else (opcodeTable.lookup b.toNat).getD .invalid

/-- One operation of a script, its operand, and the script behind it. -/
structure ScriptOp where
  opcode : UInt8
  vch : Bytes
  rest : CScript
  deriving DecidableEq, Repr

namespace CScript

/-- `nSize` and the bytes behind it, for the opcodes that carry an operand. -/
def operandSize (opcode : UInt8) (rest : Bytes) : Option (Nat × Bytes) :=
  let width := if opcode < OP_PUSHDATA1 then 0 else if opcode = OP_PUSHDATA1 then 1
    else if opcode = OP_PUSHDATA2 then 2 else 4
  if rest.length < width then none
  else some (if width = 0 then opcode.toNat else leNat (rest.take width), rest.drop width)

/-- `GetOp2`. -/
def getOp : CScript → Option ScriptOp
  | [] => none
  | opcode :: rest =>
    if opcode > OP_PUSHDATA4 then some ⟨opcode, [], rest⟩
    else do
      let (nSize, rest) ← operandSize opcode rest
      -- the number of bytes that are left is cast to `unsigned int`
      if rest.length % 0x100000000 < nSize then none
      else some ⟨opcode, rest.take nSize, rest.drop nSize⟩

/-- The operations read before the end or the first failure, and whether the end was reached. An
operation has at least one byte, so as many rounds as bytes are enough. -/
def opsFrom : Nat → CScript → List ScriptOp × Bool
  | _, [] => ([], true)
  | 0, _ :: _ => ([], false)
  | n + 1, s =>
    match getOp s with
    | none => ([], false)
    | some op =>
      let (ops, ok) := opsFrom n op.rest
      (op :: ops, ok)

def ops (s : CScript) : List ScriptOp × Bool := opsFrom s.length s

/-- `operator<<(const std::vector<unsigned char>&)` on an empty script. -/
def push (b : Bytes) : CScript :=
  if b.length < OP_PUSHDATA1.toNat then UInt8.ofNat b.length :: b
  else if b.length ≤ 0xff then OP_PUSHDATA1 :: UInt8.ofNat b.length :: b
  else if b.length ≤ 0xffff then OP_PUSHDATA2 :: leBytes 2 b.length ++ b
  else OP_PUSHDATA4 :: leBytes 4 b.length ++ b

/-- The inner loop of `FindAndDelete` at one position. -/
def eraseHere (b : Bytes) : Nat → CScript → CScript
  | 0, s => s
  | n + 1, s => if s.take b.length = b then eraseHere b n (s.drop b.length) else s

def findAndDeleteFrom (b : Bytes) : Nat → CScript → CScript
  | 0, s => eraseHere b s.length s
  | n + 1, s =>
    let s := eraseHere b s.length s
    match getOp s with
    | none => s
    | some op => s.take (s.length - op.rest.length) ++ findAndDeleteFrom b n op.rest

/-- `FindAndDelete`. -/
def findAndDelete (s : CScript) (b : CScript) : CScript :=
  if b.isEmpty then s else findAndDeleteFrom b s.length s

def isPushOnly (s : CScript) : Bool :=
  let (ops, ok) := ops s
  ok && ops.all fun op => decide (op.opcode ≤ OP_16)

def isPayToScriptHash (s : CScript) : Bool :=
  decide (s.length = 23) && s[0]? == some OP_HASH160 && s[1]? == some 0x14 &&
    s[22]? == some OP_EQUAL

/-- `DecodeOP_N` of an opcode between `OP_1` and `OP_16`. -/
def decodeOP_N (opcode : UInt8) : Nat := opcode.toNat - 0x50

/-- `GetSigOpCount(bool)` behind `lastOpcode`. -/
def sigOpCountFrom (fAccurate : Bool) : UInt8 → List ScriptOp → Nat
  | _, [] => 0
  | lastOpcode, op :: ops =>
    (match Opcode.ofByte op.opcode with
      | .checkSig _ => 1
      | .checkMultiSig _ =>
        if fAccurate ∧ OP_1 ≤ lastOpcode ∧ lastOpcode ≤ OP_16 then decodeOP_N lastOpcode else 20
      | _ => 0) + sigOpCountFrom fAccurate op.opcode ops

def getSigOpCount (s : CScript) (fAccurate : Bool) : Nat :=
  sigOpCountFrom fAccurate 0xff (ops s).1

/-- `GetSigOpCount(const CScript& scriptSig)`: the last operand that the scriptSig reads. -/
def getSigOpCountP2SH (s scriptSig : CScript) : Nat :=
  if ¬ isPayToScriptHash s then getSigOpCount s true
  else if ¬ isPushOnly scriptSig then 0
  else getSigOpCount (((ops scriptSig).1.getLast?.map ScriptOp.vch).getD []) true

end CScript

end AliasWallet
