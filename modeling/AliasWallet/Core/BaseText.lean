import AliasWallet.Lib.CString
import AliasWallet.Lib.Regrouped
import AliasWallet.Script.Parsing

/-!
# Base 64 and base 32 (`util.cpp`)

The encoders and the decoders are state machines that carry the bits which are left over from one character to the next.
A phase (`mode`) stands for the number of these bits.
-/

namespace AliasWallet
open Lib

/-- An encoder on its way; `left` holds the bits that wait, in the place in which they will be written. -/
structure EncodeState where
  mode : Nat
  left : Nat
  strRet : Bytes

/-- A decoder on its way. -/
structure DecodeState where
  mode : Nat
  left : Nat
  vchRet : Bytes

/-- What the two encodings differ in. -/
structure BaseText where
  /-- The number of bits of a character. -/
  width : Nat
  alphabet : Bytes
  table : List Int
  encodeStep : EncodeState → Nat → EncodeState
  encodeModes : Nat
  /-- The padding behind the last character, by the phase. -/
  nPadding : Nat → Nat
  decodeStep : DecodeState → Nat → DecodeState
  decodeModes : Nat
  /-- The padding that a decoder requires, by the phase; `none` where no text ends. -/
  required : Nat → Option Nat

/-- The character `=`. -/
def padChar : UInt8 := 0x3d

/-- `p[i]` of a text `p` that a zero byte ends. -/
def charAt (p : Bytes) (i : Nat) : Except PastEnd UInt8 :=
  match (p ++ [0])[i]? with
  | some c => .ok c
  | none => .error ⟨⟩

def tableAt (table : List Int) (c : UInt8) : Int := table.getD c.toNat (-1)

/-- The test for `n` characters `=` from `p[i]` on, with no character of the alphabet behind them. -/
def paddingMissing (table : List Int) (p : Bytes) (i : Nat) : Nat → Except PastEnd Bool
  | 0 => do return decide (tableAt table (← charAt p i) ≠ -1)
  | n + 1 => do
    if (← charAt p i) ≠ padChar then return true
    else paddingMissing table p (i + 1) n

namespace BaseText

variable (f : BaseText)

def encode (b : Bytes) : Bytes :=
  let st := b.foldl (fun st enc => f.encodeStep st enc.toNat) ⟨0, 0, []⟩
  if st.mode = 0 then st.strRet
  else st.strRet ++ f.alphabet.getD st.left 0 :: List.replicate (f.nPadding st.mode) padChar

/-- The loop of a decoder, which ends before the first character outside the alphabet. -/
def decodeChars : Bytes → DecodeState → Except PastEnd (DecodeState × Bytes)
  | [], st =>
    -- a zero byte that stood for a number would be stepped over
    if tableAt f.table 0 = -1 then .ok (st, []) else .error ⟨⟩
  | c :: p, st =>
    let dec := tableAt f.table c
    if dec = -1 then .ok (st, c :: p) else decodeChars p (f.decodeStep st dec.toNat)

/-- The `switch` behind the loop. -/
def isInvalid (st : DecodeState) (p : Bytes) : Except PastEnd Bool :=
  if st.mode = 0 then .ok false
  else match f.required st.mode with
    | none => .ok true
    | some n => if st.left ≠ 0 then .ok true else paddingMissing f.table p 0 n

/-- The bytes, and what `pfInvalid` points to, if it is no null pointer. -/
def decode (p : Bytes) (pfInvalid : Option Bool) : Except PastEnd (Bytes × Option Bool) := do
  let (st, p) ← f.decodeChars p ⟨0, 0, []⟩
  match pfInvalid with
  | none => return (st.vchRet, none)
  | some _ => return (st.vchRet, some (← f.isInvalid st p))

end BaseText

section Base64

def pbase64 : Bytes :=
  (List.range' 0x41 26 ++ List.range' 0x61 26 ++ List.range' 0x30 10 ++ [0x2b, 0x2f]).map UInt8.ofNat

def decode64_table : List Int :=
  [-1, -1, -1, -1, -1, -1, -1, -1, -1, -1, -1, -1, -1, -1, -1, -1, -1, -1, -1, -1,
   -1, -1, -1, -1, -1, -1, -1, -1, -1, -1, -1, -1, -1, -1, -1, -1, -1, -1, -1, -1,
   -1, -1, -1, 62, -1, -1, -1, 63, 52, 53, 54, 55, 56, 57, 58, 59, 60, 61, -1, -1,
   -1, -1, -1, -1, -1,  0,  1,  2,  3,  4,  5,  6,  7,  8,  9, 10, 11, 12, 13, 14,
   15, 16, 17, 18, 19, 20, 21, 22, 23, 24, 25, -1, -1, -1, -1, -1, -1, 26, 27, 28,
   29, 30, 31, 32, 33, 34, 35, 36, 37, 38, 39, 40, 41, 42, 43, 44, 45, 46, 47, 48,
   49, 50, 51, -1, -1, -1, -1, -1, -1, -1, -1, -1, -1, -1, -1, -1, -1, -1, -1, -1,
   -1, -1, -1, -1, -1, -1, -1, -1, -1, -1, -1, -1, -1, -1, -1, -1, -1, -1, -1, -1,
   -1, -1, -1, -1, -1, -1, -1, -1, -1, -1, -1, -1, -1, -1, -1, -1, -1, -1, -1, -1,
   -1, -1, -1, -1, -1, -1, -1, -1, -1, -1, -1, -1, -1, -1, -1, -1, -1, -1, -1, -1,
   -1, -1, -1, -1, -1, -1, -1, -1, -1, -1, -1, -1, -1, -1, -1, -1, -1, -1, -1, -1,
   -1, -1, -1, -1, -1, -1, -1, -1, -1, -1, -1, -1, -1, -1, -1, -1, -1, -1, -1, -1,
   -1, -1, -1, -1, -1, -1, -1, -1, -1, -1, -1, -1, -1, -1, -1, -1]

/-- The `switch` of `EncodeBase64`. -/
def encode64Step (st : EncodeState) (enc : Nat) : EncodeState :=
  match st.mode with
  | 0 => ⟨1, (enc &&& 3) <<< 4, st.strRet ++ [pbase64.getD (enc >>> 2) 0]⟩
  | 1 => ⟨2, (enc &&& 15) <<< 2, st.strRet ++ [pbase64.getD (st.left ||| enc >>> 4) 0]⟩
  | 2 => ⟨0, st.left, st.strRet ++ [pbase64.getD (st.left ||| enc >>> 6) 0, pbase64.getD (enc &&& 63) 0]⟩
  | _ => st

/-- The `switch` of `DecodeBase64`. -/
def decode64Step (st : DecodeState) (dec : Nat) : DecodeState :=
  match st.mode with
  | 0 => ⟨1, dec, st.vchRet⟩
  | 1 => ⟨2, dec &&& 15, st.vchRet ++ [UInt8.ofNat (st.left <<< 2 ||| dec >>> 4)]⟩
  | 2 => ⟨3, dec &&& 3, st.vchRet ++ [UInt8.ofNat (st.left <<< 4 ||| dec >>> 2)]⟩
  | 3 => ⟨0, st.left, st.vchRet ++ [UInt8.ofNat (st.left <<< 6 ||| dec)]⟩
  | _ => st

def base64 : BaseText where
  width := 6
  alphabet := pbase64
  table := decode64_table
  encodeStep := encode64Step
  encodeModes := 3
  nPadding mode := if mode = 1 then 2 else 1
  decodeStep := decode64Step
  decodeModes := 4
  required
    | 2 => some 2
    | 3 => some 1
    | _ => none

/-- `EncodeBase64`. -/
def encodeBase64 (b : Bytes) : Bytes := base64.encode b

/-- `DecodeBase64`. -/
def decodeBase64 (p : Bytes) (pfInvalid : Option Bool) : Except PastEnd (Bytes × Option Bool) :=
  base64.decode p pfInvalid

end Base64

section Base32

def pbase32 : Bytes := (List.range' 0x61 26 ++ List.range' 0x32 6).map UInt8.ofNat

def decode32_table : List Int :=
  [-1, -1, -1, -1, -1, -1, -1, -1, -1, -1, -1, -1, -1, -1, -1, -1, -1, -1, -1, -1,
   -1, -1, -1, -1, -1, -1, -1, -1, -1, -1, -1, -1, -1, -1, -1, -1, -1, -1, -1, -1,
   -1, -1, -1, -1, -1, -1, -1, -1, -1, -1, 26, 27, 28, 29, 30, 31, -1, -1, -1, -1,
   -1, -1, -1, -1, -1,  0,  1,  2,  3,  4,  5,  6,  7,  8,  9, 10, 11, 12, 13, 14,
   15, 16, 17, 18, 19, 20, 21, 22, 23, 24, 25, -1, -1, -1, -1, -1, -1,  0,  1,  2,
    3,  4,  5,  6,  7,  8,  9, 10, 11, 12, 13, 14, 15, 16, 17, 18, 19, 20, 21, 22,
   23, 24, 25, -1, -1, -1, -1, -1, -1, -1, -1, -1, -1, -1, -1, -1, -1, -1, -1, -1,
   -1, -1, -1, -1, -1, -1, -1, -1, -1, -1, -1, -1, -1, -1, -1, -1, -1, -1, -1, -1,
   -1, -1, -1, -1, -1, -1, -1, -1, -1, -1, -1, -1, -1, -1, -1, -1, -1, -1, -1, -1,
   -1, -1, -1, -1, -1, -1, -1, -1, -1, -1, -1, -1, -1, -1, -1, -1, -1, -1, -1, -1,
   -1, -1, -1, -1, -1, -1, -1, -1, -1, -1, -1, -1, -1, -1, -1, -1, -1, -1, -1, -1,
   -1, -1, -1, -1, -1, -1, -1, -1, -1, -1, -1, -1, -1, -1, -1, -1, -1, -1, -1, -1,
   -1, -1, -1, -1, -1, -1, -1, -1, -1, -1, -1, -1, -1, -1, -1, -1]

/-- The `switch` of `EncodeBase32`. -/
def encode32Step (st : EncodeState) (enc : Nat) : EncodeState :=
  match st.mode with
  | 0 => ⟨1, (enc &&& 7) <<< 2, st.strRet ++ [pbase32.getD (enc >>> 3) 0]⟩
  | 1 => ⟨2, (enc &&& 1) <<< 4,
      st.strRet ++ [pbase32.getD (st.left ||| enc >>> 6) 0, pbase32.getD (enc >>> 1 &&& 31) 0]⟩
  | 2 => ⟨3, (enc &&& 15) <<< 1, st.strRet ++ [pbase32.getD (st.left ||| enc >>> 4) 0]⟩
  | 3 => ⟨4, (enc &&& 3) <<< 3,
      st.strRet ++ [pbase32.getD (st.left ||| enc >>> 7) 0, pbase32.getD (enc >>> 2 &&& 31) 0]⟩
  | 4 => ⟨0, st.left, st.strRet ++ [pbase32.getD (st.left ||| enc >>> 5) 0, pbase32.getD (enc &&& 31) 0]⟩
  | _ => st

/-- The `switch` of `DecodeBase32`. -/
def decode32Step (st : DecodeState) (dec : Nat) : DecodeState :=
  match st.mode with
  | 0 => ⟨1, dec, st.vchRet⟩
  | 1 => ⟨2, dec &&& 3, st.vchRet ++ [UInt8.ofNat (st.left <<< 3 ||| dec >>> 2)]⟩
  | 2 => ⟨3, st.left <<< 5 ||| dec, st.vchRet⟩
  | 3 => ⟨4, dec &&& 15, st.vchRet ++ [UInt8.ofNat (st.left <<< 1 ||| dec >>> 4)]⟩
  | 4 => ⟨5, dec &&& 1, st.vchRet ++ [UInt8.ofNat (st.left <<< 4 ||| dec >>> 1)]⟩
  | 5 => ⟨6, st.left <<< 5 ||| dec, st.vchRet⟩
  | 6 => ⟨7, dec &&& 7, st.vchRet ++ [UInt8.ofNat (st.left <<< 2 ||| dec >>> 3)]⟩
  | 7 => ⟨0, st.left, st.vchRet ++ [UInt8.ofNat (st.left <<< 5 ||| dec)]⟩
  | _ => st

def base32 : BaseText where
  width := 5
  alphabet := pbase32
  table := decode32_table
  encodeStep := encode32Step
  encodeModes := 5
  nPadding mode := [0, 6, 4, 3, 1].getD mode 0
  decodeStep := decode32Step
  decodeModes := 8
  required
    | 2 => some 6
    | 4 => some 4
    | 5 => some 3
    | 7 => some 1
    | _ => none

/-- `EncodeBase32`. -/
def encodeBase32 (b : Bytes) : Bytes := base32.encode b

/-- `DecodeBase32`. -/
def decodeBase32 (p : Bytes) (pfInvalid : Option Bool) : Except PastEnd (Bytes × Option Bool) :=
  base32.decode p pfInvalid

end Base32

end AliasWallet
