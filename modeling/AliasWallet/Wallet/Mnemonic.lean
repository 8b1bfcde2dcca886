import AliasWallet.Lib.BitGroups
import AliasWallet.Lib.CString
import AliasWallet.Lib.Sha256
import AliasWallet.Wallet.WordLists

/-!
# Mnemonic phrases (`extkey.cpp`)

`MnemonicEncode` cuts entropy and checksum into words of eleven bits, and `MnemonicDecode` packs the words into bytes
again. A read of a table, of the entropy or of the hash outside of it is a result of its own.
-/

namespace AliasWallet
open Lib

/-- `errorN` with its code. -/
def mnemonicError {α : Type} (e : MnemonicError) : Except MnemonicStop α := .error (.failed e)

section Detect

/-- The loop over the words of a phrase, with `maxTries`, `nHit` and `nMiss`. -/
def countHits (pwl : Bytes) : Nat → Nat → Nat → List Bytes → Nat × Nat
  | _, nHit, nMiss, [] => (nHit, nMiss)
  | 0, nHit, nMiss, p :: _ => if (getWordOffset p pwl).isSome then (nHit + 1, nMiss) else (nHit, nMiss + 1)
  | maxTries + 1, nHit, nMiss, p :: ps =>
    if (getWordOffset p pwl).isSome then countHits pwl maxTries (nHit + 1) nMiss ps
    else countHits pwl maxTries nHit (nMiss + 1) ps

/-- The words of a phrase, as `strtok` finds them in its copy. -/
def phraseWords (sWordList : Bytes) : List Bytes := tokens space (cString sWordList)

/-- `nHit > nMiss` for a language. -/
def hasMoreHits (pwl sWordList : Bytes) : Bool :=
  let (nHit, nMiss) := countHits pwl 4 0 0 (phraseWords sWordList)
  nHit > nMiss

/-- The loop over the languages from `l` on. -/
def detectFrom (sWordList : Bytes) : Int → List Bytes → Int
  | _, [] => 0
  | l, pwl :: rest => if hasMoreHits pwl sWordList then l else detectFrom sWordList (l + 1) rest

def mnemonicDetectLanguage (T : LanguageTables) (sWordList : Bytes) : Int :=
  if sWordList.length ≥ 2048 then -1 else detectFrom sWordList 1 (mnLanguages T).tail

end Detect

section Encode

/-- `nCsSize` for entropy of a length. -/
def checksumSize (nBytes : Nat) : Nat := nBytes / 4 % 2 ^ 32

/-- `ncb`, the bytes that hold so many bits of the checksum. -/
def checksumBytes (nCsSize : Nat) : Nat := nCsSize / 8 + if nCsSize % 8 ≠ 0 then 1 else 0

/-- `vIn`: the entropy and 32 bytes more, of which the first are those of the hash. -/
def encodeInput (vEntropy : Bytes) (nCsSize : Nat) : Bytes :=
  vEntropy ++ ((sha256 vEntropy).take (checksumBytes nCsSize) ++ List.replicate (32 - checksumBytes nCsSize) 0)

/-- The round of the loop at bit `i`. -/
def wordAt (vIn : Bytes) (i : Nat) : Except MnemonicStop Nat :=
  let s := i / 8
  let r := i % 8
  match vIn[s]?, vIn[s + 1]? with
  | some b1, some b2 =>
    let o := ((b1.toNat <<< r) &&& 0xff) <<< (11 - 8)
    if r > 5 then
      match vIn[s + 2]? with
      | some b3 => .ok ((o ||| (b2.toNat <<< (r - 5)) ||| (b3.toNat >>> (8 - (r - 5)))) &&& 0x7ff)
      | none => .error .outOfBounds
    else .ok ((o ||| (b2.toNat >>> ((8 - (11 - 8)) - r))) &&& 0x7ff)
  | _, _ => .error .outOfBounds

/-- `vWord`: the loop runs at `i = 0, 11, …` below `nBits`. -/
def encodeWords (vIn : Bytes) (nBits : Nat) : Except MnemonicStop (List Nat) :=
  (List.range ((nBits + 10) / 11)).mapM fun k => wordAt vIn (11 * k)

/-- The loop that appends the words to `sWordList`. -/
def appendWords (pwl : Bytes) : List Nat → Bytes → Except MnemonicStop Bytes
  | [], sWordList => .ok sWordList
  | o :: vWord, sWordList => do
    match ← getWord o pwl with
    | none => mnemonicError (.wordExtractFailed o)
    | some sWord => appendWords pwl vWord ((if sWordList ≠ [] then sWordList ++ [space] else sWordList) ++ sWord)

def mnemonicEncode (T : LanguageTables) (nLanguage : Int) (vEntropy sWordList : Bytes) : Except MnemonicStop Bytes :=
  if nLanguage < 1 ∨ nLanguage > WLL_MAX then mnemonicError .unknownLanguage
  else
    let nCsSize := checksumSize vEntropy.length
    if nCsSize < 1 ∨ nCsSize > 256 then mnemonicError .entropyOutOfRange
    else do
      let vWord ← encodeWords (encodeInput vEntropy nCsSize) ((vEntropy.length * 8 + nCsSize) % 2 ^ 32)
      let pwl ← readLanguage T nLanguage.toNat
      let sWordList ← appendWords pwl vWord sWordList
      pure (if nLanguage = WLL_JAPANESE then replaceStr [space] ideographicSpace sWordList else sWordList)

end Encode

section Decode

/-- `vWordInts`. -/
def wordOffsets (pwl : Bytes) : List Bytes → Except MnemonicStop (List Nat)
  | [] => .ok []
  | p :: ps =>
    match getWordOffset p pwl with
    | none => mnemonicError (.unknownWord p)
    | some ofs => do
      let vWordInts ← wordOffsets pwl ps
      pure (ofs :: vWordInts)

/-- `vEntropy[s] |= x`. -/
def orByte (vEntropy : Bytes) (s x : Nat) : Except MnemonicStop Bytes :=
  match vEntropy[s]? with
  | some b => .ok (vEntropy.set s (UInt8.ofNat (b.toNat ||| x)))
  | none => .error .outOfBounds

/-- The round of the loop for word `o` at bit `i`. -/
def orWord (vEntropy : Bytes) (i o : Nat) : Except MnemonicStop Bytes := do
  let s := i / 8
  let r := i % 8
  let el := vEntropy.length
  let vEntropy ← orByte vEntropy s ((o >>> (r + 3)) &&& 0x7ff)
  if s + 1 < el then
    if r > 5 then
      let vEntropy ← orByte vEntropy (s + 1) ((o >>> (r - 5)) &&& 0x7ff)
      if s + 2 < el then orByte vEntropy (s + 2) ((o <<< (8 - (r - 5))) &&& 0x7ff) else pure vEntropy
    else orByte vEntropy (s + 1) ((o <<< (5 - r)) &&& 0x7ff)
  else pure vEntropy

/-- The loop over the words from bit `i` on. -/
def packWords : List Nat → Nat → Bytes → Except MnemonicStop Bytes
  | [], _, vEntropy => .ok vEntropy
  | o :: vWordInts, i, vEntropy => do
    let vEntropy ← orWord vEntropy i o
    packWords vWordInts (i + 11) vEntropy

/-- The bytes that hold so many bits. -/
def bytesFor (nBits : Nat) : Nat := nBits / 8 + if nBits % 8 = 0 then 0 else 1

/-- `vCSTest` with the bits behind the checksum cleared. -/
def maskChecksum (vCSTest : Bytes) (nLenChecksum : Nat) : Bytes :=
  let r := nLenChecksum % 8
  if r > 0 then vCSTest.modify (bytesFor nLenChecksum - 1) fun b => UInt8.ofNat (b.toNat &&& (((1 <<< r) - 1) <<< (8 - r)))
  else vCSTest

/-- The end of `MnemonicDecode`: the checksum behind the entropy is compared and removed. -/
def checkChecksum (vEntropy : Bytes) (nBits : Nat) : Except MnemonicStop Bytes :=
  let nLenChecksum := nBits / 32
  let nLenEntropy := nBits - nLenChecksum
  let nBytesEntropy := nLenEntropy / 8
  let nBytesChecksum := bytesFor nLenChecksum
  if nBytesEntropy + nBytesChecksum > vEntropy.length then .error .outOfBounds
  else
    let vCS := (vEntropy.drop nBytesEntropy).take nBytesChecksum
    let vEntropy := vEntropy.take nBytesEntropy
    let hash := sha256 vEntropy
    if nBytesChecksum > hash.length then .error .outOfBounds
    else if maskChecksum (hash.take nBytesChecksum) nLenChecksum ≠ vCS then mnemonicError .checksumMismatch
    else .ok vEntropy

def mnemonicDecode (T : LanguageTables) (nLanguage : Int) (sWordListIn : Bytes) (fIgnoreChecksum : Bool) :
    Except MnemonicStop Bytes :=
  let sWordList := replaceStr ideographicSpace [space] sWordListIn
  let nLanguage := if nLanguage = -1 then mnemonicDetectLanguage T sWordList else nLanguage
  if nLanguage < 1 ∨ nLanguage > WLL_MAX then mnemonicError .unknownLanguage
  else if sWordList.length ≥ 2048 then mnemonicError .wordListTooLong
  else do
    let pwl ← readLanguage T nLanguage.toNat
    let vWordInts ← wordOffsets pwl (phraseWords sWordList)
    if fIgnoreChecksum = false ∧ vWordInts.length % 3 ≠ 0 then mnemonicError .wordCount
    else do
      let nBits := vWordInts.length * 11
      let vEntropy ← packWords vWordInts 0 (List.replicate (bytesFor nBits) 0)
      if fIgnoreChecksum then pure vEntropy else checkChecksum vEntropy nBits

end Decode

def mnemonicAddChecksum (T : LanguageTables) (nLanguageIn : Int) (sWordListIn sWordListOut : Bytes) :
    Except MnemonicStop Bytes := do
  let nLanguage := if nLanguageIn = -1 then mnemonicDetectLanguage T sWordListIn else nLanguageIn
  let vEntropy ← mnemonicDecode T nLanguage sWordListIn true
  let sWordListOut ← mnemonicEncode T nLanguage vEntropy sWordListOut
  let _ ← mnemonicDecode T nLanguage sWordListOut false
  pure sWordListOut

end AliasWallet
