import AliasWallet.Core.Base58
import AliasWallet.Crypto.Concrete
import AliasWallet.Wallet.StealthAddresses

/-!
# Stealth addresses as text (`stealth.cpp`)

A text holds a version, options, the scan key, a number of spend keys, the spend keys, a number of signatures, the
length of a prefix and a checksum. A text is written with one spend key, and read as if it had one.
-/

namespace AliasWallet
open Lib

section Text

/-- `Base58Prefix(STEALTH_ADDRESS)`, the same on both nets. -/
def stealthPrefix : Bytes := [40]

/-- A stealth address with its options. -/
structure StealthAddressText extends CStealthAddress where
  options : UInt8
  deriving DecidableEq, Repr

variable (hash : HashFn) (raw : Bytes) (sx : StealthAddressText) (encodedAddress : Bytes)

/-- `BitcoinChecksum`, as the bytes of the number. The size is a number of 32 bits. -/
def bitcoinChecksum (p : Bytes) (nBytes : Nat) : Bytes :=
  if nBytes % 0x100000000 = 0 then [0, 0, 0, 0] else (uint256Bytes (hash (p.take (nBytes % 0x100000000)))).take 4

/-- `AppendChecksum`. -/
def appendChecksum : Bytes := raw ++ bitcoinChecksum hash raw raw.length

/-- `VerifyChecksum`. -/
def verifyChecksum : Bool :=
  decide (4 ≤ raw.length) && bitcoinChecksum hash raw (raw.length - 4) == raw.drop (raw.length - 4)

namespace StealthAddressText

/-- What `Encoded` writes before the checksum. -/
def chunk : Bytes := stealthPrefix ++ [sx.options] ++ sx.scan_pubkey ++ [1] ++ sx.spend_pubkey ++ [0] ++ [0]

/-- `CStealthAddress::Encoded`. -/
def encoded : Bytes := encodeBase58 (appendChecksum hash sx.chunk)

/-- `CStealthAddress::SetEncoded`; the pointer is moved over the number of spend keys. -/
def setEncoded : Option StealthAddressText :=
  if encodedAddress.length < 76 then none
  else
    match decodeBase58 encodedAddress with
    | none => none
    | some raw =>
      if !verifyChecksum hash raw then none
      else if raw.length < 1 + 1 + 33 + 1 + 33 + 1 + 1 + 4 then none
      else if raw.getD 0 0 ≠ stealthPrefix.getD 0 0 then none
      else
        some { sx with
          options := raw.getD 1 0
          scan_pubkey := (raw.drop 2).take 33
          spend_pubkey := (raw.drop 36).take 33 }

end StealthAddressText

/-- `IsStealthAddress`. -/
def isStealthAddress : Bool :=
  if encodedAddress.length < 76 then false
  else
    match decodeBase58 encodedAddress with
    | none => false
    | some raw =>
      if !verifyChecksum hash raw then false
      else if raw.length < 1 + 1 + 33 + 1 + 33 + 1 + 1 + 4 then false
      else if raw.getD 0 0 ≠ stealthPrefix.getD 0 0 then false
      else true

/-- One spend key, no signatures, no prefix, and no further bytes. -/
def SingleSpendKey : Prop := raw.length = 75 ∧ raw.getD 35 0 = 1 ∧ raw.getD 69 0 = 0 ∧ raw.getD 70 0 = 0

end Text

section Accepted

variable {hash : HashFn} {raw s : Bytes} {sx sx' : StealthAddressText}

/-- What the tests of both functions have in common. -/
def StealthRaw (hash : HashFn) (raw : Bytes) : Prop :=
  verifyChecksum hash raw = true ∧ 75 ≤ raw.length ∧ raw.getD 0 0 = stealthPrefix.getD 0 0

theorem setEncoded_eq_some : sx.setEncoded hash s = some sx' ↔
    76 ≤ s.length ∧ ∃ raw, decodeBase58 s = some raw ∧ StealthRaw hash raw ∧
      sx' = { sx with
        options := raw.getD 1 0
        scan_pubkey := (raw.drop 2).take 33
        spend_pubkey := (raw.drop 36).take 33 } := by
  constructor
  · intro h
    rw [StealthAddressText.setEncoded] at h
    by_cases hlen : s.length < 76
    · rw [if_pos hlen] at h
      cases h
    rw [if_neg hlen] at h
    cases hdecode : decodeBase58 s with
    | none =>
      rw [hdecode] at h
      cases h
    | some raw =>
      rw [hdecode] at h
      dsimp only at h
      by_cases hsum : verifyChecksum hash raw = true
      · rw [hsum, Bool.not_true, if_neg Bool.false_ne_true] at h
        by_cases hsize : raw.length < 75
        · rw [if_pos hsize] at h
          cases h
        rw [if_neg hsize] at h
        by_cases hversion : raw.getD 0 0 = stealthPrefix.getD 0 0
        · rw [if_neg (not_not.mpr hversion)] at h
          exact ⟨Nat.not_lt.mp hlen, raw, rfl, ⟨hsum, Nat.not_lt.mp hsize, hversion⟩, (Option.some.inj h).symm⟩
        · rw [if_pos hversion] at h
          cases h
      · rw [Bool.not_eq_true] at hsum
        rw [hsum, Bool.not_false, if_pos rfl] at h
        cases h
  · intro h
    obtain ⟨hlen, raw, hdecode, ⟨hsum, hsize, hversion⟩, rfl⟩ := h
    rw [StealthAddressText.setEncoded, if_neg (by omega), hdecode]
    dsimp only
    rw [hsum, Bool.not_true, if_neg Bool.false_ne_true, if_neg (by omega)]
    exact if_neg (not_not.mpr hversion)

theorem isStealthAddress_iff : isStealthAddress hash s = true ↔
    76 ≤ s.length ∧ ∃ raw, decodeBase58 s = some raw ∧ StealthRaw hash raw := by
  rw [isStealthAddress]
  by_cases hlen : s.length < 76
  · rw [if_pos hlen]
    simp [Nat.not_le.mpr hlen]
  rw [if_neg hlen]
  cases decodeBase58 s with
  | none => simp
  | some raw => simp [StealthRaw, stealthPrefix, Nat.not_lt.mp hlen]

/-- Both functions accept the same texts. -/
theorem isStealthAddress_eq (hash : HashFn) (sx : StealthAddressText) (s : Bytes) :
    isStealthAddress hash s = (sx.setEncoded hash s).isSome := by
  rw [Bool.eq_iff_iff, isStealthAddress_iff, Option.isSome_iff_exists]
  constructor
  · intro h
    obtain ⟨hlen, raw, hdecode, hraw⟩ := h
    exact ⟨_, setEncoded_eq_some.mpr ⟨hlen, raw, hdecode, hraw, rfl⟩⟩
  · intro h
    obtain ⟨sx', h⟩ := h
    obtain ⟨hlen, raw, hdecode, hraw, -⟩ := setEncoded_eq_some.mp h
    exact ⟨hlen, raw, hdecode, hraw⟩

end Accepted

section Form

variable {hash : HashFn} {raw s : Bytes} {sx sx' sx₀ : StealthAddressText}

theorem bitcoinChecksum_length (hash : HashFn) (p : Bytes) (nBytes : Nat) :
    (bitcoinChecksum hash p nBytes).length = 4 := by
  rw [bitcoinChecksum]
  split
  · rfl
  · exact uint256Bytes_take_length _

/-- A checksum that was appended is right. -/
theorem verifyChecksum_append (hash : HashFn) (raw : Bytes) (h : raw.length < 0x100000000) :
    verifyChecksum hash (appendChecksum hash raw) = true := by
  have hsum := bitcoinChecksum_length hash raw raw.length
  have htotal : (appendChecksum hash raw).length = raw.length + 4 := by
    rw [appendChecksum, List.length_append, hsum]
  have hsame : bitcoinChecksum hash (appendChecksum hash raw) raw.length = bitcoinChecksum hash raw raw.length := by
    rw [bitcoinChecksum, bitcoinChecksum, Nat.mod_eq_of_lt h, appendChecksum, List.take_left, List.take_length]
  rw [verifyChecksum, htotal, Nat.add_sub_cancel, hsame, Bool.and_eq_true]
  constructor
  · exact decide_eq_true (by omega)
  · rw [appendChecksum, List.drop_left]
    exact beq_self_eq_true _

/-- A right checksum was appended to what is in front of it. -/
theorem appendChecksum_take (h : verifyChecksum hash raw = true) (hlen : raw.length < 0x100000000) :
    appendChecksum hash (raw.take (raw.length - 4)) = raw := by
  rw [verifyChecksum, Bool.and_eq_true] at h
  have hsize : 4 ≤ raw.length := of_decide_eq_true h.1
  have hfront : (raw.take (raw.length - 4)).length = raw.length - 4 := by
    rw [List.length_take]
    omega
  have hsame : bitcoinChecksum hash (raw.take (raw.length - 4)) (raw.length - 4) =
      bitcoinChecksum hash raw (raw.length - 4) := by
    rw [bitcoinChecksum, bitcoinChecksum, Nat.mod_eq_of_lt (by omega), List.take_take, Nat.min_self]
  rw [appendChecksum, hfront, hsame, eq_of_beq h.2, List.take_append_drop]

theorem drop_eq_getD_cons {l : Bytes} {k : Nat} (h : k < l.length) : l.drop k = l.getD k 0 :: l.drop (k + 1) := by
  rw [List.getD_eq_getElem _ _ h]
  exact List.drop_eq_getElem_cons h

theorem drop_eq_take_append (l : Bytes) (k n : Nat) : l.drop k = (l.drop k).take n ++ l.drop (k + n) := by
  rw [← List.drop_drop, List.take_append_drop]

/-- The fields of bytes that are long enough. -/
theorem raw_eq_fields (h : 71 ≤ raw.length) :
    raw = raw.getD 0 0 :: raw.getD 1 0 :: ((raw.drop 2).take 33 ++ raw.getD 35 0 :: ((raw.drop 36).take 33 ++
      raw.getD 69 0 :: raw.getD 70 0 :: raw.drop 71)) := by
  have hfields := drop_eq_getD_cons (l := raw) (k := 0) (by omega)
  rw [drop_eq_getD_cons (k := 1) (by omega), drop_eq_take_append raw 2 33, drop_eq_getD_cons (k := 35) (by omega),
    drop_eq_take_append raw 36 33, drop_eq_getD_cons (k := 69) (by omega), drop_eq_getD_cons (k := 70) (by omega)]
    at hfields
  exact hfields

theorem chunk_length (hscan : sx.scan_pubkey.length = 33) (hspend : sx.spend_pubkey.length = 33) :
    sx.chunk.length = 71 := by
  simp [StealthAddressText.chunk, stealthPrefix, hscan, hspend]

/-- Bytes of the right form are written for the address that is read from them. -/
theorem appendChecksum_chunk_eq (hraw : StealthRaw hash raw) (hform : SingleSpendKey raw)
    (hoptions : sx.options = raw.getD 1 0) (hscan : sx.scan_pubkey = (raw.drop 2).take 33)
    (hspend : sx.spend_pubkey = (raw.drop 36).take 33) : appendChecksum hash sx.chunk = raw := by
  have hsize : raw.length = 75 := hform.1
  have hfields := raw_eq_fields (show 71 ≤ raw.length by omega)
  rw [hraw.2.2, hform.2.1, hform.2.2.1, hform.2.2.2, ← hoptions, ← hscan, ← hspend] at hfields
  have hchunk : sx.chunk ++ raw.drop 71 = raw := by
    conv_rhs => rw [hfields]
    simp [StealthAddressText.chunk, stealthPrefix]
  have hlen : sx.chunk.length = 71 := by
    have htotal := congrArg List.length hchunk
    rw [List.length_append, List.length_drop] at htotal
    omega
  have htake : raw.take (raw.length - 4) = sx.chunk := by
    rw [hsize, ← hchunk, List.take_left' hlen]
  rw [← htake]
  exact appendChecksum_take hraw.1 (by omega)

/-- What is written has the right form, and its fields are those of the address. -/
theorem appendChecksum_chunk_form (hash : HashFn) (hscan : sx.scan_pubkey.length = 33)
    (hspend : sx.spend_pubkey.length = 33) :
    StealthRaw hash (appendChecksum hash sx.chunk) ∧ SingleSpendKey (appendChecksum hash sx.chunk) ∧
      (appendChecksum hash sx.chunk).getD 1 0 = sx.options ∧
      ((appendChecksum hash sx.chunk).drop 2).take 33 = sx.scan_pubkey ∧
      ((appendChecksum hash sx.chunk).drop 36).take 33 = sx.spend_pubkey := by
  have hchunk := chunk_length hscan hspend
  have hsize : (appendChecksum hash sx.chunk).length = 75 := by
    rw [appendChecksum, List.length_append, bitcoinChecksum_length, hchunk]
  have hverify := verifyChecksum_append hash sx.chunk (by omega)
  have hbytes : appendChecksum hash sx.chunk = 40 :: sx.options :: (sx.scan_pubkey ++ 1 :: (sx.spend_pubkey ++
      0 :: 0 :: bitcoinChecksum hash sx.chunk sx.chunk.length)) := by
    simp [appendChecksum, StealthAddressText.chunk, stealthPrefix]
  generalize appendChecksum hash sx.chunk = raw at *
  have hfields := raw_eq_fields (show 71 ≤ raw.length by omega)
  have hscanLen : ((raw.drop 2).take 33).length = 33 := by
    rw [List.length_take, List.length_drop, hsize]
    rfl
  have hspendLen : ((raw.drop 36).take 33).length = 33 := by
    rw [List.length_take, List.length_drop, hsize]
    rfl
  -- both lists are cut at the same places
  have hcons := List.cons.inj (hfields.symm.trans hbytes)
  have hcons' := List.cons.inj hcons.2
  have hkeys := List.append_inj hcons'.2 (hscanLen.trans hscan.symm)
  have hcount := List.cons.inj hkeys.2
  have hkeys' := List.append_inj hcount.2 (hspendLen.trans hspend.symm)
  have hzeros := List.cons.inj hkeys'.2
  exact ⟨⟨hverify, hsize.ge, hcons.1⟩, ⟨hsize, hcount.1, hzeros.1, (List.cons.inj hzeros.2).1⟩, hcons'.1, hkeys.1,
    hkeys'.1⟩

end Form

section Faithful

variable {hash : HashFn} {raw s : Bytes} {sx sx' : StealthAddressText}

/-- The first byte is not zero, which makes the text long enough. -/
theorem encodeBase58_length (hraw : StealthRaw hash raw) (hlen : raw.length + 5 < 0x80000000) :
    76 ≤ (encodeBase58 raw).length := by
  have hsize := hraw.2.1
  have hfirst : raw = [40] ++ raw.drop 1 := by
    have hcons := drop_eq_getD_cons (l := raw) (k := 0) (by omega)
    rw [hraw.2.2] at hcons
    exact hcons
  apply lt_encodeBase58_length hlen
  rw [hfirst, beNat_append, List.length_drop]
  calc 58 ^ 75 ≤ beNat [40] * 256 ^ 74 := by decide
    _ ≤ beNat [40] * 256 ^ (raw.length - 1) := by gcongr <;> omega
    _ ≤ _ := Nat.le_add_right _ _

/-- The text of bytes that pass the tests is accepted. -/
theorem setEncoded_encodeBase58 (sx : StealthAddressText) (hraw : StealthRaw hash raw)
    (hlen : raw.length + 5 < 0x80000000) :
    sx.setEncoded hash (encodeBase58 raw) = some { sx with
      options := raw.getD 1 0
      scan_pubkey := (raw.drop 2).take 33
      spend_pubkey := (raw.drop 36).take 33 } :=
  setEncoded_eq_some.mpr ⟨encodeBase58_length hraw hlen, raw, decodeBase58_encodeBase58 hlen, hraw, rfl⟩

theorem trimmed_encodeBase58 (hlen : raw.length + 5 < 0x80000000) : Trimmed (encodeBase58 raw) := by
  constructor
  · intro c hc
    exact (isSpace_of_mem (encodeBase58_mem hlen c (List.mem_of_head? hc))).1
  · intro c hc
    exact (isSpace_of_mem (encodeBase58_mem hlen c (List.mem_of_getLast? hc))).1

theorem setEncoded_encoded (hash : HashFn) (sx₀ : StealthAddressText) (hscan : sx.scan_pubkey.length = 33)
    (hspend : sx.spend_pubkey.length = 33) :
    sx₀.setEncoded hash (sx.encoded hash) =
      some { sx₀ with options := sx.options, scan_pubkey := sx.scan_pubkey, spend_pubkey := sx.spend_pubkey } := by
  obtain ⟨hraw, hsingle, hoptions, hscanPart, hspendPart⟩ := appendChecksum_chunk_form hash hscan hspend
  have hsize : (appendChecksum hash sx.chunk).length = 75 := hsingle.1
  have htext := setEncoded_encodeBase58 sx₀ hraw (by omega)
  rw [hoptions, hscanPart, hspendPart] at htext
  exact htext

/-- A text without white space around it is the one that is written, exactly if it has no zero byte and its bytes have
the right form. -/
theorem encoded_eq_iff (htrim : Trimmed s) (h : sx.setEncoded hash s = some sx') :
    sx'.encoded hash = s ↔ (0 : UInt8) ∉ s ∧ ∃ raw, decodeBase58 s = some raw ∧ SingleSpendKey raw := by
  obtain ⟨-, raw, hdecode, hraw, rfl⟩ := setEncoded_eq_some.mp h
  have hsize := hraw.2.1
  constructor
  · intro hsame
    rw [← hsame]
    have hform := @appendChecksum_chunk_form { sx with
      options := raw.getD 1 0, scan_pubkey := (raw.drop 2).take 33, spend_pubkey := (raw.drop 36).take 33 } hash
      (by simp; omega) (by simp; omega)
    have hlen := hform.2.1.1
    constructor
    · intro hzero
      exact (isSpace_of_mem (encodeBase58_mem (by omega) 0 hzero)).2 rfl
    · exact ⟨_, decodeBase58_encodeBase58 (by omega), hform.2.1⟩
  · intro hform
    obtain ⟨hzero, raw', hdecode', hsingle⟩ := hform
    obtain rfl := Option.some.inj (hdecode.symm.trans hdecode')
    have hlen := hsingle.1
    rw [StealthAddressText.encoded, appendChecksum_chunk_eq hraw hsingle rfl rfl rfl]
    exact encodeBase58_of_decodeBase58 hzero htrim (by omega) hdecode

/-- What is written is read, both tests agree, and exactly the texts of the right form are written again. -/
theorem stealthText_faithful (hash : HashFn) :
    (∀ sx sx₀ : StealthAddressText, sx.scan_pubkey.length = 33 → sx.spend_pubkey.length = 33 →
      sx₀.setEncoded hash (sx.encoded hash) = some { sx₀ with
        options := sx.options
        scan_pubkey := sx.scan_pubkey
        spend_pubkey := sx.spend_pubkey }) ∧
    (∀ (sx₀ : StealthAddressText) (s : Bytes), isStealthAddress hash s = true ↔ (sx₀.setEncoded hash s).isSome) ∧
    ∀ (sx₀ sx : StealthAddressText) (s : Bytes), Trimmed s → sx₀.setEncoded hash s = some sx →
      (sx.encoded hash = s ↔ (0 : UInt8) ∉ s ∧ ∃ raw, decodeBase58 s = some raw ∧ SingleSpendKey raw) := by
  refine ⟨fun sx sx₀ hscan hspend => setEncoded_encoded hash sx₀ hscan hspend, fun sx₀ s => ?_,
    fun sx₀ sx s htrim h => encoded_eq_iff htrim h⟩
  rw [isStealthAddress_eq hash sx₀ s]

def emptyStealthText : StealthAddressText :=
  { scan_pubkey := [], spend_pubkey := [], scan_secret := [], spend_secret := [], options := 0 }

def sampleStealthText : StealthAddressText :=
  { emptyStealthText with scan_pubkey := List.replicate 33 2, spend_pubkey := List.replicate 33 3 }

theorem stealthText_faithful_sample :
    emptyStealthText.setEncoded sha256d (sampleStealthText.encoded sha256d) = some sampleStealthText :=
  (stealthText_faithful sha256d).1 sampleStealthText emptyStealthText rfl rfl

/-- A number of spend keys, the first of them, and what stands behind it. -/
def countedChunk (spendKeys : UInt8) (rest : Bytes) : Bytes :=
  stealthPrefix ++ [0] ++ List.replicate 33 2 ++ [spendKeys] ++ List.replicate 33 3 ++ rest

/-- Bytes behind those of an address are passed over. -/
theorem setEncoded_longer (hash : HashFn) (sx : StealthAddressText) {chunk : Bytes} (hlen : 71 < chunk.length)
    (hmax : chunk.length < 0x10000) (hversion : chunk.getD 0 0 = stealthPrefix.getD 0 0) :
    Trimmed (encodeBase58 (appendChecksum hash chunk)) ∧ ∃ sx',
      sx.setEncoded hash (encodeBase58 (appendChecksum hash chunk)) = some sx' ∧
      sx' = { sx with
        options := chunk.getD 1 0
        scan_pubkey := (chunk.drop 2).take 33
        spend_pubkey := (chunk.drop 36).take 33 } ∧
      sx'.encoded hash ≠ encodeBase58 (appendChecksum hash chunk) := by
  have hsize : (appendChecksum hash chunk).length = chunk.length + 4 := by
    rw [appendChecksum, List.length_append, bitcoinChecksum_length]
  have hverify := verifyChecksum_append hash chunk (by omega)
  have hget : ∀ k < 71, (appendChecksum hash chunk).getD k 0 = chunk.getD k 0 := by
    intro k hk
    rw [appendChecksum, List.getD_append _ _ _ _ (by omega)]
  have hpart : ∀ k ≤ 36, ((appendChecksum hash chunk).drop k).take 33 = (chunk.drop k).take 33 := by
    intro k hk
    rw [appendChecksum, List.drop_append_of_le_length (by omega), List.take_append_of_le_length]
    rw [List.length_drop]
    omega
  have hraw : StealthRaw hash (appendChecksum hash chunk) :=
    ⟨hverify, by omega, (hget 0 (by decide)).trans hversion⟩
  have htrim : Trimmed (encodeBase58 (appendChecksum hash chunk)) := trimmed_encodeBase58 (by omega)
  have hset := setEncoded_encodeBase58 sx hraw (by omega)
  rw [hget 1 (by decide), hpart 2 (by decide), hpart 36 le_rfl] at hset
  refine ⟨htrim, _, hset, rfl, fun hsame => ?_⟩
  obtain ⟨-, raw, hdecode, hsingle⟩ := (encoded_eq_iff htrim hset).mp hsame
  rw [decodeBase58_encodeBase58 (by omega)] at hdecode
  rw [← Option.some.inj hdecode] at hsingle
  have hexact := hsingle.1
  omega

/-- An address with two spend keys is read as one with the first of them, and another one with bytes that do not belong
to it. -/
theorem stealthText_unfaithful :
    (Trimmed (encodeBase58 (appendChecksum sha256d (countedChunk 2 (List.replicate 33 4 ++ [0, 0])))) ∧
      emptyStealthText.setEncoded sha256d
        (encodeBase58 (appendChecksum sha256d (countedChunk 2 (List.replicate 33 4 ++ [0, 0])))) =
          some sampleStealthText ∧
      sampleStealthText.encoded sha256d ≠
        encodeBase58 (appendChecksum sha256d (countedChunk 2 (List.replicate 33 4 ++ [0, 0])))) ∧
    Trimmed (encodeBase58 (appendChecksum sha256d (countedChunk 1 [0, 0, 9]))) ∧
      emptyStealthText.setEncoded sha256d (encodeBase58 (appendChecksum sha256d (countedChunk 1 [0, 0, 9]))) =
        some sampleStealthText ∧
      sampleStealthText.encoded sha256d ≠ encodeBase58 (appendChecksum sha256d (countedChunk 1 [0, 0, 9])) := by
  constructor
  · obtain ⟨htrim, sx, hset, rfl, hne⟩ := setEncoded_longer sha256d emptyStealthText
      (show 71 < (countedChunk 2 (List.replicate 33 4 ++ [0, 0])).length by decide) (by decide) rfl
    exact ⟨htrim, hset, hne⟩
  · obtain ⟨htrim, sx, hset, rfl, hne⟩ := setEncoded_longer sha256d emptyStealthText
      (show 71 < (countedChunk 1 [0, 0, 9]).length by decide) (by decide) rfl
    exact ⟨htrim, hset, hne⟩

end Faithful

end AliasWallet
