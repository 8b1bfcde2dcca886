import AliasWallet.Core.BaseTextSpec

/-!
# Base 64 and base 32: the two formats

Each case of the `switch` of an encoder or a decoder takes one number in and writes what is complete.
-/

namespace AliasWallet
open Lib

section Steps

variable {f : BaseText} {xs ys : List Nat} {vch : Bytes} {count left d x s : Nat}

theorem forall_byte {P : UInt8 → Prop} (h : ∀ n < 256, P (UInt8.ofNat n)) (c : UInt8) : P c := by
  have hc := h c.toNat c.toNat_lt
  rwa [UInt8.ofNat_toNat] at hc

theorem map_toNat_concat {y : Nat} (hy : y < 2 ^ 8) :
    (vch ++ [UInt8.ofNat y]).map UInt8.toNat = vch.map UInt8.toNat ++ [y] := by
  rw [List.map_append, List.map_singleton, UInt8.toNat_ofNat_of_lt' hy]

/-- A character comes in and a byte goes out. -/
theorem push_byte {w : Nat} (h : Regrouped w 8 xs (vch.map UInt8.toNat) count left) (hd : d < 2 ^ w) (hs : s ≤ w)
    (hcount : count + w = 8 + s) :
    Regrouped w 8 (xs ++ [d]) ((vch ++ [UInt8.ofNat (left <<< (w - s) ||| d >>> s)]).map UInt8.toNat) s
      (d &&& (2 ^ s - 1)) := by
  have hstep := h.step hd hs hcount
  rw [map_toNat_concat (hstep.small _ (by simp))]
  exact hstep

theorem BaseText.Encoding.at {mode l c : Nat} {str : Bytes} (h : f.Encoding xs ⟨mode, l, str⟩)
    (hc : f.carried mode = c) :
    ∃ ys left, Regrouped 8 f.width xs ys c left ∧ str = ys.map f.charOf ∧
      (mode ≠ 0 → l = left <<< (f.width - c)) := by
  rw [← hc]
  exact h.groups

theorem BaseText.Encoding.of_groups {mode l c : Nat} {str : Bytes} {zs : List Nat} (hmode : mode < f.encodeModes)
    (hc : f.carried mode = c) (hgroups : Regrouped 8 f.width xs (ys ++ zs) c left)
    (hstr : str = ys.map f.charOf ++ zs.map f.charOf) (hleft : mode ≠ 0 → l = left <<< (f.width - c)) :
    f.Encoding xs ⟨mode, l, str⟩ :=
  ⟨hmode, ys ++ zs, left, hc ▸ hgroups, hstr.trans List.map_append.symm, hc ▸ hleft⟩

theorem BaseText.Decoding.at {mode l c : Nat} (h : f.Decoding xs ⟨mode, l, vch⟩) (hc : f.waiting mode = c) :
    ∃ left, Regrouped f.width 8 xs (vch.map UInt8.toNat) c left ∧ (mode ≠ 0 → l = left) := by
  rw [← hc]
  exact h.groups

theorem BaseText.Decoding.of_groups {mode l c : Nat} (hmode : mode = xs.length % f.decodeModes)
    (hc : f.waiting mode = c) (hgroups : Regrouped f.width 8 xs (vch.map UInt8.toNat) c left)
    (hleft : mode ≠ 0 → l = left) : f.Decoding xs ⟨mode, l, vch⟩ :=
  ⟨hmode, left, hc ▸ hgroups, hleft⟩

end Steps

section Base64

variable {xs : List Nat} {x d : Nat}

theorem encode64Step_encoding {st : EncodeState} (h : base64.Encoding xs st) (hx : x < 2 ^ 8) :
    base64.Encoding (xs ++ [x]) (encode64Step st x) := by
  obtain ⟨mode, l, str⟩ := st
  have hlt : mode < 3 := h.mode_lt
  interval_cases mode
  · obtain ⟨ys, left, hgroups, rfl, -⟩ := h.at (show base64.carried 0 = 0 by decide)
    obtain rfl : left = 0 := Nat.lt_one_iff.mp hgroups.left_lt
    have hout : Regrouped 8 6 (xs ++ [x]) (ys ++ [0 <<< 6 ||| x >>> 2]) 2 (x &&& 3) :=
      hgroups.step (s := 2) hx (by decide) rfl
    rw [Nat.zero_shiftLeft, Nat.zero_or] at hout
    exact .of_groups (by decide) (show base64.carried 1 = 2 by decide) hout rfl fun _ => rfl
  · obtain ⟨ys, left, hgroups, rfl, hleft⟩ := h.at (show base64.carried 1 = 2 by decide)
    obtain rfl : l = left <<< 4 := hleft (by decide)
    have hout : Regrouped 8 6 (xs ++ [x]) (ys ++ [left <<< 4 ||| x >>> 4]) 4 (x &&& 15) :=
      hgroups.step (s := 4) hx (by decide) rfl
    exact .of_groups (by decide) (show base64.carried 2 = 4 by decide) hout rfl fun _ => rfl
  · obtain ⟨ys, left, hgroups, rfl, hleft⟩ := h.at (show base64.carried 2 = 4 by decide)
    obtain rfl : l = left <<< 2 := hleft (by decide)
    have hout : Regrouped 8 6 (xs ++ [x]) (ys ++ [left <<< 2 ||| x >>> 6] ++ [x &&& 63]) 0 (x &&& 0) :=
      (hgroups.step (s := 6) hx (by decide) rfl).again (t := 0)
    rw [List.append_assoc] at hout
    exact .of_groups (by decide) (show base64.carried 0 = 0 by decide) hout rfl fun hne => absurd rfl hne

theorem decode64Step_decoding {st : DecodeState} (h : base64.Decoding xs st) (hd : d < 2 ^ 6) :
    base64.Decoding (xs ++ [d]) (decode64Step st d) := by
  obtain ⟨mode, l, vch⟩ := st
  have hphase : mode = xs.length % 4 := h.mode_eq
  have hnext : (mode + 1) % 4 = (xs ++ [d]).length % 4 := by
    rw [List.length_append, List.length_singleton, hphase]
    omega
  have hlt : mode < 4 := by omega
  interval_cases mode
  · obtain ⟨left, hgroups, -⟩ := h.at (show base64.waiting 0 = 0 by decide)
    obtain rfl : left = 0 := Nat.lt_one_iff.mp hgroups.left_lt
    have hout : Regrouped 6 8 (xs ++ [d]) (vch.map UInt8.toNat) 6 (0 <<< 6 ||| d) := hgroups.wait hd
    rw [Nat.zero_shiftLeft, Nat.zero_or] at hout
    exact .of_groups hnext (show base64.waiting 1 = 6 by decide) hout fun _ => rfl
  · obtain ⟨left, hgroups, hleft⟩ := h.at (show base64.waiting 1 = 6 by decide)
    obtain rfl : l = left := hleft (by decide)
    exact .of_groups hnext (show base64.waiting 2 = 4 by decide) (push_byte (s := 4) hgroups hd (by decide) rfl)
      fun _ => rfl
  · obtain ⟨left, hgroups, hleft⟩ := h.at (show base64.waiting 2 = 4 by decide)
    obtain rfl : l = left := hleft (by decide)
    exact .of_groups hnext (show base64.waiting 3 = 2 by decide) (push_byte (s := 2) hgroups hd (by decide) rfl)
      fun _ => rfl
  · obtain ⟨left, hgroups, hleft⟩ := h.at (show base64.waiting 3 = 2 by decide)
    obtain rfl : l = left := hleft (by decide)
    exact .of_groups hnext (show base64.waiting 0 = 0 by decide) (push_byte (s := 0) hgroups hd (by decide) rfl)
      fun hne => absurd rfl hne

theorem base64_lawful : base64.Lawful id where
  width_pos := by decide
  width_lt := by decide
  table_zero := by decide +kernel
  table_pad := by decide +kernel
  table_charOf := by decide +kernel
  charOf_numberOf := by
    apply forall_byte
    decide +kernel
  encodeStep := encode64Step_encoding
  decodeStep := decode64Step_decoding
  encodeModes_pos := by decide
  decodeModes_pos := by decide
  carried_pos := by decide
  waiting_pos := by decide
  required_zero := rfl
  required_waiting := by decide
  nPadding_eq := by decide

end Base64

section Base32

variable {xs : List Nat} {x d : Nat}

theorem encode32Step_encoding {st : EncodeState} (h : base32.Encoding xs st) (hx : x < 2 ^ 8) :
    base32.Encoding (xs ++ [x]) (encode32Step st x) := by
  obtain ⟨mode, l, str⟩ := st
  have hlt : mode < 5 := h.mode_lt
  interval_cases mode
  · obtain ⟨ys, left, hgroups, rfl, -⟩ := h.at (show base32.carried 0 = 0 by decide)
    obtain rfl : left = 0 := Nat.lt_one_iff.mp hgroups.left_lt
    have hout : Regrouped 8 5 (xs ++ [x]) (ys ++ [0 <<< 5 ||| x >>> 3]) 3 (x &&& 7) :=
      hgroups.step (s := 3) hx (by decide) rfl
    rw [Nat.zero_shiftLeft, Nat.zero_or] at hout
    exact .of_groups (by decide) (show base32.carried 1 = 3 by decide) hout rfl fun _ => rfl
  · obtain ⟨ys, left, hgroups, rfl, hleft⟩ := h.at (show base32.carried 1 = 3 by decide)
    obtain rfl : l = left <<< 2 := hleft (by decide)
    have hout : Regrouped 8 5 (xs ++ [x]) (ys ++ [left <<< 2 ||| x >>> 6] ++ [x >>> 1 &&& 31]) 1 (x &&& 1) :=
      (hgroups.step (s := 6) hx (by decide) rfl).again (t := 1)
    rw [List.append_assoc] at hout
    exact .of_groups (by decide) (show base32.carried 2 = 1 by decide) hout rfl fun _ => rfl
  · obtain ⟨ys, left, hgroups, rfl, hleft⟩ := h.at (show base32.carried 2 = 1 by decide)
    obtain rfl : l = left <<< 4 := hleft (by decide)
    have hout : Regrouped 8 5 (xs ++ [x]) (ys ++ [left <<< 4 ||| x >>> 4]) 4 (x &&& 15) :=
      hgroups.step (s := 4) hx (by decide) rfl
    exact .of_groups (by decide) (show base32.carried 3 = 4 by decide) hout rfl fun _ => rfl
  · obtain ⟨ys, left, hgroups, rfl, hleft⟩ := h.at (show base32.carried 3 = 4 by decide)
    obtain rfl : l = left <<< 1 := hleft (by decide)
    have hout : Regrouped 8 5 (xs ++ [x]) (ys ++ [left <<< 1 ||| x >>> 7] ++ [x >>> 2 &&& 31]) 2 (x &&& 3) :=
      (hgroups.step (s := 7) hx (by decide) rfl).again (t := 2)
    rw [List.append_assoc] at hout
    exact .of_groups (by decide) (show base32.carried 4 = 2 by decide) hout rfl fun _ => rfl
  · obtain ⟨ys, left, hgroups, rfl, hleft⟩ := h.at (show base32.carried 4 = 2 by decide)
    obtain rfl : l = left <<< 3 := hleft (by decide)
    have hout : Regrouped 8 5 (xs ++ [x]) (ys ++ [left <<< 3 ||| x >>> 5] ++ [x &&& 31]) 0 (x &&& 0) :=
      (hgroups.step (s := 5) hx (by decide) rfl).again (t := 0)
    rw [List.append_assoc] at hout
    exact .of_groups (by decide) (show base32.carried 0 = 0 by decide) hout rfl fun hne => absurd rfl hne

theorem decode32Step_decoding {st : DecodeState} (h : base32.Decoding xs st) (hd : d < 2 ^ 5) :
    base32.Decoding (xs ++ [d]) (decode32Step st d) := by
  obtain ⟨mode, l, vch⟩ := st
  have hphase : mode = xs.length % 8 := h.mode_eq
  have hnext : (mode + 1) % 8 = (xs ++ [d]).length % 8 := by
    rw [List.length_append, List.length_singleton, hphase]
    omega
  have hlt : mode < 8 := by omega
  interval_cases mode
  · obtain ⟨left, hgroups, -⟩ := h.at (show base32.waiting 0 = 0 by decide)
    obtain rfl : left = 0 := Nat.lt_one_iff.mp hgroups.left_lt
    have hout : Regrouped 5 8 (xs ++ [d]) (vch.map UInt8.toNat) 5 (0 <<< 5 ||| d) := hgroups.wait hd
    rw [Nat.zero_shiftLeft, Nat.zero_or] at hout
    exact .of_groups hnext (show base32.waiting 1 = 5 by decide) hout fun _ => rfl
  · obtain ⟨left, hgroups, hleft⟩ := h.at (show base32.waiting 1 = 5 by decide)
    obtain rfl : l = left := hleft (by decide)
    exact .of_groups hnext (show base32.waiting 2 = 2 by decide) (push_byte (s := 2) hgroups hd (by decide) rfl)
      fun _ => rfl
  · obtain ⟨left, hgroups, hleft⟩ := h.at (show base32.waiting 2 = 2 by decide)
    obtain rfl : l = left := hleft (by decide)
    exact .of_groups hnext (show base32.waiting 3 = 7 by decide) (hgroups.wait hd) fun _ => rfl
  · obtain ⟨left, hgroups, hleft⟩ := h.at (show base32.waiting 3 = 7 by decide)
    obtain rfl : l = left := hleft (by decide)
    exact .of_groups hnext (show base32.waiting 4 = 4 by decide) (push_byte (s := 4) hgroups hd (by decide) rfl)
      fun _ => rfl
  · obtain ⟨left, hgroups, hleft⟩ := h.at (show base32.waiting 4 = 4 by decide)
    obtain rfl : l = left := hleft (by decide)
    exact .of_groups hnext (show base32.waiting 5 = 1 by decide) (push_byte (s := 1) hgroups hd (by decide) rfl)
      fun _ => rfl
  · obtain ⟨left, hgroups, hleft⟩ := h.at (show base32.waiting 5 = 1 by decide)
    obtain rfl : l = left := hleft (by decide)
    exact .of_groups hnext (show base32.waiting 6 = 6 by decide) (hgroups.wait hd) fun _ => rfl
  · obtain ⟨left, hgroups, hleft⟩ := h.at (show base32.waiting 6 = 6 by decide)
    obtain rfl : l = left := hleft (by decide)
    exact .of_groups hnext (show base32.waiting 7 = 3 by decide) (push_byte (s := 3) hgroups hd (by decide) rfl)
      fun _ => rfl
  · obtain ⟨left, hgroups, hleft⟩ := h.at (show base32.waiting 7 = 3 by decide)
    obtain rfl : l = left := hleft (by decide)
    exact .of_groups hnext (show base32.waiting 0 = 0 by decide) (push_byte (s := 0) hgroups hd (by decide) rfl)
      fun hne => absurd rfl hne

/-- The decoder takes capital letters for small ones. -/
theorem base32_lawful : base32.Lawful toLower where
  width_pos := by decide
  width_lt := by decide
  table_zero := by decide +kernel
  table_pad := by decide +kernel
  table_charOf := by decide +kernel
  charOf_numberOf := by
    apply forall_byte
    decide +kernel
  encodeStep := encode32Step_encoding
  decodeStep := decode32Step_decoding
  encodeModes_pos := by decide
  decodeModes_pos := by decide
  carried_pos := by decide
  waiting_pos := by decide
  required_zero := rfl
  required_waiting := by decide
  nPadding_eq := by decide

end Base32

/-- What is encoded is decoded again, no text is read behind its end, and what is decoded without a complaint is the
text of its bytes, up to the case of letters in base 32. -/
theorem baseText_roundTrip :
    (∀ (b : Bytes) (g : Bool), decodeBase64 (encodeBase64 b) (some g) = .ok (b, some false) ∧
      decodeBase32 (encodeBase32 b) (some g) = .ok (b, some false)) ∧
    ∀ p : Bytes, (0 : UInt8) ∉ p →
      (∀ pfInvalid, (∃ read, decodeBase64 p pfInvalid = .ok read) ∧ ∃ read, decodeBase32 p pfInvalid = .ok read) ∧
      (∀ (g : Bool) (vch : Bytes), decodeBase64 p (some g) = .ok (vch, some false) →
        encodeBase64 vch = base64.consumed p ++ base64.padding (base64.consumed p).length ∧
          base64.consumed p ++ base64.padding (base64.consumed p).length <+: p) ∧
      ∀ (g : Bool) (vch : Bytes), decodeBase32 p (some g) = .ok (vch, some false) →
        encodeBase32 vch = (base32.consumed p).map toLower ++ base32.padding (base32.consumed p).length ∧
          base32.consumed p ++ base32.padding (base32.consumed p).length <+: p := by
  constructor
  · intro b g
    exact ⟨base64_lawful.decode_encode b g, base32_lawful.decode_encode b g⟩
  · intro p _
    refine ⟨fun pfInvalid => ?_, fun g vch hdecode => ?_, fun g vch hdecode => base32_lawful.encode_decode hdecode⟩
    · obtain ⟨_, _, -, h64, -⟩ := base64_lawful.decode_eq p
      obtain ⟨_, _, -, h32, -⟩ := base32_lawful.decode_eq p
      exact ⟨⟨_, h64 pfInvalid⟩, ⟨_, h32 pfInvalid⟩⟩
    · have hencode := base64_lawful.encode_decode hdecode
      rwa [List.map_id] at hencode

/-- The texts `Zg==` and `MY======` of the one byte `f`. -/
theorem baseText_roundTrip_sample :
    (∃ read, decodeBase64 [0x5a, 0x67, 0x3d, 0x3d] none = .ok read) ∧
    encodeBase64 [0x66] = base64.consumed [0x5a, 0x67, 0x3d, 0x3d] ++
      base64.padding (base64.consumed [0x5a, 0x67, 0x3d, 0x3d]).length ∧
    encodeBase32 [0x66] = (base32.consumed [0x4d, 0x59, 0x3d, 0x3d, 0x3d, 0x3d, 0x3d, 0x3d]).map toLower ++
      base32.padding (base32.consumed [0x4d, 0x59, 0x3d, 0x3d, 0x3d, 0x3d, 0x3d, 0x3d]).length :=
  ⟨((baseText_roundTrip.2 _ (by decide)).1 none).1,
    ((baseText_roundTrip.2 [0x5a, 0x67, 0x3d, 0x3d] (by decide)).2.1 true [0x66] rfl).1,
    ((baseText_roundTrip.2 [0x4d, 0x59, 0x3d, 0x3d, 0x3d, 0x3d, 0x3d, 0x3d] (by decide)).2.2 true [0x66] rfl).1⟩

end AliasWallet
