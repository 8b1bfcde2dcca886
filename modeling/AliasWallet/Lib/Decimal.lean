import AliasWallet.Lib.Bytes
import Mathlib.Data.Nat.Digits.Lemmas

/-!
# Decimal numbers as texts

The characters `0` to `9`, the number that a text of them means, and the text of a number with or without leading zeros.
-/

namespace Lib

/-- `isdigit`. -/
def isDigit (c : UInt8) : Bool := decide (0x30 ≤ c) && decide (c ≤ 0x39)

/-- The value of a digit. -/
def digitValue (c : UInt8) : Nat := c.toNat - 0x30

/-- The digit of a value. -/
def digitChar (d : Nat) : UInt8 := UInt8.ofNat (0x30 + d)

/-- The number of a text. -/
def decimalValue (ds : Bytes) : Nat := Nat.ofDigits 10 (ds.map digitValue).reverse

/-- The text of a number. -/
def decimalText (n : Nat) : Bytes := if n = 0 then [0x30] else (Nat.digits 10 n).reverse.map digitChar

/-- With zeros in front up to the width. -/
def paddedText (width n : Nat) : Bytes :=
  List.replicate (width - (decimalText n).length) 0x30 ++ decimalText n

section Decimal

variable {c : UInt8} {ds es : Bytes} {d n width : Nat}

theorem isDigit_iff : isDigit c = true ↔ 0x30 ≤ c.toNat ∧ c.toNat ≤ 0x39 := by
  rw [isDigit, Bool.and_eq_true, decide_eq_true_eq, decide_eq_true_eq, UInt8.le_iff_toNat_le, UInt8.le_iff_toNat_le]
  rfl

theorem digitValue_lt (h : isDigit c = true) : digitValue c < 10 := by
  have hc := isDigit_iff.mp h
  rw [digitValue]
  omega

theorem toNat_digitChar (h : d < 10) : (digitChar d).toNat = 0x30 + d := by
  apply UInt8.toNat_ofNat_of_lt'
  show 0x30 + d < 256
  omega

theorem isDigit_digitChar (h : d < 10) : isDigit (digitChar d) = true := by
  rw [isDigit_iff, toNat_digitChar h]
  omega

theorem digitValue_digitChar (h : d < 10) : digitValue (digitChar d) = d := by
  rw [digitValue, toNat_digitChar h]
  omega

@[simp] theorem decimalValue_nil : decimalValue [] = 0 := rfl

theorem decimalValue_cons (c : UInt8) (ds : Bytes) :
    decimalValue (c :: ds) = digitValue c * 10 ^ ds.length + decimalValue ds := by
  rw [decimalValue, List.map_cons, List.reverse_cons, Nat.ofDigits_append, Nat.ofDigits_singleton, List.length_reverse,
    List.length_map, decimalValue]
  ring

theorem decimalValue_append (ds es : Bytes) :
    decimalValue (ds ++ es) = decimalValue ds * 10 ^ es.length + decimalValue es := by
  rw [decimalValue, List.map_append, List.reverse_append, Nat.ofDigits_append, List.length_reverse, List.length_map,
    decimalValue, decimalValue]
  ring

theorem decimalValue_zeros (k : Nat) : decimalValue (List.replicate k 0x30) = 0 := by
  induction k with
  | zero => rfl
  | succ k ih =>
    have hzero : digitValue 0x30 = 0 := rfl
    rw [List.replicate_succ, decimalValue_cons, ih, hzero, Nat.zero_mul]

theorem decimalValue_lt (h : ∀ c ∈ ds, isDigit c = true) : decimalValue ds < 10 ^ ds.length := by
  have hlt := Nat.ofDigits_lt_base_pow_length (b := 10) (l := (ds.map digitValue).reverse) (by decide) (by
    intro d hd
    obtain ⟨c, hc, rfl⟩ := List.mem_map.mp (List.mem_reverse.mp hd)
    exact digitValue_lt (h c hc))
  rw [List.length_reverse, List.length_map] at hlt
  exact hlt

theorem decimalText_isDigit (n : Nat) : ∀ c ∈ decimalText n, isDigit c = true := by
  intro c hc
  rw [decimalText] at hc
  split at hc
  · rw [List.mem_singleton.mp hc]
    decide
  · obtain ⟨d, hd, rfl⟩ := List.mem_map.mp hc
    exact isDigit_digitChar (Nat.digits_lt_base (by decide) (List.mem_reverse.mp hd))

/-- The text means the number. -/
theorem decimalValue_decimalText (n : Nat) : decimalValue (decimalText n) = n := by
  rw [decimalText]
  split
  · rename_i hn
    rw [hn]
    rfl
  · have hback : ((Nat.digits 10 n).reverse.map digitChar).map digitValue = (Nat.digits 10 n).reverse := by
      rw [List.map_map]
      have hid : (Nat.digits 10 n).reverse.map (digitValue ∘ digitChar) = (Nat.digits 10 n).reverse.map id :=
        List.map_congr_left fun d hd =>
          digitValue_digitChar (Nat.digits_lt_base (by decide) (List.mem_reverse.mp hd))
      rw [hid, List.map_id]
    rw [decimalValue, hback, List.reverse_reverse, Nat.ofDigits_digits]

theorem decimalText_length (hwidth : 0 < width) (h : n < 10 ^ width) : (decimalText n).length ≤ width := by
  rw [decimalText]
  split
  · exact hwidth
  · rw [List.length_map, List.length_reverse]
    exact (Nat.digits_length_le_iff (by decide) n).mpr h

theorem paddedText_isDigit (width n : Nat) : ∀ c ∈ paddedText width n, isDigit c = true := by
  intro c hc
  rw [paddedText, List.mem_append] at hc
  cases hc with
  | inl h =>
    rw [List.eq_of_mem_replicate h]
    decide
  | inr h => exact decimalText_isDigit n c h

theorem decimalValue_paddedText (width n : Nat) : decimalValue (paddedText width n) = n := by
  rw [paddedText, decimalValue_append, decimalValue_zeros, Nat.zero_mul, Nat.zero_add, decimalValue_decimalText]

theorem paddedText_length (hwidth : 0 < width) (h : n < 10 ^ width) : (paddedText width n).length = width := by
  have hlen := decimalText_length hwidth h
  rw [paddedText, List.length_append, List.length_replicate]
  omega

end Decimal

end Lib
