import AliasWallet.Wallet.Mnemonic

/-!
# The bits of a mnemonic phrase

The loop of `MnemonicEncode` reads the bytes again in groups of eleven bits, and the loop of `MnemonicDecode` reads the
groups of eleven bits again as bytes.
-/

namespace AliasWallet
open Lib

section Bytes

variable {v : Bytes} {i k p s x : Nat}

/-- The bytes as numbers. -/
def byteValues (v : Bytes) : List Nat := v.map UInt8.toNat

@[simp] theorem byteValues_length : (byteValues v).length = v.length := by simp [byteValues]

theorem byteValues_lt (hx : x ∈ byteValues v) : x < 2 ^ 8 := by
  simp only [byteValues, List.mem_map] at hx
  obtain ⟨b, -, rfl⟩ := hx
  exact b.toNat_lt

theorem byteValues_injective : Function.Injective byteValues :=
  List.map_injective_iff.mpr fun _ _ h => UInt8.toNat_inj.mp h

theorem byteValues_ofNat {xs : List Nat} (hxs : ∀ x ∈ xs, x < 2 ^ 8) : byteValues (xs.map UInt8.ofNat) = xs := by
  rw [byteValues, List.map_map]
  conv_rhs => rw [← List.map_id xs]
  apply List.map_congr_left
  intro x hx
  exact UInt8.toNat_ofNat_of_lt' (hxs x hx)

/-- Two byte strings of one length with the same bits are equal. -/
theorem bytes_ext {w : Bytes} (hlen : v.length = w.length)
    (hbits : ∀ p < 8 * v.length, groupBit 8 (byteValues v) p = groupBit 8 (byteValues w) p) : v = w := by
  apply byteValues_injective
  apply groups_ext (w := 8) (by simp [hlen]) (fun x hx => byteValues_lt hx) (fun x hx => byteValues_lt hx)
  simpa using hbits

theorem byteValues_append (v w : Bytes) : byteValues (v ++ w) = byteValues v ++ byteValues w := List.map_append

theorem byteValues_take (n : Nat) : byteValues (v.take n) = (byteValues v).take n := List.map_take

theorem byteValues_drop (n : Nat) : byteValues (v.drop n) = (byteValues v).drop n := List.map_drop

/-- A bit of a byte string is a bit of one of its bytes. -/
theorem byteBit (hk : k < v.length) (t : Nat) (ht : t < 8) (hp : p = 8 * k + t) :
    groupBit 8 (byteValues v) p = v[k].toNat.testBit (7 - t) := by
  have hget : (byteValues v).getD k 0 = v[k].toNat := by
    rw [List.getD_eq_getElem _ _ (by simpa using hk)]
    simp [byteValues]
  rw [hp, groupBit_group k t ht, hget]

theorem byte_testBit (b : UInt8) (hx : 8 ≤ x) : b.toNat.testBit x = false :=
  Nat.testBit_lt_two_pow (b.toNat_lt.trans_le (Nat.pow_le_pow_right (by decide) hx))

end Bytes

section Encode

variable {vIn : Bytes} {i nBits : Nat}

/-- The eleven bits from bit `i` on as a number. -/
def windowWord (vIn : Bytes) (i : Nat) : Nat :=
  Nat.ofBits fun j : Fin 11 => groupBit 8 (byteValues vIn) (i + (11 - 1 - j))

theorem windowWord_testBit {j : Nat} (hj : j < 11) :
    (windowWord vIn i).testBit j = groupBit 8 (byteValues vIn) (i + (10 - j)) := Nat.testBit_ofBits_lt _ j hj

theorem windowWord_testBit_ge {j : Nat} (hj : ¬ j < 11) : (windowWord vIn i).testBit j = false :=
  Nat.testBit_ofBits_ge _ j (by omega)

/-- A window that ends in the second byte. -/
theorem wordAt_two (h : i + 11 ≤ 8 * vIn.length) (hr : ¬ i % 8 > 5) : wordAt vIn i = .ok (windowWord vIn i) := by
  have hs : i / 8 < vIn.length := by omega
  have hs1 : i / 8 + 1 < vIn.length := by omega
  have hff : (0xff : Nat) = 2 ^ 8 - 1 := rfl
  have h7ff : (0x7ff : Nat) = 2 ^ 11 - 1 := rfl
  rw [wordAt]
  simp only [List.getElem?_eq_getElem hs, List.getElem?_eq_getElem hs1]
  rw [if_neg hr]
  apply congrArg
  apply Nat.eq_of_testBit_eq
  intro j
  simp only [hff, h7ff, Nat.testBit_and, Nat.testBit_or, Nat.testBit_shiftLeft, Nat.testBit_shiftRight,
    Nat.testBit_two_pow_sub_one]
  by_cases hj : j < 11
  · rw [windowWord_testBit hj, decide_eq_true hj]
    by_cases h1 : i % 8 + (10 - j) < 8
    · have hindex : j - (11 - 8) - i % 8 = 7 - (i % 8 + (10 - j)) := by omega
      rw [byteBit hs _ h1 (by omega), decide_eq_true (by omega : j ≥ 11 - 8),
        decide_eq_true (by omega : j - (11 - 8) ≥ i % 8), decide_eq_true (by omega : j - (11 - 8) < 8),
        byte_testBit _ (by omega : 8 ≤ 8 - (11 - 8) - i % 8 + j), hindex]
      simp
    · have hindex : 8 - (11 - 8) - i % 8 + j = 7 - (i % 8 + (10 - j) - 8) := by omega
      rw [byteBit hs1 (i % 8 + (10 - j) - 8) (by omega) (by omega), hindex]
      by_cases h3 : j ≥ 11 - 8
      · rw [decide_eq_false (by omega : ¬ j - (11 - 8) ≥ i % 8)]
        simp
      · rw [decide_eq_false h3]
        simp
  · rw [windowWord_testBit_ge hj, decide_eq_false hj, Bool.and_false]

/-- A window that ends in the third byte. -/
theorem wordAt_three (h : i + 11 ≤ 8 * vIn.length) (hr : i % 8 > 5) : wordAt vIn i = .ok (windowWord vIn i) := by
  have hs : i / 8 < vIn.length := by omega
  have hs1 : i / 8 + 1 < vIn.length := by omega
  have hs2 : i / 8 + 2 < vIn.length := by omega
  have hff : (0xff : Nat) = 2 ^ 8 - 1 := rfl
  have h7ff : (0x7ff : Nat) = 2 ^ 11 - 1 := rfl
  rw [wordAt]
  simp only [List.getElem?_eq_getElem hs, List.getElem?_eq_getElem hs1]
  rw [if_pos hr]
  simp only [List.getElem?_eq_getElem hs2]
  apply congrArg
  apply Nat.eq_of_testBit_eq
  intro j
  simp only [hff, h7ff, Nat.testBit_and, Nat.testBit_or, Nat.testBit_shiftLeft, Nat.testBit_shiftRight,
    Nat.testBit_two_pow_sub_one]
  by_cases hj : j < 11
  · rw [windowWord_testBit hj, decide_eq_true hj]
    by_cases h1 : i % 8 + (10 - j) < 8
    · have hindex : j - (11 - 8) - i % 8 = 7 - (i % 8 + (10 - j)) := by omega
      rw [byteBit hs _ h1 (by omega), decide_eq_true (by omega : j ≥ 11 - 8),
        decide_eq_true (by omega : j - (11 - 8) ≥ i % 8), decide_eq_true (by omega : j - (11 - 8) < 8),
        byte_testBit _ (by omega : 8 ≤ j - (i % 8 - 5)), byte_testBit _ (by omega : 8 ≤ 8 - (i % 8 - 5) + j), hindex]
      simp
    · have hfirst : (decide (j ≥ 11 - 8) && decide (j - (11 - 8) ≥ i % 8)) = false := by
        rw [Bool.and_eq_false_iff, decide_eq_false_iff_not, decide_eq_false_iff_not]
        omega
      rw [← Bool.and_assoc, ← Bool.and_assoc, hfirst, Bool.false_and, Bool.false_and, Bool.false_or]
      by_cases h2 : i % 8 + (10 - j) < 16
      · have hindex : j - (i % 8 - 5) = 7 - (i % 8 + (10 - j) - 8) := by omega
        rw [byteBit hs1 (i % 8 + (10 - j) - 8) (by omega) (by omega), decide_eq_true (by omega : j ≥ i % 8 - 5),
          byte_testBit _ (by omega : 8 ≤ 8 - (i % 8 - 5) + j), hindex]
        simp
      · have hindex : 8 - (i % 8 - 5) + j = 7 - (i % 8 + (10 - j) - 16) := by omega
        rw [byteBit hs2 (i % 8 + (10 - j) - 16) (by omega) (by omega), decide_eq_false (by omega : ¬ j ≥ i % 8 - 5),
          hindex]
        simp
  · rw [windowWord_testBit_ge hj, decide_eq_false hj, Bool.and_false]

/-- A word takes the eleven bits from `i` on. -/
theorem wordAt_eq (h : i + 11 ≤ 8 * vIn.length) : wordAt vIn i = .ok (windowWord vIn i) := by
  by_cases hr : i % 8 > 5
  · exact wordAt_three h hr
  · exact wordAt_two h hr

/-- A window over the end of the bytes is a read outside of them. -/
theorem wordAt_outOfBounds (h : 8 * vIn.length < i + 11) : wordAt vIn i = .error .outOfBounds := by
  rw [wordAt]
  by_cases hs1 : i / 8 + 1 < vIn.length
  · have hs : i / 8 < vIn.length := by omega
    have hr : i % 8 > 5 := by omega
    simp only [List.getElem?_eq_getElem hs, List.getElem?_eq_getElem hs1]
    rw [if_pos hr, List.getElem?_eq_none (by omega)]
  · rw [List.getElem?_eq_none (by omega : vIn.length ≤ i / 8 + 1)]
    cases vIn[i / 8]? with
    | none => rfl
    | some b1 => rfl

/-- The loop of `MnemonicEncode` reads the bytes in groups of eleven bits. -/
theorem encodeWords_eq (h : 11 * ((nBits + 10) / 11) ≤ 8 * vIn.length) :
    encodeWords vIn nBits = .ok (regroup 8 11 ((nBits + 10) / 11) (byteValues vIn)) := by
  apply mapM_ok
  intro k hk
  rw [List.mem_range] at hk
  exact wordAt_eq (by omega)

/-- It reads outside of them where the last group is not within. -/
theorem encodeWords_outOfBounds (h : 8 * vIn.length < 11 * ((nBits + 10) / 11)) :
    encodeWords vIn nBits = .error .outOfBounds := by
  apply mapM_error
  · intro k hk
    by_cases hk : 8 * vIn.length < 11 * k + 11
    · exact Or.inl (wordAt_outOfBounds hk)
    · exact Or.inr ⟨_, wordAt_eq (by omega)⟩
  · apply Exists.intro ((nBits + 10) / 11 - 1)
    constructor
    · rw [List.mem_range]
      omega
    · exact wordAt_outOfBounds (by omega)

end Encode

section Decode

variable {v : Bytes} {i k n o p s x : Nat} {os : List Nat}

/-- The bits that `vEntropy[s] |= x` sets. -/
def byteMask (s x p : Nat) : Bool := decide (p / 8 = s) && x.testBit (7 - p % 8)

theorem orByte_eq (hs : s < v.length) (x : Nat) :
    ∃ v', orByte v s x = .ok v' ∧ v'.length = v.length ∧
      ∀ p, groupBit 8 (byteValues v') p = (groupBit 8 (byteValues v) p || byteMask s x p) := by
  apply Exists.intro (v.set s (UInt8.ofNat (v[s].toNat ||| x)))
  rw [orByte, List.getElem?_eq_getElem hs]
  have hlen : (v.set s (UInt8.ofNat (v[s].toNat ||| x))).length = v.length := List.length_set
  apply And.intro rfl
  apply And.intro hlen
  intro p
  have hmod : p % 8 < 8 := Nat.mod_lt p (by decide)
  have hp : p = 8 * (p / 8) + p % 8 := (Nat.div_add_mod p 8).symm
  by_cases hlt : p / 8 < v.length
  · rw [byteBit (by rw [hlen]; exact hlt) _ hmod hp, byteBit hlt _ hmod hp]
    by_cases heq : p / 8 = s
    · subst heq
      have hbit : (UInt8.ofNat (v[p / 8].toNat ||| x)).toNat.testBit (7 - p % 8) =
          (v[p / 8].toNat ||| x).testBit (7 - p % 8) := by
        rw [UInt8.toNat_ofNat', Nat.testBit_mod_two_pow, decide_eq_true (by omega : 7 - p % 8 < 8), Bool.true_and]
      rw [List.getElem_set_self, hbit, Nat.testBit_or, byteMask, decide_eq_true rfl, Bool.true_and]
    · rw [List.getElem_set_ne (fun h => heq h.symm), byteMask, decide_eq_false heq, Bool.false_and, Bool.or_false]
  · have hout : ∀ u : Bytes, u.length = v.length → groupBit 8 (byteValues u) p = false := by
      intro u hu
      exact groupBit_of_le (by decide) (by rw [byteValues_length, hu]; omega)
    rw [hout _ hlen, hout v rfl, byteMask, decide_eq_false (by omega : ¬ p / 8 = s)]
    rfl

/-- The bits of word `o` that starts at bit `i`. -/
def wordMask (i o p : Nat) : Bool := decide (i ≤ p ∧ p < i + 11) && o.testBit (10 - (p - i))

theorem shiftRight_mask_testBit (o a j : Nat) (hj : j < 11) : ((o >>> a) &&& 0x7ff).testBit j = o.testBit (a + j) := by
  rw [show (0x7ff : Nat) = 2 ^ 11 - 1 from rfl, Nat.testBit_and, Nat.testBit_shiftRight, Nat.testBit_two_pow_sub_one,
    decide_eq_true hj, Bool.and_true]

theorem shiftLeft_mask_testBit (o a j : Nat) (hj : j < 11) :
    ((o <<< a) &&& 0x7ff).testBit j = (decide (j ≥ a) && o.testBit (j - a)) := by
  rw [show (0x7ff : Nat) = 2 ^ 11 - 1 from rfl, Nat.testBit_and, Nat.testBit_shiftLeft, Nat.testBit_two_pow_sub_one,
    decide_eq_true hj, Bool.and_true]

/-- The part of a word in the byte where it starts. -/
theorem byteMask_first (ho : o < 2 ^ 11) (hp : p / 8 = i / 8) :
    byteMask (i / 8) ((o >>> (i % 8 + 3)) &&& 0x7ff) p = wordMask i o p := by
  rw [byteMask, wordMask, decide_eq_true hp, Bool.true_and, shiftRight_mask_testBit _ _ _ (by omega)]
  by_cases hlt : i ≤ p
  · rw [decide_eq_true (by omega : i ≤ p ∧ p < i + 11), Bool.true_and]
    congr 1
    omega
  · rw [decide_eq_false (by omega), Bool.false_and]
    exact Nat.testBit_lt_two_pow (ho.trans_le (Nat.pow_le_pow_right (by decide) (by omega)))

/-- The part of a word in the next byte, which is the last one it reaches. -/
theorem byteMask_last (hr : ¬ i % 8 > 5) (hp : p / 8 = i / 8 + 1) :
    byteMask (i / 8 + 1) ((o <<< (5 - i % 8)) &&& 0x7ff) p = wordMask i o p := by
  rw [byteMask, wordMask, decide_eq_true hp, Bool.true_and, shiftLeft_mask_testBit _ _ _ (by omega)]
  by_cases hlt : p < i + 11
  · rw [decide_eq_true (by omega : 7 - p % 8 ≥ 5 - i % 8), decide_eq_true (by omega : i ≤ p ∧ p < i + 11)]
    congr 2
    omega
  · rw [decide_eq_false (by omega : ¬ 7 - p % 8 ≥ 5 - i % 8), decide_eq_false (by omega), Bool.false_and,
      Bool.false_and]

theorem byteMask_second (hr : i % 8 > 5) (hp : p / 8 = i / 8 + 1) :
    byteMask (i / 8 + 1) ((o >>> (i % 8 - 5)) &&& 0x7ff) p = wordMask i o p := by
  rw [byteMask, wordMask, decide_eq_true hp, Bool.true_and, shiftRight_mask_testBit _ _ _ (by omega),
    decide_eq_true (by omega : i ≤ p ∧ p < i + 11), Bool.true_and]
  congr 1
  omega

theorem byteMask_third (hr : i % 8 > 5) (hp : p / 8 = i / 8 + 2) :
    byteMask (i / 8 + 2) ((o <<< (8 - (i % 8 - 5))) &&& 0x7ff) p = wordMask i o p := by
  rw [byteMask, wordMask, decide_eq_true hp, Bool.true_and, shiftLeft_mask_testBit _ _ _ (by omega)]
  by_cases hlt : p < i + 11
  · rw [decide_eq_true (by omega : 7 - p % 8 ≥ 8 - (i % 8 - 5)), decide_eq_true (by omega : i ≤ p ∧ p < i + 11)]
    congr 2
    omega
  · rw [decide_eq_false (by omega : ¬ 7 - p % 8 ≥ 8 - (i % 8 - 5)), decide_eq_false (by omega), Bool.false_and,
      Bool.false_and]

theorem byteMask_ne (hp : ¬ p / 8 = s) : byteMask s x p = false := by
  rw [byteMask, decide_eq_false hp, Bool.false_and]

theorem wordMask_ne (hp : ¬ (i ≤ p ∧ p < i + 11)) : wordMask i o p = false := by
  rw [wordMask, decide_eq_false hp, Bool.false_and]

/-- A round of the loop of `MnemonicDecode` adds the bits of its word. -/
theorem orWord_eq (h : i + 11 ≤ 8 * v.length) (ho : o < 2 ^ 11) :
    ∃ v', orWord v i o = .ok v' ∧ v'.length = v.length ∧
      ∀ p, groupBit 8 (byteValues v') p = (groupBit 8 (byteValues v) p || wordMask i o p) := by
  obtain ⟨v1, hv1, hlen1, hbits1⟩ := orByte_eq (by omega : i / 8 < v.length) ((o >>> (i % 8 + 3)) &&& 0x7ff)
  have hs1 : i / 8 + 1 < v.length := by omega
  by_cases hr : i % 8 > 5
  · have hs2 : i / 8 + 2 < v.length := by omega
    obtain ⟨v2, hv2, hlen2, hbits2⟩ :=
      orByte_eq (by omega : i / 8 + 1 < v1.length) ((o >>> (i % 8 - 5)) &&& 0x7ff)
    obtain ⟨v3, hv3, hlen3, hbits3⟩ :=
      orByte_eq (by omega : i / 8 + 2 < v2.length) ((o <<< (8 - (i % 8 - 5))) &&& 0x7ff)
    apply Exists.intro v3
    constructor
    · simp only [orWord, hv1, ok_bind, if_pos hs1, if_pos hr, hv2, if_pos hs2, hv3]
    constructor
    · rw [hlen3, hlen2, hlen1]
    intro p
    rw [hbits3, hbits2, hbits1, Bool.or_assoc, Bool.or_assoc]
    congr 1
    by_cases h1 : p / 8 = i / 8
    · rw [byteMask_first ho h1, byteMask_ne (by omega), byteMask_ne (by omega), Bool.or_false, Bool.or_false]
    · rw [byteMask_ne h1, Bool.false_or]
      by_cases h2 : p / 8 = i / 8 + 1
      · rw [byteMask_second hr h2, byteMask_ne (by omega), Bool.or_false]
      · rw [byteMask_ne h2, Bool.false_or]
        by_cases h3 : p / 8 = i / 8 + 2
        · rw [byteMask_third hr h3]
        · rw [byteMask_ne h3, wordMask_ne (by omega)]
  · obtain ⟨v2, hv2, hlen2, hbits2⟩ :=
      orByte_eq (by omega : i / 8 + 1 < v1.length) ((o <<< (5 - i % 8)) &&& 0x7ff)
    apply Exists.intro v2
    constructor
    · simp only [orWord, hv1, ok_bind, if_pos hs1, if_neg hr, hv2]
    constructor
    · rw [hlen2, hlen1]
    intro p
    rw [hbits2, hbits1, Bool.or_assoc]
    congr 1
    by_cases h1 : p / 8 = i / 8
    · rw [byteMask_first ho h1, byteMask_ne (by omega), Bool.or_false]
    · rw [byteMask_ne h1, Bool.false_or]
      by_cases h2 : p / 8 = i / 8 + 1
      · rw [byteMask_last hr h2]
      · rw [byteMask_ne h2, wordMask_ne (by omega)]

/-- The rest of the loop adds the bits of the words that are left. -/
theorem packWords_eq (h : 11 * (k + os.length) ≤ 8 * v.length) (hos : ∀ o ∈ os, o < 2 ^ 11) :
    ∃ v', packWords os (11 * k) v = .ok v' ∧ v'.length = v.length ∧
      ∀ p, groupBit 8 (byteValues v') p =
        (groupBit 8 (byteValues v) p || (decide (11 * k ≤ p) && groupBit 11 os (p - 11 * k))) := by
  induction os generalizing k v with
  | nil =>
    apply Exists.intro v
    apply And.intro rfl
    apply And.intro rfl
    intro p
    have hnil : groupBit 11 [] (p - 11 * k) = false := groupBit_of_le (by decide) (Nat.zero_le _)
    rw [hnil, Bool.and_false, Bool.or_false]
  | cons o os ih =>
    rw [List.length_cons] at h
    obtain ⟨v1, hv1, hlen1, hbits1⟩ := orWord_eq (by omega : 11 * k + 11 ≤ 8 * v.length) (hos o List.mem_cons_self)
    obtain ⟨v2, hv2, hlen2, hbits2⟩ := ih (k := k + 1) (v := v1) (by rw [hlen1]; omega)
      fun o ho => hos o (List.mem_cons_of_mem _ ho)
    apply Exists.intro v2
    constructor
    · rw [packWords, hv1, ok_bind]
      exact hv2
    constructor
    · rw [hlen2, hlen1]
    intro p
    rw [hbits2, hbits1, Bool.or_assoc]
    congr 1
    by_cases hlow : 11 * k ≤ p
    · obtain ⟨q, rfl⟩ := Nat.exists_eq_add_of_le hlow
      rw [decide_eq_true hlow, Bool.true_and, Nat.add_sub_cancel_left]
      by_cases hq : q < 11
      · have hbit : groupBit 11 (o :: os) q = o.testBit (10 - q) := by
          have h : groupBit 11 (o :: os) (11 * 0 + q) = _ := groupBit_group 0 q hq
          simpa using h
        rw [hbit, wordMask, decide_eq_true (by omega), Bool.true_and, Nat.add_sub_cancel_left,
          decide_eq_false (by omega : ¬ 11 * (k + 1) ≤ 11 * k + q), Bool.false_and, Bool.or_false]
      · obtain ⟨q, rfl⟩ := Nat.exists_eq_add_of_le (Nat.le_of_not_lt hq)
        have hbit : groupBit 11 (o :: os) (11 + q) = groupBit 11 os q :=
          @groupBit_append_right 11 [o] os (by decide) q
        rw [hbit, wordMask_ne (by omega), Bool.false_or, decide_eq_true (by omega), Bool.true_and]
        congr 1
        omega
    · rw [decide_eq_false hlow, wordMask_ne (by omega), decide_eq_false (by omega : ¬ 11 * (k + 1) ≤ p)]
      rfl

/-- The bytes that the words are packed into. -/
def packedBytes (os : List Nat) : Bytes := (regroup 11 8 (bytesFor (os.length * 11)) os).map UInt8.ofNat

@[simp] theorem packedBytes_length : (packedBytes os).length = bytesFor (os.length * 11) := by simp [packedBytes]

theorem byteValues_packedBytes : byteValues (packedBytes os) = regroup 11 8 (bytesFor (os.length * 11)) os :=
  byteValues_ofNat fun _ hx => regroup_lt hx

theorem bytesFor_le (n : Nat) : n ≤ 8 * bytesFor n := by
  rw [bytesFor]
  split <;> omega

theorem groupBit_packedBytes (os : List Nat) (p : Nat) :
    groupBit 8 (byteValues (packedBytes os)) p = groupBit 11 os p := by
  by_cases hp : p < 8 * bytesFor (os.length * 11)
  · rw [byteValues_packedBytes, groupBit_regroup (by decide) hp]
  · have hle := bytesFor_le (os.length * 11)
    rw [groupBit_of_le (by decide) (by rw [byteValues_length, packedBytes_length]; omega),
      groupBit_of_le (by decide) (by omega)]

theorem groupBit_zeros (n p : Nat) : groupBit 8 (byteValues (List.replicate n 0)) p = false := by
  have hget : (byteValues (List.replicate n 0)).getD (p / 8) 0 = 0 := by
    rw [byteValues, List.map_replicate, List.getD_eq_getElem?_getD, List.getElem?_replicate]
    split <;> rfl
  rw [groupBit, hget, Nat.zero_testBit]

/-- The loop of `MnemonicDecode` reads the words as bytes. -/
theorem packWords_packedBytes (hos : ∀ o ∈ os, o < 2 ^ 11) :
    packWords os 0 (List.replicate (bytesFor (os.length * 11)) 0) = .ok (packedBytes os) := by
  have hle := bytesFor_le (os.length * 11)
  obtain ⟨v', hv', hlen, hbits⟩ := packWords_eq (k := 0)
    (v := List.replicate (bytesFor (os.length * 11)) 0) (by rw [List.length_replicate]; omega) hos
  rw [hv']
  apply congrArg
  rw [List.length_replicate] at hlen
  apply bytes_ext (by rw [hlen, packedBytes_length])
  intro p hp
  rw [hbits, groupBit_packedBytes, groupBit_zeros]
  simp

end Decode

end AliasWallet
