import AliasWallet.Lib.Bytes
import Mathlib.Data.Nat.Bitwise
import Mathlib.Data.Set.Insert

/-!
# Bytes as a set of bits

The bit at an index is set and tested in the byte that holds it. What a byte string stands for is the set of the indices
whose bits are on.
-/

namespace Lib

/-- `1 << (7 & nIndex)`, as a byte. -/
def bitMask (nIndex : UInt32) : UInt8 := ((1 : UInt32) <<< (7 &&& nIndex)).toUInt8

/-- `v[nIndex >> 3] |= 1 << (7 & nIndex)`; `none` behind the end. -/
def setBit (v : Bytes) (nIndex : UInt32) : Option Bytes :=
  (v[(nIndex >>> 3).toNat]?).map fun b => v.set (nIndex >>> 3).toNat (b ||| bitMask nIndex)

/-- `v[nIndex >> 3] & (1 << (7 & nIndex))`; `none` behind the end. -/
def testBit (v : Bytes) (nIndex : UInt32) : Option Bool :=
  (v[(nIndex >>> 3).toNat]?).map fun b => b &&& bitMask nIndex != 0

/-- The indices of the bits that are on. -/
def onBits (v : Bytes) : Set Nat := {n | ∃ b, v[n / 8]? = some b ∧ b.toNat.testBit (n % 8) = true}

section BitSet

variable {v : Bytes} {nIndex : UInt32} {n : Nat}

theorem shift_toNat (nIndex : UInt32) : (nIndex >>> 3).toNat = nIndex.toNat / 8 := by
  rw [UInt32.toNat_shiftRight]
  exact Nat.shiftRight_eq_div_pow _ 3

theorem bitMask_toNat (nIndex : UInt32) : (bitMask nIndex).toNat = 2 ^ (nIndex.toNat % 8) := by
  have hall : ∀ j : Fin 8, (((1 : UInt32) <<< (UInt32.ofNat j.val)).toUInt8).toNat = 2 ^ j.val := by decide
  have hmod : (7 &&& nIndex).toNat = nIndex.toNat % 8 := by
    rw [UInt32.toNat_and, Nat.and_comm]
    exact Nat.and_two_pow_sub_one_eq_mod _ 3
  have hsmall : 7 &&& nIndex = UInt32.ofNat (nIndex.toNat % 8) := by
    rw [← hmod, UInt32.ofNat_toNat]
  rw [bitMask, hsmall]
  exact hall ⟨nIndex.toNat % 8, Nat.mod_lt _ (by decide)⟩

theorem testBit_eq (h : nIndex.toNat < 8 * v.length) :
    ∃ on, testBit v nIndex = some on ∧ (on = true ↔ nIndex.toNat ∈ onBits v) := by
  have hlt : nIndex.toNat / 8 < v.length := by omega
  have hget := List.getElem?_eq_getElem hlt
  refine ⟨v[nIndex.toNat / 8] &&& bitMask nIndex != 0, by rw [testBit, shift_toNat, hget]; rfl, ?_⟩
  have hand : (v[nIndex.toNat / 8] &&& bitMask nIndex).toNat =
      (v[nIndex.toNat / 8].toNat.testBit (nIndex.toNat % 8)).toNat * 2 ^ (nIndex.toNat % 8) := by
    rw [UInt8.toNat_and, bitMask_toNat, Nat.and_two_pow]
  rw [bne_iff_ne, ne_eq, ← UInt8.toNat_inj, hand, onBits]
  simp [hget]

theorem setBit_eq (h : nIndex.toNat < 8 * v.length) :
    ∃ v', setBit v nIndex = some v' ∧ v'.length = v.length ∧ onBits v' = insert nIndex.toNat (onBits v) := by
  have hlt : nIndex.toNat / 8 < v.length := by omega
  have hget := List.getElem?_eq_getElem hlt
  refine ⟨v.set (nIndex.toNat / 8) (v[nIndex.toNat / 8] ||| bitMask nIndex), by rw [setBit, shift_toNat, hget]; rfl,
    List.length_set, ?_⟩
  ext n
  rw [Set.mem_insert_iff]
  by_cases hbyte : nIndex.toNat / 8 = n / 8
  · have hsame : n = nIndex.toNat ↔ nIndex.toNat % 8 = n % 8 := by omega
    simp [onBits, ← hbyte, hlt, bitMask_toNat, Nat.testBit_two_pow, hsame, or_comm]
  · have hne : n ≠ nIndex.toNat := by
      intro heq
      exact hbyte (by rw [heq])
    simp [onBits, List.getElem?_set_ne hbyte, hne]

/-- Where every byte is full, every bit is on. -/
theorem mem_onBits_of_full (h : ∀ b ∈ v, b = 0xff) (hn : n < 8 * v.length) : n ∈ onBits v := by
  have hlt : n / 8 < v.length := by omega
  have hall : ∀ j : Fin 8, (0xff : UInt8).toNat.testBit j.val = true := by decide
  refine ⟨v[n / 8], List.getElem?_eq_getElem hlt, ?_⟩
  rw [h _ (List.getElem_mem hlt)]
  exact hall ⟨n % 8, Nat.mod_lt _ (by decide)⟩

theorem notMem_onBits_of_zero (h : ∀ b ∈ v, b = 0) : n ∉ onBits v := by
  intro hn
  obtain ⟨b, hb, hbit⟩ := hn
  rw [h b (List.mem_of_getElem? hb), UInt8.toNat_zero, Nat.zero_testBit] at hbit
  cases hbit

end BitSet

end Lib
