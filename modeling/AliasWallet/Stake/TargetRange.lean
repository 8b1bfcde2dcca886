import AliasWallet.Stake.Difficulty
import Mathlib.Data.Nat.Size

/-!
# The range of a new target

A target is limited before it is written in the compact form, and the compact form only rounds it down. Its
mantissa keeps the sign bit free.
-/

namespace AliasWallet
open Lib

section Compact

/-- The number lies below the sign bit of its mpi. -/
theorem lt_sign (n : Nat) : n < 2 ^ (8 * (n.size / 8 + 1) - 1) := by
  apply lt_of_lt_of_le (Nat.lt_size_self n)
  apply Nat.pow_le_pow_right (by norm_num)
  omega

/-- The mantissa keeps the top bit free. -/
theorem mantissa_lt (n : Nat) :
    (if n.size / 8 + 1 ≥ 3 then n / 256 ^ (n.size / 8 + 1 - 3) else n * 256 ^ (3 - (n.size / 8 + 1))) <
      2 ^ 23 := by
  have hlt := lt_sign n
  generalize n.size / 8 + 1 = nSize at hlt
  split
  · next hlong =>
    apply Nat.div_lt_of_lt_mul
    have hpow : 256 ^ (nSize - 3) * 2 ^ 23 = 2 ^ (8 * nSize - 1) := by
      rw [show 256 = 2 ^ 8 from rfl, ← Nat.pow_mul, ← Nat.pow_add]
      congr 1
      omega
    rwa [hpow]
  · next hshort =>
    rcases Nat.eq_zero_or_pos nSize with rfl | hpos
    · obtain rfl : n = 0 := by simpa using hlt
      norm_num
    · have hpow : 2 ^ 23 = 2 ^ (8 * nSize - 1) * 256 ^ (3 - nSize) := by
        rw [show 256 = 2 ^ 8 from rfl, ← Nat.pow_mul, ← Nat.pow_add]
        congr 1
        omega
      rw [hpow]
      exact Nat.mul_lt_mul_of_pos_right hlt (Nat.pow_pos (by norm_num))

/-- A compact form with a free sign bit decodes to its mantissa, shifted to its size. -/
theorem setCompact_pack (nSize word : Nat) (hpos : 0 < nSize) (hmax : nSize ≤ 255) (hword : word < 2 ^ 23) :
    setCompact (nSize * 2 ^ 24 + word).toUInt32 =
      ((if nSize ≥ 3 then word * 256 ^ (nSize - 3) else word / 256 ^ (3 - nSize) : Nat) : Int) := by
  have hfits : nSize * 2 ^ 24 + word < 2 ^ 32 := by omega
  have hnat : (nSize * 2 ^ 24 + word).toUInt32.toNat = nSize * 2 ^ 24 + word :=
    UInt32.toNat_ofNat_of_lt' hfits
  have hquot : (nSize * 2 ^ 24 + word) / 2 ^ 24 = nSize := by omega
  have hrest : (nSize * 2 ^ 24 + word) % 2 ^ 24 = word := by omega
  have hsign : (if nSize ≥ 3 then word * 256 ^ (nSize - 3) else word / 256 ^ (3 - nSize)) <
      2 ^ (8 * nSize - 1) := by
    split
    · have hpow : 2 ^ (8 * nSize - 1) = 2 ^ 23 * 256 ^ (nSize - 3) := by
        rw [show 256 = 2 ^ 8 from rfl, ← Nat.pow_mul, ← Nat.pow_add]
        congr 1
        omega
      rw [hpow]
      exact Nat.mul_lt_mul_of_pos_right hword (Nat.pow_pos (by norm_num))
    · apply Nat.div_lt_of_lt_mul
      have hpow : 256 ^ (3 - nSize) * 2 ^ (8 * nSize - 1) = 2 ^ 23 := by
        rw [show 256 = 2 ^ 8 from rfl, ← Nat.pow_mul, ← Nat.pow_add]
        congr 1
        omega
      rwa [hpow]
  rw [setCompact, hnat, hquot, hrest, if_neg (by omega), if_neg (not_le.mpr hsign)]

/-- The compact form of a number of at most 256 bits decodes to a positive number that is not larger. -/
theorem setCompact_getCompact (n : Nat) (hpos : 0 < n) (hlt : n < 2 ^ 256) :
    0 < setCompact (getCompact n) ∧ setCompact (getCompact n) ≤ n := by
  have hsize : n.size ≤ 256 := Nat.size_le.mpr hlt
  have hsizePos : 0 < n.size := Nat.size_pos.mpr hpos
  have hlow : 2 ^ (n.size - 1) ≤ n := Nat.lt_size.mp (by omega)
  have hpack := setCompact_pack (n.size / 8 + 1) _ (by omega) (by omega) (mantissa_lt n)
  rw [getCompact, if_neg hpos.ne', hpack]
  have hbig : 8 * (n.size / 8 + 1) - 9 ≤ n.size - 1 := by omega
  generalize n.size / 8 + 1 = nSize at hbig ⊢
  rcases Nat.lt_or_ge nSize 3 with hshort | hlong
  · rw [if_neg (by omega), if_neg (by omega), Nat.mul_div_cancel _ (Nat.pow_pos (by norm_num))]
    exact ⟨by exact_mod_cast hpos, le_rfl⟩
  · rw [if_pos hlong, if_pos hlong]
    have hle := Nat.div_mul_le_self n (256 ^ (nSize - 3))
    have hone : 256 ^ (nSize - 3) ≤ n := by
      refine le_trans ?_ hlow
      rw [show 256 = 2 ^ 8 from rfl, ← Nat.pow_mul]
      exact Nat.pow_le_pow_right (by norm_num) (by omega)
    have hword : 0 < n / 256 ^ (nSize - 3) := Nat.div_pos hone (Nat.pow_pos (by norm_num))
    have hprod := Nat.mul_pos hword (Nat.pow_pos (a := 256) (n := nSize - 3) (by norm_num))
    exact ⟨by exact_mod_cast hprod, by exact_mod_cast hle⟩

end Compact

section Range

theorem retarget_range (bnTargetLimit : Nat) (hlimit : 0 < bnTargetLimit) (nBits : UInt32)
    (nTargetSpacing nActualSpacing : Int) :
    0 < retarget bnTargetLimit nBits nTargetSpacing nActualSpacing ∧
      retarget bnTargetLimit nBits nTargetSpacing nActualSpacing ≤ bnTargetLimit := by
  unfold retarget
  dsimp only
  split
  · exact ⟨hlimit, le_rfl⟩
  · omega

/-- The networks of the node. -/
def stakeNetworks : List StakeParams := [mainStakeParams, testNetStakeParams, regTestStakeParams]

theorem targetLimit_range (p : StakeParams) (hp : p ∈ stakeNetworks) (e : IndexEntry) (pprev : IndexPtr)
    (fProofOfStake : Bool) :
    ∃ bnTargetLimit, targetLimit p (e :: pprev) fProofOfStake = some bnTargetLimit ∧ 0 < bnTargetLimit ∧
      bnTargetLimit < 2 ^ 256 := by
  have hlimits : ∀ p ∈ stakeNetworks, (0 < p.bnProofOfWorkLimit ∧ p.bnProofOfWorkLimit < 2 ^ 256) ∧
      (0 < p.bnProofOfStakeLimit ∧ p.bnProofOfStakeLimit < 2 ^ 256) ∧
      (0 < p.bnProofOfStakeLimitV2 ∧ p.bnProofOfStakeLimitV2 < 2 ^ 256) := by
    simp only [stakeNetworks, List.forall_mem_cons, mainStakeParams, testNetStakeParams, regTestStakeParams,
      mainParams, testNetParams, regTestParams]
    norm_num
  obtain ⟨hwork, hstake, hstakeV2⟩ := hlimits p hp
  cases fProofOfStake with
  | false => exact ⟨_, rfl, hwork⟩
  | true =>
    refine ⟨p.proofOfStakeLimit e.nHeight, rfl, ?_⟩
    unfold StakeParams.proofOfStakeLimit
    split
    · exact hstakeV2
    · exact hstake

/-- The next target of every chain decodes to a positive number within the limit. -/
theorem getNextTargetRequired_range (p : StakeParams) (hp : p ∈ stakeNetworks) (pindexLast : IndexPtr)
    (hne : pindexLast ≠ []) (fProofOfStake : Bool) :
    ∃ bnTargetLimit nBits, targetLimit p pindexLast fProofOfStake = some bnTargetLimit ∧
      getNextTargetRequired p pindexLast fProofOfStake = some nBits ∧ 0 < setCompact nBits ∧
      setCompact nBits ≤ bnTargetLimit := by
  obtain ⟨e, pprev, rfl⟩ := List.exists_cons_of_ne_nil hne
  obtain ⟨bnTargetLimit, hlimit, hpos, hlt⟩ := targetLimit_range p hp e pprev fProofOfStake
  refine ⟨bnTargetLimit, ?_⟩
  rw [getNextTargetRequired_eq, hlimit, Option.bind_some]
  refine ⟨_, rfl, rfl, ?_⟩
  split
  · next last prev prevPrev _ =>
    have hrange := retarget_range bnTargetLimit hpos prev.nBits
      (getTargetSpacing p last.nHeight last.getBlockTime)
      (clampedSpacing p last (actualSpacing p last prev prevPrev))
    have hcompact := setCompact_getCompact _ hrange.1 (lt_of_le_of_lt hrange.2 hlt)
    exact ⟨hcompact.1, hcompact.2.trans (by exact_mod_cast hrange.2)⟩
  · exact setCompact_getCompact bnTargetLimit hpos hlt

/-- Three blocks of work in regular steps. -/
theorem steadyBlock_range :
    ∃ bnTargetLimit nBits, targetLimit regTestStakeParams (workChain 96) false = some bnTargetLimit ∧
      getNextTargetRequired regTestStakeParams (workChain 96) false = some nBits ∧ 0 < setCompact nBits ∧
      setCompact nBits ≤ bnTargetLimit :=
  getNextTargetRequired_range regTestStakeParams (by simp [stakeNetworks]) (workChain 96)
    (List.cons_ne_nil _ _) false

end Range

end AliasWallet
