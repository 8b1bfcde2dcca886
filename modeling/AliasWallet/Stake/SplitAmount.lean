import AliasWallet.Stake.StakePayment

/-!
# Splitting an amount into denominations (`splitAmount`)

The loop multiplies `nTest` until it passes the value. It takes the decimal digits one by one, and what
each of them adds is exact.
-/

namespace AliasWallet
open Lib

section Loop

/-- The outputs of one round; the digit `i` is an `int`. -/
def splitRound (i nTest : Int64) : List Int64 := (splitDigit i.toInt.toNat).map fun j => Int64.ofNat j * nTest

/-- The `while` loop; `none` where it takes more rounds. -/
def splitLoop (nValue : Int64) : Nat → Int64 → List Int64 → Option (List Int64)
  | 0, _, _ => none
  | rounds + 1, nTest, vOut =>
    if nValue ≥ nTest then
      splitLoop nValue rounds (nTest * 10) (vOut ++ splitRound (nValue / nTest % 10) nTest)
    else some vOut

/-- `splitAmount` step by step, behind the outputs that are there. -/
def splitAmountSteps (rounds : Nat) (nValue : Int64) (vOut : List Int64) (maxAnonOutput : Int64) :
    Option (List Int64) :=
  splitLoop (nValue % maxAnonOutput) rounds 1
    (vOut ++ List.replicate (nValue / maxAnonOutput).toInt32.toInt.toNat maxAnonOutput)

/-- What the rounds from the digit `e` on append. -/
def splitFrom (e : Nat) (digits : List Nat) : List Nat :=
  (digits.mapIdx fun k i => (splitDigit i).map (· * 10 ^ (e + k))).flatten

theorem splitFrom_cons (e i : Nat) (digits : List Nat) :
    splitFrom e (i :: digits) = (splitDigit i).map (· * 10 ^ e) ++ splitFrom (e + 1) digits := by
  simp only [splitFrom, List.mapIdx_cons, List.flatten_cons, Nat.add_zero, Nat.add_assoc, Nat.add_comm 1]

theorem toInt_ofNat_small (n : Nat) (h : n ≤ 10 ^ 18) : (Int64.ofNat n).toInt = n := by
  apply Int64.toInt_ofNat_of_lt
  omega

theorem splitLoop_digits (v e : Nat) (hv : v < 10 ^ 18) (he : e ≤ 18) (vOut : List Int64) :
    splitLoop (Int64.ofNat v) ((Nat.digits 10 (v / 10 ^ e)).length + 1) (Int64.ofNat (10 ^ e)) vOut =
      some (vOut ++ (splitFrom e (Nat.digits 10 (v / 10 ^ e))).map Int64.ofNat) := by
  have htest : (Int64.ofNat (10 ^ e)).toInt = (10 ^ e : Nat) :=
    toInt_ofNat_small _ (Nat.pow_le_pow_right (by norm_num) he)
  have hvalue := toInt_ofNat_small v hv.le
  have hpos : 0 < 10 ^ e := Nat.pow_pos (by norm_num)
  generalize hdigits : Nat.digits 10 (v / 10 ^ e) = digits
  induction digits generalizing e vOut with
  | nil =>
    have hzero : v / 10 ^ e = 0 := Nat.digits_eq_nil_iff_eq_zero.mp hdigits
    have hlt : v < 10 ^ e := by
      rcases Nat.div_eq_zero_iff.mp hzero with h | h
      · omega
      · exact h
    rw [List.length_nil, Nat.zero_add, splitLoop, if_neg]
    · rw [splitFrom, List.mapIdx_nil, List.flatten_nil, List.map_nil, List.append_nil]
    · rw [ge_iff_le, Int64.le_iff_toInt_le, htest, hvalue]
      omega
  | cons i digits ih =>
    have hne : 0 < v / 10 ^ e := by
      rw [Nat.pos_iff_ne_zero]
      intro hzero
      rw [hzero, Nat.digits_zero] at hdigits
      cases hdigits
    have hle : 10 ^ e ≤ v := (Nat.div_pos_iff.mp hne).2
    have hexp : e + 1 ≤ 18 := by
      have hlt : 10 ^ e < 10 ^ 18 := lt_of_le_of_lt hle hv
      exact (Nat.pow_lt_pow_iff_right (by norm_num)).mp hlt
    rw [Nat.digits_def' (by norm_num) hne, List.cons.injEq, Nat.div_div_eq_div_mul, ← Nat.pow_succ] at hdigits
    obtain ⟨rfl, hdigits⟩ := hdigits
    have hself : v / 10 ^ e ≤ v := Nat.div_le_self v _
    have hten : (10 : Int64) = Int64.ofNat 10 := rfl
    have hquot : (Int64.ofNat v / Int64.ofNat (10 ^ e)).toInt = (v / 10 ^ e : Nat) := by
      rw [Int64.toInt_div, hvalue, htest, Int.tdiv_eq_ediv_of_nonneg (by omega), ← Int.natCast_ediv,
        Int.bmod_eq_of_le] <;> omega
    have hdigit : (Int64.ofNat v / Int64.ofNat (10 ^ e) % 10).toInt = (v / 10 ^ e % 10 : Nat) := by
      rw [Int64.toInt_mod, hquot, Int.tmod_eq_emod_of_nonneg (by omega)]
      rfl
    have hround : splitRound (Int64.ofNat v / Int64.ofNat (10 ^ e) % 10) (Int64.ofNat (10 ^ e)) =
        ((splitDigit (v / 10 ^ e % 10)).map (· * 10 ^ e)).map Int64.ofNat := by
      rw [splitRound, hdigit, Int.toNat_natCast, List.map_map]
      apply List.map_congr_left
      intro j _
      rw [Function.comp_apply, Int64.ofNat_mul]
    rw [List.length_cons, splitLoop, if_pos, hround, hten, ← Int64.ofNat_mul, ← Nat.pow_succ,
      ih (e + 1) hexp _ _ _ hdigits, splitFrom_cons, List.map_append, List.append_assoc]
    · exact toInt_ofNat_small _ (Nat.pow_le_pow_right (by norm_num) hexp)
    · exact Nat.pow_pos (by norm_num)
    · rw [ge_iff_le, Int64.le_iff_toInt_le, htest, hvalue]
      omega

end Loop

section Exact

theorem splitFrom_sum (digits : List Nat) (e : Nat) :
    (splitFrom e digits).sum = Nat.ofDigits 10 digits * 10 ^ e := by
  induction digits generalizing e with
  | nil => rw [splitFrom, List.mapIdx_nil, List.flatten_nil, List.sum_nil, Nat.ofDigits_nil, Nat.zero_mul]
  | cons i digits ih =>
    rw [splitFrom_cons, List.sum_append, sum_map_mul, splitDigit_sum, ih, Nat.ofDigits_cons, Nat.pow_succ]
    ring

/-- The digits of the denominations. -/
theorem splitDigit_mem (i j : Nat) (hi : i < 10) (h : j ∈ splitDigit i) : j ∈ [1, 3, 4, 5] := by
  revert j
  revert i
  decide

theorem splitFrom_mem (digits : List Nat) (hdigits : ∀ i ∈ digits, i < 10) (e n : Nat)
    (h : n ∈ splitFrom e digits) :
    ∃ d ∈ [1, 3, 4, 5], ∃ k < digits.length, n = d * 10 ^ (e + k) := by
  induction digits generalizing e with
  | nil =>
    rw [splitFrom, List.mapIdx_nil, List.flatten_nil] at h
    cases h
  | cons i digits ih =>
    rw [splitFrom_cons, List.mem_append, List.mem_map] at h
    rw [List.forall_mem_cons] at hdigits
    rcases h with ⟨d, hd, rfl⟩ | h
    · exact ⟨d, splitDigit_mem i d hdigits.1 hd, 0, Nat.succ_pos _, rfl⟩
    · obtain ⟨d, hd, k, hk, rfl⟩ := ih hdigits.2 (e + 1) h
      refine ⟨d, hd, k + 1, Nat.succ_lt_succ hk, ?_⟩
      rw [Nat.add_assoc, Nat.add_comm 1 k]

/-- A denomination below a power of ten. -/
theorem denomination_le (d k e : Nat) (hd : d ∈ [1, 3, 4, 5]) (h : e < k) : d * 10 ^ e ≤ 10 ^ k := by
  have hle : d ≤ 10 := by
    simp only [List.mem_cons, List.not_mem_nil, or_false] at hd
    omega
  calc d * 10 ^ e ≤ 10 * 10 ^ e := Nat.mul_le_mul_right _ hle
    _ = 10 ^ (e + 1) := by rw [Nat.pow_succ, Nat.mul_comm]
    _ ≤ 10 ^ k := Nat.pow_le_pow_right (by norm_num) h

/-- The loop ends, what is appended adds up to the amount, and it consists of denominations up to the
largest one. -/
theorem splitAmountSteps_exact (nValue : Int64) (k : Nat) (vOut : List Int64) (hk : k ≤ 18)
    (hvalue : 0 ≤ nValue) (hcount : nValue.toInt / 10 ^ k < 2 ^ 31) :
    ∃ rounds outs, splitAmountSteps rounds nValue vOut (Int64.ofNat (10 ^ k)) = some (vOut ++ outs) ∧
      (outs.map Int64.toInt).sum = nValue.toInt ∧
      ∀ nOut ∈ outs, (∃ d ∈ [1, 3, 4, 5], ∃ e : Nat, nOut.toInt = ((d * 10 ^ e : Nat) : Int)) ∧
        nOut.toInt ≤ 10 ^ k := by
  obtain ⟨n, hn⟩ := Int.eq_ofNat_of_zero_le (toInt_nonneg hvalue)
  have hpow : 10 ^ k ≤ 10 ^ 18 := Nat.pow_le_pow_right (by norm_num) hk
  have hpos : 0 < 10 ^ k := Nat.pow_pos (by norm_num)
  have hmax := toInt_ofNat_small (10 ^ k) hpow
  have hquot : n / 10 ^ k < 2 ^ 31 := by
    rw [hn] at hcount
    exact_mod_cast hcount
  have hlt := nValue.toInt_lt
  have hself : n / 10 ^ k ≤ n := Nat.div_le_self n _
  have hcountInt : (nValue / Int64.ofNat (10 ^ k)).toInt32.toInt = (n / 10 ^ k : Nat) := by
    rw [Int64.toInt_toInt32, Int64.toInt_div, hn, hmax, Int.tdiv_eq_ediv_of_nonneg (by omega),
      ← Int.natCast_ediv]
    generalize n / 10 ^ k = q at hquot
    rw [Int.bmod_eq_of_le (n := (q : Int)) (by omega) (by omega), Int.bmod_eq_of_le (by omega) (by omega)]
  have hrest : nValue % Int64.ofNat (10 ^ k) = Int64.ofNat (n % 10 ^ k) := by
    apply Int64.toInt_inj.mp
    have hmod : n % 10 ^ k < 10 ^ k := Nat.mod_lt _ hpos
    rw [Int64.toInt_mod, hn, hmax, Int.tmod_eq_emod_of_nonneg (by omega), ← Int.natCast_emod,
      toInt_ofNat_small _ (by omega)]
  have hmod : n % 10 ^ k < 10 ^ k := Nat.mod_lt _ hpos
  have hsteps := splitLoop_digits (n % 10 ^ k) 0 (by omega) (by omega)
    (vOut ++ List.replicate (n / 10 ^ k) (Int64.ofNat (10 ^ k)))
  rw [Nat.pow_zero, Nat.div_one] at hsteps
  have hmem := splitFrom_mem (Nat.digits 10 (n % 10 ^ k))
    (fun i hi => Nat.digits_lt_base (by norm_num) hi) 0
  have hsmall : ∀ m ∈ splitFrom 0 (Nat.digits 10 (n % 10 ^ k)), m ≤ 10 ^ k := by
    intro m hm
    obtain ⟨d, hd, e, he, rfl⟩ := hmem m hm
    have hlen : (Nat.digits 10 (n % 10 ^ k)).length ≤ k :=
      (Nat.digits_length_le_iff (by norm_num) _).mpr hmod
    exact denomination_le d k (0 + e) hd (by omega)
  refine ⟨(Nat.digits 10 (n % 10 ^ k)).length + 1, List.replicate (n / 10 ^ k) (Int64.ofNat (10 ^ k)) ++
    (splitFrom 0 (Nat.digits 10 (n % 10 ^ k))).map Int64.ofNat, ?_, ?_, ?_⟩
  · rw [splitAmountSteps, hcountInt, Int.toNat_natCast, hrest, ← List.append_assoc]
    exact hsteps
  · have hmap : ((splitFrom 0 (Nat.digits 10 (n % 10 ^ k))).map Int64.ofNat).map Int64.toInt =
        (splitFrom 0 (Nat.digits 10 (n % 10 ^ k))).map ((↑) : Nat → Int) := by
      rw [List.map_map]
      apply List.map_congr_left
      intro m hm
      exact toInt_ofNat_small m ((hsmall m hm).trans hpow)
    rw [List.map_append, List.sum_append, hmap, List.map_replicate, List.sum_replicate, hmax, nsmul_eq_mul,
      ← Nat.cast_list_sum, splitFrom_sum, Nat.ofDigits_digits, Nat.pow_zero, Nat.mul_one, hn]
    exact_mod_cast Nat.div_add_mod' n (10 ^ k)
  · intro nOut hout
    rcases List.mem_append.mp hout with hout | hout
    · rw [List.eq_of_mem_replicate hout, hmax]
      exact ⟨⟨1, List.mem_cons_self, k, by rw [Nat.one_mul]⟩, by exact_mod_cast le_rfl⟩
    · obtain ⟨m, hm, rfl⟩ := List.mem_map.mp hout
      obtain ⟨d, hd, e, -, hval⟩ := hmem m hm
      rw [toInt_ofNat_small m ((hsmall m hm).trans hpow)]
      exact ⟨⟨d, hd, 0 + e, by rw [hval]⟩, by exact_mod_cast hsmall m hm⟩

/-- 29 in outputs of at most 10. -/
theorem splitAmountSteps_twentyNine :
    ∃ rounds outs, splitAmountSteps rounds 29 [] (Int64.ofNat (10 ^ 1)) = some ([] ++ outs) ∧
      (outs.map Int64.toInt).sum = Int64.toInt 29 ∧
      ∀ nOut ∈ outs, (∃ d ∈ [1, 3, 4, 5], ∃ e : Nat, nOut.toInt = ((d * 10 ^ e : Nat) : Int)) ∧
        nOut.toInt ≤ 10 ^ 1 :=
  splitAmountSteps_exact 29 1 [] (by decide) (by decide) (by decide)

example : splitAmountSteps 3 29 [] 10 = some [10, 10, 5, 4] := by decide

end Exact

end AliasWallet
