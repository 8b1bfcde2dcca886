import AliasWallet.Lib.Limbs
import Mathlib.Data.List.Induction

/-!
# The numbers of `uint256.h`

`base_uint<BITS>` works word by word, with a carry in 64 bits, a loop that stops at the first word that does not
overflow, and shifts that put two parts into every word. Everywhere else a `uint256` is a `BitVec 256`; here the
operators are compared with those of bit vectors.
-/

namespace AliasWallet
open Lib

/-- `base_uint<BITS>`, where `WIDTH` is the number of words. -/
structure BaseUint (WIDTH : Nat) where
  pn : List UInt32
  size : pn.length = WIDTH

namespace BaseUint

section Loops

/-- The loop of `operator+=`. -/
def addLoop : UInt64 → List UInt32 → List UInt32 → List UInt32
  | carry, x :: xs, y :: ys =>
    let n := carry + x.toUInt64 + y.toUInt64
    (n &&& 0xffffffff).toUInt32 :: addLoop (n >>> 32) xs ys
  | _, _, _ => []

/-- The loop of `operator++`, which goes on as long as a word becomes zero. -/
def incLoop : List UInt32 → List UInt32
  | [] => []
  | x :: xs => if x + 1 = 0 then (x + 1) :: incLoop xs else (x + 1) :: xs

/-- The loop of `operator--`. -/
def decLoop : List UInt32 → List UInt32
  | [] => []
  | x :: xs => if x - 1 = 0xffffffff then (x - 1) :: decLoop xs else (x - 1) :: xs

/-- The loops of the comparisons, from the most significant word on. -/
def lessLoop (same : Bool) : List UInt32 → List UInt32 → Bool
  | x :: xs, y :: ys => if x < y then true else if y < x then false else lessLoop same xs ys
  | _, _ => same

/-- The words that `operator<<=` puts bits into, in the order of the loop. -/
def shlWrites (WIDTH : Nat) (a : List UInt32) (k shift : Nat) : List (Nat × UInt32) :=
  (List.range WIDTH).flatMap fun i =>
    (if i + k + 1 < WIDTH ∧ shift ≠ 0 then [(i + k + 1, a.getD i 0 >>> UInt32.ofNat (32 - shift))] else []) ++
      if i + k < WIDTH then [(i + k, a.getD i 0 <<< UInt32.ofNat shift)] else []

/-- The words that `operator>>=` puts bits into. -/
def shrWrites (WIDTH : Nat) (a : List UInt32) (k shift : Nat) : List (Nat × UInt32) :=
  (List.range WIDTH).flatMap fun i =>
    (if k + 1 ≤ i ∧ shift ≠ 0 then [(i - k - 1, a.getD i 0 <<< UInt32.ofNat (32 - shift))] else []) ++
      if k ≤ i then [(i - k, a.getD i 0 >>> UInt32.ofNat shift)] else []

theorem addLoop_length {xs ys : List UInt32} (carry : UInt64) (h : xs.length = ys.length) :
    (addLoop carry xs ys).length = xs.length := by
  induction xs generalizing carry ys with
  | nil => rfl
  | cons x xs ih =>
    cases ys with
    | nil => cases h
    | cons y ys => rw [addLoop, List.length_cons, List.length_cons, ih _ (Nat.succ.inj h)]

theorem incLoop_length (xs : List UInt32) : (incLoop xs).length = xs.length := by
  induction xs with
  | nil => rfl
  | cons x xs ih =>
    rw [incLoop]
    split_ifs
    · rw [List.length_cons, List.length_cons, ih]
    · rfl

theorem decLoop_length (xs : List UInt32) : (decLoop xs).length = xs.length := by
  induction xs with
  | nil => rfl
  | cons x xs ih =>
    rw [decLoop]
    split_ifs
    · rw [List.length_cons, List.length_cons, ih]
    · rfl

end Loops

variable {WIDTH : Nat} (a b : BaseUint WIDTH)

theorem add_size : (addLoop 0 a.pn b.pn).length = WIDTH := by
  rw [addLoop_length 0 (a.size.trans b.size.symm), a.size]

theorem inc_size : (incLoop a.pn).length = WIDTH := (incLoop_length a.pn).trans a.size

theorem dec_size : (decLoop a.pn).length = WIDTH := (decLoop_length a.pn).trans a.size

theorem map_size (f : UInt32 → UInt32) : (a.pn.map f).length = WIDTH := (List.length_map f).trans a.size

theorem zip_size (f : UInt32 → UInt32 → UInt32) : (List.zipWith f a.pn b.pn).length = WIDTH := by
  rw [List.length_zipWith, a.size, b.size, Nat.min_self]

theorem writes_size (ws : List (Nat × UInt32)) : (ws.foldl orAt (List.replicate WIDTH 0)).length = WIDTH := by
  rw [foldl_orAt_length, List.length_replicate]

/-- `operator+=`. -/
def addAssign : BaseUint WIDTH := ⟨addLoop 0 a.pn b.pn, add_size a b⟩

/-- `operator~`. -/
def compl : BaseUint WIDTH := ⟨a.pn.map (~~~ ·), map_size a _⟩

/-- `operator++`. -/
def inc : BaseUint WIDTH := ⟨incLoop a.pn, inc_size a⟩

/-- `operator--`. -/
def dec : BaseUint WIDTH := ⟨decLoop a.pn, dec_size a⟩

/-- `operator-`, the negative. -/
def neg : BaseUint WIDTH := a.compl.inc

/-- `operator-=`. -/
def subAssign : BaseUint WIDTH := a.addAssign b.neg

def andAssign : BaseUint WIDTH := ⟨List.zipWith (· &&& ·) a.pn b.pn, zip_size a b _⟩

def orAssign : BaseUint WIDTH := ⟨List.zipWith (· ||| ·) a.pn b.pn, zip_size a b _⟩

def xorAssign : BaseUint WIDTH := ⟨List.zipWith (· ^^^ ·) a.pn b.pn, zip_size a b _⟩

/-- `operator<`. -/
def lt : Bool := lessLoop false a.pn.reverse b.pn.reverse

/-- `operator<=`. -/
def le : Bool := lessLoop true a.pn.reverse b.pn.reverse

/-- `operator==`. -/
def eq : Bool := (List.zipWith (· == ·) a.pn b.pn).all id

/-- `operator<<=`. -/
def shlAssign (shift : UInt32) : BaseUint WIDTH :=
  ⟨(shlWrites WIDTH a.pn (shift.toNat / 32) (shift.toNat % 32)).foldl orAt (List.replicate WIDTH 0), writes_size _⟩

/-- `operator>>=`. -/
def shrAssign (shift : UInt32) : BaseUint WIDTH :=
  ⟨(shrWrites WIDTH a.pn (shift.toNat / 32) (shift.toNat % 32)).foldl orAt (List.replicate WIDTH 0), writes_size _⟩

/-- The number as a vector of `BITS` bits. -/
def toBitVec : BitVec (32 * WIDTH) := BitVec.ofNat _ (limbsNat a.pn)

section Values

theorem limbsNat_size_lt : limbsNat a.pn < 2 ^ (32 * WIDTH) := by
  have h := limbsNat_lt a.pn
  rwa [a.size] at h

theorem toBitVec_toNat : a.toBitVec.toNat = limbsNat a.pn :=
  (BitVec.toNat_ofNat _ _).trans (Nat.mod_eq_of_lt a.limbsNat_size_lt)

theorem carry_toNat {carry : UInt64} (hcarry : carry.toNat ≤ 1) (x y : UInt32) :
    (carry + x.toUInt64 + y.toUInt64).toNat = carry.toNat + x.toNat + y.toNat := by
  have hx := x.toNat_lt
  have hy := y.toNat_lt
  rw [UInt64.toNat_add, UInt64.toNat_add, UInt32.toNat_toUInt64, UInt32.toNat_toUInt64]
  omega

/-- The sum of the words and the carry, without the carry out of the last word. -/
theorem limbsNat_addLoop {xs ys : List UInt32} {carry : UInt64} (hcarry : carry.toNat ≤ 1)
    (hlen : xs.length = ys.length) :
    limbsNat (addLoop carry xs ys) = (carry.toNat + limbsNat xs + limbsNat ys) % 2 ^ (32 * xs.length) := by
  induction xs generalizing carry ys with
  | nil =>
    rw [addLoop, List.length_nil, Nat.mul_zero, pow_zero, Nat.mod_one]
    · rfl
    · intro x xs y ys hx
      cases hx
  | cons x xs ih =>
    cases ys with
    | nil => cases hlen
    | cons y ys =>
      have hsum := carry_toNat hcarry x y
      have hx := x.toNat_lt
      have hy := y.toNat_lt
      generalize hn : carry + x.toUInt64 + y.toUInt64 = n at hsum
      have hlow : (n &&& 0xffffffff).toUInt32.toNat = n.toNat % 2 ^ 32 := by
        rw [UInt64.toNat_toUInt32, UInt64.toNat_and]
        change (n.toNat &&& (2 ^ 32 - 1)) % 2 ^ 32 = _
        rw [Nat.and_two_pow_sub_one_eq_mod, Nat.mod_mod]
      have hhigh : (n >>> 32).toNat = n.toNat / 2 ^ 32 := by
        rw [UInt64.toNat_shiftRight]
        exact Nat.shiftRight_eq_div_pow _ _
      have hnext : (n >>> 32).toNat ≤ 1 := by
        rw [hhigh]
        omega
      simp only [addLoop, hn, limbsNat]
      rw [ih hnext (Nat.succ.inj hlen), hlow, hhigh, List.length_cons, Nat.mul_succ, Nat.add_comm (32 * _) 32, pow_add,
        Nat.mod_mul]
      have hmod : (carry.toNat + (x.toNat + 2 ^ 32 * limbsNat xs) + (y.toNat + 2 ^ 32 * limbsNat ys)) % 2 ^ 32 =
          n.toNat % 2 ^ 32 := by omega
      have hdiv : (carry.toNat + (x.toNat + 2 ^ 32 * limbsNat xs) + (y.toNat + 2 ^ 32 * limbsNat ys)) / 2 ^ 32 =
          n.toNat / 2 ^ 32 + limbsNat xs + limbsNat ys := by omega
      rw [hmod, hdiv]

theorem limbsNat_incLoop (xs : List UInt32) : limbsNat (incLoop xs) = (limbsNat xs + 1) % 2 ^ (32 * xs.length) := by
  induction xs with
  | nil => simp [incLoop, limbsNat]
  | cons x xs ih =>
    have hx := x.toNat_lt
    have hlt := limbsNat_lt xs
    have hstep : (x + 1).toNat = (x.toNat + 1) % 2 ^ 32 := UInt32.toNat_add x 1
    rw [incLoop, List.length_cons, Nat.mul_succ, Nat.add_comm (32 * _) 32, pow_add, Nat.mod_mul]
    split_ifs with hzero
    · rw [hzero, UInt32.toNat_zero] at hstep
      have hdiv : (limbsNat (x :: xs) + 1) / 2 ^ 32 = limbsNat xs + 1 := by
        rw [limbsNat]
        omega
      have hmod : (limbsNat (x :: xs) + 1) % 2 ^ 32 = 0 := by
        rw [limbsNat]
        omega
      rw [hdiv, hmod, limbsNat, hzero, ih]
      rfl
    · have hsmall : x.toNat + 1 < 2 ^ 32 := by
        by_contra hge
        apply hzero
        apply UInt32.toNat_inj.mp
        rw [hstep, UInt32.toNat_zero]
        omega
      have hdiv : (limbsNat (x :: xs) + 1) / 2 ^ 32 = limbsNat xs := by
        rw [limbsNat]
        omega
      have hmod : (limbsNat (x :: xs) + 1) % 2 ^ 32 = x.toNat + 1 := by
        rw [limbsNat]
        omega
      rw [hdiv, hmod, Nat.mod_eq_of_lt hlt, limbsNat, hstep, Nat.mod_eq_of_lt hsmall]

theorem limbsNat_decLoop (xs : List UInt32) :
    limbsNat (decLoop xs) = (limbsNat xs + (2 ^ (32 * xs.length) - 1)) % 2 ^ (32 * xs.length) := by
  induction xs with
  | nil => simp [decLoop, limbsNat, Nat.mod_one]
  | cons x xs ih =>
    have hx := x.toNat_lt
    have hlt := limbsNat_lt xs
    have hpos : 0 < 2 ^ (32 * xs.length) := Nat.two_pow_pos _
    have hstep : (x - 1).toNat = (x.toNat + (2 ^ 32 - 1)) % 2 ^ 32 := by
      rw [UInt32.toNat_sub, show (1 : UInt32).toNat = 1 from rfl, Nat.add_comm]
    rw [decLoop, List.length_cons, Nat.mul_succ, Nat.add_comm (32 * _) 32, pow_add]
    generalize 2 ^ (32 * xs.length) = B at ih hlt hpos ⊢
    rw [Nat.mod_mul]
    split_ifs with hones
    · have hnat := congrArg UInt32.toNat hones
      rw [hstep, show (0xffffffff : UInt32).toNat = 2 ^ 32 - 1 from rfl] at hnat
      have hzero : x.toNat = 0 := by omega
      have hdiv : (limbsNat (x :: xs) + (2 ^ 32 * B - 1)) / 2 ^ 32 = limbsNat xs + (B - 1) := by
        rw [limbsNat]
        omega
      have hmod : (limbsNat (x :: xs) + (2 ^ 32 * B - 1)) % 2 ^ 32 = 2 ^ 32 - 1 := by
        rw [limbsNat]
        omega
      rw [hdiv, hmod, limbsNat, hstep, hnat, ih]
    · have hone : 1 ≤ x.toNat := by
        by_contra hlt1
        apply hones
        apply UInt32.toNat_inj.mp
        rw [hstep, show (0xffffffff : UInt32).toNat = 2 ^ 32 - 1 from rfl]
        omega
      have hdiv : (limbsNat (x :: xs) + (2 ^ 32 * B - 1)) / 2 ^ 32 = limbsNat xs + B := by
        rw [limbsNat]
        omega
      have hmod : (limbsNat (x :: xs) + (2 ^ 32 * B - 1)) % 2 ^ 32 = x.toNat - 1 := by
        rw [limbsNat]
        omega
      rw [hdiv, hmod, Nat.add_mod_right, Nat.mod_eq_of_lt hlt, limbsNat, hstep]
      omega

theorem limbsNat_compl (xs : List UInt32) : limbsNat (xs.map (~~~ ·)) + limbsNat xs + 1 = 2 ^ (32 * xs.length) := by
  induction xs with
  | nil => simp [limbsNat]
  | cons x xs ih =>
    have hx := x.toNat_lt
    have hcompl : (~~~x).toNat = 2 ^ 32 - 1 - x.toNat := UInt32.toNat_not x
    rw [List.map_cons, limbsNat, limbsNat, List.length_cons, Nat.mul_succ, Nat.add_comm (32 * _) 32, pow_add, ← ih,
      hcompl]
    omega

theorem getD_zipWith {f : UInt32 → UInt32 → UInt32} (hf : f 0 0 = 0) {xs ys : List UInt32}
    (hlen : xs.length = ys.length) (m : Nat) : (List.zipWith f xs ys).getD m 0 = f (xs.getD m 0) (ys.getD m 0) := by
  induction xs generalizing ys m with
  | nil =>
    cases ys with
    | nil => simp [hf]
    | cons y ys => cases hlen
  | cons x xs ih =>
    cases ys with
    | nil => cases hlen
    | cons y ys =>
      cases m with
      | zero => rfl
      | succ m => exact ih (Nat.succ.inj hlen) m

/-- Comparing from the top is comparing the numbers; where all words are the same, `same` decides. -/
theorem lessLoop_eq (same : Bool) {xs ys : List UInt32} (hlen : xs.length = ys.length) :
    lessLoop same xs.reverse ys.reverse =
      (decide (limbsNat xs < limbsNat ys) || decide (limbsNat xs = limbsNat ys) && same) := by
  induction xs using List.reverseRecOn generalizing ys with
  | nil =>
    obtain rfl := List.eq_nil_of_length_eq_zero hlen.symm
    simp [lessLoop]
  | append_singleton xs x ih =>
    cases ys using List.reverseRecOn with
    | nil => simp at hlen
    | append_singleton ys y =>
      have hlen' : xs.length = ys.length := by simpa using hlen
      have hxs := limbsNat_lt xs
      have hys := limbsNat_lt ys
      rw [hlen'] at hxs
      have hsingle : ∀ z : UInt32, limbsNat [z] = z.toNat := by
        intro z
        simp [limbsNat]
      rw [List.reverse_concat, List.reverse_concat, lessLoop, limbsNat_append, limbsNat_append, hsingle, hsingle, hlen',
        ih hlen']
      generalize 2 ^ (32 * ys.length) = B at hxs hys ⊢
      simp only [UInt32.lt_iff_toNat_lt]
      rcases Nat.lt_trichotomy x.toNat y.toNat with hlt | heq | hgt
      · have hmul : B * x.toNat + B ≤ B * y.toNat := by
          rw [← Nat.mul_succ]
          exact Nat.mul_le_mul_left B hlt
        rw [if_pos hlt, decide_eq_true (by omega), Bool.true_or]
      · rw [heq, if_neg (by omega), if_neg (by omega)]
        congr 1
        · exact decide_eq_decide.mpr (by omega)
        · congr 1
          exact decide_eq_decide.mpr (by omega)
      · have hmul : B * y.toNat + B ≤ B * x.toNat := by
          rw [← Nat.mul_succ]
          exact Nat.mul_le_mul_left B hgt
        rw [if_neg (by omega), if_pos hgt, decide_eq_false (by omega), decide_eq_false (by omega)]
        rfl

end Values

section Bits

theorem toBitVec_getLsbD (i : Nat) :
    a.toBitVec.getLsbD i = (a.pn.getD (i / 32) 0).toNat.testBit (i % 32) := by
  rw [BitVec.getLsbD, toBitVec_toNat, limbsNat_testBit]

/-- A number is known from the bits of its words. -/
theorem toBitVec_eq_of_bits {c : BaseUint WIDTH} {v : BitVec (32 * WIDTH)}
    (h : ∀ m < WIDTH, ∀ j < 32, (c.pn.getD m 0).toNat.testBit j = v.getLsbD (32 * m + j)) : c.toBitVec = v := by
  apply BitVec.eq_of_getLsbD_eq
  intro i hi
  have hindex := Nat.div_add_mod i 32
  rw [toBitVec_getLsbD, h (i / 32) (by omega) (i % 32) (Nat.mod_lt _ (by omega)), hindex]

theorem toBitVec_bit {m j : Nat} (hj : j < 32) :
    a.toBitVec.getLsbD (32 * m + j) = (a.pn.getD m 0).toNat.testBit j := by
  rw [toBitVec_getLsbD, show (32 * m + j) / 32 = m by omega, show (32 * m + j) % 32 = j by omega]

theorem shiftLeft_testBit (x : UInt32) {s j : Nat} (hs : s < 32) (hj : j < 32) :
    (x <<< UInt32.ofNat s).toNat.testBit j = (decide (s ≤ j) && x.toNat.testBit (j - s)) := by
  have hmod : (UInt32.ofNat s).toNat % 32 = s := by
    rw [UInt32.toNat_ofNat_of_lt' (show s < 2 ^ 32 by omega)]
    omega
  rw [UInt32.toNat_shiftLeft, hmod, Nat.testBit_mod_two_pow, Nat.testBit_shiftLeft]
  simp [hj]

theorem shiftRight_testBit (x : UInt32) {s : Nat} (hs : s < 32) (j : Nat) :
    (x >>> UInt32.ofNat s).toNat.testBit j = x.toNat.testBit (s + j) := by
  have hmod : (UInt32.ofNat s).toNat % 32 = s := by
    rw [UInt32.toNat_ofNat_of_lt' (show s < 2 ^ 32 by omega)]
    omega
  rw [UInt32.toNat_shiftRight, hmod, Nat.testBit_shiftRight]

theorem testBit_word (x : UInt32) {j : Nat} (hj : 32 ≤ j) : x.toNat.testBit j = false :=
  Nat.testBit_lt_two_pow (x.toNat_lt.trans_le (Nat.pow_le_pow_right (by omega) hj))

/-- The bits that a list of writes leaves in a word. -/
theorem writes_testBit (ws : List (Nat × UInt32)) {m : Nat} (hm : m < WIDTH) (j : Nat) :
    ((ws.foldl orAt (List.replicate WIDTH 0)).getD m 0).toNat.testBit j =
      ws.any fun w => w.1 == m && w.2.toNat.testBit j := by
  rw [foldl_orAt_testBit _ _ (by rwa [List.length_replicate])]
  have hzero : (List.replicate WIDTH (0 : UInt32)).getD m 0 = 0 := by
    rw [List.getD_eq_getElem?_getD, List.getElem?_replicate, if_pos hm]
    rfl
  rw [hzero]
  simp

/-- The words of a left shift: the low part of the word `k` below, and the high part of the one below that. -/
theorem shlWrites_any (xs : List UInt32) (k s : Nat) {m : Nat} (hm : m < WIDTH) (j : Nat) :
    ((shlWrites WIDTH xs k s).any fun w => w.1 == m && w.2.toNat.testBit j) = true ↔
      (k + 1 ≤ m ∧ s ≠ 0 ∧ (xs.getD (m - k - 1) 0 >>> UInt32.ofNat (32 - s)).toNat.testBit j = true) ∨
        (k ≤ m ∧ (xs.getD (m - k) 0 <<< UInt32.ofNat s).toNat.testBit j = true) := by
  simp only [List.any_eq_true, shlWrites, List.mem_flatMap, List.mem_range, List.mem_append, List.mem_ite_nil_right,
    List.mem_singleton, Bool.and_eq_true, beq_iff_eq]
  constructor
  · rintro ⟨w, ⟨i, -, hw | hw⟩, hwm, hbit⟩
    · obtain ⟨⟨-, hs⟩, rfl⟩ := hw
      have hi : m - k - 1 = i := by omega
      rw [hi]
      exact .inl ⟨by omega, hs, hbit⟩
    · obtain ⟨-, rfl⟩ := hw
      have hi : m - k = i := by omega
      rw [hi]
      exact .inr ⟨by omega, hbit⟩
  · rintro (⟨hk, hs, hbit⟩ | ⟨hk, hbit⟩)
    · exact ⟨_, ⟨m - k - 1, by omega, .inl ⟨⟨by omega, hs⟩, rfl⟩⟩, by omega, hbit⟩
    · exact ⟨_, ⟨m - k, by omega, .inr ⟨by omega, rfl⟩⟩, by omega, hbit⟩

/-- The words of a right shift. -/
theorem shrWrites_any (xs : List UInt32) (k s m j : Nat) :
    ((shrWrites WIDTH xs k s).any fun w => w.1 == m && w.2.toNat.testBit j) = true ↔
      (s ≠ 0 ∧ m + k + 1 < WIDTH ∧ (xs.getD (m + k + 1) 0 <<< UInt32.ofNat (32 - s)).toNat.testBit j = true) ∨
        (m + k < WIDTH ∧ (xs.getD (m + k) 0 >>> UInt32.ofNat s).toNat.testBit j = true) := by
  simp only [List.any_eq_true, shrWrites, List.mem_flatMap, List.mem_range, List.mem_append, List.mem_ite_nil_right,
    List.mem_singleton, Bool.and_eq_true, beq_iff_eq]
  constructor
  · rintro ⟨w, ⟨i, hi, hw | hw⟩, hwm, hbit⟩
    · obtain ⟨⟨hk, hs⟩, rfl⟩ := hw
      have heq : m + k + 1 = i := by omega
      rw [heq]
      exact .inl ⟨hs, hi, hbit⟩
    · obtain ⟨hk, rfl⟩ := hw
      have heq : m + k = i := by omega
      rw [heq]
      exact .inr ⟨hi, hbit⟩
  · rintro (⟨hs, hi, hbit⟩ | ⟨hi, hbit⟩)
    · exact ⟨_, ⟨m + k + 1, hi, .inl ⟨⟨by omega, hs⟩, rfl⟩⟩, by omega, hbit⟩
    · exact ⟨_, ⟨m + k, hi, .inr ⟨by omega, rfl⟩⟩, by omega, hbit⟩

theorem toBitVec_shlAssign (shift : UInt32) : (a.shlAssign shift).toBitVec = a.toBitVec <<< shift.toNat := by
  apply toBitVec_eq_of_bits
  intro m hm j hj
  have hsplit := Nat.div_add_mod shift.toNat 32
  have hs : shift.toNat % 32 < 32 := Nat.mod_lt _ (by omega)
  rw [shlAssign, writes_testBit _ hm, BitVec.getLsbD_shiftLeft, Bool.eq_iff_iff, shlWrites_any _ _ _ hm]
  generalize shift.toNat / 32 = k at hsplit
  generalize shift.toNat % 32 = s at hsplit hs
  simp only [Bool.and_eq_true, decide_eq_true_eq, Bool.not_eq_true', decide_eq_false_iff_not, ← hsplit]
  rw [shiftLeft_testBit _ hs hj]
  by_cases hlow : s ≤ j
  · -- the bit comes from the word `k` below
    have hnot : ¬(k + 1 ≤ m ∧ s ≠ 0 ∧ (a.pn.getD (m - k - 1) 0 >>> UInt32.ofNat (32 - s)).toNat.testBit j = true) := by
      rintro ⟨-, hpos, hbit⟩
      rw [shiftRight_testBit _ (by omega), testBit_word _ (by omega)] at hbit
      cases hbit
    by_cases hk : k ≤ m
    · have hindex : 32 * m + j - (32 * k + s) = 32 * (m - k) + (j - s) := by omega
      rw [hindex, a.toBitVec_bit (by omega)]
      simp only [hnot, hk, hlow, decide_true, Bool.true_and, true_and, false_or]
      constructor
      · intro hbit
        exact ⟨⟨by omega, by omega⟩, hbit⟩
      · intro hbit
        exact hbit.2
    · constructor
      · intro hbit
        cases hbit with
        | inl hbit => exact absurd hbit hnot
        | inr hbit => exact absurd hbit.1 hk
      · intro hbit
        exact absurd hbit.1.2 (by omega)
  · -- the bit comes from the word below that
    have hpos : s ≠ 0 := by omega
    rw [shiftRight_testBit _ (by omega)]
    by_cases hk : k + 1 ≤ m
    · have hindex : 32 * m + j - (32 * k + s) = 32 * (m - k - 1) + (32 - s + j) := by omega
      rw [hindex, a.toBitVec_bit (by omega)]
      simp only [hk, hpos, hlow, decide_false, Bool.false_and, Bool.false_eq_true, and_false, or_false, true_and, ne_eq,
        not_false_eq_true]
      constructor
      · intro hbit
        exact ⟨⟨by omega, by omega⟩, hbit⟩
      · intro hbit
        exact hbit.2
    · constructor
      · intro hbit
        cases hbit with
        | inl hbit => exact absurd hbit.1 hk
        | inr hbit => simp [hlow] at hbit
      · intro hbit
        exact absurd hbit.1.2 (by omega)

theorem getD_beyond {m : Nat} (hm : WIDTH ≤ m) : a.pn.getD m 0 = 0 :=
  List.getD_eq_default _ _ (by rw [a.size]; exact hm)

theorem toBitVec_shrAssign (shift : UInt32) : (a.shrAssign shift).toBitVec = a.toBitVec >>> shift.toNat := by
  apply toBitVec_eq_of_bits
  intro m hm j hj
  have hsplit := Nat.div_add_mod shift.toNat 32
  have hs : shift.toNat % 32 < 32 := Nat.mod_lt _ (by omega)
  rw [shrAssign, writes_testBit _ hm, BitVec.getLsbD_ushiftRight, Bool.eq_iff_iff, shrWrites_any]
  generalize shift.toNat / 32 = k at hsplit
  generalize shift.toNat % 32 = s at hsplit hs
  rw [← hsplit, shiftRight_testBit _ hs]
  by_cases hhigh : s + j < 32
  · -- the bit comes from the word `k` above
    have hindex : 32 * k + s + (32 * m + j) = 32 * (m + k) + (s + j) := by omega
    rw [hindex, a.toBitVec_bit hhigh]
    have hnot : ¬(s ≠ 0 ∧ m + k + 1 < WIDTH ∧
        (a.pn.getD (m + k + 1) 0 <<< UInt32.ofNat (32 - s)).toNat.testBit j = true) := by
      rintro ⟨hpos, -, hbit⟩
      rw [shiftLeft_testBit _ (by omega) hj, decide_eq_false (by omega)] at hbit
      cases hbit
    constructor
    · intro hbit
      cases hbit with
      | inl hbit => exact absurd hbit hnot
      | inr hbit => exact hbit.2
    · intro hbit
      refine .inr ⟨?_, hbit⟩
      by_contra hbeyond
      rw [a.getD_beyond (by omega)] at hbit
      simp at hbit
  · -- the bit comes from the word above that
    have hpos : s ≠ 0 := by omega
    have hindex : 32 * k + s + (32 * m + j) = 32 * (m + k + 1) + (j - (32 - s)) := by omega
    rw [hindex, a.toBitVec_bit (by omega), shiftLeft_testBit _ (by omega) hj,
      testBit_word (a.pn.getD (m + k) 0) (show 32 ≤ s + j by omega), decide_eq_true (show 32 - s ≤ j by omega),
      Bool.true_and]
    constructor
    · intro hbit
      cases hbit with
      | inl hbit => exact hbit.2.2
      | inr hbit => cases hbit.2
    · intro hbit
      refine .inl ⟨hpos, ?_, hbit⟩
      by_contra hbeyond
      rw [a.getD_beyond (by omega)] at hbit
      simp at hbit

end Bits

section Operators

theorem toBitVec_addAssign : (a.addAssign b).toBitVec = a.toBitVec + b.toBitVec := by
  apply BitVec.eq_of_toNat_eq
  rw [BitVec.toNat_add, toBitVec_toNat, toBitVec_toNat, toBitVec_toNat]
  change limbsNat (addLoop 0 a.pn b.pn) = _
  rw [limbsNat_addLoop (by simp) (a.size.trans b.size.symm), a.size]
  simp

theorem one_toNat (w : Nat) : (1 : BitVec w).toNat = 1 % 2 ^ w := BitVec.toNat_ofNat _ _

theorem toBitVec_inc : a.inc.toBitVec = a.toBitVec + 1 := by
  apply BitVec.eq_of_toNat_eq
  rw [BitVec.toNat_add, toBitVec_toNat, toBitVec_toNat, one_toNat, Nat.add_mod_mod]
  change limbsNat (incLoop a.pn) = _
  rw [limbsNat_incLoop, a.size]

theorem toBitVec_dec : a.dec.toBitVec = a.toBitVec - 1 := by
  apply BitVec.eq_of_toNat_eq
  rw [BitVec.toNat_sub, toBitVec_toNat, toBitVec_toNat, one_toNat]
  change limbsNat (decLoop a.pn) = _
  rw [limbsNat_decLoop, a.size]
  have hpos : 0 < 2 ^ (32 * WIDTH) := Nat.two_pow_pos _
  generalize 2 ^ (32 * WIDTH) = B at hpos ⊢
  by_cases hone : B = 1
  · rw [hone, Nat.mod_one, Nat.mod_one]
  · rw [Nat.mod_eq_of_lt (show 1 < B by omega), Nat.add_comm]

theorem toBitVec_compl : a.compl.toBitVec = ~~~a.toBitVec := by
  apply BitVec.eq_of_toNat_eq
  rw [BitVec.toNat_not, toBitVec_toNat, toBitVec_toNat]
  have hsum := limbsNat_compl a.pn
  rw [a.size] at hsum
  change limbsNat (a.pn.map (~~~ ·)) = _
  omega

theorem toBitVec_neg : a.neg.toBitVec = -a.toBitVec := by
  rw [neg, toBitVec_inc, toBitVec_compl, BitVec.neg_eq_not_add]
  rfl

theorem toBitVec_subAssign : (a.subAssign b).toBitVec = a.toBitVec - b.toBitVec := by
  rw [subAssign, toBitVec_addAssign, toBitVec_neg, BitVec.sub_eq_add_neg]

theorem zip_testBit {f : UInt32 → UInt32 → UInt32} (hf : f 0 0 = 0) {op : Bool → Bool → Bool}
    (hop : ∀ x y j, (f x y).toNat.testBit j = op (x.toNat.testBit j) (y.toNat.testBit j)) {v : BitVec (32 * WIDTH)}
    (hv : ∀ i, v.getLsbD i = op (a.toBitVec.getLsbD i) (b.toBitVec.getLsbD i)) :
    BaseUint.toBitVec ⟨List.zipWith f a.pn b.pn, zip_size a b f⟩ = v := by
  apply toBitVec_eq_of_bits
  intro m _ j hj
  rw [hv, a.toBitVec_bit hj, b.toBitVec_bit hj, ← hop]
  exact congrArg (fun x : UInt32 => x.toNat.testBit j) (getD_zipWith hf (a.size.trans b.size.symm) m)

theorem toBitVec_andAssign : (a.andAssign b).toBitVec = a.toBitVec &&& b.toBitVec :=
  zip_testBit a b rfl (fun x y j => by rw [UInt32.toNat_and, Nat.testBit_and]) (fun i => BitVec.getLsbD_and ..)

theorem toBitVec_orAssign : (a.orAssign b).toBitVec = a.toBitVec ||| b.toBitVec :=
  zip_testBit a b rfl (fun x y j => by rw [UInt32.toNat_or, Nat.testBit_or]) (fun i => BitVec.getLsbD_or ..)

theorem toBitVec_xorAssign : (a.xorAssign b).toBitVec = a.toBitVec ^^^ b.toBitVec :=
  zip_testBit a b rfl (fun x y j => by rw [UInt32.toNat_xor, Nat.testBit_xor]) (fun i => BitVec.getLsbD_xor ..)

theorem toBitVec_inj : a.toBitVec = b.toBitVec ↔ a.pn = b.pn := by
  constructor
  · intro h
    have hnat := congrArg BitVec.toNat h
    rw [toBitVec_toNat, toBitVec_toNat] at hnat
    exact limbsNat_inj (a.size.trans b.size.symm) hnat
  · intro h
    rw [toBitVec, toBitVec, h]

theorem lt_eq : a.lt b = decide (a.toBitVec < b.toBitVec) := by
  rw [lt, lessLoop_eq false (a.size.trans b.size.symm), Bool.and_false, Bool.or_false]
  apply decide_eq_decide.mpr
  rw [BitVec.lt_def, toBitVec_toNat, toBitVec_toNat]

theorem le_eq : a.le b = decide (a.toBitVec ≤ b.toBitVec) := by
  rw [le, lessLoop_eq true (a.size.trans b.size.symm), Bool.and_true, ← Bool.decide_or]
  apply decide_eq_decide.mpr
  rw [BitVec.le_def, toBitVec_toNat, toBitVec_toNat]
  omega

theorem zip_eq {xs ys : List UInt32} (hlen : xs.length = ys.length) :
    ((List.zipWith (· == ·) xs ys).all id = true) ↔ xs = ys := by
  induction xs generalizing ys with
  | nil =>
    rw [List.eq_nil_of_length_eq_zero hlen.symm]
    simp
  | cons x xs ih =>
    cases ys with
    | nil => cases hlen
    | cons y ys =>
      have hrest := ih (Nat.succ.inj hlen)
      simp only [List.zipWith_cons_cons, List.all_cons, id_eq, Bool.and_eq_true, beq_iff_eq, List.cons.injEq]
      rw [hrest]

theorem eq_eq : a.eq b = decide (a.toBitVec = b.toBitVec) := by
  rw [Bool.eq_iff_iff, eq, zip_eq (a.size.trans b.size.symm), decide_eq_true_iff, toBitVec_inj]

end Operators

/-- The word-by-word operators of `base_uint` are those of the numbers of `32 * WIDTH` bits: sums and differences wrap
around, the comparisons are those of the unsigned numbers, and bits that are shifted out are lost. -/
theorem operators_spec (shift : UInt32) :
    ((a.addAssign b).toBitVec = a.toBitVec + b.toBitVec ∧ (a.subAssign b).toBitVec = a.toBitVec - b.toBitVec ∧
      a.neg.toBitVec = -a.toBitVec ∧ a.inc.toBitVec = a.toBitVec + 1 ∧ a.dec.toBitVec = a.toBitVec - 1) ∧
    (a.lt b = decide (a.toBitVec < b.toBitVec) ∧ a.le b = decide (a.toBitVec ≤ b.toBitVec) ∧
      a.eq b = decide (a.toBitVec = b.toBitVec)) ∧
    ((a.shlAssign shift).toBitVec = a.toBitVec <<< shift.toNat ∧
      (a.shrAssign shift).toBitVec = a.toBitVec >>> shift.toNat) ∧
    (a.andAssign b).toBitVec = a.toBitVec &&& b.toBitVec ∧ (a.orAssign b).toBitVec = a.toBitVec ||| b.toBitVec ∧
      (a.xorAssign b).toBitVec = a.toBitVec ^^^ b.toBitVec ∧ a.compl.toBitVec = ~~~a.toBitVec :=
  ⟨⟨toBitVec_addAssign a b, toBitVec_subAssign a b, toBitVec_neg a, toBitVec_inc a, toBitVec_dec a⟩,
    ⟨lt_eq a b, le_eq a b, eq_eq a b⟩, ⟨toBitVec_shlAssign a shift, toBitVec_shrAssign a shift⟩,
    toBitVec_andAssign a b, toBitVec_orAssign a b, toBitVec_xorAssign a b, toBitVec_compl a⟩

end BaseUint

end AliasWallet
