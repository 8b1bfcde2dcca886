import AliasWallet.Core.Params
import AliasWallet.Lib.CString
import AliasWallet.Lib.Decimal

/-!
# Amounts as text (`util.cpp`)

An amount is written with two to eight decimal places. It is read with at most ten digits in front of the point and at
most eight behind it.
-/

namespace AliasWallet
open Lib

section Format

/-- `%d`. -/
def printDecimal (n : Int) : Bytes := if n < 0 then 0x2d :: decimalText n.natAbs else decimalText n.natAbs

/-- `%0` with a width and `d`; a sign counts. -/
def printPadded (width : Nat) (n : Int) : Bytes :=
  if n < 0 then 0x2d :: paddedText (width - 1) n.natAbs else paddedText width n.natAbs

/-- `str[i] == '0' && isdigit(str[i-2])`, from the end of the text on. -/
def trimZeros : Bytes → Bytes
  | c :: d :: e :: str => if c = 0x30 ∧ isDigit e = true then trimZeros (d :: e :: str) else c :: d :: e :: str
  | str => str

/-- `FormatMoney`. -/
def formatMoney (n : Int64) (fPlus : Bool) : Bytes :=
  let n_abs := if n > 0 then n else -n
  let quotient := n_abs / COIN
  let remainder := n_abs % COIN
  let str := printDecimal quotient.toInt ++ [0x2e] ++ printPadded 8 remainder.toInt
  let str := (trimZeros str.reverse).reverse
  if n < 0 then 0x2d :: str
  else if fPlus ∧ n > 0 then 0x2b :: str
  else str

end Format

section Parse

/-- `*p - '0'`. -/
def digitInt (c : UInt8) : Int64 := Int64.ofNat (digitValue c)

/-- The units, from the multiplier on, and what is left of the text. -/
def parseUnits : Int64 → Int64 → Bytes → Int64 × Bytes
  | _, nUnits, [] => (nUnits, [])
  | nMult, nUnits, c :: p =>
    if isDigit c = true ∧ nMult > 0 then parseUnits (nMult / 10) (nUnits + nMult * digitInt c) p else (nUnits, c :: p)

/-- The loop over the text: the whole digits, the units, and what is left. -/
def parseWhole : Bytes → Bytes → Option (Bytes × Int64 × Bytes)
  | strWhole, [] => some (strWhole, 0, [])
  | strWhole, c :: p =>
    if c = 0x2e then some (strWhole, parseUnits (CENT * 10) 0 p)
    else if isSpace c then some (strWhole, 0, c :: p)
    else if !isDigit c then none
    else parseWhole (strWhole ++ [c]) p

/-- The digits of `strtoll`; a number that is too large becomes the largest one. -/
def saturate (n : Int) : Int64 :=
  if n > Int64.maxValue.toInt then Int64.maxValue
  else if n < Int64.minValue.toInt then Int64.minValue
  else Int64.ofInt n

/-- `atoi64`: `strtoll` in base 10. -/
def atoi64 (str : Bytes) : Int64 :=
  match (cString str).dropWhile isSpace with
  | 0x2d :: p => saturate (-(decimalValue (p.takeWhile isDigit) : Int))
  | 0x2b :: p => saturate (decimalValue (p.takeWhile isDigit))
  | p => saturate (decimalValue (p.takeWhile isDigit))

/-- `ParseMoney`. -/
def parseMoney (str : Bytes) : Option Int64 := do
  let (strWhole, nUnits, p) ← parseWhole [] ((cString str).dropWhile isSpace)
  if p.any fun c => !isSpace c then none
  else if strWhole.length > 10 then none
  else if nUnits < 0 ∨ nUnits > COIN then none
  else some (atoi64 strWhole * COIN + nUnits)

/-- White space, at most ten digits, a point and at most eight digits, or neither of them, and white space. The value is
in units of `10 ^ -8`. -/
def IsMoneyText (str : Bytes) (v : Nat) : Prop :=
  ∃ before whole point frac behind : Bytes, str = before ++ whole ++ point ++ frac ++ behind ∧
    (∀ c ∈ before ++ behind, isSpace c = true) ∧ (∀ c ∈ whole ++ frac, isDigit c = true) ∧
    (point = [0x2e] ∨ point = [] ∧ frac = []) ∧ whole.length ≤ 10 ∧ frac.length ≤ 8 ∧
    v = decimalValue whole * 10 ^ 8 + decimalValue frac * 10 ^ (8 - frac.length)

end Parse

section ParseSpec

variable {str p q : Bytes} {c : UInt8} {k m v : Nat}

theorem isDigit_notSpace (h : isDigit c = true) : isSpace c = false ∧ c ≠ 0x2e ∧ c ≠ 0 := by
  have hall : ∀ c : Fin 256, isDigit (UInt8.ofNat c.val) = true →
      isSpace (UInt8.ofNat c.val) = false ∧ UInt8.ofNat c.val ≠ 0x2e ∧ UInt8.ofNat c.val ≠ 0 := by
    decide +kernel
  have hc := hall ⟨c.toNat, c.toNat_lt⟩
  rw [UInt8.ofNat_toNat] at hc
  exact hc h

/-- The multiplier of the next digit when `k` more are read. -/
def unitsMult : Nat → Int64
  | 0 => 0
  | k + 1 => Int64.ofNat (10 ^ k)

theorem unitsMult_succ (hk : k < 8) : unitsMult (k + 1) > 0 ∧ unitsMult (k + 1) / 10 = unitsMult k := by
  have hall : ∀ k : Fin 8, unitsMult (k.val + 1) > 0 ∧ unitsMult (k.val + 1) / 10 = unitsMult k.val := by decide
  exact hall ⟨k, hk⟩

/-- At most `k` digits are read. -/
theorem parseUnits_eq (hk : k ≤ 8) (m : Nat) (p : Bytes) :
    parseUnits (unitsMult k) (Int64.ofNat m) p =
      (Int64.ofNat (m + decimalValue ((p.takeWhile isDigit).take k) *
          10 ^ (k - ((p.takeWhile isDigit).take k).length)),
        p.drop ((p.takeWhile isDigit).take k).length) := by
  induction p generalizing k m with
  | nil => simp [parseUnits]
  | cons c p ih =>
    rw [parseUnits]
    cases k with
    | zero =>
      rw [if_neg]
      · simp
      · intro h
        exact absurd h.2 (by decide)
    | succ k =>
      have hmult := unitsMult_succ (k := k) (by omega)
      by_cases hc : isDigit c = true
      · have hone : Int64.ofNat m + unitsMult (k + 1) * digitInt c = Int64.ofNat (m + 10 ^ k * digitValue c) := by
          rw [Int64.ofNat_add, Int64.ofNat_mul]
          rfl
        rw [if_pos ⟨hc, hmult.1⟩, hmult.2, hone, ih (by omega), List.takeWhile_cons_of_pos hc, List.take_succ_cons,
          List.length_cons, List.drop_succ_cons, decimalValue_cons, Nat.add_sub_add_right]
        have hlen : ((p.takeWhile isDigit).take k).length ≤ k := List.length_take_le _ _
        have hpow : 10 ^ ((p.takeWhile isDigit).take k).length * 10 ^ (k - ((p.takeWhile isDigit).take k).length) =
            10 ^ k := by
          rw [← pow_add, Nat.add_sub_cancel' hlen]
        have hvalue : ∀ x y : Nat, m + 10 ^ k * x + y * 10 ^ (k - ((p.takeWhile isDigit).take k).length) =
            m + (x * 10 ^ ((p.takeWhile isDigit).take k).length + y) *
              10 ^ (k - ((p.takeWhile isDigit).take k).length) := by
          intro x y
          rw [← hpow]
          ring
        rw [hvalue]
      · rw [if_neg fun h => hc h.1, List.takeWhile_cons_of_neg hc]
        simp

theorem parseWhole_eq (strWhole p : Bytes) :
    parseWhole strWhole p =
      match p.dropWhile isDigit with
      | [] => some (strWhole ++ p.takeWhile isDigit, 0, [])
      | c :: q =>
        if c = 0x2e then some (strWhole ++ p.takeWhile isDigit, parseUnits (CENT * 10) 0 q)
        else if isSpace c then some (strWhole ++ p.takeWhile isDigit, 0, c :: q)
        else none := by
  induction p generalizing strWhole with
  | nil => simp [parseWhole]
  | cons c p ih =>
    rw [parseWhole]
    by_cases hc : isDigit c = true
    · have hno := isDigit_notSpace hc
      rw [if_neg hno.2.1, hno.1, if_neg Bool.false_ne_true, hc, Bool.not_true, if_neg Bool.false_ne_true, ih,
        List.dropWhile_cons_of_pos hc, List.takeWhile_cons_of_pos hc]
      simp only [List.append_assoc, List.singleton_append]
    · rw [List.dropWhile_cons_of_neg hc, List.takeWhile_cons_of_neg hc, List.append_nil]
      simp [hc]

theorem cent_mult : CENT * 10 = unitsMult 8 := by decide

/-- Few digits are read as they are. -/
theorem atoi64_digits (h : ∀ c ∈ str, isDigit c = true) (hlen : str.length ≤ 10) :
    atoi64 str = Int64.ofNat (decimalValue str) := by
  have hstring : cString str = str := cString_eq fun hzero => (isDigit_notSpace (h 0 hzero)).2.2 rfl
  have hstart : str.dropWhile isSpace = str := by
    cases str with
    | nil => rfl
    | cons c str => rw [List.dropWhile_cons_of_neg (by simp [(isDigit_notSpace (h c List.mem_cons_self)).1])]
  have hall : str.takeWhile isDigit = str := List.takeWhile_eq_self_iff.mpr h
  have hlt : decimalValue str < 10 ^ 10 :=
    Nat.lt_of_lt_of_le (decimalValue_lt h) (Nat.pow_le_pow_right (by decide) hlen)
  have hsat : saturate (decimalValue str : Int) = Int64.ofNat (decimalValue str) := by
    have hmax : Int64.maxValue.toInt = 9223372036854775807 := by decide
    have hmin : Int64.minValue.toInt = -9223372036854775808 := by decide
    rw [saturate, hmax, hmin, if_neg (by omega), if_neg (by omega)]
    rfl
  rw [atoi64, hstring, hstart]
  split
  · exact absurd (h 0x2d List.mem_cons_self) (by decide)
  · exact absurd (h 0x2b List.mem_cons_self) (by decide)
  · rw [hall, hsat]

theorem units_in_range (h : m < 10 ^ 8) : ¬(Int64.ofNat m < 0 ∨ Int64.ofNat m > COIN) := by
  have hint : (Int64.ofNat m).toInt = m := Int64.toInt_ofNat_of_lt (by omega)
  have hzero : (0 : Int64).toInt = 0 := rfl
  have hcoin : COIN.toInt = 100000000 := rfl
  rw [Int64.lt_iff_toInt_lt, gt_iff_lt, Int64.lt_iff_toInt_lt, hint, hzero, hcoin]
  omega

theorem amount_eq (w m : Nat) : Int64.ofNat w * COIN + Int64.ofNat m = Int64.ofNat (w * 10 ^ 8 + m) := by
  rw [Int64.ofNat_add, Int64.ofNat_mul]
  rfl

/-- The tests behind the loop. -/
theorem parseMoney_of_parseWhole {whole rest : Bytes} (hzero : (0 : UInt8) ∉ str)
    (h : parseWhole [] (str.dropWhile isSpace) = some (whole, Int64.ofNat m, rest))
    (hrest : ∀ c ∈ rest, isSpace c = true) (hwhole : ∀ c ∈ whole, isDigit c = true) (hlen : whole.length ≤ 10)
    (hm : m < 10 ^ 8) : parseMoney str = some (Int64.ofNat (decimalValue whole * 10 ^ 8 + m)) := by
  have hany : (rest.any fun c => !isSpace c) = false := by
    rw [List.any_eq_false]
    intro c hc
    simp [hrest c hc]
  rw [parseMoney, cString_eq hzero, h, Option.bind_eq_bind, Option.bind_some]
  dsimp only
  rw [hany, if_neg Bool.false_ne_true, if_neg (by omega), if_neg (units_in_range hm), atoi64_digits hwhole hlen,
    amount_eq]

theorem takeWhile_of_spaces (h : ∀ c ∈ p, isSpace c = true) : p.takeWhile isDigit = [] ∧ p.dropWhile isDigit = p := by
  cases p with
  | nil => exact ⟨rfl, rfl⟩
  | cons c p =>
    have hc : ¬isDigit c = true := by
      intro hdigit
      have hno := (isDigit_notSpace hdigit).1
      rw [h c List.mem_cons_self] at hno
      cases hno
    exact ⟨List.takeWhile_cons_of_neg hc, List.dropWhile_cons_of_neg hc⟩

theorem dropWhile_digits {whole : Bytes} (hwhole : ∀ c ∈ whole, isDigit c = true) (hp : p.takeWhile isDigit = []) :
    (whole ++ p).takeWhile isDigit = whole ∧ (whole ++ p).dropWhile isDigit = p := by
  rw [List.takeWhile_append_of_pos hwhole, List.dropWhile_append_of_pos hwhole, hp, List.append_nil]
  have hsplit := List.takeWhile_append_dropWhile (p := isDigit) (l := p)
  rw [hp, List.nil_append] at hsplit
  exact ⟨rfl, hsplit⟩

/-- Digits and a point are no white space. -/
theorem dropWhile_spaces {before whole : Bytes} (hbefore : ∀ c ∈ before, isSpace c = true)
    (hwhole : ∀ c ∈ whole, isDigit c = true) (hp : p.dropWhile isSpace = p ∨ whole ≠ []) :
    (before ++ (whole ++ p)).dropWhile isSpace = whole ++ p := by
  rw [List.dropWhile_append_of_pos hbefore]
  cases whole with
  | nil => simpa using hp
  | cons c whole =>
    rw [List.cons_append, List.dropWhile_cons_of_neg]
    rw [(isDigit_notSpace (hwhole c List.mem_cons_self)).1]
    exact Bool.false_ne_true

theorem parseMoney_of_isMoneyText (hzero : (0 : UInt8) ∉ str) (h : IsMoneyText str v) :
    v < 10 ^ 18 ∧ parseMoney str = some (Int64.ofNat v) := by
  obtain ⟨before, whole, point, frac, behind, rfl, hspaces, hdigits, hpoint, hlen, hfrac, rfl⟩ := h
  rw [List.forall_mem_append] at hspaces hdigits
  have hunits : decimalValue frac * 10 ^ (8 - frac.length) < 10 ^ 8 := by
    calc decimalValue frac * 10 ^ (8 - frac.length) < 10 ^ frac.length * 10 ^ (8 - frac.length) :=
          Nat.mul_lt_mul_of_pos_right (decimalValue_lt hdigits.2) (Nat.pow_pos (by decide))
      _ = 10 ^ 8 := by rw [← pow_add, Nat.add_sub_cancel' hfrac]
  have hwhole : decimalValue whole < 10 ^ 10 :=
    Nat.lt_of_lt_of_le (decimalValue_lt hdigits.1) (Nat.pow_le_pow_right (by decide) hlen)
  apply And.intro (by omega)
  have hbehind := takeWhile_of_spaces hspaces.2
  cases hpoint with
  | inl hpoint =>
    apply parseMoney_of_parseWhole hzero _ hspaces.2 hdigits.1 hlen hunits
    rw [hpoint]
    have hshape : before ++ whole ++ [0x2e] ++ frac ++ behind = before ++ (whole ++ 0x2e :: (frac ++ behind)) := by simp
    have hwholePart := dropWhile_digits (p := 0x2e :: (frac ++ behind)) hdigits.1 rfl
    have hfracPart := dropWhile_digits hdigits.2 hbehind.1
    rw [hshape, dropWhile_spaces hspaces.1 hdigits.1 (.inl rfl), parseWhole_eq, hwholePart.1, hwholePart.2]
    dsimp only
    rw [if_pos rfl, cent_mult, List.nil_append]
    have hunitsEq := parseUnits_eq le_rfl 0 (frac ++ behind)
    rw [hfracPart.1, List.take_of_length_le hfrac, List.drop_left, Nat.zero_add] at hunitsEq
    exact congrArg (fun r => some (whole, r)) hunitsEq
  | inr hpoint =>
    obtain ⟨rfl, rfl⟩ := hpoint
    have hshape : before ++ whole ++ [] ++ [] ++ behind = before ++ (whole ++ behind) := by simp
    have hwholePart := dropWhile_digits hdigits.1 hbehind.1
    by_cases hne : whole = []
    · -- only white space
      apply parseMoney_of_parseWhole hzero _ (fun _ hc => absurd hc List.not_mem_nil) hdigits.1 hlen hunits
      have hall : (before ++ (whole ++ behind)).dropWhile isSpace = [] := by
        rw [hne, List.nil_append, List.dropWhile_eq_nil_iff, List.forall_mem_append]
        exact hspaces
      rw [hshape, hall, hne, parseWhole, decimalValue_nil, Nat.zero_mul]
      rfl
    · apply parseMoney_of_parseWhole hzero _ hspaces.2 hdigits.1 hlen hunits
      rw [hshape, dropWhile_spaces hspaces.1 hdigits.1 (.inr hne), parseWhole_eq, hwholePart.1, hwholePart.2,
        decimalValue_nil, Nat.zero_mul, List.nil_append]
      cases behind with
      | nil => rfl
      | cons c behind =>
        have hc : isSpace c = true := hspaces.2 c List.mem_cons_self
        have hpoint : c ≠ 0x2e := by
          intro hc'
          rw [hc'] at hc
          exact absurd hc (by decide)
        dsimp only
        rw [if_neg hpoint, if_pos hc]
        rfl

theorem isMoneyText_of_parseMoney {r : Int64} (hzero : (0 : UInt8) ∉ str) (h : parseMoney str = some r) :
    ∃ v, IsMoneyText str v := by
  rw [parseMoney, cString_eq hzero, Option.bind_eq_bind, Option.bind_eq_some_iff] at h
  obtain ⟨⟨strWhole, nUnits, rest⟩, hloop, h⟩ := h
  dsimp only at h
  by_cases hany : (rest.any fun c => !isSpace c) = true
  · rw [if_pos hany] at h
    cases h
  rw [if_neg hany] at h
  by_cases hlen : strWhole.length > 10
  · rw [if_pos hlen] at h
    cases h
  have hrest : ∀ c ∈ rest, isSpace c = true := by simpa using hany
  have hbefore : ∀ c ∈ str.takeWhile isSpace, isSpace c = true := fun c hc => List.mem_takeWhile_imp hc
  have hstr := List.takeWhile_append_dropWhile (p := isSpace) (l := str)
  generalize str.dropWhile isSpace = p at hloop hstr
  have hp := List.takeWhile_append_dropWhile (p := isDigit) (l := p)
  have hwhole : ∀ c ∈ p.takeWhile isDigit, isDigit c = true := fun c hc => List.mem_takeWhile_imp hc
  rw [parseWhole_eq, List.nil_append] at hloop
  cases hend : p.dropWhile isDigit with
  | nil =>
    rw [hend] at hloop hp
    obtain ⟨rfl, -⟩ := Prod.mk.inj (Option.some.inj hloop)
    refine ⟨_, str.takeWhile isSpace, p.takeWhile isDigit, [], [], [], ?_, by simpa using hbefore,
      by simpa using hwhole, .inr ⟨rfl, rfl⟩, by omega, by simp, rfl⟩
    rw [List.append_nil] at hp
    rw [hp, List.append_nil, List.append_nil, List.append_nil, hstr]
  | cons c q =>
    rw [hend] at hloop hp
    dsimp only at hloop
    by_cases hpoint : c = 0x2e
    · -- what is behind the digits of the fraction is white space
      have hunits := parseUnits_eq le_rfl 0 q
      rw [if_pos hpoint, cent_mult] at hloop
      obtain ⟨rfl, hrestEq⟩ := Prod.mk.inj (Option.some.inj hloop)
      have hpair := hunits.symm.trans hrestEq
      have hrestEq : q.drop ((q.takeWhile isDigit).take 8).length = rest := congrArg Prod.snd hpair
      have hfrac : (q.takeWhile isDigit).take 8 ++ rest = q := by
        have hprefix : (q.takeWhile isDigit).take 8 <+: q :=
          (List.take_prefix 8 _).trans (List.takeWhile_prefix isDigit)
        rw [← hrestEq]
        exact List.prefix_iff_eq_append.mp hprefix
      refine ⟨_, str.takeWhile isSpace, p.takeWhile isDigit, [0x2e], (q.takeWhile isDigit).take 8, rest, ?_,
        List.forall_mem_append.mpr ⟨hbefore, hrest⟩, List.forall_mem_append.mpr ⟨hwhole, ?_⟩, .inl rfl, by omega,
        List.length_take_le _ _, rfl⟩
      · rw [List.append_assoc, hfrac, List.append_assoc, List.append_assoc, List.singleton_append, ← hpoint, hp, hstr]
      · intro d hd
        exact List.mem_takeWhile_imp (List.mem_of_mem_take hd)
    · rw [if_neg hpoint] at hloop
      by_cases hc : isSpace c = true
      · rw [if_pos hc] at hloop
        obtain ⟨rfl, hpair⟩ := Prod.mk.inj (Option.some.inj hloop)
        obtain ⟨-, rfl⟩ := Prod.mk.inj hpair
        refine ⟨_, str.takeWhile isSpace, p.takeWhile isDigit, [], [], c :: q, ?_,
          List.forall_mem_append.mpr ⟨hbefore, hrest⟩, by simpa using hwhole, .inr ⟨rfl, rfl⟩, by omega, by simp, rfl⟩
        rw [List.append_nil, List.append_nil, List.append_assoc, hp, hstr]
      · rw [if_neg hc] at hloop
        cases hloop

end ParseSpec

section RoundTrip

variable {n : Int64} {m : Nat}

/-- Zeros are taken away as long as two digits are left behind the point. -/
theorem trimZeros_eq (rfrac rwhole : Bytes) (h : ∀ c ∈ rfrac, isDigit c = true) (hlen : 2 ≤ rfrac.length) :
    ∃ j kept, rfrac = List.replicate j 0x30 ++ kept ∧ trimZeros (rfrac ++ 0x2e :: rwhole) = kept ++ 0x2e :: rwhole := by
  induction rfrac with
  | nil => cases hlen
  | cons c rfrac ih =>
    have h' := List.forall_mem_cons.mp h
    match rfrac with
    | [] => exact absurd hlen (by simp)
    | [d] =>
      refine ⟨0, [c, d], rfl, ?_⟩
      rw [List.cons_append, List.cons_append, List.nil_append, trimZeros, if_neg]
      intro hpoint
      exact absurd hpoint.2 (by decide)
    | d :: e :: rest =>
      rw [List.cons_append, List.cons_append, List.cons_append, trimZeros]
      by_cases hc : c = 0x30
      · obtain ⟨j, kept, hkept, htrim⟩ := ih h'.2 (by simp)
        rw [if_pos ⟨hc, h e (by simp)⟩]
        exact ⟨j + 1, kept, by rw [hkept, hc]; rfl, htrim⟩
      · exact ⟨0, c :: d :: e :: rest, rfl, if_neg fun hzero => hc hzero.1⟩

theorem toInt_div_coin (h : m < 10 ^ 18) : (Int64.ofNat m / COIN).toInt = (m / 10 ^ 8 : Nat) := by
  have hint : (Int64.ofNat m).toInt = m := Int64.toInt_ofNat_of_lt (by omega)
  have hcoin : COIN.toInt = (10 ^ 8 : Nat) := rfl
  have hle : m / 10 ^ 8 ≤ m := Nat.div_le_self _ _
  rw [Int64.toInt_div, hint, hcoin, Int.tdiv_eq_ediv_of_nonneg (by omega), ← Int.natCast_ediv,
    Int.bmod_eq_of_le] <;> omega

theorem toInt_mod_coin (h : m < 10 ^ 18) : (Int64.ofNat m % COIN).toInt = (m % 10 ^ 8 : Nat) := by
  have hint : (Int64.ofNat m).toInt = m := Int64.toInt_ofNat_of_lt (by omega)
  have hcoin : COIN.toInt = (10 ^ 8 : Nat) := rfl
  rw [Int64.toInt_mod, hint, hcoin, Int.tmod_eq_emod_of_nonneg (by omega), ← Int.natCast_emod]

theorem printDecimal_natCast (m : Nat) : printDecimal m = decimalText m := by
  rw [printDecimal, if_neg (by omega), Int.natAbs_natCast]

theorem printPadded_natCast (width m : Nat) : printPadded width m = paddedText width m := by
  rw [printPadded, if_neg (by omega), Int.natAbs_natCast]

/-- What is written means the amount. -/
theorem isMoneyText_formatMoney (h : m < 10 ^ 18) : IsMoneyText (formatMoney (Int64.ofNat m) false) m := by
  have hint : (Int64.ofNat m).toInt = m := Int64.toInt_ofNat_of_lt (by omega)
  have hzero : (0 : Int64).toInt = 0 := rfl
  have habs : (if Int64.ofNat m > 0 then Int64.ofNat m else -Int64.ofNat m) = Int64.ofNat m := by
    by_cases hpos : 0 < m
    · rw [if_pos]
      rw [gt_iff_lt, Int64.lt_iff_toInt_lt, hint, hzero]
      omega
    · obtain rfl : m = 0 := by omega
      rfl
  have hneg : ¬Int64.ofNat m < 0 := by
    rw [Int64.lt_iff_toInt_lt, hint, hzero]
    omega
  have hfracLen : (paddedText 8 (m % 10 ^ 8)).length = 8 := paddedText_length (by decide) (Nat.mod_lt _ (by decide))
  have hfracDigits := paddedText_isDigit 8 (m % 10 ^ 8)
  obtain ⟨j, kept, hkept, htrim⟩ := trimZeros_eq (paddedText 8 (m % 10 ^ 8)).reverse (decimalText (m / 10 ^ 8)).reverse
    (fun c hc => hfracDigits c (List.mem_reverse.mp hc)) (by rw [List.length_reverse, hfracLen]; decide)
  have hfrac : paddedText 8 (m % 10 ^ 8) = kept.reverse ++ List.replicate j 0x30 := by
    rw [← List.reverse_reverse (paddedText 8 (m % 10 ^ 8)), hkept, List.reverse_append, List.reverse_replicate]
  have htext : formatMoney (Int64.ofNat m) false = [] ++ decimalText (m / 10 ^ 8) ++ [0x2e] ++ kept.reverse ++ [] := by
    rw [formatMoney, habs, if_neg hneg, if_neg (by simp), toInt_div_coin h, toInt_mod_coin h, printDecimal_natCast,
      printPadded_natCast, List.reverse_append, List.reverse_append, List.reverse_singleton, List.singleton_append,
      htrim]
    simp
  have hlen : kept.reverse.length + j = 8 := by
    rw [hfrac, List.length_append, List.length_replicate] at hfracLen
    exact hfracLen
  have hvalue : m % 10 ^ 8 = decimalValue kept.reverse * 10 ^ (8 - kept.reverse.length) := by
    have hj : 8 - kept.reverse.length = j := by omega
    rw [← decimalValue_paddedText 8 (m % 10 ^ 8), hfrac, decimalValue_append, decimalValue_zeros, List.length_replicate,
      hj, Nat.add_zero]
  refine ⟨[], decimalText (m / 10 ^ 8), [0x2e], kept.reverse, [], htext, by simp, List.forall_mem_append.mpr
    ⟨decimalText_isDigit _, fun c hc => hfracDigits c ?_⟩, .inl rfl, decimalText_length (by decide) (by omega),
    by omega, ?_⟩
  · rw [hfrac]
    exact List.mem_append_left _ hc
  · rw [decimalValue_decimalText, ← hvalue]
    omega

theorem notMem_of_isMoneyText {str : Bytes} {v : Nat} (h : IsMoneyText str v) : (0 : UInt8) ∉ str := by
  obtain ⟨before, whole, point, frac, behind, rfl, hspaces, hdigits, hpoint, -⟩ := h
  rw [List.forall_mem_append] at hspaces hdigits
  have hspace : ∀ l : Bytes, (∀ c ∈ l, isSpace c = true) → (0 : UInt8) ∉ l := fun l hl hzero =>
    absurd (hl 0 hzero) (by decide)
  have hdigit : ∀ l : Bytes, (∀ c ∈ l, isDigit c = true) → (0 : UInt8) ∉ l := fun l hl hzero =>
    absurd (hl 0 hzero) (by decide)
  have hmark : (0 : UInt8) ∉ point := by
    cases hpoint with
    | inl hpoint => rw [hpoint]; decide
    | inr hpoint => rw [hpoint.1]; exact List.not_mem_nil
  simp only [List.mem_append, not_or]
  exact ⟨⟨⟨⟨hspace _ hspaces.1, hdigit _ hdigits.1⟩, hmark⟩, hdigit _ hdigits.2⟩, hspace _ hspaces.2⟩

/-- What is written is read again. Exactly the texts of the grammar are read, with their value. -/
theorem parseMoney_spec :
    (∀ n : Int64, 0 ≤ n.toInt → n.toInt < 10 ^ 18 → parseMoney (formatMoney n false) = some n) ∧
    ∀ str : Bytes, (0 : UInt8) ∉ str →
      (∀ v, IsMoneyText str v →
        ∃ nRet, parseMoney str = some nRet ∧ nRet.toInt = v) ∧
      ∀ nRet, parseMoney str = some nRet → ∃ v, IsMoneyText str v := by
  constructor
  · intro n hnonneg hmax
    obtain ⟨m, hm⟩ := Int.eq_ofNat_of_zero_le hnonneg
    have hlt : m < 10 ^ 18 := by omega
    have hn : n = Int64.ofNat m := by
      rw [← Int64.toInt_inj, hm, Int64.toInt_ofNat_of_lt (by omega)]
    have htext := isMoneyText_formatMoney hlt
    rw [hn]
    exact (parseMoney_of_isMoneyText (notMem_of_isMoneyText htext) htext).2
  · intro str hzero
    apply And.intro _ fun nRet h => isMoneyText_of_parseMoney hzero h
    intro v htext
    have hparse := parseMoney_of_isMoneyText hzero htext
    exact ⟨_, hparse.2, Int64.toInt_ofNat_of_lt (by omega)⟩

theorem parseMoney_spec_sample :
    parseMoney (formatMoney 120000000 false) = some 120000000 ∧
      ∃ nRet, parseMoney [0x20, 0x31, 0x2e, 0x32] = some nRet ∧ nRet.toInt = 120000000 :=
  ⟨parseMoney_spec.1 120000000 (by decide) (by decide),
    (parseMoney_spec.2 [0x20, 0x31, 0x2e, 0x32] (by decide)).1 120000000
      ⟨[0x20], [0x31], [0x2e], [0x32], [], rfl, by decide +kernel, by decide +kernel, .inl rfl, by decide, by decide,
        rfl⟩⟩

end RoundTrip

end AliasWallet
