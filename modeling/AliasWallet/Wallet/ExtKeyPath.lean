import AliasWallet.Lib.Bytes
import AliasWallet.Lib.CString
import Mathlib.Data.Nat.Digits.Defs

/-!
# Paths of extended keys (`extkey.cpp`)

`ExtractExtKeyPath` reads a path such as `m/0h/0x1f/3`. What it accepts is compared with the paths as they are meant: a
component that begins with `m` is taken for the letter alone.
-/

namespace AliasWallet
open Lib

/-- The slash between components. -/
def slash : UInt8 := 0x2f

def letterM : UInt8 := 0x6d

section Numbers

/-- `errno` after a conversion. -/
inductive Errno
  | EINVAL
  | ERANGE
  deriving DecidableEq, Repr

/-- The value of a digit or a letter. -/
def digitValue (c : UInt8) : Option Nat :=
  if 0x30 ≤ c ∧ c ≤ 0x39 then some (c.toNat - 0x30)
  else if 0x41 ≤ c ∧ c ≤ 0x5a then some (c.toNat - 0x41 + 10)
  else if 0x61 ≤ c ∧ c ≤ 0x7a then some (c.toNat - 0x61 + 10)
  else none

/-- The loop over the digits, with the value so far and `any`. -/
def strtouLoop (base : Nat) : Nat → Int → Bytes → Nat × Int
  | acc, any, [] => (acc, any)
  | acc, any, c :: s =>
    match digitValue c with
    | none => (acc, any)
    | some d =>
      if d ≥ base then (acc, any)
      else if any < 0 ∨ acc > 0xffffffff / base ∨ (acc = 0xffffffff / base ∧ d > 0xffffffff % base)
        then strtouLoop base acc (-1) s
      else strtouLoop base (acc * base + d) 1 s

def isHexDigit (c : UInt8) : Bool :=
  (decide (0x30 ≤ c) && decide (c ≤ 0x39)) || (decide (0x41 ≤ c) && decide (c ≤ 0x46)) ||
    (decide (0x61 ≤ c) && decide (c ≤ 0x66))

/-- A sign in front of a number. -/
def readSign : Bytes → Bool × Bytes
  | 0x2d :: s => (true, s)
  | 0x2b :: s => (false, s)
  | s => (false, s)

/-- `0x` in front of a hexadecimal number. -/
def readHexPrefix (base : Nat) : Bytes → Nat × Bytes
  | c :: x :: d :: s =>
    if (base = 0 ∨ base = 16) ∧ c = 0x30 ∧ (x = 0x78 ∨ x = 0x58) ∧ isHexDigit d = true then (16, d :: s)
    else (base, c :: x :: d :: s)
  | s => (base, s)

def strtou32max (nptr : Bytes) (base : Nat) : Except Errno UInt32 :=
  let (neg, s) := readSign (nptr.dropWhile isSpace)
  let (base, s) := readHexPrefix base s
  let base := if base = 0 then (if s.head? = some 0x30 then 8 else 10) else base
  if base < 2 ∨ base > 36 then .error .EINVAL
  else
    let (acc, any) := strtouLoop base 0 0 s
    if any < 0 then .error .ERANGE
    else if any = 0 then .error .EINVAL
    else .ok (if neg then -(UInt32.ofNat acc) else UInt32.ofNat acc)

/-- `validDigit`. -/
def validDigit (c : UInt8) (base : Nat) : Bool :=
  if base = 2 then decide (c = 0x30 ∨ c = 0x31)
  else if base = 10 then decide (0x30 ≤ c ∧ c ≤ 0x39)
  else if base = 16 then isHexDigit c
  else false

end Numbers

section Extract

/-- `nBase` of a component, and the component behind `0b` or `0x`. -/
def componentBase : Bytes → Nat × Bytes
  | c :: x :: p =>
    if c = 0x30 ∧ (x = 0x62 ∨ x = 0x42) then (2, p)
    else if c = 0x30 ∧ (x = 0x78 ∨ x = 0x58) then (16, p)
    else (10, c :: x :: p)
  | p => (10, p)

/-- The marks of a hardened number: `h`, `H` and an apostrophe. -/
def isHardenMark (c : UInt8) : Bool := toLower c == 0x68 || c == 0x27

/-- The loop over a component: its digits, and whether the last character hardens the number. -/
def scanDigits (nBase : Nat) : Bytes → Except Nat (Bytes × Bool)
  | [] => .ok ([], false)
  | c :: p =>
    if p = [] ∧ isHardenMark c = true then .ok ([], true)
    else if validDigit c nBase then
      match scanDigits nBase p with
      | .ok (ps, fHarden) => .ok (c :: ps, fHarden)
      | .error e => .error e
    else .error 4

/-- `nChild` of a number, or the code that is returned. -/
def extractNumber (p : Bytes) : Except Nat UInt32 :=
  let (nBase, p) := componentBase p
  match scanDigits nBase p with
  | .error e => .error e
  | .ok (ps, fHarden) =>
    match strtou32max ps nBase with
    | .error _ => .error 5
    | .ok nChild =>
      if ¬ fHarden then .ok nChild
      else if nChild >>> 31 = 0 then .ok (nChild ||| 0x80000000)
      else .error 8

/-- `nChild` of a component; only its first character is compared with `m`. -/
def extractChild (p : Bytes) : Except Nat UInt32 :=
  if p.head?.map toLower = some letterM then .ok 0 else extractNumber p

/-- The loop over the tokens. -/
def extractLoop : List Bytes → List UInt32 → Nat × List UInt32
  | [], vPath => if vPath.length < 1 then (3, vPath) else (0, vPath)
  | p :: ps, vPath =>
    match extractChild p with
    | .error e => (e, vPath)
    | .ok nChild =>
      if nChild = 0 ∧ (vPath ++ [nChild]).length ≠ 1 ∧ ps ≠ [] then (6, vPath ++ [nChild])
      else extractLoop ps (vPath ++ [nChild])

/-- A slash at the start, at the end or in front of another one. -/
def badSlash : Bool → Bytes → Bool
  | _, [] => false
  | first, c :: s => (c == slash && (first || s.isEmpty || s.head? == some slash)) || badSlash false s

/-- `ExtractExtKeyPath`: the code that it returns, and `vPath`. -/
def extractExtKeyPath (sPath : Bytes) : Nat × List UInt32 :=
  if sPath.length > 510 then (2, [])
  else if sPath.length < 1 then (3, [])
  else if badSlash true sPath then (7, [])
  else extractLoop (tokens slash (cString sPath)) []

end Extract

section Digits

/-- Digits of a base, at least one. -/
def Digits (base : Nat) (ds : Bytes) : Prop := ds ≠ [] ∧ ∀ d ∈ ds, validDigit d base = true

/-- The bases of a component. -/
def PathBase (base : Nat) : Prop := base = 2 ∨ base = 10 ∨ base = 16

def digitsVal (base : Nat) (acc : Nat) (ds : Bytes) : Nat :=
  ds.foldl (fun acc d => acc * base + (digitValue d).getD 0) acc

theorem isHexDigit_range {c : UInt8} (h : isHexDigit c = true) :
    (48 ≤ c.toNat ∧ c.toNat ≤ 57) ∨ (65 ≤ c.toNat ∧ c.toNat ≤ 70) ∨ (97 ≤ c.toNat ∧ c.toNat ≤ 102) := by
  simp only [isHexDigit, Bool.or_eq_true, Bool.and_eq_true, decide_eq_true_eq, UInt8.le_iff_toNat_le] at h
  exact or_assoc.mp h

theorem validDigit_isHexDigit {c : UInt8} {base : Nat} (h : validDigit c base = true) : isHexDigit c = true := by
  simp only [isHexDigit, Bool.or_eq_true, Bool.and_eq_true, decide_eq_true_eq]
  rw [validDigit] at h
  by_cases h2 : base = 2
  · rw [if_pos h2, decide_eq_true_eq] at h
    cases h with
    | inl h => rw [h]; decide
    | inr h => rw [h]; decide
  by_cases h10 : base = 10
  · rw [if_neg h2, if_pos h10, decide_eq_true_eq] at h
    exact .inl (.inl h)
  by_cases h16 : base = 16
  · rw [if_neg h2, if_neg h10, if_pos h16] at h
    simpa only [isHexDigit, Bool.or_eq_true, Bool.and_eq_true, decide_eq_true_eq] using h
  · rw [if_neg h2, if_neg h10, if_neg h16] at h
    cases h

/-- A digit has a value below its base. -/
theorem validDigit_value {c : UInt8} {base : Nat} (hbase : PathBase base) (h : validDigit c base = true) :
    ∃ d < base, digitValue c = some d := by
  have hrange := isHexDigit_range (validDigit_isHexDigit h)
  rw [validDigit] at h
  rw [digitValue]
  simp only [UInt8.le_iff_toNat_le] at h ⊢
  have h30 : (0x30 : UInt8).toNat = 48 := rfl
  have h39 : (0x39 : UInt8).toNat = 57 := rfl
  have h41 : (0x41 : UInt8).toNat = 65 := rfl
  have h5a : (0x5a : UInt8).toNat = 90 := rfl
  have h61 : (0x61 : UInt8).toNat = 97 := rfl
  have h7a : (0x7a : UInt8).toNat = 122 := rfl
  rw [h30, h39] at h
  rw [h30, h39, h41, h5a, h61, h7a]
  by_cases hdec : 48 ≤ c.toNat ∧ c.toNat ≤ 57
  · rw [if_pos hdec]
    refine ⟨_, ?_, rfl⟩
    cases hbase with
    | inl hbin =>
      rw [if_pos hbin, decide_eq_true_eq] at h
      have hbit : c.toNat = 48 ∨ c.toNat = 49 := by
        cases h with
        | inl h => rw [h]; exact .inl rfl
        | inr h => rw [h]; exact .inr rfl
      omega
    | inr hbase => omega
  · rw [if_neg hdec]
    have hbase16 : base = 16 := by
      cases hbase with
      | inl hbin =>
        rw [if_pos hbin, decide_eq_true_eq] at h
        cases h with
        | inl h => rw [h] at hdec; exact absurd ⟨le_rfl, by decide⟩ hdec
        | inr h => rw [h] at hdec; exact absurd ⟨by decide, by decide⟩ hdec
      | inr hbase =>
        cases hbase with
        | inl h10 => rw [if_neg (by omega), if_pos h10, decide_eq_true_eq] at h; exact absurd h hdec
        | inr h16 => exact h16
    by_cases hupper : 65 ≤ c.toNat ∧ c.toNat ≤ 90
    · rw [if_pos hupper]
      exact ⟨_, by omega, rfl⟩
    · rw [if_neg hupper, if_pos (by omega)]
      exact ⟨_, by omega, rfl⟩

theorem digitsVal_cons (base acc : Nat) (d : UInt8) (ds : Bytes) :
    digitsVal base acc (d :: ds) = digitsVal base (acc * base + (digitValue d).getD 0) ds := rfl

theorem le_digitsVal {base : Nat} (hbase : 0 < base) (acc : Nat) (ds : Bytes) : acc ≤ digitsVal base acc ds := by
  induction ds generalizing acc with
  | nil => exact le_rfl
  | cons d ds ih =>
    rw [digitsVal_cons]
    calc acc ≤ acc * base := Nat.le_mul_of_pos_right acc hbase
      _ ≤ acc * base + (digitValue d).getD 0 := Nat.le_add_right _ _
      _ ≤ _ := ih _

theorem strtouLoop_overflow {base : Nat} (hbase : PathBase base) (acc : Nat) (ds : Bytes)
    (hds : ∀ d ∈ ds, validDigit d base = true) : strtouLoop base acc (-1) ds = (acc, -1) := by
  induction ds with
  | nil => rfl
  | cons c ds ih =>
    have hds' := List.forall_mem_cons.mp hds
    obtain ⟨d, hd, hvalue⟩ := validDigit_value hbase hds'.1
    rw [strtouLoop, hvalue]
    dsimp only
    rw [if_neg (by omega), if_pos (.inl (by decide))]
    exact ih hds'.2

/-- The test against `cutoff` and `cutlim` is a test of the next value. -/
theorem cutoff_iff {base acc d : Nat} (hbase : PathBase base) (hd : d < base) :
    acc > 0xffffffff / base ∨ (acc = 0xffffffff / base ∧ d > 0xffffffff % base) ↔ ¬ acc * base + d < 2 ^ 32 := by
  cases hbase with
  | inl hbin => subst base; omega
  | inr hbase =>
    cases hbase with
    | inl h10 => subst base; omega
    | inr h16 => subst base; omega

theorem strtouLoop_eq {base : Nat} (hbase : PathBase base) (acc : Nat) (any : Int) (hany : 0 ≤ any) (ds : Bytes)
    (hds : ∀ d ∈ ds, validDigit d base = true) (hacc : acc < 2 ^ 32) :
    (digitsVal base acc ds < 2 ^ 32 →
      strtouLoop base acc any ds = (digitsVal base acc ds, if ds = [] then any else 1)) ∧
    (¬ digitsVal base acc ds < 2 ^ 32 → (strtouLoop base acc any ds).2 = -1) := by
  have hpos : 0 < base := by
    rw [PathBase] at hbase
    omega
  induction ds generalizing acc any with
  | nil => exact ⟨fun _ => rfl, fun h => absurd hacc h⟩
  | cons c ds ih =>
    have hds' := List.forall_mem_cons.mp hds
    obtain ⟨d, hd, hvalue⟩ := validDigit_value hbase hds'.1
    have hgetD : (digitValue c).getD 0 = d := by rw [hvalue]; rfl
    rw [strtouLoop, hvalue, digitsVal_cons, hgetD]
    dsimp only
    rw [if_neg (by omega)]
    by_cases hover : acc * base + d < 2 ^ 32
    · rw [if_neg (not_or.mpr ⟨by omega, fun h => (cutoff_iff hbase hd).mp h hover⟩), if_neg (List.cons_ne_nil c ds)]
      obtain ⟨hsmall, hbig⟩ := ih (acc * base + d) 1 (by decide) hds'.2 hover
      refine ⟨fun h => ?_, hbig⟩
      rw [hsmall h, ite_self]
    · have hge := le_digitsVal hpos (acc * base + d) ds
      rw [if_pos (.inr ((cutoff_iff hbase hd).mpr hover)), strtouLoop_overflow hbase acc ds hds'.2]
      exact ⟨fun h => absurd h (by omega), fun _ => rfl⟩

/-- A digit is none of the characters that a conversion skips. -/
theorem isHexDigit_ne {c x : UInt8} (h : isHexDigit c = true) (hx : isHexDigit x = false) : c ≠ x := by
  intro hc
  rw [hc, hx] at h
  cases h

theorem isSpace_of_isHexDigit {c : UInt8} (h : isHexDigit c = true) : isSpace c = false := by
  have hrange := isHexDigit_range h
  have hspace : (0x20 : UInt8).toNat = 32 := rfl
  have hlow : (9 : UInt8).toNat = 9 := rfl
  have hhigh : (13 : UInt8).toNat = 13 := rfl
  rw [isSpace, Bool.or_eq_false_iff, Bool.and_eq_false_iff, decide_eq_false_iff_not, decide_eq_false_iff_not,
    decide_eq_false_iff_not, UInt8.le_iff_toNat_le, UInt8.le_iff_toNat_le, hlow, hhigh]
  refine ⟨fun hc => ?_, by omega⟩
  rw [hc, hspace] at hrange
  omega

theorem readSign_of_isHexDigit {c : UInt8} (h : isHexDigit c = true) (s : Bytes) :
    readSign (c :: s) = (false, c :: s) := by
  have hminus := isHexDigit_ne h (by decide : isHexDigit 0x2d = false)
  have hplus := isHexDigit_ne h (by decide : isHexDigit 0x2b = false)
  unfold readSign
  split
  · rename_i heq
    exact absurd (List.cons.inj heq).1 hminus
  · rename_i heq
    exact absurd (List.cons.inj heq).1 hplus
  · rfl

theorem readHexPrefix_of_isHexDigit (base : Nat) {ds : Bytes} (h : ∀ d ∈ ds, isHexDigit d = true) :
    readHexPrefix base ds = (base, ds) := by
  match ds with
  | [] => rfl
  | [_] => rfl
  | [_, _] => rfl
  | c :: x :: d :: s =>
    have hx := h x (by simp)
    have hlower := isHexDigit_ne hx (by decide : isHexDigit 0x78 = false)
    have hupper := isHexDigit_ne hx (by decide : isHexDigit 0x58 = false)
    rw [readHexPrefix, if_neg]
    intro hprefix
    cases hprefix.2.2.1 with
    | inl heq => exact hlower heq
    | inr heq => exact hupper heq

/-- The conversion of checked digits. -/
theorem strtou32max_eq {base : Nat} (hbase : PathBase base) (ds : Bytes)
    (hds : ∀ d ∈ ds, validDigit d base = true) :
    strtou32max ds base =
      if ds = [] then .error .EINVAL
      else if digitsVal base 0 ds < 2 ^ 32 then .ok (UInt32.ofNat (digitsVal base 0 ds)) else .error .ERANGE := by
  have hhex : ∀ d ∈ ds, isHexDigit d = true := fun d hd => validDigit_isHexDigit (hds d hd)
  have hskip : ds.dropWhile isSpace = ds := by
    cases ds with
    | nil => rfl
    | cons c ds =>
      rw [List.dropWhile_cons, isSpace_of_isHexDigit (hhex c List.mem_cons_self), if_neg Bool.false_ne_true]
  have hsign : readSign ds = (false, ds) := by
    cases ds with
    | nil => rfl
    | cons c ds => exact readSign_of_isHexDigit (hhex c List.mem_cons_self) ds
  have hrange : base ≠ 0 ∧ ¬ (base < 2 ∨ base > 36) := by
    rw [PathBase] at hbase
    omega
  obtain ⟨hsmall, hbig⟩ := strtouLoop_eq hbase 0 0 le_rfl ds hds (by decide)
  rw [strtou32max, hskip, hsign]
  dsimp only
  rw [readHexPrefix_of_isHexDigit base hhex]
  dsimp only
  rw [if_neg hrange.1, if_neg hrange.2]
  by_cases hempty : ds = []
  · rw [if_pos hempty, hempty]
    rfl
  rw [if_neg hempty]
  by_cases hfits : digitsVal base 0 ds < 2 ^ 32
  · rw [hsmall hfits, if_neg hempty, if_pos hfits]
    rfl
  · rw [if_neg hfits, hbig hfits]
    rfl

end Digits

section Child

/-- What stands in front of the digits. The letter may be of either case where `caseless` holds. -/
inductive NumberPrefix (caseless : Bool) : Nat → Bytes → Prop
  | decimal : NumberPrefix caseless 10 []
  | hex : NumberPrefix caseless 16 [0x30, 0x78]
  | binary : NumberPrefix caseless 2 [0x30, 0x62]
  | upperHex : caseless = true → NumberPrefix caseless 16 [0x30, 0x58]
  | upperBinary : caseless = true → NumberPrefix caseless 2 [0x30, 0x42]

/-- A number of a path with its value; a mark behind the digits sets the top bit. -/
inductive PathNumber (caseless : Bool) : Bytes → UInt32 → Prop
  | plain {base : Nat} {pre ds : Bytes} (hpre : NumberPrefix caseless base pre) (hds : Digits base ds)
      (hvalue : digitsVal base 0 ds < 2 ^ 32) : PathNumber caseless (pre ++ ds) (UInt32.ofNat (digitsVal base 0 ds))
  | hardened {base : Nat} {pre ds : Bytes} {mark : UInt8} (hpre : NumberPrefix caseless base pre)
      (hds : Digits base ds) (hvalue : digitsVal base 0 ds < 2 ^ 31) (hmark : mark ∈ [0x68, 0x48, 0x27]) :
      PathNumber caseless (pre ++ (ds ++ [mark])) (UInt32.ofNat (digitsVal base 0 ds + 2 ^ 31))

/-- A component whose first letter is `m` or `M`. -/
def BeginsWithM (p : Bytes) : Prop := p.head?.map toLower = some letterM

instance (p : Bytes) : Decidable (BeginsWithM p) := inferInstanceAs (Decidable (_ = _))

variable {caseless : Bool} {base nBase : Nat} {p pre ds ps : Bytes} {mark : UInt8} {fHarden : Bool}

theorem NumberPrefix.pathBase (h : NumberPrefix caseless base pre) : PathBase base := by
  cases h <;> simp [PathBase]

theorem toLower_eq_iff {c x : UInt8} (hx : 0x61 ≤ x.toNat ∧ x.toNat ≤ 0x7a) :
    toLower c = x ↔ c = x ∨ c = x - 0x20 := by
  have h20 : (0x20 : UInt8).toNat = 32 := rfl
  have hsub : (x - 0x20).toNat = x.toNat - 32 := by
    rw [UInt8.toNat_sub_of_le _ _ (UInt8.le_iff_toNat_le.mpr (by omega)), h20]
  rw [toLower, ← UInt8.toNat_inj, ← UInt8.toNat_inj, ← UInt8.toNat_inj, hsub]
  simp only [UInt8.le_iff_toNat_le]
  have h41 : (0x41 : UInt8).toNat = 65 := rfl
  have h5a : (0x5a : UInt8).toNat = 90 := rfl
  rw [h41, h5a]
  by_cases hupper : 65 ≤ c.toNat ∧ c.toNat ≤ 90
  · rw [if_pos hupper, UInt8.toNat_add, h20]
    omega
  · rw [if_neg hupper]
    omega

theorem isHardenMark_iff {c : UInt8} : isHardenMark c = true ↔ c ∈ [0x68, 0x48, 0x27] := by
  rw [isHardenMark, Bool.or_eq_true, beq_iff_eq, beq_iff_eq, toLower_eq_iff (by decide), or_assoc, List.mem_cons,
    List.mem_cons, List.mem_singleton]
  rfl

theorem isHardenMark_not_digit (h : isHardenMark mark = true) (base : Nat) : validDigit mark base = false := by
  have hmarks : ∀ mark ∈ ([0x68, 0x48, 0x27] : Bytes), isHexDigit mark = false := by
    simp only [List.forall_mem_cons]
    decide +kernel
  have hmark := hmarks mark (isHardenMark_iff.mp h)
  rw [← Bool.not_eq_true]
  intro hdigit
  rw [validDigit_isHexDigit hdigit] at hmark
  cases hmark

/-- The loop accepts digits, with or without a mark behind them. -/
theorem scanDigits_eq_ok :
    scanDigits nBase p = .ok (ps, fHarden) ↔
      (∀ d ∈ ps, validDigit d nBase = true) ∧
        ((fHarden = false ∧ p = ps) ∨ (fHarden = true ∧ ∃ mark, isHardenMark mark = true ∧ p = ps ++ [mark])) := by
  constructor
  · intro h
    induction p generalizing ps with
    | nil =>
      rw [scanDigits, Except.ok.injEq, Prod.mk.injEq] at h
      obtain ⟨rfl, rfl⟩ := h
      exact ⟨fun _ hd => absurd hd List.not_mem_nil, .inl ⟨rfl, rfl⟩⟩
    | cons c p ih =>
      rw [scanDigits] at h
      by_cases hmark : p = [] ∧ isHardenMark c = true
      · rw [if_pos hmark, Except.ok.injEq, Prod.mk.injEq] at h
        obtain ⟨rfl, rfl⟩ := h
        exact ⟨fun _ hd => absurd hd List.not_mem_nil, .inr ⟨rfl, c, hmark.2, by rw [hmark.1]; rfl⟩⟩
      rw [if_neg hmark] at h
      by_cases hdigit : validDigit c nBase = true
      · rw [if_pos hdigit] at h
        cases hscan : scanDigits nBase p with
        | error e =>
          rw [hscan] at h
          cases h
        | ok found =>
          obtain ⟨ps', fHarden'⟩ := found
          rw [hscan] at h
          simp only [Except.ok.injEq, Prod.mk.injEq] at h
          obtain ⟨rfl, rfl⟩ := h
          obtain ⟨hvalid, hshape⟩ := ih hscan
          refine ⟨List.forall_mem_cons.mpr ⟨hdigit, hvalid⟩, ?_⟩
          cases hshape with
          | inl h => exact .inl ⟨h.1, by rw [h.2]⟩
          | inr h =>
            obtain ⟨hharden, mark, hmark', hp⟩ := h
            exact .inr ⟨hharden, mark, hmark', by rw [hp]; rfl⟩
      · rw [if_neg hdigit] at h
        cases h
  · intro h
    obtain ⟨hvalid, hshape⟩ := h
    cases hshape with
    | inl h =>
      obtain ⟨rfl, rfl⟩ := h
      induction p with
      | nil => rfl
      | cons c p ih =>
        have hvalid' := List.forall_mem_cons.mp hvalid
        have hnomark : ¬ (p = [] ∧ isHardenMark c = true) := fun hmark => by
          rw [isHardenMark_not_digit hmark.2] at hvalid'
          exact Bool.false_ne_true hvalid'.1
        rw [scanDigits, if_neg hnomark, if_pos hvalid'.1, ih hvalid'.2]
    | inr h =>
      obtain ⟨rfl, mark, hmark, rfl⟩ := h
      induction ps with
      | nil => rw [List.nil_append, scanDigits, if_pos ⟨rfl, hmark⟩]
      | cons c ps ih =>
        have hvalid' := List.forall_mem_cons.mp hvalid
        rw [List.cons_append, scanDigits, if_neg (fun h => by simp at h), if_pos hvalid'.1, ih hvalid'.2]

/-- A prefix is recognised. -/
theorem componentBase_prefix (p : Bytes) :
    ∃ pre, NumberPrefix true (componentBase p).1 pre ∧ p = pre ++ (componentBase p).2 := by
  match p with
  | [] => exact ⟨[], .decimal, rfl⟩
  | [c] => exact ⟨[], .decimal, rfl⟩
  | c :: x :: p =>
    rw [componentBase]
    by_cases hbinary : c = 0x30 ∧ (x = 0x62 ∨ x = 0x42)
    · rw [if_pos hbinary]
      obtain ⟨rfl, hx⟩ := hbinary
      cases hx with
      | inl hx => exact ⟨[0x30, 0x62], .binary, by rw [hx]; rfl⟩
      | inr hx => exact ⟨[0x30, 0x42], .upperBinary rfl, by rw [hx]; rfl⟩
    rw [if_neg hbinary]
    by_cases hhex : c = 0x30 ∧ (x = 0x78 ∨ x = 0x58)
    · rw [if_pos hhex]
      obtain ⟨rfl, hx⟩ := hhex
      cases hx with
      | inl hx => exact ⟨[0x30, 0x78], .hex, by rw [hx]; rfl⟩
      | inr hx => exact ⟨[0x30, 0x58], .upperHex rfl, by rw [hx]; rfl⟩
    · rw [if_neg hhex]
      exact ⟨[], .decimal, rfl⟩

/-- Decimal digits and marks hold no prefix. -/
theorem componentBase_decimal {q : Bytes} (h : ∀ x ∈ q, validDigit x 10 = true ∨ isHardenMark x = true) :
    componentBase q = (10, q) := by
  match q with
  | [] => rfl
  | [_] => rfl
  | c :: x :: q =>
    have hx := h x (by simp)
    have hletter : ∀ y ∈ ([0x62, 0x42, 0x78, 0x58] : Bytes), validDigit y 10 = false ∧ isHardenMark y = false := by
      simp only [List.forall_mem_cons]
      decide +kernel
    have hnot : x ∉ ([0x62, 0x42, 0x78, 0x58] : Bytes) := by
      intro hmem
      obtain ⟨hdigit, hmark⟩ := hletter x hmem
      rw [hdigit, hmark] at hx
      simp at hx
    simp only [List.mem_cons, List.not_mem_nil, or_false, not_or] at hnot
    rw [componentBase, if_neg (fun hb => hb.2.elim hnot.1 hnot.2.1), if_neg (fun hx => hx.2.elim hnot.2.2.1 hnot.2.2.2)]

theorem componentBase_number {q : Bytes} (hpre : NumberPrefix true base pre)
    (hq : ∀ x ∈ q, validDigit x base = true ∨ isHardenMark x = true) : componentBase (pre ++ q) = (base, q) := by
  cases hpre with
  | decimal => exact componentBase_decimal hq
  | hex => rfl
  | binary => rfl
  | upperHex => rfl
  | upperBinary => rfl

theorem toLower_eq_letterM {c : UInt8} : toLower c = letterM ↔ c = 0x6d ∨ c = 0x4d := toLower_eq_iff (by decide)

theorem not_beginsWithM {q : Bytes} (hpre : NumberPrefix caseless base pre) (hds : Digits base ds) :
    ¬ BeginsWithM (pre ++ (ds ++ q)) := by
  have hzero : toLower 0x30 ≠ letterM := by decide
  cases hpre with
  | decimal =>
    cases ds with
    | nil => exact absurd rfl hds.1
    | cons c ds =>
      intro hm
      have hdigit := validDigit_isHexDigit (hds.2 c List.mem_cons_self)
      have hletters : isHexDigit 0x6d = false ∧ isHexDigit 0x4d = false := by decide
      cases toLower_eq_letterM.mp (Option.some.inj hm) with
      | inl hc => exact isHexDigit_ne hdigit hletters.1 hc
      | inr hc => exact isHexDigit_ne hdigit hletters.2 hc
  | hex => exact fun hm => hzero (Option.some.inj hm)
  | binary => exact fun hm => hzero (Option.some.inj hm)
  | upperHex _ => exact fun hm => hzero (Option.some.inj hm)
  | upperBinary _ => exact fun hm => hzero (Option.some.inj hm)

/-- The top bit of a smaller number is set by `|=`. -/
theorem harden_eq {n : Nat} (hn : n < 2 ^ 32) :
    (UInt32.ofNat n >>> 31 = 0 ↔ n < 2 ^ 31) ∧
      (n < 2 ^ 31 → UInt32.ofNat n ||| 0x80000000 = UInt32.ofNat (n + 2 ^ 31)) := by
  have hvalue : (UInt32.ofNat n).toNat = n := by rw [UInt32.toNat_ofNat', Nat.mod_eq_of_lt hn]
  constructor
  · rw [← UInt32.toNat_inj, UInt32.toNat_shiftRight, hvalue]
    show n >>> 31 = 0 ↔ _
    rw [Nat.shiftRight_eq_div_pow, Nat.div_eq_zero_iff]
    simp
  · intro hsmall
    rw [← UInt32.toNat_inj, UInt32.toNat_or, hvalue, UInt32.toNat_ofNat', Nat.mod_eq_of_lt (by omega)]
    have hor := Nat.two_pow_add_eq_or_of_lt hsmall 1
    rw [Nat.or_comm, Nat.add_comm]
    simpa using hor.symm

theorem extractNumber_of_scan {q : Bytes} (hbase : componentBase p = (base, q))
    (hscan : scanDigits base q = .ok (ds, fHarden)) (hpath : PathBase base) (hds : Digits base ds) :
    extractNumber p =
      if ¬ digitsVal base 0 ds < 2 ^ 32 then .error 5
      else if fHarden = false then .ok (UInt32.ofNat (digitsVal base 0 ds))
      else if digitsVal base 0 ds < 2 ^ 31 then .ok (UInt32.ofNat (digitsVal base 0 ds + 2 ^ 31))
      else .error 8 := by
  rw [extractNumber, hbase]
  dsimp only
  rw [hscan]
  dsimp only
  rw [strtou32max_eq hpath ds hds.2, if_neg hds.1]
  by_cases hfits : digitsVal base 0 ds < 2 ^ 32
  · obtain ⟨hbit, hor⟩ := harden_eq hfits
    rw [if_pos hfits, if_neg (not_not_intro hfits)]
    dsimp only
    cases fHarden with
    | false => rw [if_pos Bool.false_ne_true, if_pos rfl]
    | true =>
      rw [if_neg (not_not_intro rfl), if_neg (by decide : ¬ true = false)]
      by_cases hsmall : digitsVal base 0 ds < 2 ^ 31
      · rw [if_pos (hbit.mpr hsmall), if_pos hsmall, hor hsmall]
      · rw [if_neg (fun h => hsmall (hbit.mp h)), if_neg hsmall]
  · rw [if_neg hfits, if_pos hfits]

theorem extractNumber_iff (p : Bytes) (v : UInt32) : extractNumber p = .ok v ↔ PathNumber true p v := by
  constructor
  · intro h
    obtain ⟨pre, hpre, hp⟩ := componentBase_prefix p
    cases hbase : componentBase p with
    | mk base q =>
      rw [hbase] at hpre hp
      dsimp only at hpre hp
      cases hscan : scanDigits base q with
      | error e =>
        rw [extractNumber, hbase] at h
        dsimp only at h
        rw [hscan] at h
        cases h
      | ok found =>
        obtain ⟨ds, fHarden⟩ := found
        obtain ⟨hvalid, hshape⟩ := scanDigits_eq_ok.mp hscan
        have hne : ds ≠ [] := by
          intro hempty
          rw [extractNumber, hbase] at h
          dsimp only at h
          rw [hscan, hempty] at h
          dsimp only at h
          rw [strtou32max_eq hpre.pathBase [] (fun _ hd => absurd hd List.not_mem_nil), if_pos rfl] at h
          cases h
        rw [extractNumber_of_scan hbase hscan hpre.pathBase ⟨hne, hvalid⟩] at h
        by_cases hfits : digitsVal base 0 ds < 2 ^ 32
        · rw [if_neg (not_not_intro hfits)] at h
          cases hshape with
          | inl hplain =>
            rw [if_pos hplain.1] at h
            obtain rfl := Except.ok.inj h
            rw [hp, hplain.2]
            exact .plain hpre ⟨hne, hvalid⟩ hfits
          | inr hmarked =>
            obtain ⟨hharden, mark, hmark, hq⟩ := hmarked
            rw [if_neg (by rw [hharden]; decide)] at h
            by_cases hsmall : digitsVal base 0 ds < 2 ^ 31
            · rw [if_pos hsmall] at h
              obtain rfl := Except.ok.inj h
              rw [hp, hq]
              exact .hardened hpre ⟨hne, hvalid⟩ hsmall (isHardenMark_iff.mp hmark)
            · rw [if_neg hsmall] at h
              cases h
        · rw [if_pos hfits] at h
          cases h
  · intro h
    cases h with
    | plain hpre hds hvalue =>
      have hbase := componentBase_number hpre (fun x hx => .inl (hds.2 x hx))
      rw [extractNumber_of_scan hbase (scanDigits_eq_ok.mpr ⟨hds.2, .inl ⟨rfl, rfl⟩⟩) hpre.pathBase hds,
        if_neg (not_not_intro hvalue), if_pos rfl]
    | @hardened base pre ds mark hpre hds hvalue hmark =>
      have hmark' := isHardenMark_iff.mpr hmark
      have hq : ∀ x ∈ ds ++ [mark], validDigit x base = true ∨ isHardenMark x = true := by
        intro x hx
        rw [List.mem_append, List.mem_singleton] at hx
        cases hx with
        | inl hx => exact .inl (hds.2 x hx)
        | inr hx => exact .inr (hx ▸ hmark')
      have hbase := componentBase_number hpre hq
      rw [extractNumber_of_scan hbase (scanDigits_eq_ok.mpr ⟨hds.2, .inr ⟨rfl, _, hmark', rfl⟩⟩) hpre.pathBase hds,
        if_neg (not_not_intro (by omega)), if_neg (by decide : ¬ true = false), if_pos hvalue]

/-- A component is taken for zero where it begins with `m`, and must be a number otherwise. -/
theorem extractChild_iff (p : Bytes) (v : UInt32) :
    extractChild p = .ok v ↔ (BeginsWithM p ∧ v = 0) ∨ (¬ BeginsWithM p ∧ PathNumber true p v) := by
  by_cases hm : BeginsWithM p
  · have hchild : extractChild p = .ok 0 := if_pos hm
    rw [hchild, Except.ok.injEq]
    constructor
    · exact fun h => .inl ⟨hm, h.symm⟩
    · intro h
      cases h with
      | inl h => exact h.2.symm
      | inr h => exact absurd hm h.1
  · have hchild : extractChild p = extractNumber p := if_neg hm
    rw [hchild, extractNumber_iff]
    constructor
    · exact fun h => .inr ⟨hm, h⟩
    · intro h
      cases h with
      | inl h => exact absurd h.1 hm
      | inr h => exact h.2

theorem scanDigits_error {e : Nat} (h : scanDigits nBase p = .error e) : e = 4 := by
  induction p with
  | nil => cases h
  | cons c p ih =>
    rw [scanDigits] at h
    by_cases hmark : p = [] ∧ isHardenMark c = true
    · rw [if_pos hmark] at h
      cases h
    rw [if_neg hmark] at h
    by_cases hdigit : validDigit c nBase = true
    · rw [if_pos hdigit] at h
      cases hscan : scanDigits nBase p with
      | error e' =>
        rw [hscan] at h ih
        obtain rfl := Except.error.inj h
        exact ih rfl
      | ok found =>
        rw [hscan] at h
        cases h
    · rw [if_neg hdigit] at h
      exact (Except.error.inj h).symm

theorem extractChild_error {e : Nat} (h : extractChild p = .error e) : e ≠ 0 := by
  rw [extractChild] at h
  split at h
  · cases h
  rw [extractNumber] at h
  dsimp only at h
  cases hscan : scanDigits (componentBase p).1 (componentBase p).2 with
  | error e' =>
    rw [hscan] at h
    obtain rfl := Except.error.inj h
    rw [scanDigits_error hscan]
    decide
  | ok found =>
    rw [hscan] at h
    dsimp only at h
    split at h
    · obtain rfl := Except.error.inj h
      decide
    · split at h
      · cases h
      · split at h
        · cases h
        · obtain rfl := Except.error.inj h
          decide

end Child

section Loop

/-- A component with the value that is read from it. -/
def Component (p : Bytes) (v : UInt32) : Prop := (BeginsWithM p ∧ v = 0) ∨ (¬ BeginsWithM p ∧ PathNumber true p v)

theorem extractLoop_iff (ps : List Bytes) (vPath vPath' : List UInt32) (hne : vPath ≠ []) :
    extractLoop ps vPath = (0, vPath') ↔
      ∃ vs, vPath' = vPath ++ vs ∧ List.Forall₂ Component ps vs ∧ ∀ v ∈ vs.dropLast, v ≠ 0 := by
  induction ps generalizing vPath with
  | nil =>
    have hlen := List.length_pos_iff.mpr hne
    rw [extractLoop, if_neg (by omega), Prod.mk.injEq]
    constructor
    · intro h
      exact ⟨[], by rw [← h.2, List.append_nil], .nil, fun _ hv => absurd hv List.not_mem_nil⟩
    · intro h
      obtain ⟨vs, rfl, hforall, -⟩ := h
      cases hforall
      exact ⟨rfl, (List.append_nil _).symm⟩
  | cons p ps ih =>
    rw [extractLoop]
    cases hchild : extractChild p with
    | error e =>
      constructor
      · intro h
        exact absurd (Prod.mk.inj h).1 (extractChild_error hchild)
      · intro h
        obtain ⟨vs, -, hforall, -⟩ := h
        cases hforall with
        | cons hcomponent _ =>
          rw [(extractChild_iff _ _).mpr hcomponent] at hchild
          cases hchild
    | ok nChild =>
      have hcomponent := (extractChild_iff _ _).mp hchild
      have hlong : (vPath ++ [nChild]).length ≠ 1 := by
        have hlen := List.length_pos_iff.mpr hne
        rw [List.length_append, List.length_singleton]
        omega
      dsimp only
      by_cases hzero : nChild = 0 ∧ (vPath ++ [nChild]).length ≠ 1 ∧ ps ≠ []
      · rw [if_pos hzero]
        constructor
        · exact fun h => nomatch (Prod.mk.inj h).1
        · intro h
          obtain ⟨vs, -, hforall, hinterior⟩ := h
          cases hforall with
          | cons hother hrest =>
            cases hrest with
            | nil => exact absurd rfl hzero.2.2
            | cons _ _ =>
              have hvalue := (extractChild_iff _ _).mpr hother
              rw [hchild] at hvalue
              obtain rfl := Except.ok.inj hvalue
              exact absurd hzero.1 (hinterior _ (by simp))
      · rw [if_neg hzero, ih (vPath ++ [nChild]) (by simp)]
        constructor
        · intro h
          obtain ⟨vs, rfl, hforall, hinterior⟩ := h
          refine ⟨nChild :: vs, by simp, .cons hcomponent hforall, ?_⟩
          cases hforall with
          | nil => simp
          | cons _ _ =>
            rw [List.dropLast_cons_of_ne_nil (List.cons_ne_nil _ _)]
            exact List.forall_mem_cons.mpr ⟨fun h => hzero ⟨h, hlong, List.cons_ne_nil _ _⟩, hinterior⟩
        · intro h
          obtain ⟨vs, rfl, hforall, hinterior⟩ := h
          cases hforall with
          | @cons _ v _ vs hother hrest =>
            have hvalue := (extractChild_iff _ _).mpr hother
            rw [hchild] at hvalue
            obtain rfl := Except.ok.inj hvalue
            refine ⟨vs, by simp, hrest, fun v hv => hinterior v ?_⟩
            cases vs with
            | nil => exact absurd hv List.not_mem_nil
            | cons v' vs =>
              rw [List.dropLast_cons_of_ne_nil (List.cons_ne_nil _ _)]
              exact List.mem_cons_of_mem _ hv

/-- The slashes are well placed where no component is empty. -/
theorem badSlash_iff (s : Bytes) :
    badSlash false s = false ↔ ∀ comp ∈ (s.splitOn slash).tail, comp ≠ [] := by
  induction s with
  | nil => simp [badSlash]
  | cons c s ih =>
    rw [badSlash, Bool.or_eq_false_iff, ih, List.splitOn_cons_eq_if_modifyHead]
    obtain ⟨first, rest, hsplit⟩ := List.exists_cons_of_ne_nil (List.splitOn_ne_nil slash s)
    by_cases hc : c = slash
    · rw [if_pos (beq_iff_eq.mpr hc), List.tail_cons, hsplit, List.tail_cons, List.forall_mem_cons, hc,
        beq_self_eq_true, Bool.true_and, Bool.false_or, Bool.or_eq_false_iff]
      apply and_congr_left'
      cases s with
      | nil =>
        rw [List.splitOn_nil] at hsplit
        obtain ⟨rfl, -⟩ := List.cons.inj hsplit
        simp
      | cons c' s =>
        rw [List.splitOn_cons_eq_if_modifyHead] at hsplit
        by_cases hc' : c' = slash
        · rw [if_pos (beq_iff_eq.mpr hc')] at hsplit
          rw [← (List.cons.inj hsplit).1, hc']
          simp
        · rw [if_neg (fun h => hc' (beq_iff_eq.mp h))] at hsplit
          obtain ⟨first', rest', hsplit'⟩ := List.exists_cons_of_ne_nil (List.splitOn_ne_nil slash s)
          rw [hsplit', List.modifyHead_cons] at hsplit
          rw [← (List.cons.inj hsplit).1]
          simp [hc']
    · rw [if_neg (fun h => hc (beq_iff_eq.mp h)), hsplit, List.modifyHead_cons, List.tail_cons, List.tail_cons]
      simp [hc]

theorem badSlash_first_iff {s : Bytes} (hs : s ≠ []) :
    badSlash true s = false ↔ ∀ comp ∈ s.splitOn slash, comp ≠ [] := by
  cases s with
  | nil => exact absurd rfl hs
  | cons c s =>
    by_cases hc : c = slash
    · rw [List.splitOn_cons_eq_if_modifyHead, if_pos (beq_iff_eq.mpr hc), List.forall_mem_cons]
      simp [badSlash, hc]
    · have hnotFirst : badSlash true (c :: s) = badSlash false (c :: s) := by
        rw [badSlash, badSlash, beq_eq_false_iff_ne.mpr hc]
        rfl
      rw [hnotFirst, badSlash_iff, List.splitOn_cons_eq_if_modifyHead, if_neg (fun h => hc (beq_iff_eq.mp h))]
      obtain ⟨first, rest, hsplit⟩ := List.exists_cons_of_ne_nil (List.splitOn_ne_nil slash s)
      rw [hsplit, List.modifyHead_cons, List.tail_cons, List.forall_mem_cons]
      exact (and_iff_right (List.cons_ne_nil c first)).symm

end Loop

section Paths

/-- What the code reads from a path: components that are not empty, none but the first and the last of them zero. -/
def ReadablePath (sPath : Bytes) (vPath : List UInt32) : Prop :=
  (∀ comp ∈ sPath.splitOn slash, comp ≠ []) ∧ List.Forall₂ Component (sPath.splitOn slash) vPath ∧
    ∀ v ∈ vPath.tail.dropLast, v ≠ 0

/-- The first component of a path: one of the letters, or a number. -/
inductive FirstComponent (caseless : Bool) : Bytes → UInt32 → Prop
  | lower : FirstComponent caseless [0x6d] 0
  | upper : FirstComponent caseless [0x4d] 0
  | number {p : Bytes} {v : UInt32} : PathNumber caseless p v → FirstComponent caseless p v

/-- The paths as they are meant, with their values. -/
def IsPath (caseless : Bool) (sPath : Bytes) (vPath : List UInt32) : Prop :=
  ∃ first rest v vs, sPath = [slash].intercalate (first :: rest) ∧ vPath = v :: vs ∧
    FirstComponent caseless first v ∧ List.Forall₂ (PathNumber caseless) rest vs ∧ ∀ v ∈ vs.dropLast, v ≠ 0

/-- A number whose prefix has a capital letter. -/
def UpperPrefix (p : Bytes) : Prop := [0x30, 0x58] <+: p ∨ [0x30, 0x42] <+: p

/-- Only the first component begins with `m`, and it is the letter alone. Where the letters of a prefix are not
`caseless`, no component has `0X` or `0B`. -/
def PlainComponents (caseless : Bool) (sPath : Bytes) : Prop :=
  (∀ first ∈ (sPath.splitOn slash).head?, BeginsWithM first → first.length = 1) ∧
    (∀ comp ∈ (sPath.splitOn slash).tail, ¬ BeginsWithM comp) ∧
    (caseless = false → ∀ comp ∈ sPath.splitOn slash, ¬ UpperPrefix comp)

variable {caseless : Bool} {p : Bytes} {v : UInt32}

/-- `ExtractExtKeyPath` accepts what it can read, with the values that it reads. -/
theorem extractExtKeyPath_iff {sPath : Bytes} (hnul : (0 : UInt8) ∉ sPath) (hlow : 1 ≤ sPath.length)
    (hhigh : sPath.length ≤ 510) (vPath : List UInt32) :
    extractExtKeyPath sPath = (0, vPath) ↔ ReadablePath sPath vPath := by
  have hne : sPath ≠ [] := List.ne_nil_of_length_pos hlow
  rw [extractExtKeyPath, if_neg (by omega), if_neg (by omega), ReadablePath]
  by_cases hslash : badSlash true sPath = true
  · rw [if_pos hslash]
    constructor
    · exact fun h => nomatch (Prod.mk.inj h).1
    · intro h
      rw [(badSlash_first_iff hne).mpr h.1] at hslash
      cases hslash
  have hcomps := (badSlash_first_iff hne).mp (Bool.eq_false_of_not_eq_true hslash)
  rw [if_neg hslash, cString_eq hnul, tokens_eq_splitOn hcomps]
  obtain ⟨first, rest, hsplit⟩ := List.exists_cons_of_ne_nil (List.splitOn_ne_nil slash sPath)
  rw [hsplit] at hcomps ⊢
  rw [extractLoop]
  cases hchild : extractChild first with
  | error e =>
    constructor
    · exact fun h => absurd (Prod.mk.inj h).1 (extractChild_error hchild)
    · intro h
      cases h.2.1 with
      | cons hcomponent _ =>
        rw [(extractChild_iff _ _).mpr hcomponent] at hchild
        cases hchild
  | ok nChild =>
    have hcomponent := (extractChild_iff _ _).mp hchild
    dsimp only
    rw [if_neg (by simp), extractLoop_iff _ _ _ (by simp)]
    constructor
    · intro h
      obtain ⟨vs, rfl, hforall, hinterior⟩ := h
      exact ⟨hcomps, .cons hcomponent hforall, hinterior⟩
    · intro h
      obtain ⟨-, hforall, hinterior⟩ := h
      cases hforall with
      | @cons _ v _ vs hother hrest =>
        have hvalue := (extractChild_iff _ _).mpr hother
        rw [hchild] at hvalue
        obtain rfl := Except.ok.inj hvalue
        exact ⟨vs, rfl, hrest, hinterior⟩

theorem PathNumber.exists_digits (h : PathNumber caseless p v) :
    ∃ base pre ds q, NumberPrefix caseless base pre ∧ Digits base ds ∧ p = pre ++ (ds ++ q) ∧
      ∀ c ∈ q, isHardenMark c = true := by
  cases h with
  | @plain base pre ds hpre hds _ => exact ⟨base, pre, ds, [], hpre, hds, by rw [List.append_nil], by simp⟩
  | @hardened base pre ds mark hpre hds _ hmark =>
    exact ⟨base, pre, ds, [mark], hpre, hds, rfl, by simpa using isHardenMark_iff.mpr hmark⟩

theorem PathNumber.not_beginsWithM (h : PathNumber caseless p v) : ¬ BeginsWithM p := by
  obtain ⟨base, pre, ds, q, hpre, hds, rfl, -⟩ := h.exists_digits
  exact AliasWallet.not_beginsWithM hpre hds

theorem PathNumber.ne_nil (h : PathNumber caseless p v) : p ≠ [] := by
  obtain ⟨base, pre, ds, q, hpre, hds, rfl, -⟩ := h.exists_digits
  simp [hds.1]

theorem PathNumber.slash_notMem (h : PathNumber caseless p v) : slash ∉ p := by
  obtain ⟨base, pre, ds, q, hpre, hds, rfl, hq⟩ := h.exists_digits
  rw [List.mem_append, List.mem_append, not_or, not_or]
  refine ⟨?_, ?_, ?_⟩
  · cases hpre <;> decide
  · intro hmem
    have hhex := validDigit_isHexDigit (hds.2 slash hmem)
    revert hhex
    decide
  · intro hmem
    have hmark := hq slash hmem
    revert hmark
    decide

theorem NumberPrefix.anyCase (h : NumberPrefix caseless base pre) : NumberPrefix true base pre := by
  cases h with
  | decimal => exact .decimal
  | hex => exact .hex
  | binary => exact .binary
  | upperHex _ => exact .upperHex rfl
  | upperBinary _ => exact .upperBinary rfl

theorem PathNumber.anyCase (h : PathNumber caseless p v) : PathNumber true p v := by
  cases h with
  | plain hpre hds hvalue => exact .plain hpre.anyCase hds hvalue
  | hardened hpre hds hvalue hmark => exact .hardened hpre.anyCase hds hvalue hmark

/-- A number with a capital letter in its prefix is no other number. -/
theorem PathNumber.upperPrefix_iff (h : PathNumber true p v) : PathNumber false p v ↔ ¬ UpperPrefix p := by
  constructor
  · intro hplain hupper
    obtain ⟨base, pre, ds, q, hpre, hds, rfl, hq⟩ := hplain.exists_digits
    cases hpre with
    | decimal =>
      have hchars : ∀ x ∈ ds ++ q, validDigit x 10 = true ∨ isHardenMark x = true := by
        intro x hx
        cases List.mem_append.mp hx with
        | inl hx => exact .inl (hds.2 x hx)
        | inr hx => exact .inr (hq x hx)
      cases hupper with
      | inl hX => exact absurd (hchars 0x58 (hX.subset (by decide))) (by decide)
      | inr hB => exact absurd (hchars 0x42 (hB.subset (by decide))) (by decide)
    | hex => simp [UpperPrefix, List.cons_prefix_cons] at hupper
    | binary => simp [UpperPrefix, List.cons_prefix_cons] at hupper
    | upperHex hcase => cases hcase
    | upperBinary hcase => cases hcase
  · intro hlower
    cases h with
    | plain hpre hds hvalue =>
      cases hpre with
      | decimal => exact .plain .decimal hds hvalue
      | hex => exact .plain .hex hds hvalue
      | binary => exact .plain .binary hds hvalue
      | upperHex _ => exact absurd (.inl (List.prefix_append _ _)) hlower
      | upperBinary _ => exact absurd (.inr (List.prefix_append _ _)) hlower
    | hardened hpre hds hvalue hmark =>
      cases hpre with
      | decimal => exact .hardened .decimal hds hvalue hmark
      | hex => exact .hardened .hex hds hvalue hmark
      | binary => exact .hardened .binary hds hvalue hmark
      | upperHex _ => exact absurd (.inl (List.prefix_append _ _)) hlower
      | upperBinary _ => exact absurd (.inr (List.prefix_append _ _)) hlower

theorem pathNumber_iff (caseless : Bool) :
    PathNumber caseless p v ↔ PathNumber true p v ∧ (caseless = false → ¬ UpperPrefix p) := by
  cases caseless with
  | true => exact ⟨fun h => ⟨h, fun hc => nomatch hc⟩, fun h => h.1⟩
  | false =>
    exact ⟨fun h => ⟨h.anyCase, fun _ => h.anyCase.upperPrefix_iff.mp h⟩,
      fun h => h.1.upperPrefix_iff.mpr (h.2 rfl)⟩

theorem firstComponent_iff (caseless : Bool) :
    FirstComponent caseless p v ↔
      Component p v ∧ (BeginsWithM p → p.length = 1) ∧ (caseless = false → ¬ UpperPrefix p) := by
  constructor
  · intro h
    cases h with
    | lower => exact ⟨.inl ⟨rfl, rfl⟩, fun _ => rfl, fun _ => by unfold UpperPrefix; decide⟩
    | upper => exact ⟨.inl ⟨rfl, rfl⟩, fun _ => rfl, fun _ => by unfold UpperPrefix; decide⟩
    | number h =>
      obtain ⟨htrue, hupper⟩ := (pathNumber_iff caseless).mp h
      exact ⟨.inr ⟨h.not_beginsWithM, htrue⟩, fun hm => absurd hm h.not_beginsWithM, hupper⟩
  · intro h
    obtain ⟨hcomponent, hlen, hupper⟩ := h
    cases hcomponent with
    | inl hm =>
      obtain ⟨hm, rfl⟩ := hm
      obtain ⟨c, rfl⟩ := List.length_eq_one_iff.mp (hlen hm)
      cases toLower_eq_letterM.mp (Option.some.inj hm) with
      | inl hc => rw [hc]; exact .lower
      | inr hc => rw [hc]; exact .upper
    | inr hnumber => exact .number ((pathNumber_iff caseless).mpr ⟨hnumber.2, hupper⟩)

theorem forall₂_pathNumber_iff (caseless : Bool) (comps : List Bytes) (vs : List UInt32) :
    List.Forall₂ (PathNumber caseless) comps vs ↔
      List.Forall₂ Component comps vs ∧ (∀ comp ∈ comps, ¬ BeginsWithM comp) ∧
        (caseless = false → ∀ comp ∈ comps, ¬ UpperPrefix comp) := by
  induction comps generalizing vs with
  | nil =>
    constructor
    · intro h
      cases h
      exact ⟨.nil, by simp, by simp⟩
    · intro h
      cases h.1
      exact .nil
  | cons comp comps ih =>
    constructor
    · intro h
      cases h with
      | cons hnumber hrest =>
        obtain ⟨hcomponents, hm, hupper⟩ := (ih _).mp hrest
        obtain ⟨htrue, hcomp⟩ := (pathNumber_iff caseless).mp hnumber
        exact ⟨.cons (.inr ⟨hnumber.not_beginsWithM, htrue⟩) hcomponents,
          List.forall_mem_cons.mpr ⟨hnumber.not_beginsWithM, hm⟩,
          fun hcase => List.forall_mem_cons.mpr ⟨hcomp hcase, hupper hcase⟩⟩
    · intro h
      obtain ⟨hcomponents, hm, hupper⟩ := h
      obtain ⟨hcomp, hm⟩ := List.forall_mem_cons.mp hm
      cases hcomponents with
      | cons hcomponent hrest =>
        refine .cons ?_ ((ih _).mpr ⟨hrest, hm, fun hcase => (List.forall_mem_cons.mp (hupper hcase)).2⟩)
        cases hcomponent with
        | inl hletter => exact absurd hletter.1 hcomp
        | inr hnumber =>
          exact (pathNumber_iff caseless).mpr
            ⟨hnumber.2, fun hcase => (List.forall_mem_cons.mp (hupper hcase)).1⟩

theorem pathNumbers_slash {comps : List Bytes} {vs : List UInt32} (h : List.Forall₂ (PathNumber caseless) comps vs) :
    ∀ comp ∈ comps, comp ≠ [] ∧ slash ∉ comp := by
  induction h with
  | nil => simp
  | cons hnumber _ ih => exact List.forall_mem_cons.mpr ⟨⟨hnumber.ne_nil, hnumber.slash_notMem⟩, ih⟩

/-- A path as it is meant is a path that is read and has plain components. -/
theorem isPath_iff (caseless : Bool) (sPath : Bytes) (vPath : List UInt32) :
    IsPath caseless sPath vPath ↔ ReadablePath sPath vPath ∧ PlainComponents caseless sPath := by
  constructor
  · intro h
    obtain ⟨first, rest, v, vs, rfl, rfl, hfirst, hrest, hinterior⟩ := h
    obtain ⟨hcomponent, hlen, hupper⟩ := (firstComponent_iff caseless).mp hfirst
    obtain ⟨hcomponents, hm, huppers⟩ := (forall₂_pathNumber_iff caseless rest vs).mp hrest
    have hslash : ∀ comp ∈ first :: rest, comp ≠ [] ∧ slash ∉ comp := by
      rw [List.forall_mem_cons]
      refine ⟨?_, pathNumbers_slash hrest⟩
      cases hfirst with
      | lower => exact ⟨by decide, by decide⟩
      | upper => exact ⟨by decide, by decide⟩
      | number h => exact ⟨h.ne_nil, h.slash_notMem⟩
    have hsplit : ([slash].intercalate (first :: rest)).splitOn slash = first :: rest :=
      List.splitOn_intercalate slash (fun comp hcomp => (hslash comp hcomp).2) (List.cons_ne_nil _ _)
    rw [ReadablePath, PlainComponents, hsplit]
    refine ⟨⟨fun comp hcomp => (hslash comp hcomp).1, .cons hcomponent hcomponents, hinterior⟩, ?_, hm, ?_⟩
    · intro comp hcomp
      obtain rfl := Option.some.inj hcomp
      exact hlen
    · exact fun hcase => List.forall_mem_cons.mpr ⟨hupper hcase, huppers hcase⟩
  · intro h
    obtain ⟨⟨-, hforall, hinterior⟩, hlen, hm, hupper⟩ := h
    obtain ⟨first, rest, hsplit⟩ := List.exists_cons_of_ne_nil (List.splitOn_ne_nil slash sPath)
    rw [hsplit] at hforall hlen hm hupper
    cases hforall with
    | @cons _ v _ vs hcomponent hcomponents =>
      refine ⟨first, rest, v, vs, ?_, rfl, ?_, ?_, hinterior⟩
      · rw [← hsplit, List.intercalate_splitOn]
      · exact (firstComponent_iff caseless).mpr
          ⟨hcomponent, hlen first rfl, fun hcase => hupper hcase first List.mem_cons_self⟩
      · exact (forall₂_pathNumber_iff caseless rest vs).mpr
          ⟨hcomponents, hm, fun hcase comp hcomp => hupper hcase comp (List.mem_cons_of_mem first hcomp)⟩

end Paths

section Printed

/-- `%u`. -/
def decimalString (n : Nat) : Bytes :=
  if n = 0 then [0x30] else (Nat.digits 10 n).reverse.map fun d => UInt8.ofNat (d + 0x30)

/-- The numbers of a path that is stored as bytes. -/
def pathNumbers (vPath : Bytes) : List UInt32 :=
  (List.range (vPath.length / 4)).map fun k => UInt32.ofNat (leNat (Lib.slot 4 vPath k))

/-- A number of a path without its slash. -/
def childString (cH : UInt8) (n : UInt32) : Bytes :=
  if n >>> 31 = 1 then decimalString (n &&& 0x7fffffff).toNat ++ [cH] else decimalString n.toNat

/-- `PathToString`: the code that it returns, and `sPath`. -/
def pathToString (vPath : Bytes) (cH : UInt8) : Nat × Bytes :=
  if vPath.length % 4 ≠ 0 then (1, [])
  else (0, letterM :: (pathNumbers vPath).flatMap fun n => slash :: childString cH n)

theorem digitValue_ofNat {d : Nat} (hd : d < 10) :
    digitValue (UInt8.ofNat (d + 0x30)) = some d ∧ validDigit (UInt8.ofNat (d + 0x30)) 10 = true := by
  have hall : ∀ k : Fin 10, digitValue (UInt8.ofNat (k.val + 0x30)) = some k.val ∧
      validDigit (UInt8.ofNat (k.val + 0x30)) 10 = true := by decide
  exact hall ⟨d, hd⟩

theorem digitsVal_decimalString (n : Nat) : digitsVal 10 0 (decimalString n) = n := by
  rw [decimalString]
  by_cases hn : n = 0
  · rw [if_pos hn, hn]
    rfl
  · have hvalues : ∀ ds : List Nat, (∀ d ∈ ds, d < 10) →
        digitsVal 10 0 (ds.reverse.map fun d => UInt8.ofNat (d + 0x30)) = Nat.ofDigits 10 ds := by
      intro ds hds
      rw [digitsVal, List.foldl_map, List.foldl_reverse, Nat.ofDigits_eq_foldr]
      induction ds with
      | nil => rfl
      | cons d ds ih =>
        have hds' := List.forall_mem_cons.mp hds
        rw [List.foldr_cons, List.foldr_cons, ih hds'.2, (digitValue_ofNat hds'.1).1]
        simp only [Option.getD_some, Nat.cast_id]
        omega
    rw [if_neg hn, hvalues _ (fun d hd => Nat.digits_lt_base (by decide) hd), Nat.ofDigits_digits]

theorem digits_decimalString (n : Nat) : Digits 10 (decimalString n) := by
  rw [decimalString]
  by_cases hn : n = 0
  · rw [if_pos hn]
    exact ⟨by decide +kernel, by decide +kernel⟩
  · rw [if_neg hn]
    constructor
    · rw [ne_eq, List.map_eq_nil_iff, List.reverse_eq_nil_iff]
      exact Nat.digits_ne_nil_iff_ne_zero.mpr hn
    · intro c hc
      obtain ⟨d, hd, rfl⟩ := List.mem_map.mp hc
      exact (digitValue_ofNat (Nat.digits_lt_base (by decide) (List.mem_reverse.mp hd))).2

/-- What is printed for a number is the number. -/
theorem pathNumber_childString (caseless : Bool) {cH : UInt8} (hcH : cH ∈ [0x68, 0x48, 0x27]) (n : UInt32) :
    PathNumber caseless (childString cH n) n := by
  have hlt := n.toNat_lt
  rw [childString]
  by_cases hbit : n >>> 31 = 1
  · have hlow : (n &&& 0x7fffffff).toNat = n.toNat % 2 ^ 31 := by
      rw [UInt32.toNat_and]
      exact Nat.and_two_pow_sub_one_eq_mod n.toNat 31
    have hhigh : n.toNat / 2 ^ 31 = 1 := by
      rw [← UInt32.toNat_inj, UInt32.toNat_shiftRight] at hbit
      rw [← Nat.shiftRight_eq_div_pow]
      exact hbit
    have hvalue := digitsVal_decimalString (n &&& 0x7fffffff).toNat
    have hsmall : digitsVal 10 0 (decimalString (n &&& 0x7fffffff).toNat) < 2 ^ 31 := by
      rw [hvalue, hlow]
      omega
    have hsum : UInt32.ofNat (digitsVal 10 0 (decimalString (n &&& 0x7fffffff).toNat) + 2 ^ 31) = n := by
      rw [hvalue, hlow, show n.toNat % 2 ^ 31 + 2 ^ 31 = n.toNat by omega, UInt32.ofNat_toNat]
    have hnumber := PathNumber.hardened (@NumberPrefix.decimal caseless) (digits_decimalString _) hsmall hcH
    rw [hsum] at hnumber
    rw [if_pos hbit]
    exact hnumber
  · have hvalue := digitsVal_decimalString n.toNat
    have hnumber := PathNumber.plain (@NumberPrefix.decimal caseless) (digits_decimalString n.toNat)
      (by rw [hvalue]; exact hlt)
    rw [hvalue, UInt32.ofNat_toNat] at hnumber
    rw [if_neg hbit]
    exact hnumber

theorem pathToString_eq {vPath : Bytes} (hlen : vPath.length % 4 = 0) (cH : UInt8) :
    pathToString vPath cH =
      (0, [slash].intercalate ([letterM] :: (pathNumbers vPath).map (childString cH))) := by
  rw [pathToString, if_neg (not_not_intro hlen), Prod.mk.injEq]
  refine ⟨rfl, ?_⟩
  generalize pathNumbers vPath = ns
  have hcons : ∀ (first : Bytes) (ns : List UInt32),
      first ++ ns.flatMap (fun n => slash :: childString cH n) =
        [slash].intercalate (first :: ns.map (childString cH)) := by
    intro first ns
    induction ns generalizing first with
    | nil => simp
    | cons n ns ih =>
      rw [List.map_cons, List.intercalate_cons_cons, ← ih, List.flatMap_cons]
      simp
  exact hcons [letterM] ns

/-- A printed path is a path, with zero for the letter in front. -/
theorem isPath_pathToString (caseless : Bool) {vPath : Bytes} {cH : UInt8} (hlen : vPath.length % 4 = 0)
    (hcH : cH ∈ [0x68, 0x48, 0x27]) (hzero : ∀ v ∈ (pathNumbers vPath).dropLast, v ≠ 0) :
    IsPath caseless (pathToString vPath cH).2 (0 :: pathNumbers vPath) := by
  rw [pathToString_eq hlen]
  refine ⟨[letterM], _, 0, _, rfl, rfl, .lower, ?_, hzero⟩
  generalize pathNumbers vPath = ns
  induction ns with
  | nil => exact .nil
  | cons n ns ih => exact .cons (pathNumber_childString caseless hcH n) ih

theorem PathNumber.nul_notMem {caseless : Bool} {p : Bytes} {v : UInt32} (h : PathNumber caseless p v) :
    (0 : UInt8) ∉ p := by
  obtain ⟨base, pre, ds, q, hpre, hds, rfl, hq⟩ := h.exists_digits
  rw [List.mem_append, List.mem_append, not_or, not_or]
  refine ⟨?_, ?_, ?_⟩
  · cases hpre <;> decide
  · intro hmem
    have hhex := validDigit_isHexDigit (hds.2 0 hmem)
    revert hhex
    decide
  · intro hmem
    have hmark := hq 0 hmem
    revert hmark
    decide

theorem nul_notMem_pathToString {vPath : Bytes} {cH : UInt8} (hlen : vPath.length % 4 = 0)
    (hcH : cH ∈ [0x68, 0x48, 0x27]) : (0 : UInt8) ∉ (pathToString vPath cH).2 := by
  rw [pathToString, if_neg (not_not_intro hlen), List.mem_cons, not_or, List.mem_flatMap]
  refine ⟨by decide, ?_⟩
  intro h
  obtain ⟨n, -, hmem⟩ := h
  cases List.mem_cons.mp hmem with
  | inl h => exact absurd h (by decide)
  | inr h => exact (pathNumber_childString true hcH n).nul_notMem h

end Printed

section Exact

/-- `ExtractExtKeyPath` accepts exactly the paths, with their values, unless it can read the string and some component
is no plain one. It reads back what `PathToString` prints. -/
theorem extractExtKeyPath_exact (caseless : Bool) :
    (∀ sPath : Bytes, (0 : UInt8) ∉ sPath → 1 ≤ sPath.length → sPath.length ≤ 510 →
      ((∀ vPath, extractExtKeyPath sPath = (0, vPath) ↔ IsPath caseless sPath vPath) ↔
        ((∃ vPath, ReadablePath sPath vPath) → PlainComponents caseless sPath))) ∧
    ∀ (vPath : Bytes) (cH : UInt8), vPath.length % 4 = 0 → cH ∈ [0x68, 0x48, 0x27] →
      (∀ v ∈ (pathNumbers vPath).dropLast, v ≠ 0) → (pathToString vPath cH).2.length ≤ 510 →
      (pathToString vPath cH).1 = 0 ∧
        extractExtKeyPath (pathToString vPath cH).2 = (0, 0 :: pathNumbers vPath) := by
  constructor
  · intro sPath hnul hlow hhigh
    constructor
    · intro h hread
      obtain ⟨vPath, hread⟩ := hread
      exact ((isPath_iff caseless sPath vPath).mp
        ((h vPath).mp ((extractExtKeyPath_iff hnul hlow hhigh vPath).mpr hread))).2
    · intro h vPath
      rw [extractExtKeyPath_iff hnul hlow hhigh, isPath_iff]
      exact ⟨fun hread => ⟨hread, h ⟨vPath, hread⟩⟩, fun hpath => hpath.1⟩
  · intro vPath cH hlen hcH hzero hhigh
    have hpath := (isPath_iff true _ _).mp (isPath_pathToString true hlen hcH hzero)
    have hlow : 1 ≤ (pathToString vPath cH).2.length := by
      rw [pathToString, if_neg (not_not_intro hlen), List.length_cons]
      omega
    refine ⟨by rw [pathToString, if_neg (not_not_intro hlen)], ?_⟩
    exact (extractExtKeyPath_iff (nul_notMem_pathToString hlen hcH) hlow hhigh _).mpr hpath.1

/-- `m/0h/1` and the stored path of `m/1h/2`. -/
theorem extractExtKeyPath_exact_sample :
    ((∀ vPath, extractExtKeyPath [0x6d, 0x2f, 0x30, 0x68, 0x2f, 0x31] = (0, vPath) ↔
        IsPath true [0x6d, 0x2f, 0x30, 0x68, 0x2f, 0x31] vPath) ↔
      ((∃ vPath, ReadablePath [0x6d, 0x2f, 0x30, 0x68, 0x2f, 0x31] vPath) →
        PlainComponents true [0x6d, 0x2f, 0x30, 0x68, 0x2f, 0x31])) ∧
    (pathToString [1, 0, 0, 0x80, 2, 0, 0, 0] 0x68).1 = 0 ∧
      extractExtKeyPath (pathToString [1, 0, 0, 0x80, 2, 0, 0, 0] 0x68).2 =
        (0, 0 :: pathNumbers [1, 0, 0, 0x80, 2, 0, 0, 0]) := by
  have hfirst : (pathNumbers [1, 0, 0, 0x80, 2, 0, 0, 0]).dropLast = [0x80000001] := by decide
  have hzero : ∀ v ∈ (pathNumbers [1, 0, 0, 0x80, 2, 0, 0, 0]).dropLast, v ≠ 0 := by
    rw [hfirst]
    exact List.forall_mem_singleton.mpr (by decide)
  exact ⟨(extractExtKeyPath_exact true).1 _ (by decide) (by decide) (by decide),
    (extractExtKeyPath_exact true).2 _ _ (by decide) (by decide) hzero (by decide)⟩

/-- `master/1` is read as `m/1`. -/
theorem extractExtKeyPath_master :
    extractExtKeyPath [0x6d, 0x61, 0x73, 0x74, 0x65, 0x72, 0x2f, 0x31] = (0, [0, 1]) ∧
      ¬ IsPath true [0x6d, 0x61, 0x73, 0x74, 0x65, 0x72, 0x2f, 0x31] [0, 1] ∧
      ¬ IsPath false [0x6d, 0x61, 0x73, 0x74, 0x65, 0x72, 0x2f, 0x31] [0, 1] := by
  have hword : ∀ caseless, ¬ PlainComponents caseless [0x6d, 0x61, 0x73, 0x74, 0x65, 0x72, 0x2f, 0x31] := by
    intro caseless h
    exact absurd (h.1 [0x6d, 0x61, 0x73, 0x74, 0x65, 0x72] rfl rfl) (by decide)
  exact ⟨by decide, fun h => hword true ((isPath_iff _ _ _).mp h).2, fun h => hword false ((isPath_iff _ _ _).mp h).2⟩

end Exact

end AliasWallet
