import AliasWallet.Lib.CString
import AliasWallet.Lib.Rebase
import AliasWallet.Script.Interpreter
import Mathlib.Data.List.GetD

/-!
# Base 58 (`base58.h`)

Bytes are read as a number, and the digits of the number in base 58 are the text. Zero bytes in front become characters
`1` in front, so the text gives the bytes back.
-/

namespace AliasWallet
open Lib

section Codec

/-- `pszBase58`: digits and letters without `0`, `I`, `O` and `l`. -/
def pszBase58 : Bytes :=
  (List.range' 0x31 9 ++ List.range' 0x41 8 ++ List.range' 0x4a 5 ++ List.range' 0x50 11 ++ List.range' 0x61 11 ++
    List.range' 0x6d 14).map UInt8.ofNat

/-- A size as an argument of type `int`. -/
def intOfSize (n : Nat) : Int :=
  if n % 0x100000000 < 0x80000000 then (n % 0x100000000 : Nat) else (n % 0x100000000 : Nat) - 0x100000000

/-- `BN_mpi2bn`: the number behind the four bytes of its length; `none` where the length is refused. -/
def bnMpi2bn (d : Bytes) (n : Int) : Option Int :=
  let len := beNat (d.take 4)
  if n < 4 ∨ (len : Int) + 4 ≠ n then none else some (bigNumOfVch ((d.drop 4).take len).reverse)

/-- `CBigNum::setvch`; a number that is not read stays as it was. -/
def setvch (bn : Int) (vch : Bytes) : Int :=
  let nSize := vch.length % 0x100000000
  let vch2 := beBytes 4 nSize ++ vch.reverse
  (bnMpi2bn vch2 (intOfSize vch2.length)).getD bn

/-- `while (bn > bn0)`: the digits, the least significant one first. -/
def base58Digits : Nat → Int → Bytes
  | 0, _ => []
  | rounds + 1, bn => if bn > 0 then pszBase58.getD (bn % 58).toNat 0 :: base58Digits rounds (bn / 58) else []

/-- `EncodeBase58`; the number loses at least one in each round. -/
def encodeBase58 (vch : Bytes) : Bytes :=
  -- an extra zero at the end makes the number positive
  let bn := setvch 0 (vch.reverse ++ [0])
  let str := base58Digits bn.toNat bn
  (str ++ (vch.takeWhile (· = 0)).map fun _ => pszBase58.getD 0 0).reverse

/-- The conversion to a number. Behind the first other character only white space may follow. -/
def base58Number : Int → Bytes → Option Int
  | bn, [] => some bn
  | bn, c :: psz =>
    match pszBase58.idxOf? c with
    | some d => base58Number (bn * 58 + d) psz
    | none => if ((c :: psz).dropWhile isSpace).isEmpty then some bn else none

/-- The sign byte is trimmed off. -/
def trimSign (vchTmp : Bytes) : Bytes :=
  match vchTmp.reverse with
  | 0 :: b :: rest => if b ≥ 0x80 then (b :: rest).reverse else vchTmp
  | _ => vchTmp

/-- `DecodeBase58`. -/
def decodeBase58 (str : Bytes) : Option Bytes := do
  let psz := (cString str).dropWhile isSpace
  let bn ← base58Number 0 psz
  let vchTmp := trimSign (vchOfBigNum bn)
  let nLeadingZeros := (psz.takeWhile (· = pszBase58.getD 0 0)).length
  return List.replicate nLeadingZeros 0 ++ vchTmp.reverse

variable (hash : HashFn)

/-- `EncodeBase58Check`. -/
def encodeBase58Check (vchIn : Bytes) : Bytes := encodeBase58 (vchIn ++ (uint256Bytes (hash vchIn)).take 4)

/-- `DecodeBase58Check`. -/
def decodeBase58Check (str : Bytes) : Option Bytes := do
  let vch ← decodeBase58 str
  if vch.length < 4 then none
  else
    let data := vch.take (vch.length - 4)
    if (uint256Bytes (hash data)).take 4 ≠ vch.drop (vch.length - 4) then none else some data

end Codec

section Digits

variable {vch psz : Bytes} {n : Nat}

/-- The character of a digit. -/
def base58Char (d : Nat) : UInt8 := pszBase58.getD d 0

/-- The digit of a character. -/
def base58Index (c : UInt8) : Nat := pszBase58.idxOf c

theorem base58Index_char {d : Nat} (h : d < 58) : base58Index (base58Char d) = d := by
  have hall : ∀ k : Fin 58, base58Index (base58Char k.val) = k.val := by decide +kernel
  exact hall ⟨d, h⟩

theorem base58Char_mem {d : Nat} (h : d < 58) : base58Char d ∈ pszBase58 := by
  have hall : ∀ k : Fin 58, base58Char k.val ∈ pszBase58 := by decide +kernel
  exact hall ⟨d, h⟩

theorem base58Index_lt {c : UInt8} (h : c ∈ pszBase58) : base58Index c < 58 := by
  have hlt : base58Index c < pszBase58.length := List.idxOf_lt_length_of_mem h
  exact hlt

theorem base58Char_index {c : UInt8} (h : c ∈ pszBase58) : base58Char (base58Index c) = c := by
  have hlt : base58Index c < pszBase58.length := List.idxOf_lt_length_of_mem h
  rw [base58Char, List.getD_eq_getElem _ _ hlt]
  exact List.getElem_idxOf hlt

theorem base58Index_eq_zero {c : UInt8} (h : c ∈ pszBase58) : base58Index c = 0 ↔ c = base58Char 0 := by
  constructor
  · intro hzero
    rw [← hzero, base58Char_index h]
  · intro hc
    rw [hc]
    exact base58Index_char (by decide)

theorem base58Digits_eq (rounds n : Nat) (h : n ≤ rounds) :
    base58Digits rounds n = (Nat.digits 58 n).map base58Char := by
  induction rounds generalizing n with
  | zero =>
    rw [Nat.le_zero.mp h]
    rfl
  | succ rounds ih =>
    rw [base58Digits]
    by_cases hpos : 0 < n
    · have hquot : (n : Int) / 58 = ((n / 58 : Nat) : Int) := by norm_cast
      have hrem : ((n : Int) % 58).toNat = n % 58 := by omega
      rw [if_pos (by omega), hrem, hquot, ih (n / 58) (by omega), Nat.digits_def' (by decide) hpos]
      rfl
    · obtain rfl : n = 0 := by omega
      rfl

theorem beNat_eq_ofDigits (vch : Bytes) : beNat vch = Nat.ofDigits 256 (vch.map UInt8.toNat).reverse := by
  rw [beNat_eq_leNat, ← List.map_reverse]
  induction vch.reverse with
  | nil => rfl
  | cons b bs ih =>
    rw [leNat, List.map_cons, Nat.ofDigits_cons, ih]

/-- Below `2 ^ 31` bytes the number is read. -/
theorem setvch_zero (h : vch.length + 5 < 0x80000000) : setvch 0 (vch.reverse ++ [0]) = beNat vch := by
  have hlen : (vch.reverse ++ [0]).length = vch.length + 1 := by
    rw [List.length_append, List.length_reverse, List.length_singleton]
  have hsize : (vch.length + 1) % 0x100000000 = vch.length + 1 := Nat.mod_eq_of_lt (by omega)
  have hheader : (beBytes 4 (vch.length + 1)).length = 4 := by rw [beBytes, List.length_reverse, leBytes_length]
  have hvalue : beNat (beBytes 4 (vch.length + 1)) = vch.length + 1 := by
    rw [beNat_beBytes]
    exact Nat.mod_eq_of_lt (by omega)
  have htotal : (beBytes 4 (vch.length + 1) ++ (vch.reverse ++ [0]).reverse).length = vch.length + 5 := by
    rw [List.length_append, hheader, List.length_reverse, hlen]
    omega
  have hint : intOfSize (vch.length + 5) = (vch.length + 5 : Nat) := by
    rw [intOfSize, Nat.mod_eq_of_lt (by omega : vch.length + 5 < 0x100000000), if_pos h]
  have hbody : ((0 : UInt8) :: vch).take (vch.length + 1) = 0 :: vch :=
    List.take_of_length_le (by rw [List.length_cons])
  rw [setvch, hlen, hsize, htotal, hint, bnMpi2bn, List.take_left' hheader, List.drop_left' hheader, hvalue,
    if_neg (by omega), List.reverse_append, List.reverse_reverse, List.reverse_singleton, List.singleton_append, hbody,
    Option.getD_some, bigNumOfVch, List.reverse_reverse]
  dsimp only
  rw [if_neg (by decide)]
  exact congrArg Int.ofNat (beNat_zeros_append 1 vch)

/-- Encoding changes the base. -/
theorem encodeBase58_eq (h : vch.length + 5 < 0x80000000) :
    encodeBase58 vch = (rebase 256 58 (vch.map UInt8.toNat)).map base58Char := by
  have hzeros : ((vch.map UInt8.toNat).takeWhile (· = 0)).map base58Char =
      ((vch.takeWhile (· = 0)).map fun _ => pszBase58.getD 0 0).reverse := by
    rw [List.takeWhile_map, List.map_map, List.map_const', List.reverse_replicate]
    have hsame : ((fun d : Nat => decide (d = 0)) ∘ UInt8.toNat) = fun b : UInt8 => decide (b = 0) := by
      funext b
      simp [← UInt8.toNat_inj]
    rw [hsame]
    apply List.eq_replicate_iff.mpr
    rw [List.length_map]
    apply And.intro rfl
    intro c hc
    obtain ⟨b, hb, rfl⟩ := List.mem_map.mp hc
    have hzero := List.mem_takeWhile_imp hb
    rw [of_decide_eq_true hzero]
    rfl
  rw [encodeBase58, setvch_zero h, Int.toNat_natCast, base58Digits_eq _ _ le_rfl, List.reverse_append, ← hzeros, rebase,
    List.map_append, beNat_eq_ofDigits, List.map_reverse]

theorem toNat_ofNat_digit {d : Nat} (h : d ∈ (Nat.digits 256 n).reverse) : (UInt8.ofNat d).toNat = d :=
  UInt8.toNat_ofNat_of_lt' (Nat.digits_lt_base (by decide) (List.mem_reverse.mp h))

theorem digits_head_ne_zero {top : UInt8} (h : ((Nat.digits 256 n).reverse.map UInt8.ofNat).head? = some top) :
    top ≠ 0 := by
  rw [List.head?_map, Option.map_eq_some_iff] at h
  obtain ⟨d, hd, rfl⟩ := h
  intro hzero
  apply digits_reverse_head hd
  rw [← toNat_ofNat_digit (List.mem_of_head? hd), hzero]
  rfl

/-- Bytes as digits of a number. -/
theorem minBytes_eq (n : Nat) : minBytes n = (Nat.digits 256 n).reverse.map UInt8.ofNat := by
  by_cases hn : n = 0
  · rw [hn, Nat.digits_zero]
    rfl
  have hback : ((Nat.digits 256 n).reverse.map UInt8.ofNat).map UInt8.toNat = (Nat.digits 256 n).reverse := by
    rw [List.map_map]
    have hid : (Nat.digits 256 n).reverse.map (UInt8.toNat ∘ UInt8.ofNat) = (Nat.digits 256 n).reverse.map id :=
      List.map_congr_left fun d hd => toNat_ofNat_digit hd
    rw [hid, List.map_id]
  have hvalue : beNat ((Nat.digits 256 n).reverse.map UInt8.ofNat) = n := by
    rw [beNat_eq_ofDigits, hback, List.reverse_reverse, Nat.ofDigits_digits]
  have hdigits : Nat.digits 256 n ≠ [] := Nat.digits_ne_nil_iff_ne_zero.mpr hn
  have hmin := minBytes_beNat ((Nat.digits 256 n).reverse.map UInt8.ofNat) (by simpa using hdigits)
    fun hhead => digits_head_ne_zero hhead rfl
  rw [hvalue] at hmin
  exact hmin

theorem trimSign_vchOfBigNum (n : Nat) : trimSign (vchOfBigNum n) = (minBytes n).reverse := by
  have hhead : ∀ top, (minBytes n).head? = some top → top ≠ 0 := by
    intro top htop
    rw [minBytes_eq] at htop
    exact digits_head_ne_zero htop
  rw [vchOfBigNum, Int.natAbs_natCast]
  cases hbytes : minBytes n with
  | nil => rfl
  | cons top rest =>
    rw [hbytes] at hhead
    have hne := hhead top rfl
    dsimp only
    by_cases hbig : top ≥ 0x80
    · rw [if_pos hbig, if_neg (by omega), trimSign, List.reverse_reverse]
      exact if_pos hbig
    · rw [if_neg hbig, if_neg (by omega), trimSign, List.reverse_reverse]
      split
      · rename_i heq
        exact absurd (List.cons.inj heq).1 hne
      · rfl

theorem idxOf?_base58 {c : UInt8} (h : c ∈ pszBase58) : pszBase58.idxOf? c = some (base58Index c) := by
  have hall : ∀ c ∈ pszBase58, pszBase58.idxOf? c = some (base58Index c) := by decide +kernel
  exact hall c h

theorem base58Number_eq (n : Nat) (psz : Bytes) (h : ∀ c ∈ psz, c ∈ pszBase58) :
    base58Number n psz =
      some ((Nat.ofDigits 58 (psz.map base58Index).reverse + 58 ^ psz.length * n : Nat) : Int) := by
  induction psz generalizing n with
  | nil =>
    rw [base58Number, List.map_nil, List.reverse_nil, Nat.ofDigits_nil, List.length_nil, pow_zero, Nat.one_mul,
      Nat.zero_add]
  | cons c psz ih =>
    have h' := List.forall_mem_cons.mp h
    have hnext : (n : Int) * 58 + (base58Index c : Int) = ((n * 58 + base58Index c : Nat) : Int) := by push_cast; rfl
    rw [base58Number, idxOf?_base58 h'.1]
    dsimp only
    rw [hnext, ih _ h'.2, List.map_cons, List.reverse_cons, Nat.ofDigits_append, List.length_reverse, List.length_map,
      Nat.ofDigits_singleton, List.length_cons, pow_succ]
    congr 2
    ring

theorem isSpace_of_mem {c : UInt8} (h : c ∈ pszBase58) : isSpace c = false ∧ c ≠ 0 := by
  have hall : ∀ c ∈ pszBase58, isSpace c = false ∧ c ≠ 0 := by decide +kernel
  exact hall c h

/-- Decoding a text of digits changes the base. -/
theorem decodeBase58_eq (h : ∀ c ∈ psz, c ∈ pszBase58) :
    decodeBase58 psz = some ((rebase 58 256 (psz.map base58Index)).map UInt8.ofNat) := by
  have hstring : cString psz = psz := cString_eq fun hzero => (isSpace_of_mem (h 0 hzero)).2 rfl
  have hstart : psz.dropWhile isSpace = psz := by
    cases psz with
    | nil => rfl
    | cons c psz => rw [List.dropWhile_cons_of_neg (by simp [(isSpace_of_mem (h c List.mem_cons_self)).1])]
  have hnumber := base58Number_eq 0 psz h
  rw [Nat.mul_zero, Nat.add_zero] at hnumber
  have hzeros : (psz.map base58Index).takeWhile (· = 0) =
      List.replicate (psz.takeWhile (· = pszBase58.getD 0 0)).length 0 := by
    rw [List.takeWhile_map]
    have hsame : psz.takeWhile ((fun d : Nat => decide (d = 0)) ∘ base58Index) =
        psz.takeWhile fun c => decide (c = pszBase58.getD 0 0) := by
      clear hstring hstart hnumber
      induction psz with
      | nil => rfl
      | cons c psz ih =>
        have h' := List.forall_mem_cons.mp h
        have hhead : ((fun d : Nat => decide (d = 0)) ∘ base58Index) c = decide (c = pszBase58.getD 0 0) :=
          decide_eq_decide.mpr (base58Index_eq_zero h'.1)
        rw [List.takeWhile_cons, List.takeWhile_cons, hhead, ih h'.2]
    rw [hsame]
    apply List.eq_replicate_iff.mpr
    rw [List.length_map]
    apply And.intro rfl
    intro d hd
    obtain ⟨c, hc, rfl⟩ := List.mem_map.mp hd
    have hone := List.mem_takeWhile_imp hc
    rw [of_decide_eq_true hone]
    exact base58Index_char (by decide)
  rw [decodeBase58, hstring, hstart]
  dsimp only
  rw [Nat.cast_zero] at hnumber
  rw [hnumber, Option.bind_eq_bind, Option.bind_some, trimSign_vchOfBigNum, List.reverse_reverse, minBytes_eq, rebase,
    hzeros, List.map_append, List.map_replicate]
  rfl

/-- Without white space at the end, an accepted text has only digits. -/
theorem mem_of_base58Number {bn m : Int} (hlast : ∀ c, psz.getLast? = some c → isSpace c = false)
    (h : base58Number bn psz = some m) : ∀ c ∈ psz, c ∈ pszBase58 := by
  induction psz generalizing bn with
  | nil => exact fun c hc => absurd hc List.not_mem_nil
  | cons c psz ih =>
    rw [base58Number] at h
    cases hindex : pszBase58.idxOf? c with
    | none =>
      rw [hindex] at h
      dsimp only at h
      split at h
      · rename_i hspaces
        rw [List.isEmpty_iff, List.dropWhile_eq_nil_iff] at hspaces
        have hend := List.getLast?_eq_some_getLast (List.cons_ne_nil c psz)
        have hyes := hspaces _ (List.getLast_mem (List.cons_ne_nil c psz))
        rw [hlast _ hend] at hyes
        cases hyes
      · cases h
    | some d =>
      rw [hindex] at h
      have hc : c ∈ pszBase58 := by
        by_contra hnot
        rw [List.idxOf?_eq_none_iff.mpr hnot] at hindex
        cases hindex
      apply List.forall_mem_cons.mpr ⟨hc, _⟩
      apply ih _ h
      intro c' hc'
      apply hlast
      rw [List.getLast?_cons, hc']
      rfl

/-- No white space in front or behind. -/
def Trimmed (s : Bytes) : Prop :=
  (∀ c, s.head? = some c → isSpace c = false) ∧ ∀ c, s.getLast? = some c → isSpace c = false

theorem mem_of_decodeBase58 {s : Bytes} (hzero : (0 : UInt8) ∉ s) (htrim : Trimmed s) (h : decodeBase58 s = some vch) :
    ∀ c ∈ s, c ∈ pszBase58 := by
  have hstart : s.dropWhile isSpace = s := by
    cases s with
    | nil => rfl
    | cons c s => rw [List.dropWhile_cons_of_neg (by simp [htrim.1 c rfl])]
  rw [decodeBase58, cString_eq hzero, hstart] at h
  dsimp only at h
  rw [Option.bind_eq_bind, Option.bind_eq_some_iff] at h
  obtain ⟨bn, hbn, -⟩ := h
  exact mem_of_base58Number htrim.2 hbn

end Digits

section RoundTrip

theorem encodeBase58_mem {b : Bytes} (hlen : b.length + 5 < 0x80000000) : ∀ c ∈ encodeBase58 b, c ∈ pszBase58 := by
  intro c hc
  rw [encodeBase58_eq hlen] at hc
  obtain ⟨d, hd, rfl⟩ := List.mem_map.mp hc
  exact base58Char_mem (rebase_digit_lt (by decide) hd)

theorem decodeBase58_encodeBase58 {b : Bytes} (h : b.length + 5 < 0x80000000) :
    decodeBase58 (encodeBase58 b) = some b := by
  have hdigits : ∀ d ∈ b.map UInt8.toNat, d < 256 := by
    intro d hd
    obtain ⟨c, -, rfl⟩ := List.mem_map.mp hd
    exact c.toNat_lt
  have hindex : ((rebase 256 58 (b.map UInt8.toNat)).map base58Char).map base58Index =
      rebase 256 58 (b.map UInt8.toNat) := by
    rw [List.map_map]
    have hid : (rebase 256 58 (b.map UInt8.toNat)).map (base58Index ∘ base58Char) =
        (rebase 256 58 (b.map UInt8.toNat)).map id :=
      List.map_congr_left fun d hd => base58Index_char (rebase_digit_lt (by decide) hd)
    rw [hid, List.map_id]
  have hid : b.map (UInt8.ofNat ∘ UInt8.toNat) = b.map id := List.map_congr_left fun c _ => UInt8.ofNat_toNat
  rw [decodeBase58_eq (encodeBase58_mem h), encodeBase58_eq h, hindex, rebase_rebase (by decide) 58 hdigits,
    List.map_map, hid, List.map_id]

/-- What is decoded has no more bytes than the text has characters. -/
theorem decodeBase58_length {s b : Bytes} (hs : ∀ c ∈ s, c ∈ pszBase58) (h : decodeBase58 s = some b) :
    b.length ≤ s.length := by
  rw [decodeBase58_eq hs] at h
  rw [← Option.some.inj h, List.length_map]
  have hlen := rebase_length_le (b := 58) (c := 256) (l := s.map base58Index) (by decide) (by decide) (by
    intro d hd
    obtain ⟨c, hc, rfl⟩ := List.mem_map.mp hd
    exact base58Index_lt (hs c hc))
  rw [List.length_map] at hlen
  exact hlen

/-- The bytes have to be few enough for the number to be read. -/
theorem encodeBase58_of_decodeBase58 {s b : Bytes} (hzero : (0 : UInt8) ∉ s) (htrim : Trimmed s)
    (hlen : b.length + 5 < 0x80000000) (h : decodeBase58 s = some b) : encodeBase58 b = s := by
  have hs := mem_of_decodeBase58 hzero htrim h
  rw [decodeBase58_eq hs] at h
  obtain rfl := Option.some.inj h
  have hdigits : ∀ d ∈ s.map base58Index, d < 58 := by
    intro d hd
    obtain ⟨c, hc, rfl⟩ := List.mem_map.mp hd
    exact base58Index_lt (hs c hc)
  have hback : ((rebase 58 256 (s.map base58Index)).map UInt8.ofNat).map UInt8.toNat =
      rebase 58 256 (s.map base58Index) := by
    rw [List.map_map]
    have hid : (rebase 58 256 (s.map base58Index)).map (UInt8.toNat ∘ UInt8.ofNat) =
        (rebase 58 256 (s.map base58Index)).map id :=
      List.map_congr_left fun d hd => UInt8.toNat_ofNat_of_lt' (rebase_digit_lt (by decide) hd)
    rw [hid, List.map_id]
  rw [encodeBase58_eq hlen, hback, rebase_rebase (by decide) 256 hdigits, List.map_map]
  have hid : s.map (base58Char ∘ base58Index) = s.map id :=
    List.map_congr_left fun c hc => base58Char_index (hs c hc)
  rw [hid, List.map_id]

theorem encodeBase58_decodeBase58 {s b : Bytes} (hzero : (0 : UInt8) ∉ s) (htrim : Trimmed s)
    (hlen : s.length + 5 < 0x80000000) (h : decodeBase58 s = some b) : encodeBase58 b = s := by
  have hshort := decodeBase58_length (mem_of_decodeBase58 hzero htrim h) h
  exact encodeBase58_of_decodeBase58 hzero htrim (by omega) h

/-- A text has at least the digits of its number. -/
theorem lt_encodeBase58_length {b : Bytes} {k : Nat} (hlen : b.length + 5 < 0x80000000) (h : 58 ^ k ≤ beNat b) :
    k < (encodeBase58 b).length := by
  have hdigits : k < (Nat.digits 58 (beNat b)).length := (Nat.lt_digits_length_iff (by decide) _).mpr h
  rw [encodeBase58_eq hlen, List.length_map, rebase, List.length_append, List.length_reverse, ← beNat_eq_ofDigits]
  omega

theorem uint256Bytes_take_length (n : UInt256) : ((uint256Bytes n).take 4).length = 4 := by
  rw [List.length_take, uint256Bytes_length]
  rfl

/-- The length of so many bytes is negative as an `int`. -/
theorem setvch_refused {vch : Bytes} (h : vch.length = 0x80000000) : setvch 0 (vch.reverse ++ [0]) = 0 := by
  have hlen : (vch.reverse ++ [0]).length = 0x80000001 := by
    rw [List.length_append, List.length_reverse, h]
    rfl
  have hheader : (beBytes 4 (0x80000001 % 0x100000000)).length = 4 := by
    rw [beBytes, List.length_reverse, leBytes_length]
  have htotal : (beBytes 4 (0x80000001 % 0x100000000) ++ (vch.reverse ++ [0]).reverse).length = 0x80000005 := by
    rw [List.length_append, hheader, List.length_reverse, hlen]
  have hint : intOfSize 0x80000005 < 4 := by decide
  rw [setvch, hlen, htotal, bnMpi2bn, if_pos (.inl hint)]
  rfl

end RoundTrip

end AliasWallet
