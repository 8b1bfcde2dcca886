import AliasWallet.Core.Transaction
import Mathlib.Data.List.Lex

/-!
# Network addresses (`netbase.h`, `netbase.cpp`)

Addresses of 16 bytes and onion addresses of 41, which ranges they belong to, the groups in which they are
counted, and the order by which a map files them.
-/

namespace AliasWallet
open Lib

def pchIPv4 : Bytes := [0, 0, 0, 0, 0, 0, 0, 0, 0, 0, 0xff, 0xff]

def pchOnionCat : Bytes := [0xFD, 0x87, 0xD8, 0x7E, 0xEB, 0x43]

def pchGarliCat : Bytes := [0xFD, 0x60, 0xDB, 0x4D, 0xDD, 0xB5]

/-- `ip`, and for an onion address of version 3 the bytes of `ip_tor` behind it. -/
structure CNetAddr where
  ip : Bytes
  torV3 : Option Bytes
  ip_length : ip.length = 16
  torV3_length : ∀ rest ∈ torV3, rest.length = 25 ∧ ip.take 6 = pchOnionCat
  deriving DecidableEq

structure CService extends CNetAddr where
  port : UInt16
  deriving DecidableEq

structure CAddress extends CService where
  nServices : UInt64
  nTime : UInt32
  nLastTry : Int64
  deriving DecidableEq

def NET_UNROUTABLE : UInt8 := 0

def NET_IPV4 : UInt8 := 1

def NET_IPV6 : UInt8 := 2

def NET_TOR : UInt8 := 3

def NET_I2P : UInt8 := 4

namespace CNetAddr

variable (a : CNetAddr)

def getByte (n : Nat) : UInt8 := a.ip.getD (15 - n) 0

def startsWith (pch : Bytes) : Bool := a.ip.take pch.length == pch

def isIPv4 : Bool := a.startsWith pchIPv4

def isRFC1918 : Bool :=
  a.isIPv4 && (a.getByte 3 == 10 || (a.getByte 3 == 192 && a.getByte 2 == 168) ||
    (a.getByte 3 == 172 && decide (a.getByte 2 ≥ 16) && decide (a.getByte 2 ≤ 31)))

def isRFC2544 : Bool := a.isIPv4 && a.getByte 3 == 198 && (a.getByte 2 == 18 || a.getByte 2 == 19)

def isRFC3927 : Bool := a.isIPv4 && a.getByte 3 == 169 && a.getByte 2 == 254

def isRFC6598 : Bool :=
  a.isIPv4 && a.getByte 3 == 100 && decide (a.getByte 2 ≥ 64) && decide (a.getByte 2 ≤ 127)

def isRFC5737 : Bool :=
  a.isIPv4 && ((a.getByte 3 == 192 && a.getByte 2 == 0 && a.getByte 1 == 2) ||
    (a.getByte 3 == 198 && a.getByte 2 == 51 && a.getByte 1 == 100) ||
    (a.getByte 3 == 203 && a.getByte 2 == 0 && a.getByte 1 == 113))

def isRFC3849 : Bool := a.startsWith [0x20, 0x01, 0x0D, 0xB8]

def isRFC3964 : Bool := a.startsWith [0x20, 0x02]

def isRFC6052 : Bool := a.startsWith [0, 0x64, 0xFF, 0x9B, 0, 0, 0, 0, 0, 0, 0, 0]

def isRFC4380 : Bool := a.startsWith [0x20, 0x01, 0, 0]

def isRFC4862 : Bool := a.startsWith [0xFE, 0x80, 0, 0, 0, 0, 0, 0]

def isRFC4193 : Bool := a.getByte 15 &&& 0xFE == 0xFC

def isRFC6145 : Bool := a.startsWith [0, 0, 0, 0, 0, 0, 0, 0, 0xFF, 0xFF, 0, 0]

def isRFC4843 : Bool := a.startsWith [0x20, 0x01, 0x00] && a.getByte 12 &&& 0xF0 == 0x10

def isTor : Bool := a.startsWith pchOnionCat

def isTorV3 : Bool := a.torV3.isSome

def isI2P : Bool := a.startsWith pchGarliCat

def isLocal : Bool :=
  (a.isIPv4 && (a.getByte 3 == 127 || a.getByte 3 == 0)) ||
    a.startsWith [0, 0, 0, 0, 0, 0, 0, 0, 0, 0, 0, 0, 0, 0, 0, 1]

def isValid : Bool :=
  !(a.startsWith (pchIPv4.drop 3) || a.startsWith (List.replicate 16 0) || a.isRFC3849 ||
    (a.isIPv4 && (a.ip.drop 12 == List.replicate 4 0xFF || a.ip.drop 12 == List.replicate 4 0)))

def isRoutable : Bool :=
  a.isValid && !(a.isRFC1918 || a.isRFC2544 || a.isRFC3927 || a.isRFC4862 || a.isRFC6598 || a.isRFC5737 ||
    (a.isRFC4193 && !a.isTor && !a.isI2P) || a.isRFC4843 || a.isLocal)

/-- The bytes that stand for the address: `ip_tor` of an onion address of version 3. -/
def bytes : Bytes := a.ip ++ a.torV3.getD []

/-- The class of a group, the first byte that counts and the number of bits. -/
def groupRange : UInt8 × Nat × Nat :=
  if ¬ a.isRoutable then (NET_UNROUTABLE, 0, 0)
  else
    let nBits := if a.isLocal then 0 else 16
    let nClass := if a.isLocal then 255 else NET_IPV6
    if a.isIPv4 || a.isRFC6145 || a.isRFC6052 then (NET_IPV4, 12, nBits)
    else if a.isRFC3964 then (NET_IPV4, 2, nBits)
    else if a.isTor then (NET_TOR, 6, 4)
    else if a.isI2P then (NET_I2P, 6, 4)
    else if a.startsWith [0x20, 0x01, 0x04, 0x70] then (nClass, 0, 36)
    else (nClass, 0, 32)

/-- `GetGroup`. -/
def getGroup : Bytes :=
  if a.isRoutable && !(a.isIPv4 || a.isRFC6145 || a.isRFC6052) && !a.isRFC3964 && a.isRFC4380 then
    [NET_IPV4, a.getByte 3 ^^^ 0xFF, a.getByte 2 ^^^ 0xFF]
  else
    let (nClass, nStartByte, nBits) := a.groupRange
    nClass :: (slice a.bytes nStartByte (nBits / 8) ++
      if nBits % 8 > 0 then
        [a.bytes.getD (nStartByte + nBits / 8) 0 ||| UInt8.ofNat (2 ^ (nBits % 8) - 1)]
      else [])

/-- `operator<`. -/
def lt (b : CNetAddr) : Bool :=
  if a.isTorV3 = b.isTorV3 then
    if b.isTorV3 then decide (a.bytes < b.bytes) else decide (a.ip < b.ip)
  else if a.ip = b.ip then b.isTorV3
  else decide (a.ip < b.ip)

/-- `operator==`. -/
def eqv (b : CNetAddr) : Bool :=
  if a.isTorV3 = b.isTorV3 then
    if b.isTorV3 then a.bytes == b.bytes else a.ip == b.ip
  else false

variable {a} {b : CNetAddr}

theorem lt_append_iff {l l' : Bytes} (r r' : Bytes) (hlen : l.length = l'.length) :
    l ++ r < l' ++ r' ↔ l < l' ∨ l = l' ∧ r < r' := by
  induction l generalizing l' with
  | nil =>
    obtain rfl := List.length_eq_zero_iff.mp hlen.symm
    simp
  | cons x l ih =>
    cases l' with
    | nil => simp at hlen
    | cons y l' =>
      simp only [List.length_cons, Nat.add_right_cancel_iff] at hlen
      rw [List.cons_append, List.cons_append, List.cons_lt_cons_iff, List.cons_lt_cons_iff, ih hlen,
        List.cons.injEq]
      tauto

theorem eq_of_bytes (h : a.bytes = b.bytes) : a = b := by
  have hlen : a.ip.length = b.ip.length := a.ip_length.trans b.ip_length.symm
  obtain ⟨hip, hrest⟩ := List.append_inj h hlen
  rcases a with ⟨ip, torV3, hip', hrest'⟩
  rcases b with ⟨ip', torV3', hip'', hrest''⟩
  obtain rfl : ip = ip' := hip
  congr 1
  cases torV3 with
  | none =>
    cases torV3' with
    | none => rfl
    | some rest' =>
      have hlong := (hrest'' rest' rfl).1
      rw [← show [] = rest' from hrest] at hlong
      exact absurd hlong (by decide)
  | some rest =>
    cases torV3' with
    | none =>
      have hlong := (hrest' rest rfl).1
      rw [show rest = [] from hrest] at hlong
      exact absurd hlong (by decide)
    | some rest' => exact congrArg some hrest

/-- The order of the map is the one of the bytes, so different addresses are never taken for one. -/
theorem lt_iff : a.lt b = true ↔ a.bytes < b.bytes := by
  have hlen : a.ip.length = b.ip.length := a.ip_length.trans b.ip_length.symm
  have hbytes := lt_append_iff (a.torV3.getD []) (b.torV3.getD []) hlen
  refine Iff.trans ?_ hbytes.symm
  rw [lt]
  rcases htor : a.torV3 with _ | rest <;> rcases htor' : b.torV3 with _ | rest' <;>
    simp only [isTorV3, bytes, htor, htor', Option.isSome_none, Option.isSome_some, if_true, if_false,
      Bool.false_eq_true, Bool.true_eq_false, decide_eq_true_iff, Option.getD_none, Option.getD_some,
      lt_append_iff _ _ hlen]
  · simp
  · have hlong := (b.torV3_length rest' htor').1
    have hmore : ([] : Bytes) < rest' := by
      cases rest' with
      | nil => exact absurd hlong (by decide)
      | cons x rest' => exact List.nil_lt_cons x rest'
    by_cases hip : a.ip = b.ip
    · simp [hip, hmore]
    · simp [hip]
  · by_cases hip : a.ip = b.ip
    · simp [hip]
    · simp [hip]

theorem eqv_iff : a.eqv b = true ↔ a = b := by
  constructor
  · intro h
    rw [eqv] at h
    rcases htor : a.torV3 with _ | rest <;> rcases htor' : b.torV3 with _ | rest' <;>
      simp only [isTorV3, htor, htor', Option.isSome_none, Option.isSome_some, if_true, if_false,
        Bool.false_eq_true, Bool.true_eq_false, beq_iff_eq] at h
    · exact eq_of_bytes (by rw [bytes, bytes, htor, htor', h])
    · exact eq_of_bytes h
  · rintro rfl
    rw [eqv, if_pos rfl]
    split <;> exact beq_self_eq_true _

end CNetAddr

/-- `GetKey`. -/
def CService.getKey (s : CService) : Bytes :=
  s.bytes ++ [UInt8.ofNat (s.port.toNat / 256), UInt8.ofNat (s.port.toNat % 256)]

end AliasWallet
