import AliasWallet.Lib.Bytes
import AliasWallet.Lib.PrimeGroup

/-!
# The curve and the hash as the ring-signature code sees them

OpenSSL's curve operations and the double SHA-256 are not part of the repository: the model takes
them as parameters, and `PrimeOrder` collects what is documented about the curve.
-/

namespace AliasWallet
open Lib

/-- `uint256`: its memory is the little-endian form of its value. -/
abbrev UInt256 := BitVec 256

/-- The bytes `[begin(), end())` of a `uint256`. -/
def uint256Bytes (h : UInt256) : Bytes := leBytes 32 h.toNat

/-- The `uint256` whose memory is filled from `bs`. -/
def uint256OfBytes (bs : Bytes) : UInt256 := BitVec.ofNat 256 (leNat bs)

/-- `Hash` of `hash.h`: a byte string to its double SHA-256. -/
abbrev HashFn := Bytes → UInt256

/-- `BN_bin2bn(h.begin(), EC_SECRET_SIZE, _)`. -/
def bnOfHash (h : UInt256) : Nat := beNat (uint256Bytes h)

def EC_SECRET_SIZE : Nat := 32

def EC_COMPRESSED_SIZE : Nat := 33

/-- The operations of `EC_GROUP` that `ringsig.cpp` calls; `point2oct` is the compressed form. -/
structure Curve (Pt : Type) where
  order : Nat
  generator : Pt
  mul : Pt → Nat → Pt
  add : Pt → Pt → Pt
  isAtInfinity : Pt → Bool
  oct2point : Bytes → Option Pt
  bn2point : Nat → Option Pt
  point2oct : Pt → Bytes
  setCompressedCoordinates : Nat → Option Pt

/-- The documented behaviour of a curve group of prime order: the operations are those of the
group, and every point but the one at infinity has its own 33-byte form. -/
structure PrimeOrder {G : Type} [AddCommGroup G] (E : Curve G) : Prop where
  card : Nat.card G = E.order
  prime : E.order.Prime
  order_le : E.order ≤ 256 ^ EC_SECRET_SIZE
  mul_eq : ∀ P n, E.mul P n = n • P
  add_eq : ∀ P Q, E.add P Q = P + Q
  isAtInfinity_iff : ∀ P, E.isAtInfinity P = true ↔ P = 0
  point2oct_zero : E.point2oct 0 = [0]
  point2oct_length : ∀ P, P ≠ 0 → (E.point2oct P).length = EC_COMPRESSED_SIZE
  point2oct_head : ∀ P, P ≠ 0 → (E.point2oct P).head? ≠ some 0
  oct2point_point2oct : ∀ P, P ≠ 0 → E.oct2point (E.point2oct P) = some P
  bn2point_eq : ∀ bs, bs.length = EC_COMPRESSED_SIZE → bs.head? ≠ some 0 →
    E.bn2point (beNat bs) = E.oct2point bs

@[simp] theorem uint256Bytes_length (h : UInt256) : (uint256Bytes h).length = 32 := by
  simp [uint256Bytes]

theorem uint256OfBytes_uint256Bytes (h : UInt256) : uint256OfBytes (uint256Bytes h) = h := by
  have hlt : h.toNat < 256 ^ 32 := by
    have := h.isLt
    norm_num at this ⊢
    exact this
  rw [uint256OfBytes, uint256Bytes, leNat_leBytes_of_lt 32 _ hlt, BitVec.ofNat_toNat,
    BitVec.setWidth_eq]

theorem uint256Bytes_injective (h k : UInt256) (heq : uint256Bytes h = uint256Bytes k) : h = k := by
  rw [← uint256OfBytes_uint256Bytes h, heq, uint256OfBytes_uint256Bytes]

namespace PrimeOrder

variable {G : Type} [AddCommGroup G] {E : Curve G} (hE : PrimeOrder E)
include hE

theorem point2oct_length_iff (P : G) : (E.point2oct P).length = EC_COMPRESSED_SIZE ↔ P ≠ 0 := by
  constructor
  · rintro h rfl
    simp [hE.point2oct_zero, EC_COMPRESSED_SIZE] at h
  · exact hE.point2oct_length P

theorem bn2point_point2oct (P : G) (hP : P ≠ 0) : E.bn2point (beNat (E.point2oct P)) = some P := by
  rw [hE.bn2point_eq _ (hE.point2oct_length P hP) (hE.point2oct_head P hP),
    hE.oct2point_point2oct P hP]

end PrimeOrder

section Residues

variable (q : Nat) [NeZero q]

/-- The residues modulo `q` as a curve: `02 ‖ x` encodes a nonzero `x`, a single zero byte the
point at infinity. -/
def residueCurve : Curve (ZMod q) where
  order := q
  generator := 1
  mul P n := n • P
  add P Q := P + Q
  isAtInfinity P := decide (P = 0)
  oct2point bs :=
    if bs.length = EC_COMPRESSED_SIZE ∧ bs.head? = some 2 then some (beNat bs.tail : ZMod q)
    else none
  bn2point n :=
    if n / 256 ^ EC_SECRET_SIZE = 2 then some ((n % 256 ^ EC_SECRET_SIZE : Nat) : ZMod q) else none
  point2oct P := if P = 0 then [0] else 2 :: beBytes EC_SECRET_SIZE P.val
  setCompressedCoordinates n := some (n : ZMod q)

private theorem residue_beNat (hq : q ≤ 256 ^ EC_SECRET_SIZE) (P : ZMod q) :
    beNat (beBytes EC_SECRET_SIZE P.val) = P.val := by
  rw [beNat_beBytes, Nat.mod_eq_of_lt (lt_of_lt_of_le (ZMod.val_lt P) hq)]

theorem residueCurve_primeOrder [Fact q.Prime] (hq : q ≤ 256 ^ EC_SECRET_SIZE) :
    PrimeOrder (residueCurve q) where
  card := Nat.card_zmod q
  prime := (Fact.out : q.Prime)
  order_le := hq
  mul_eq _ _ := rfl
  add_eq _ _ := rfl
  isAtInfinity_iff P := by simp [residueCurve]
  point2oct_zero := by simp [residueCurve]
  point2oct_length P hP := by simp [residueCurve, hP, EC_COMPRESSED_SIZE, EC_SECRET_SIZE]
  point2oct_head P hP := by simp [residueCurve, hP]
  oct2point_point2oct P hP := by
    have hlen : (2 :: beBytes EC_SECRET_SIZE P.val).length = EC_COMPRESSED_SIZE := by
      simp [EC_COMPRESSED_SIZE, EC_SECRET_SIZE]
    simp only [residueCurve, if_neg hP, hlen, List.head?_cons, List.tail_cons,
      residue_beNat q hq, ZMod.natCast_zmod_val, and_self, if_true]
  bn2point_eq bs hlen _ := by
    cases bs with
    | nil => simp [EC_COMPRESSED_SIZE] at hlen
    | cons b tail =>
      have htail : tail.length = EC_SECRET_SIZE := by
        simpa [EC_COMPRESSED_SIZE, EC_SECRET_SIZE] using hlen
      have hlt : beNat tail < 256 ^ EC_SECRET_SIZE := by
        rw [← htail]
        exact beNat_lt tail
      have hval : beNat (b :: tail) = 256 ^ EC_SECRET_SIZE * b.toNat + beNat tail := by
        rw [← List.singleton_append, beNat_append, htail, Nat.mul_comm]
        simp [beNat]
      have hpos : 0 < 256 ^ EC_SECRET_SIZE := by norm_num [EC_SECRET_SIZE]
      have hhead : b.toNat = 2 ↔ b = 2 := by
        rw [← UInt8.toNat_inj]
        rfl
      simp only [residueCurve, hval, Nat.mul_add_div hpos, Nat.div_eq_of_lt hlt, Nat.mul_add_mod,
        Nat.mod_eq_of_lt hlt, Nat.add_zero, hhead, hlen, List.head?_cons, List.tail_cons,
        Option.some.injEq, true_and]

end Residues

end AliasWallet
