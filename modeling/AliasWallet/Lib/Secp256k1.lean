import AliasWallet.Lib.Bytes

/-!
# The curve secp256k1

`y ^ 2 = x ^ 3 + 7` over the field of `prime` elements. Scalar multiples run in Jacobian
coordinates and are brought back to affine form once, so that the kernel can compute them.
-/

namespace Lib

namespace Secp256k1

def prime : Nat := 0xFFFFFFFFFFFFFFFFFFFFFFFFFFFFFFFFFFFFFFFFFFFFFFFFFFFFFFFEFFFFFC2F

def order : Nat := 0xFFFFFFFFFFFFFFFFFFFFFFFFFFFFFFFEBAAEDCE6AF48A03BBFD25E8CD0364141

inductive Point
  | infinity
  | affine (x y : Nat)
  deriving DecidableEq, Repr

def generator : Point :=
  .affine 0x79BE667EF9DCBBAC55A06295CE870B07029BFCDB2DCE28D959F2815B16F81798
    0x483ADA7726A3C4655DA4FBFC0E1108A8FD17B448A68554199C47D08FFB10D4B8

/-- `acc * b ^ e` modulo `m`, with one step of fuel for each bit of `e`. -/
def powMod (m : Nat) : Nat → Nat → Nat → Nat → Nat
  | 0, _, _, acc => acc
  | fuel + 1, e, b, acc =>
    if e = 0 then acc
    else powMod m fuel (e / 2) (b * b % m) (if e % 2 = 1 then acc * b % m else acc)

def inverse (a : Nat) : Nat := powMod prime 256 (prime - 2) a 1

/-- The candidate for a square root; `prime` is 3 modulo 4. -/
def sqrt (a : Nat) : Nat := powMod prime 256 ((prime + 1) / 4) a 1

/-- The point `(x / z ^ 2, y / z ^ 3)`; `z = 0` is the point at infinity. -/
structure Jacobian where
  x : Nat
  y : Nat
  z : Nat

namespace Jacobian

def double (P : Jacobian) : Jacobian :=
  let a := P.x * P.x % prime
  let b := P.y * P.y % prime
  let c := b * b % prime
  let d := 2 * ((P.x + b) * (P.x + b) + 2 * (prime * prime) - a - c) % prime
  let e := 3 * a % prime
  let x := (e * e + 2 * (prime - d)) % prime
  ⟨x, (e * (d + prime - x) + 8 * (prime - c)) % prime, 2 * P.y * P.z % prime⟩

def add (P Q : Jacobian) : Jacobian :=
  if P.z = 0 then Q
  else if Q.z = 0 then P
  else
    let z1 := P.z * P.z % prime
    let z2 := Q.z * Q.z % prime
    let u1 := P.x * z2 % prime
    let u2 := Q.x * z1 % prime
    let s1 := P.y * Q.z * z2 % prime
    let s2 := Q.y * P.z * z1 % prime
    if u1 = u2 then
      if s1 = s2 then P.double else ⟨1, 1, 0⟩
    else
      let h := (u2 + prime - u1) % prime
      let r := (s2 + prime - s1) % prime
      let hh := h * h % prime
      let hhh := h * hh % prime
      let v := u1 * hh % prime
      let x := (r * r + (prime - hhh) + 2 * (prime - v)) % prime
      ⟨x, (r * (v + prime - x) + s1 * (prime - hhh)) % prime, P.z * Q.z * h % prime⟩

def mulAux : Nat → Nat → Jacobian → Jacobian → Jacobian
  | 0, _, _, acc => acc
  | fuel + 1, n, P, acc =>
    if n = 0 then acc else mulAux fuel (n / 2) P.double (if n % 2 = 1 then acc.add P else acc)

def ofPoint : Point → Jacobian
  | .infinity => ⟨1, 1, 0⟩
  | .affine x y => ⟨x, y, 1⟩

def toPoint (P : Jacobian) : Point :=
  if P.z = 0 then .infinity
  else
    let i := inverse P.z
    let ii := i * i % prime
    .affine (P.x * ii % prime) (P.y * ii * i % prime)

end Jacobian

def mul (P : Point) (n : Nat) : Point :=
  (Jacobian.mulAux (numBits n) n (.ofPoint P) ⟨1, 1, 0⟩).toPoint

def add (P Q : Point) : Point := ((Jacobian.ofPoint P).add (.ofPoint Q)).toPoint

/-- The point with the given `x` and the parity of `y`, if there is one. -/
def decompress (x : Nat) (odd : Bool) : Option Point :=
  let a := (x * x % prime * x + 7) % prime
  let y := sqrt a
  if y * y % prime = a then some (.affine x (if (y % 2 == 1) == odd then y else prime - y)) else none

/-- The ECDSA equation for the key `Q`, the message `z` and the signature `(r, s)`. -/
def verify (Q : Point) (z r s : Nat) : Bool :=
  let w := powMod order 256 (order - 2) s 1
  decide (0 < r ∧ r < order ∧ 0 < s ∧ s < order) &&
    match add (mul generator (z * w % order)) (mul Q (r * w % order)) with
    | .infinity => false
    | .affine x _ => x % order == r

/-- The compressed form: parity and `x`, or a single zero for the point at infinity. -/
def encode : Point → Bytes
  | .infinity => [0]
  | .affine x y => (if y % 2 = 1 then 3 else 2) :: beBytes 32 x

def decode (bs : Bytes) : Option Point :=
  match bs with
  | [0] => some .infinity
  | h :: xs =>
    if xs.length = 32 ∧ (h = 2 ∨ h = 3) ∧ beNat xs < prime then decompress (beNat xs) (h == 3)
    else none
  | [] => none

end Secp256k1

example : Secp256k1.mul Secp256k1.generator Secp256k1.order = .infinity := by decide +kernel

end Lib
