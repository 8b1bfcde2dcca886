import AliasWallet.Crypto.Curve
import AliasWallet.Lib.Eval

/-!
# The curve and the hash that the node links against

secp256k1 and the double SHA-256 as instances of the parameters of the model.
-/

namespace AliasWallet
open Lib

def secp256k1 : Curve Secp256k1.Point where
  order := Secp256k1.order
  generator := Secp256k1.generator
  mul := Secp256k1.mul
  add := Secp256k1.add
  isAtInfinity P := P == .infinity
  oct2point := Secp256k1.decode
  bn2point n := Secp256k1.decode (minBytes n)
  point2oct := Secp256k1.encode
  setCompressedCoordinates x := Secp256k1.decompress (x % Secp256k1.prime) false

def sha256d : HashFn := fun bs => uint256OfBytes (sha256 (sha256 bs))

section Eval

/-- The curve as the kernel computes it best. -/
def evalSecp256k1 : Curve Secp256k1.Point where
  order := Secp256k1.order
  generator := Secp256k1.generator
  mul := Secp256k1.evalMul
  add := Secp256k1.evalAdd
  isAtInfinity P := P == .infinity
  oct2point := Secp256k1.evalDecode
  bn2point n := Secp256k1.evalDecode (minBytes n)
  point2oct := Secp256k1.encode
  setCompressedCoordinates x := Secp256k1.evalDecompress (x % Secp256k1.prime) false

theorem secp256k1_eq_eval : secp256k1 = evalSecp256k1 := by
  rw [secp256k1, evalSecp256k1, Secp256k1.mul_eq_eval, Secp256k1.add_eq_eval, Secp256k1.decode_eq_eval,
    Secp256k1.decompress_eq_eval]

/-- The double hash as the kernel computes it best. -/
def evalSha256d : HashFn := fun bs => uint256OfBytes (evalSha256 (evalSha256 bs))

theorem sha256d_eq_eval : sha256d = evalSha256d := by
  funext bs
  simp only [sha256d, evalSha256d, sha256_eq_eval]

end Eval

end AliasWallet
