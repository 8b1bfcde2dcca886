import AliasWallet.Lib.Bytes

/-!
# MurmurHash3 (x86, 32 bits)

The hash of a byte string from a seed: the blocks of four bytes, the bytes behind them, and the mixing at the end.
-/

namespace Lib

namespace Murmur

/-- `ROTL32`. -/
def rotl32 (x : UInt32) (r : UInt32) : UInt32 := (x <<< r) ||| (x >>> (32 - r))

def mixKey (k1 : UInt32) : UInt32 := rotl32 (k1 * 0xcc9e2d51) 15 * 0x1b873593

/-- The loop over the blocks, and the bytes that are left. -/
def body : UInt32 → Bytes → UInt32 × Bytes
  | h1, b0 :: b1 :: b2 :: b3 :: rest =>
    body (rotl32 (h1 ^^^ mixKey (UInt32.ofNat (leNat [b0, b1, b2, b3]))) 13 * 5 + 0xe6546b64) rest
  | h1, tail => (h1, tail)

/-- The cases of the switch. Without bytes the state stays. -/
def tail (h1 : UInt32) (bytes : Bytes) : UInt32 :=
  if bytes = [] then h1 else h1 ^^^ mixKey (UInt32.ofNat (leNat bytes))

def finish (h1 : UInt32) : UInt32 :=
  let h1 := (h1 ^^^ (h1 >>> 16)) * 0x85ebca6b
  let h1 := (h1 ^^^ (h1 >>> 13)) * 0xc2b2ae35
  h1 ^^^ (h1 >>> 16)

end Murmur

/-- `MurmurHash3`. -/
def murmurHash3 (nHashSeed : UInt32) (vDataToHash : Bytes) : UInt32 :=
  let (h1, rest) := Murmur.body nHashSeed vDataToHash
  Murmur.finish (Murmur.tail h1 rest ^^^ UInt32.ofNat vDataToHash.length)

example : murmurHash3 0 [0, 0x11, 0x22, 0x33, 0x44, 0x55, 0x66] = 0xb074502c := by decide

end Lib
