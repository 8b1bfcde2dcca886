import AliasWallet.Lib.Bytes

/-!
# SHA-256 and SHA-1

The hash functions over byte strings, on natural numbers below `2 ^ 32` so that the kernel can run
them. The message schedule is a sliding window of sixteen words.
-/

namespace Lib

namespace Sha256

def word : Nat := 2 ^ 32

def rotr (x k : Nat) : Nat := (x >>> k) ||| ((x <<< (32 - k)) % word)

def roundConstants : List Nat :=
  [0x428a2f98, 0x71374491, 0xb5c0fbcf, 0xe9b5dba5, 0x3956c25b, 0x59f111f1, 0x923f82a4, 0xab1c5ed5,
   0xd807aa98, 0x12835b01, 0x243185be, 0x550c7dc3, 0x72be5d74, 0x80deb1fe, 0x9bdc06a7, 0xc19bf174,
   0xe49b69c1, 0xefbe4786, 0x0fc19dc6, 0x240ca1cc, 0x2de92c6f, 0x4a7484aa, 0x5cb0a9dc, 0x76f988da,
   0x983e5152, 0xa831c66d, 0xb00327c8, 0xbf597fc7, 0xc6e00bf3, 0xd5a79147, 0x06ca6351, 0x14292967,
   0x27b70a85, 0x2e1b2138, 0x4d2c6dfc, 0x53380d13, 0x650a7354, 0x766a0abb, 0x81c2c92e, 0x92722c85,
   0xa2bfe8a1, 0xa81a664b, 0xc24b8b70, 0xc76c51a3, 0xd192e819, 0xd6990624, 0xf40e3585, 0x106aa070,
   0x19a4c116, 0x1e376c08, 0x2748774c, 0x34b0bcb5, 0x391c0cb3, 0x4ed8aa4a, 0x5b9cca4f, 0x682e6ff3,
   0x748f82ee, 0x78a5636f, 0x84c87814, 0x8cc70208, 0x90befffa, 0xa4506ceb, 0xbef9a3f7, 0xc67178f2]

structure State where
  a : Nat
  b : Nat
  c : Nat
  d : Nat
  e : Nat
  f : Nat
  g : Nat
  h : Nat

def initial : State :=
  ⟨0x6a09e667, 0xbb67ae85, 0x3c6ef372, 0xa54ff53a, 0x510e527f, 0x9b05688c, 0x1f83d9ab, 0x5be0cd19⟩

def round (s : State) (k w : Nat) : State :=
  let s1 := rotr s.e 6 ^^^ rotr s.e 11 ^^^ rotr s.e 25
  let ch := (s.e &&& s.f) ^^^ ((word - 1 - s.e) &&& s.g)
  let t1 := s.h + s1 + ch + k + w
  let s0 := rotr s.a 2 ^^^ rotr s.a 13 ^^^ rotr s.a 22
  let maj := (s.a &&& s.b) ^^^ (s.a &&& s.c) ^^^ (s.b &&& s.c)
  ⟨(t1 + s0 + maj) % word, s.a, s.b, s.c, (s.d + t1) % word, s.e, s.f, s.g⟩

def rounds : List Nat → List Nat → State → State
  | k :: ks, w0 :: w1 :: w2 :: w3 :: w4 :: w5 :: w6 :: w7 :: w8 :: w9 :: w10 :: w11 :: w12 :: w13 ::
      w14 :: w15 :: [], s =>
    let x0 := rotr w1 7 ^^^ rotr w1 18 ^^^ (w1 >>> 3)
    let x1 := rotr w14 17 ^^^ rotr w14 19 ^^^ (w14 >>> 10)
    let w16 := (w0 + x0 + w9 + x1) % word
    rounds ks [w1, w2, w3, w4, w5, w6, w7, w8, w9, w10, w11, w12, w13, w14, w15, w16] (round s k w0)
  | _, _, s => s

def compress (s : State) (ws : List Nat) : State :=
  let t := rounds roundConstants ws s
  ⟨(s.a + t.a) % word, (s.b + t.b) % word, (s.c + t.c) % word, (s.d + t.d) % word,
   (s.e + t.e) % word, (s.f + t.f) % word, (s.g + t.g) % word, (s.h + t.h) % word⟩

def blockWords (bs : Bytes) : List Nat := (List.range 16).map fun i => beNat (slot 4 bs i)

/-- The message with its padding: `0x80`, zeros and the length in bits. -/
def padded (bs : Bytes) : Bytes :=
  bs ++ 0x80 :: List.replicate ((119 - bs.length % 64) % 64) 0 ++ beBytes 8 (8 * bs.length)

def digest (s : State) : Bytes :=
  [s.a, s.b, s.c, s.d, s.e, s.f, s.g, s.h].flatMap (beBytes 4)

end Sha256

/-- SHA-256 of a byte string. -/
def sha256 (bs : Bytes) : Bytes :=
  let msg := Sha256.padded bs
  Sha256.digest <| (List.range (msg.length / 64)).foldl
    (fun s i => Sha256.compress s (Sha256.blockWords (slot 64 msg i))) Sha256.initial

example : beNat (sha256 [0x61, 0x62, 0x63]) =
    0xba7816bf8f01cfea414140de5dae2223b00361a396177a9cb410ff61f20015ad := by decide +kernel

namespace Sha1

open Sha256

def rotl (x k : Nat) : Nat := ((x <<< k) % word) ||| (x >>> (32 - k))

structure State where
  a : Nat
  b : Nat
  c : Nat
  d : Nat
  e : Nat

def initial : State := ⟨0x67452301, 0xefcdab89, 0x98badcfe, 0x10325476, 0xc3d2e1f0⟩

/-- Function and constant of round `t`. -/
def mix (s : State) (t : Nat) : Nat :=
  match t / 20 with
  | 0 => ((s.b &&& s.c) ^^^ ((word - 1 - s.b) &&& s.d)) + 0x5a827999
  | 1 => (s.b ^^^ s.c ^^^ s.d) + 0x6ed9eba1
  | 2 => ((s.b &&& s.c) ^^^ (s.b &&& s.d) ^^^ (s.c &&& s.d)) + 0x8f1bbcdc
  | _ => (s.b ^^^ s.c ^^^ s.d) + 0xca62c1d6

/-- The state and the window of words before a round. -/
def round (st : State × List Nat) (t : Nat) : State × List Nat :=
  let (s, ws) := st
  let w := ws.getD 0 0
  let next := rotl (ws.getD 13 0 ^^^ ws.getD 8 0 ^^^ ws.getD 2 0 ^^^ w) 1
  (⟨(rotl s.a 5 + mix s t + s.e + w) % word, s.a, rotl s.b 30, s.c, s.d⟩, ws.tail ++ [next])

def compress (s : State) (ws : List Nat) : State :=
  let t := ((List.range 80).foldl round (s, ws)).1
  ⟨(s.a + t.a) % word, (s.b + t.b) % word, (s.c + t.c) % word, (s.d + t.d) % word,
   (s.e + t.e) % word⟩

end Sha1

/-- SHA-1 of a byte string. -/
def sha1 (bs : Bytes) : Bytes :=
  let msg := Sha256.padded bs
  let s := (List.range (msg.length / 64)).foldl
    (fun s i => Sha1.compress s (Sha256.blockWords (slot 64 msg i))) Sha1.initial
  [s.a, s.b, s.c, s.d, s.e].flatMap (beBytes 4)

example : beNat (sha1 [0x61, 0x62, 0x63]) = 0xa9993e364706816aba3e25717850c26c9cd0d89d := by
  decide +kernel

end Lib
