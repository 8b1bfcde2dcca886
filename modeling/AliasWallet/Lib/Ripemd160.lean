import AliasWallet.Lib.Sha256

/-!
# RIPEMD-160

Two lines of eighty rounds over the same block, which differ in the order of the words, the shifts,
the functions and the constants.
-/

namespace Lib

namespace Ripemd160

open Sha256 Sha1

structure State where
  a : Nat
  b : Nat
  c : Nat
  d : Nat
  e : Nat

def initial : State := ⟨0x67452301, 0xefcdab89, 0x98badcfe, 0x10325476, 0xc3d2e1f0⟩

def leftWords : List Nat :=
  [0, 1, 2, 3, 4, 5, 6, 7, 8, 9, 10, 11, 12, 13, 14, 15,
   7, 4, 13, 1, 10, 6, 15, 3, 12, 0, 9, 5, 2, 14, 11, 8,
   3, 10, 14, 4, 9, 15, 8, 1, 2, 7, 0, 6, 13, 11, 5, 12,
   1, 9, 11, 10, 0, 8, 12, 4, 13, 3, 7, 15, 14, 5, 6, 2,
   4, 0, 5, 9, 7, 12, 2, 10, 14, 1, 3, 8, 11, 6, 15, 13]

def rightWords : List Nat :=
  [5, 14, 7, 0, 9, 2, 11, 4, 13, 6, 15, 8, 1, 10, 3, 12,
   6, 11, 3, 7, 0, 13, 5, 10, 14, 15, 8, 12, 4, 9, 1, 2,
   15, 5, 1, 3, 7, 14, 6, 9, 11, 8, 12, 2, 10, 0, 4, 13,
   8, 6, 4, 1, 3, 11, 15, 0, 5, 12, 2, 13, 9, 7, 10, 14,
   12, 15, 10, 4, 1, 5, 8, 7, 6, 2, 13, 14, 0, 3, 9, 11]

def leftShifts : List Nat :=
  [11, 14, 15, 12, 5, 8, 7, 9, 11, 13, 14, 15, 6, 7, 9, 8,
   7, 6, 8, 13, 11, 9, 7, 15, 7, 12, 15, 9, 11, 7, 13, 12,
   11, 13, 6, 7, 14, 9, 13, 15, 14, 8, 13, 6, 5, 12, 7, 5,
   11, 12, 14, 15, 14, 15, 9, 8, 9, 14, 5, 6, 8, 6, 5, 12,
   9, 15, 5, 11, 6, 8, 13, 12, 5, 12, 13, 14, 11, 8, 5, 6]

def rightShifts : List Nat :=
  [8, 9, 9, 11, 13, 15, 15, 5, 7, 7, 8, 11, 14, 14, 12, 6,
   9, 13, 15, 7, 12, 8, 9, 11, 7, 7, 12, 7, 6, 15, 13, 11,
   9, 7, 15, 11, 8, 6, 6, 14, 12, 13, 5, 14, 13, 13, 7, 5,
   15, 5, 8, 11, 14, 14, 6, 14, 6, 9, 12, 9, 12, 5, 15, 8,
   8, 5, 12, 9, 12, 5, 14, 6, 8, 13, 6, 5, 15, 13, 11, 11]

def leftConstants : List Nat := [0, 0x5a827999, 0x6ed9eba1, 0x8f1bbcdc, 0xa953fd4e]

def rightConstants : List Nat := [0x50a28be6, 0x5c4dd124, 0x6d703ef3, 0x7a6d76e9, 0]

/-- The function of group `j`. -/
def mix (j x y z : Nat) : Nat :=
  match j with
  | 0 => x ^^^ y ^^^ z
  | 1 => (x &&& y) ||| ((word - 1 - x) &&& z)
  | 2 => (x ||| (word - 1 - y)) ^^^ z
  | 3 => (x &&& z) ||| (y &&& (word - 1 - z))
  | _ => x ^^^ (y ||| (word - 1 - z))

def round (s : State) (f x shift : Nat) : State :=
  ⟨s.e, (rotl ((s.a + f + x) % word) shift + s.e) % word, s.b, rotl s.c 10, s.d⟩

/-- One line: the groups run through the functions forwards or backwards. -/
def line (fBackwards : Bool) (words shifts constants ws : List Nat) (s : State) : State :=
  (List.range 80).foldl (fun s t =>
    let j := t / 16
    round s (mix (if fBackwards then 4 - j else j) s.b s.c s.d)
      (ws.getD (words.getD t 0) 0 + constants.getD j 0) (shifts.getD t 0)) s

def compress (s : State) (ws : List Nat) : State :=
  let l := line false leftWords leftShifts leftConstants ws s
  let r := line true rightWords rightShifts rightConstants ws s
  ⟨(s.b + l.c + r.d) % word, (s.c + l.d + r.e) % word, (s.d + l.e + r.a) % word,
   (s.e + l.a + r.b) % word, (s.a + l.b + r.c) % word⟩

def blockWords (bs : Bytes) : List Nat := (List.range 16).map fun i => leNat (slot 4 bs i)

def padded (bs : Bytes) : Bytes :=
  bs ++ 0x80 :: List.replicate ((119 - bs.length % 64) % 64) 0 ++ leBytes 8 (8 * bs.length)

end Ripemd160

/-- RIPEMD-160 of a byte string. -/
def ripemd160 (bs : Bytes) : Bytes :=
  let msg := Ripemd160.padded bs
  let s := (List.range (msg.length / 64)).foldl
    (fun s i => Ripemd160.compress s (Ripemd160.blockWords (slot 64 msg i))) Ripemd160.initial
  [s.a, s.b, s.c, s.d, s.e].flatMap (leBytes 4)

example : beNat (ripemd160 [0x61, 0x62, 0x63]) = 0x8eb208f7e05d987a9b044a8e98c6b087f15a0bfc := by
  decide +kernel

end Lib
