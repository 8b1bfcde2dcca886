import AliasWallet.Lib.Secp256k1
import AliasWallet.Lib.Sha256

/-!
# The concrete primitives for evaluation

The kernel carries terms that it has not evaluated yet. Here every word of a hash and every coordinate of a
point is a numeral before the next step reads it. Both forms are equal, so that a closed statement about the
primitives can be rewritten before it is decided.
-/

namespace Lib

/-- The function at the number, which is computed first. -/
def force {α : Type} (n : Nat) (f : Nat → α) : α := Nat.rec (f 0) (fun k _ => f (Nat.succ k)) n

@[simp] theorem force_eq {α : Type} (n : Nat) (f : Nat → α) : force n f = f n := by
  cases n <;> rfl

namespace Sha256

/-- `rotr` of a word, with both shifts. -/
def rotate (x k l : Nat) : Nat :=
  Nat.lor (Nat.shiftRight x k) (Nat.mod (Nat.shiftLeft x l) 4294967296)

/-- `rounds` over the window and the state word by word, and what comes next at the last state. -/
def evalRounds {α : Type} : List Nat → Nat → Nat → Nat → Nat → Nat → Nat → Nat → Nat → Nat → Nat → Nat → Nat →
    Nat → Nat → Nat → Nat → Nat → Nat → Nat → Nat → Nat → Nat → Nat → Nat →
    (Nat → Nat → Nat → Nat → Nat → Nat → Nat → Nat → α) → α
  | [], _, _, _, _, _, _, _, _, _, _, _, _, _, _, _, _, a, b, c, d, e, f, g, h, next => next a b c d e f g h
  | k :: ks, w0, w1, w2, w3, w4, w5, w6, w7, w8, w9, w10, w11, w12, w13, w14, w15, a, b, c, d, e, f, g, h,
      next =>
    force (Nat.mod (Nat.add (Nat.add (Nat.add w0 (Nat.xor (Nat.xor (rotate w1 7 25) (rotate w1 18 14))
      (Nat.shiftRight w1 3))) w9) (Nat.xor (Nat.xor (rotate w14 17 15) (rotate w14 19 13))
      (Nat.shiftRight w14 10))) 4294967296) fun w16 =>
    force (Nat.add (Nat.add (Nat.add (Nat.add h (Nat.xor (Nat.xor (rotate e 6 26) (rotate e 11 21))
      (rotate e 25 7))) (Nat.xor (Nat.land e f) (Nat.land (Nat.sub 4294967295 e) g))) k) w0) fun t1 =>
    force (Nat.mod (Nat.add d t1) 4294967296) fun e' =>
    force (Nat.mod (Nat.add (Nat.add t1 (Nat.xor (Nat.xor (rotate a 2 30) (rotate a 13 19)) (rotate a 22 10)))
      (Nat.xor (Nat.xor (Nat.land a b) (Nat.land a c)) (Nat.land b c))) 4294967296) fun a' =>
    evalRounds ks w1 w2 w3 w4 w5 w6 w7 w8 w9 w10 w11 w12 w13 w14 w15 w16 a' a b c e' e f g next

theorem evalRounds_eq {α : Type} (next : Nat → Nat → Nat → Nat → Nat → Nat → Nat → Nat → α) (ks : List Nat)
    (w0 w1 w2 w3 w4 w5 w6 w7 w8 w9 w10 w11 w12 w13 w14 w15 : Nat) (s : State) :
    evalRounds ks w0 w1 w2 w3 w4 w5 w6 w7 w8 w9 w10 w11 w12 w13 w14 w15 s.a s.b s.c s.d s.e s.f s.g s.h next =
      let t := rounds ks [w0, w1, w2, w3, w4, w5, w6, w7, w8, w9, w10, w11, w12, w13, w14, w15] s
      next t.a t.b t.c t.d t.e t.f t.g t.h := by
  induction ks generalizing w0 w1 w2 w3 w4 w5 w6 w7 w8 w9 w10 w11 w12 w13 w14 w15 s with
  | nil => rfl
  | cons k ks ih =>
    rw [evalRounds]
    simp only [force_eq]
    exact ih _ _ _ _ _ _ _ _ _ _ _ _ _ _ _ _ (round s k w0)

/-- The words of a message. -/
def words : Bytes → List Nat
  | w :: x :: y :: z :: bs =>
    Nat.add (Nat.mul (Nat.add (Nat.mul (Nat.add (Nat.mul w.toNat 256) x.toNat) 256) y.toNat) 256) z.toNat ::
      words bs
  | _ => []

/-- The compressions over the words of a message. -/
def evalBlocks : List Nat → Nat → Nat → Nat → Nat → Nat → Nat → Nat → Nat → State
  | w0 :: w1 :: w2 :: w3 :: w4 :: w5 :: w6 :: w7 :: w8 :: w9 :: w10 :: w11 :: w12 :: w13 :: w14 :: w15 :: ws,
      a, b, c, d, e, f, g, h =>
    force w0 fun w0 => force w1 fun w1 => force w2 fun w2 => force w3 fun w3 =>
    force w4 fun w4 => force w5 fun w5 => force w6 fun w6 => force w7 fun w7 =>
    force w8 fun w8 => force w9 fun w9 => force w10 fun w10 => force w11 fun w11 =>
    force w12 fun w12 => force w13 fun w13 => force w14 fun w14 => force w15 fun w15 =>
    evalRounds roundConstants w0 w1 w2 w3 w4 w5 w6 w7 w8 w9 w10 w11 w12 w13 w14 w15 a b c d e f g h
      fun a' b' c' d' e' f' g' h' =>
        force (Nat.mod (Nat.add a a') 4294967296) fun a =>
        force (Nat.mod (Nat.add b b') 4294967296) fun b =>
        force (Nat.mod (Nat.add c c') 4294967296) fun c =>
        force (Nat.mod (Nat.add d d') 4294967296) fun d =>
        force (Nat.mod (Nat.add e e') 4294967296) fun e =>
        force (Nat.mod (Nat.add f f') 4294967296) fun f =>
        force (Nat.mod (Nat.add g g') 4294967296) fun g =>
        force (Nat.mod (Nat.add h h') 4294967296) fun h =>
        evalBlocks ws a b c d e f g h
  | _, a, b, c, d, e, f, g, h => ⟨a, b, c, d, e, f, g, h⟩

theorem words_eq_nil (bs : Bytes) (h : bs.length < 4) : words bs = [] := by
  match bs, h with
  | [], _ => rfl
  | [_], _ => rfl
  | [_, _], _ => rfl
  | [_, _, _], _ => rfl

theorem words_of_le (bs : Bytes) (h : 4 ≤ bs.length) : words bs = beNat (slot 4 bs 0) :: words (bs.drop 4) := by
  match bs, h with
  | w :: x :: y :: z :: bs, _ =>
    have hfirst : beNat (slot 4 (w :: x :: y :: z :: bs) 0) =
        ((w.toNat * 256 + x.toNat) * 256 + y.toNat) * 256 + z.toNat := by
      simp [slot, slice, beNat]
    rw [hfirst]
    rfl

theorem slot_succ (w : Nat) (bs : Bytes) (i : Nat) : slot w bs (i + 1) = slot w (bs.drop w) i := by
  rw [slot, slot, slice, slice, List.drop_drop, Nat.succ_mul, Nat.add_comm]

/-- The words at the front. -/
theorem words_front (k : Nat) (bs : Bytes) (h : 4 * k ≤ bs.length) :
    words bs = ((List.range k).map fun i => beNat (slot 4 bs i)) ++ words (bs.drop (4 * k)) := by
  induction k generalizing bs with
  | zero => rfl
  | succ k ih =>
    rw [words_of_le bs (by omega), ih (bs.drop 4) (by rw [List.length_drop]; omega), List.range_succ_eq_map,
      List.map_cons, List.map_map, List.cons_append, List.drop_drop]
    have hrest : ((List.range k).map fun i => beNat (slot 4 (bs.drop 4) i)) =
        (List.range k).map ((fun i => beNat (slot 4 bs i)) ∘ Nat.succ) := by
      apply List.map_congr_left
      intro i _
      rw [Function.comp_apply, Nat.succ_eq_add_one, slot_succ]
    rw [hrest, show 4 + 4 * k = 4 * (k + 1) by omega]

theorem blockWords_slot_zero (bs : Bytes) : blockWords (slot 64 bs 0) =
    (List.range 16).map fun i => beNat (slot 4 bs i) := by
  apply List.map_congr_left
  intro i hi
  have hlt := List.mem_range.mp hi
  rw [slot, slot, slot, slice, slice, slice, Nat.zero_mul, List.drop_zero, List.drop_take, List.take_take,
    min_eq_left (by omega)]

theorem evalBlocks_short (ws : List Nat) (h : ws.length < 16) (s : State) :
    evalBlocks ws s.a s.b s.c s.d s.e s.f s.g s.h = s := by
  unfold evalBlocks
  split
  · simp only [List.length_cons] at h
    omega
  · rfl

theorem evalBlocks_append (bs : Bytes) (ws : List Nat) (s : State) :
    evalBlocks (blockWords bs ++ ws) s.a s.b s.c s.d s.e s.f s.g s.h =
      let t := compress s (blockWords bs)
      evalBlocks ws t.a t.b t.c t.d t.e t.f t.g t.h := by
  obtain ⟨w0, w1, w2, w3, w4, w5, w6, w7, w8, w9, w10, w11, w12, w13, w14, w15, hw⟩ :
      ∃ w0 w1 w2 w3 w4 w5 w6 w7 w8 w9 w10 w11 w12 w13 w14 w15, blockWords bs =
        [w0, w1, w2, w3, w4, w5, w6, w7, w8, w9, w10, w11, w12, w13, w14, w15] :=
    ⟨_, _, _, _, _, _, _, _, _, _, _, _, _, _, _, _, rfl⟩
  rw [hw]
  simp only [List.cons_append, List.nil_append, evalBlocks, force_eq, evalRounds_eq, compress]
  generalize rounds roundConstants _ s = t
  rfl

theorem evalBlocks_eq (n : Nat) (bs : Bytes) (h : bs.length / 64 = n) (s : State) :
    evalBlocks (words bs) s.a s.b s.c s.d s.e s.f s.g s.h =
      (List.range n).foldl (fun s i => compress s (blockWords (slot 64 bs i))) s := by
  induction n generalizing bs s with
  | zero =>
    apply evalBlocks_short
    have hlen : ∀ (k : Nat) (bs : Bytes), bs.length < 4 * k → (words bs).length < k ∨ k = 0 := by
      intro k
      induction k with
      | zero => exact fun _ _ => Or.inr rfl
      | succ k ih =>
        intro bs hlt
        refine Or.inl ?_
        by_cases hshort : bs.length < 4
        · simp [words_eq_nil bs hshort]
        · rw [words_of_le bs (by omega), List.length_cons]
          have hrest := ih (bs.drop 4) (by rw [List.length_drop]; omega)
          rcases hrest with hrest | rfl
          · omega
          · omega
    have hshort := hlen 16 bs (by omega)
    omega
  | succ n ih =>
    rw [words_front 16 bs (by omega), ← blockWords_slot_zero, evalBlocks_append]
    have hrest := ih (bs.drop (4 * 16)) (by rw [List.length_drop]; omega) (compress s (blockWords (slot 64 bs 0)))
    simp only [hrest, List.range_succ_eq_map, List.foldl_cons, List.foldl_map, Nat.succ_eq_add_one, slot_succ]

end Sha256

/-- SHA-256 as the kernel computes it best. -/
def evalSha256 (bs : Bytes) : Bytes :=
  Sha256.digest (Sha256.evalBlocks (Sha256.words (Sha256.padded bs)) 0x6a09e667 0xbb67ae85 0x3c6ef372 0xa54ff53a
    0x510e527f 0x9b05688c 0x1f83d9ab 0x5be0cd19)

theorem sha256_eq_eval : sha256 = evalSha256 := by
  funext bs
  exact congrArg Sha256.digest (Sha256.evalBlocks_eq _ _ rfl Sha256.initial).symm

example : beNat (evalSha256 [0x61, 0x62, 0x63]) =
    0xba7816bf8f01cfea414140de5dae2223b00361a396177a9cb410ff61f20015ad := by decide +kernel

namespace Secp256k1

theorem nat_rec_const {α : Type} (n : Nat) (x y : α) :
    Nat.rec (motive := fun _ => α) x (fun _ _ => y) n = if n = 0 then x else y := by
  cases n <;> rfl

theorem bool_rec_beq {α : Type} (a b : Nat) (x y : α) :
    Bool.rec (motive := fun _ => α) x y (Nat.beq a b) = if a = b then y else x := by
  by_cases h : a = b
  · rw [if_pos h, h, Nat.beq_refl]
  · rw [if_neg h, Bool.eq_false_iff.mpr fun hbeq => h (Nat.eq_of_beq_eq_true hbeq)]

/-- `powMod`, step by step. -/
def evalPowMod (m fuel : Nat) : Nat → Nat → Nat → Nat :=
  Nat.rec (fun _ _ acc => acc)
    (fun _ next e b acc =>
      force e fun e => Nat.rec acc
        (fun e' _ =>
          force (Nat.mod (Nat.mul b b) m) fun b' =>
          force (Nat.rec acc (fun _ _ => Nat.mod (Nat.mul acc b) m) (Nat.mod (Nat.succ e') 2)) fun acc' =>
          next (Nat.div (Nat.succ e') 2) b' acc') e)
    fuel

theorem evalPowMod_eq (m fuel e b acc : Nat) : evalPowMod m fuel e b acc = powMod m fuel e b acc := by
  induction fuel generalizing e b acc with
  | zero => rfl
  | succ fuel ih =>
    change force e _ = _
    rw [force_eq, powMod]
    cases e with
    | zero => rfl
    | succ e' =>
      rw [if_neg (Nat.succ_ne_zero e'), ← ih]
      change force (b * b % m) _ = _
      rw [force_eq, force_eq]
      have hbit : Nat.rec (motive := fun _ => Nat) acc (fun _ _ => acc * b % m) ((e' + 1) % 2) =
          if (e' + 1) % 2 = 1 then acc * b % m else acc := by
        rcases Nat.mod_two_eq_zero_or_one (e' + 1) with h | h
        · rw [h]
          rfl
        · rw [h]
          rfl
      exact congrArg (evalPowMod m fuel ((e' + 1) / 2) (b * b % m)) hbit

namespace Jacobian

def evalDouble {α : Type} (X Y Z : Nat) (next : Nat → Nat → Nat → α) : α :=
  force (Nat.mod (Nat.mul X X) prime) fun a =>
  force (Nat.mod (Nat.mul Y Y) prime) fun b =>
  force (Nat.mod (Nat.mul b b) prime) fun c =>
  force (Nat.mod (Nat.mul 2 (Nat.sub (Nat.sub (Nat.add (Nat.mul (Nat.add X b) (Nat.add X b))
    (Nat.mul 2 (Nat.mul prime prime))) a) c)) prime) fun d =>
  force (Nat.mod (Nat.mul 3 a) prime) fun e =>
  force (Nat.mod (Nat.add (Nat.mul e e) (Nat.mul 2 (Nat.sub prime d))) prime) fun x =>
  force (Nat.mod (Nat.add (Nat.mul e (Nat.sub (Nat.add d prime) x)) (Nat.mul 8 (Nat.sub prime c))) prime) fun y =>
  force (Nat.mod (Nat.mul (Nat.mul 2 Y) Z) prime) fun z =>
  next x y z

theorem evalDouble_eq {α : Type} (P : Jacobian) (next : Nat → Nat → Nat → α) :
    evalDouble P.x P.y P.z next = next P.double.x P.double.y P.double.z := by
  simp only [evalDouble, force_eq]
  rfl

def evalAdd {α : Type} (X Y Z U V W : Nat) (next : Nat → Nat → Nat → α) : α :=
  Nat.rec (next U V W) (fun _ _ => Nat.rec (next X Y Z) (fun _ _ =>
    force (Nat.mod (Nat.mul Z Z) prime) fun z1 =>
    force (Nat.mod (Nat.mul W W) prime) fun z2 =>
    force (Nat.mod (Nat.mul X z2) prime) fun u1 =>
    force (Nat.mod (Nat.mul U z1) prime) fun u2 =>
    force (Nat.mod (Nat.mul (Nat.mul Y W) z2) prime) fun s1 =>
    force (Nat.mod (Nat.mul (Nat.mul V Z) z1) prime) fun s2 =>
    Bool.rec
      (force (Nat.mod (Nat.sub (Nat.add u2 prime) u1) prime) fun h =>
      force (Nat.mod (Nat.sub (Nat.add s2 prime) s1) prime) fun r =>
      force (Nat.mod (Nat.mul h h) prime) fun hh =>
      force (Nat.mod (Nat.mul h hh) prime) fun hhh =>
      force (Nat.mod (Nat.mul u1 hh) prime) fun v =>
      force (Nat.mod (Nat.add (Nat.add (Nat.mul r r) (Nat.sub prime hhh)) (Nat.mul 2 (Nat.sub prime v))) prime)
        fun x =>
      force (Nat.mod (Nat.add (Nat.mul r (Nat.sub (Nat.add v prime) x)) (Nat.mul s1 (Nat.sub prime hhh))) prime)
        fun y =>
      force (Nat.mod (Nat.mul (Nat.mul Z W) h) prime) fun z =>
      next x y z)
      (Bool.rec (next 1 1 0) (evalDouble X Y Z next) (Nat.beq s1 s2))
      (Nat.beq u1 u2)) W) Z

theorem evalAdd_eq {α : Type} (P Q : Jacobian) (next : Nat → Nat → Nat → α) :
    evalAdd P.x P.y P.z Q.x Q.y Q.z next = next (P.add Q).x (P.add Q).y (P.add Q).z := by
  simp only [evalAdd, force_eq, nat_rec_const, bool_rec_beq, evalDouble_eq, add]
  by_cases hP : P.z = 0
  · rw [if_pos hP, if_pos hP]
  · rw [if_neg hP, if_neg hP]
    by_cases hQ : Q.z = 0
    · rw [if_pos hQ, if_pos hQ]
    · rw [if_neg hQ, if_neg hQ]
      split
      · rename_i hu
        have hu' : P.x * (Q.z * Q.z % prime) % prime = Q.x * (P.z * P.z % prime) % prime := hu
        rw [if_pos hu']
        split
        · rename_i hs
          have hs' : P.y * Q.z * (Q.z * Q.z % prime) % prime = Q.y * P.z * (P.z * P.z % prime) % prime := hs
          rw [if_pos hs']
        · rename_i hs
          have hs' : ¬ P.y * Q.z * (Q.z * Q.z % prime) % prime = Q.y * P.z * (P.z * P.z % prime) % prime := hs
          rw [if_neg hs']
      · rename_i hu
        have hu' : ¬ P.x * (Q.z * Q.z % prime) % prime = Q.x * (P.z * P.z % prime) % prime := hu
        rw [if_neg hu']
        rfl

/-- `mulAux` on coordinates. -/
def evalMulAux {α : Type} (next : Nat → Nat → Nat → α) (fuel : Nat) :
    Nat → Nat → Nat → Nat → Nat → Nat → Nat → α :=
  Nat.rec (fun _ _ _ _ x y z => next x y z)
    (fun _ loop n X Y Z x y z =>
      force n fun n => Nat.rec (next x y z)
        (fun n' _ => evalDouble X Y Z fun X' Y' Z' =>
          Nat.rec (loop (Nat.div (Nat.succ n') 2) X' Y' Z' x y z)
            (fun _ _ => evalAdd x y z X Y Z fun x y z => loop (Nat.div (Nat.succ n') 2) X' Y' Z' x y z)
            (Nat.mod (Nat.succ n') 2)) n)
    fuel

theorem evalMulAux_eq {α : Type} (next : Nat → Nat → Nat → α) (fuel n : Nat) (P acc : Jacobian) :
    evalMulAux next fuel n P.x P.y P.z acc.x acc.y acc.z =
      next (mulAux fuel n P acc).x (mulAux fuel n P acc).y (mulAux fuel n P acc).z := by
  induction fuel generalizing n P acc with
  | zero => rfl
  | succ fuel ih =>
    change force n _ = _
    rw [force_eq, mulAux]
    cases n with
    | zero => rfl
    | succ n' =>
      rw [if_neg (Nat.succ_ne_zero n')]
      change evalDouble P.x P.y P.z _ = _
      rw [evalDouble_eq, nat_rec_const, evalAdd_eq]
      rcases Nat.mod_two_eq_zero_or_one (n' + 1) with hbit | hbit
      · have heven : Nat.mod (Nat.succ n') 2 = 0 := hbit
        rw [if_pos heven, if_neg (by omega)]
        exact ih ((n' + 1) / 2) P.double acc
      · have hodd : ¬ Nat.mod (Nat.succ n') 2 = 0 := fun heven => absurd (hbit.symm.trans heven) (by decide)
        rw [if_neg hodd, if_pos hbit]
        exact ih ((n' + 1) / 2) P.double (acc.add P)

def evalToPoint (x y z : Nat) : Point :=
  Nat.rec .infinity (fun _ _ =>
    force (evalPowMod prime 256 (Nat.sub prime 2) z 1) fun i =>
    force (Nat.mod (Nat.mul i i) prime) fun ii =>
    force (Nat.mod (Nat.mul x ii) prime) fun u =>
    force (Nat.mod (Nat.mul (Nat.mul y ii) i) prime) fun v =>
    .affine u v) z

theorem evalToPoint_eq (P : Jacobian) : evalToPoint P.x P.y P.z = P.toPoint := by
  simp only [evalToPoint, force_eq, nat_rec_const, evalPowMod_eq]
  rfl

end Jacobian

/-- `mul` as the kernel computes it best. -/
def evalMul (P : Point) (n : Nat) : Point :=
  match P with
  | .infinity => Jacobian.evalMulAux Jacobian.evalToPoint (numBits n) n 1 1 0 1 1 0
  | .affine x y => Jacobian.evalMulAux Jacobian.evalToPoint (numBits n) n x y 1 1 1 0

theorem mul_eq_eval : mul = evalMul := by
  funext P n
  rw [mul, ← Jacobian.evalToPoint_eq,
    ← Jacobian.evalMulAux_eq Jacobian.evalToPoint (numBits n) n (.ofPoint P) ⟨1, 1, 0⟩]
  cases P <;> rfl

def evalAdd (P Q : Point) : Point :=
  match P, Q with
  | .infinity, .infinity => Jacobian.evalAdd 1 1 0 1 1 0 Jacobian.evalToPoint
  | .infinity, .affine u v => Jacobian.evalAdd 1 1 0 u v 1 Jacobian.evalToPoint
  | .affine x y, .infinity => Jacobian.evalAdd x y 1 1 1 0 Jacobian.evalToPoint
  | .affine x y, .affine u v => Jacobian.evalAdd x y 1 u v 1 Jacobian.evalToPoint

theorem add_eq_eval : add = evalAdd := by
  funext P Q
  rw [add, ← Jacobian.evalToPoint_eq, ← Jacobian.evalAdd_eq (.ofPoint P) (.ofPoint Q) Jacobian.evalToPoint]
  cases P <;> cases Q <;> rfl

def evalDecompress (x : Nat) (odd : Bool) : Option Point :=
  force (Nat.mod (Nat.add (Nat.mul (Nat.mod (Nat.mul x x) prime) x) 7) prime) fun a =>
  force (evalPowMod prime 256 (Nat.div (Nat.add prime 1) 4) a 1) fun y =>
  if y * y % prime = a then some (.affine x (if (y % 2 == 1) == odd then y else prime - y)) else none

theorem decompress_eq_eval : decompress = evalDecompress := by
  funext x odd
  simp only [evalDecompress, force_eq, evalPowMod_eq]
  rfl

/-- `decode` as the kernel computes it best. -/
def evalDecode (bs : Bytes) : Option Point :=
  match bs with
  | [0] => some .infinity
  | h :: xs =>
    if xs.length = 32 ∧ (h = 2 ∨ h = 3) ∧ beNat xs < prime then evalDecompress (beNat xs) (h == 3)
    else none
  | [] => none

theorem decode_eq_eval : decode = evalDecode := by
  funext bs
  unfold decode evalDecode
  exact decompress_eq_eval ▸ rfl

/-- `verify` as the kernel computes it best. -/
def evalVerify (Q : Point) (z r s : Nat) : Bool :=
  force (evalPowMod order 256 (Nat.sub order 2) s 1) fun w =>
  decide (0 < r ∧ r < order ∧ 0 < s ∧ s < order) &&
    match evalAdd (evalMul generator (z * w % order)) (evalMul Q (r * w % order)) with
    | .infinity => false
    | .affine x _ => x % order == r

theorem verify_eq_eval : verify = evalVerify := by
  funext Q z r s
  unfold verify evalVerify
  simp only [force_eq, evalPowMod_eq, Nat.sub_eq]
  generalize powMod order 256 (order - 2) s 1 = w
  have hR : add (mul generator (z * w % order)) (mul Q (r * w % order)) =
      evalAdd (evalMul generator (z * w % order)) (evalMul Q (r * w % order)) := by
    rw [mul_eq_eval, add_eq_eval]
  exact congrArg (fun R : Point => decide (0 < r ∧ r < order ∧ 0 < s ∧ s < order) &&
    match R with
    | .infinity => false
    | .affine x _ => x % order == r) hR

end Secp256k1

end Lib
