import Mathlib.Data.Nat.Log
import Mathlib.Tactic.Ring
import Mathlib.Tactic.NormNum

/-!
# Byte strings, fixed-width numbers and flat buffers

Big-endian numbers as a bignum library reads and writes them, little-endian words as they lie in
memory, and byte buffers addressed by equal slots.
-/

namespace Lib

abbrev Bytes := List UInt8

/-- The number whose big-endian bytes are `bs`. -/
def beNat (bs : Bytes) : Nat := bs.foldl (fun acc b => acc * 256 + b.toNat) 0

/-- The number whose little-endian bytes are `bs`. -/
def leNat : Bytes → Nat
  | [] => 0
  | b :: bs => b.toNat + 256 * leNat bs

/-- Exactly `w` bytes of `n`, least significant first. -/
def leBytes : Nat → Nat → Bytes
  | 0, _ => []
  | w + 1, n => UInt8.ofNat (n % 256) :: leBytes w (n / 256)

/-- Exactly `w` bytes of `n`, most significant first. -/
def beBytes (w n : Nat) : Bytes := (leBytes w n).reverse

/-- The number of bits of `n`; zero has none. -/
def numBits (n : Nat) : Nat := if n = 0 then 0 else Nat.log2 n + 1

def numBytes (n : Nat) : Nat := (numBits n + 7) / 8

/-- The shortest big-endian form of `n`; zero is the empty string. -/
def minBytes (n : Nat) : Bytes := beBytes (numBytes n) n

/-- Overwrites `buf` from offset `off` on with `bs`. -/
def writeAt (buf : Bytes) (off : Nat) (bs : Bytes) : Bytes :=
  buf.take off ++ bs ++ buf.drop (off + bs.length)

/-- The bytes `[off, off + len)` of a buffer. -/
def slice (buf : Bytes) (off len : Nat) : Bytes := (buf.drop off).take len

/-- The `i`-th of the slots of `w` bytes that make up a buffer. -/
def slot (w : Nat) (buf : Bytes) (i : Nat) : Bytes := slice buf (i * w) w

@[simp] theorem leBytes_length (w n : Nat) : (leBytes w n).length = w := by
  induction w generalizing n with
  | zero => rfl
  | succ w ih => simp [leBytes, ih]

@[simp] theorem beBytes_length (w n : Nat) : (beBytes w n).length = w := by
  simp [beBytes]

theorem leNat_leBytes (w n : Nat) : leNat (leBytes w n) = n % 256 ^ w := by
  induction w generalizing n with
  | zero => simp [leBytes, leNat, Nat.mod_one]
  | succ w ih =>
    have hlow : (UInt8.ofNat (n % 256)).toNat = n % 256 := by
      simp only [UInt8.toNat_ofNat']
      omega
    rw [leBytes, leNat, hlow, ih, pow_succ', Nat.mod_mul]

theorem leNat_leBytes_of_lt (w n : Nat) (h : n < 256 ^ w) : leNat (leBytes w n) = n := by
  rw [leNat_leBytes, Nat.mod_eq_of_lt h]

theorem leBytes_leNat (bs : Bytes) : leBytes bs.length (leNat bs) = bs := by
  induction bs with
  | nil => rfl
  | cons b bs ih =>
    have hb : b.toNat < 256 := b.toNat_lt
    have hmod : (b.toNat + 256 * leNat bs) % 256 = b.toNat := by omega
    have hdiv : (b.toNat + 256 * leNat bs) / 256 = leNat bs := by omega
    rw [List.length_cons, leBytes, leNat, hmod, hdiv, ih, UInt8.ofNat_toNat]

theorem leNat_append (bs cs : Bytes) :
    leNat (bs ++ cs) = leNat bs + 256 ^ bs.length * leNat cs := by
  induction bs with
  | nil => simp [leNat]
  | cons b bs ih =>
    rw [List.cons_append, leNat, leNat, ih, List.length_cons, pow_succ]
    ring

theorem leNat_lt (bs : Bytes) : leNat bs < 256 ^ bs.length := by
  induction bs with
  | nil => simp [leNat]
  | cons b bs ih =>
    have hb : b.toNat < 256 := b.toNat_lt
    rw [leNat, List.length_cons, pow_succ]
    omega

theorem beNat_append_singleton (bs : Bytes) (b : UInt8) :
    beNat (bs ++ [b]) = beNat bs * 256 + b.toNat := by
  simp [beNat]

/-- Reading big-endian is reading the reversed string little-endian. -/
theorem beNat_reverse (bs : Bytes) : beNat bs.reverse = leNat bs := by
  induction bs with
  | nil => rfl
  | cons b bs ih =>
    rw [List.reverse_cons, beNat_append_singleton, ih, leNat]
    ring

theorem beNat_eq_leNat (bs : Bytes) : beNat bs = leNat bs.reverse := by
  rw [← beNat_reverse, List.reverse_reverse]

theorem beNat_beBytes (w n : Nat) : beNat (beBytes w n) = n % 256 ^ w := by
  rw [beBytes, beNat_reverse, leNat_leBytes]

theorem beNat_lt (bs : Bytes) : beNat bs < 256 ^ bs.length := by
  rw [beNat_eq_leNat]
  simpa using leNat_lt bs.reverse

theorem beNat_append (bs cs : Bytes) :
    beNat (bs ++ cs) = beNat bs * 256 ^ cs.length + beNat cs := by
  rw [beNat_eq_leNat, beNat_eq_leNat, beNat_eq_leNat, List.reverse_append, leNat_append,
    List.length_reverse]
  ring

theorem leNat_replicate_zero (k : Nat) : leNat (List.replicate k 0) = 0 := by
  induction k with
  | zero => rfl
  | succ k ih => simp [List.replicate_succ, leNat, ih]

theorem beNat_replicate_zero (k : Nat) : beNat (List.replicate k 0) = 0 := by
  rw [beNat_eq_leNat, List.reverse_replicate, leNat_replicate_zero]

theorem beNat_zeros_append (k : Nat) (bs : Bytes) :
    beNat (List.replicate k 0 ++ bs) = beNat bs := by
  rw [beNat_append, beNat_replicate_zero, Nat.zero_mul, Nat.zero_add]

theorem lt_pow_numBytes (n : Nat) : n < 256 ^ numBytes n := by
  rcases Nat.eq_zero_or_pos n with rfl | hpos
  · simp [numBytes, numBits]
  have hbits : n < 2 ^ numBits n := by
    rw [numBits, if_neg (by omega), Nat.log2_eq_log_two]
    exact Nat.lt_pow_succ_log_self (by norm_num) n
  have hle : numBits n ≤ 8 * numBytes n := by
    unfold numBytes
    omega
  calc n < 2 ^ numBits n := hbits
    _ ≤ 2 ^ (8 * numBytes n) := Nat.pow_le_pow_right (by norm_num) hle
    _ = 256 ^ numBytes n := by rw [pow_mul]; norm_num

theorem numBytes_le (n w : Nat) (h : n < 256 ^ w) : numBytes n ≤ w := by
  rcases Nat.eq_zero_or_pos n with rfl | hpos
  · simp [numBytes, numBits]
  have hlog : Nat.log2 n < 8 * w := by
    rw [Nat.log2_eq_log_two]
    apply Nat.log_lt_of_lt_pow (by omega)
    rw [pow_mul]
    simpa using h
  unfold numBytes numBits
  rw [if_neg (by omega)]
  omega

@[simp] theorem minBytes_length (n : Nat) : (minBytes n).length = numBytes n := by
  simp [minBytes]

theorem beNat_minBytes (n : Nat) : beNat (minBytes n) = n := by
  rw [minBytes, beNat_beBytes, Nat.mod_eq_of_lt (lt_pow_numBytes n)]

/-- A byte string that does not start with zero is the shortest one of its number. -/
theorem minBytes_beNat (bs : Bytes) (hlen : bs ≠ []) (hhead : bs.head? ≠ some 0) :
    minBytes (beNat bs) = bs := by
  cases bs with
  | nil => exact absurd rfl hlen
  | cons b tail =>
    have hb : b.toNat ≠ 0 := by
      intro h0
      apply hhead
      rw [List.head?_cons]
      congr 1
      exact UInt8.toNat_inj.mp h0
    have hval : beNat (b :: tail) = b.toNat * 256 ^ tail.length + beNat tail := by
      rw [← List.singleton_append, beNat_append]
      simp [beNat]
    have hge : 256 ^ tail.length ≤ beNat (b :: tail) := by
      rw [hval]
      calc 256 ^ tail.length ≤ b.toNat * 256 ^ tail.length :=
            Nat.le_mul_of_pos_left _ (Nat.pos_of_ne_zero hb)
        _ ≤ _ := Nat.le_add_right _ _
    have hbytes : numBytes (beNat (b :: tail)) = tail.length + 1 := by
      apply Nat.le_antisymm
      · exact numBytes_le _ _ (by simpa using beNat_lt (b :: tail))
      · by_contra hlt
        have hpow : 256 ^ numBytes (beNat (b :: tail)) ≤ 256 ^ tail.length :=
          Nat.pow_le_pow_right (by norm_num) (by omega)
        have := lt_pow_numBytes (beNat (b :: tail))
        omega
    have hrev : leNat (b :: tail).reverse = beNat (b :: tail) := (beNat_eq_leNat _).symm
    have hle := leBytes_leNat (b :: tail).reverse
    rw [hrev, List.length_reverse, List.length_cons] at hle
    rw [minBytes, hbytes, beBytes, hle, List.reverse_reverse]

section Buffers

variable (buf bs : Bytes)

theorem writeAt_length (off : Nat) (h : off + bs.length ≤ buf.length) :
    (writeAt buf off bs).length = buf.length := by
  simp only [writeAt, List.length_append, List.length_take, List.length_drop]
  omega

theorem slice_length (off len : Nat) (h : off + len ≤ buf.length) :
    (slice buf off len).length = len := by
  simp only [slice, List.length_take, List.length_drop]
  omega

theorem slot_length (w i : Nat) (h : (i + 1) * w ≤ buf.length) : (slot w buf i).length = w := by
  apply slice_length
  rw [Nat.add_mul] at h
  omega

theorem slice_eq_getElem? (off len k : Nat) (hk : k < len) :
    (slice buf off len)[k]? = buf[off + k]? := by
  rw [slice, List.getElem?_take_of_lt hk, List.getElem?_drop]

theorem writeAt_getElem? (off k : Nat) (h : off + bs.length ≤ buf.length) :
    (writeAt buf off bs)[k]? =
      if off ≤ k ∧ k < off + bs.length then bs[k - off]? else buf[k]? := by
  have htake : (buf.take off).length = off := by
    rw [List.length_take]
    omega
  rcases Nat.lt_or_ge k off with hlt | hge
  · rw [if_neg (by omega), writeAt, List.append_assoc, List.getElem?_append_left (by omega),
      List.getElem?_take_of_lt hlt]
  · rcases Nat.lt_or_ge k (off + bs.length) with hin | hout
    · rw [if_pos ⟨hge, hin⟩, writeAt, List.append_assoc, List.getElem?_append_right (by omega),
        htake, List.getElem?_append_left (by omega)]
    · rw [if_neg (by omega), writeAt, List.append_assoc, List.getElem?_append_right (by omega),
        htake, List.getElem?_append_right (by omega), List.getElem?_drop]
      congr 1
      omega

private theorem slice_ext (buf' : Bytes) (off len : Nat)
    (h : ∀ k, k < len → buf[off + k]? = buf'[off + k]?) : slice buf off len = slice buf' off len := by
  apply List.ext_getElem?
  intro k
  rcases Nat.lt_or_ge k len with hk | hk
  · rw [slice_eq_getElem? _ _ _ _ hk, slice_eq_getElem? _ _ _ _ hk, h k hk]
  · rw [slice, slice, List.getElem?_eq_none (by simp; omega), List.getElem?_eq_none (by simp; omega)]

/-- A write leaves every slice that it does not touch alone. -/
theorem slice_writeAt_disjoint (off at_ len : Nat) (h : off + bs.length ≤ buf.length)
    (hd : at_ + len ≤ off ∨ off + bs.length ≤ at_) :
    slice (writeAt buf off bs) at_ len = slice buf at_ len := by
  apply slice_ext
  intro k hk
  rw [writeAt_getElem? _ _ _ _ h, if_neg (by omega)]

theorem slice_writeAt_self (off : Nat) (h : off + bs.length ≤ buf.length) :
    slice (writeAt buf off bs) off bs.length = bs := by
  apply List.ext_getElem?
  intro k
  rcases Nat.lt_or_ge k bs.length with hk | hk
  · rw [slice_eq_getElem? _ _ _ _ hk, writeAt_getElem? _ _ _ _ h, if_pos (by omega)]
    congr 1
    omega
  · rw [List.getElem?_eq_none hk, slice, List.getElem?_eq_none (by simp; omega)]

private theorem slot_bounds (w i j : Nat) (hij : i ≠ j) : i * w + w ≤ j * w ∨ j * w + w ≤ i * w := by
  rcases Nat.lt_or_gt_of_ne hij with hlt | hlt
  · left
    calc i * w + w = (i + 1) * w := by ring
      _ ≤ j * w := Nat.mul_le_mul_right w hlt
  · right
    calc j * w + w = (j + 1) * w := by ring
      _ ≤ i * w := Nat.mul_le_mul_right w hlt

/-- A write inside slot `j` leaves slot `i` alone. -/
theorem slot_writeAt_ne (w i j d : Nat) (hij : i ≠ j) (hd : d + bs.length ≤ w)
    (h : (j + 1) * w ≤ buf.length) : slot w (writeAt buf (j * w + d) bs) i = slot w buf i := by
  rw [Nat.add_mul] at h
  have hb := slot_bounds w i j hij
  exact slice_writeAt_disjoint buf bs _ _ _ (by omega) (by omega)

/-- Overwriting slot `i` as a whole changes that slot only. -/
theorem slot_writeAt (w i t : Nat) (hlen : bs.length = w) (h : (i + 1) * w ≤ buf.length) :
    slot w (writeAt buf (i * w) bs) t = if t = i then bs else slot w buf t := by
  have hroom : i * w + w ≤ buf.length := by
    rw [Nat.add_mul] at h
    omega
  split
  · rename_i hti
    rw [hti, slot, ← hlen, slice_writeAt_self]
    rw [hlen]
    exact hroom
  · rename_i hti
    simpa using slot_writeAt_ne buf bs w t i 0 hti (by omega) h

/-- A number written right-aligned into a zeroed slot reads back as itself. -/
theorem beNat_slot_writeAt_minBytes (w i n : Nat) (hn : n < 256 ^ w)
    (hz : slot w buf i = List.replicate w 0) (h : (i + 1) * w ≤ buf.length) :
    beNat (slot w (writeAt buf (i * w + (w - numBytes n)) (minBytes n)) i) = n := by
  have hle : numBytes n ≤ w := numBytes_le n w hn
  have hroom : i * w + w ≤ buf.length := by
    rw [Nat.add_mul] at h
    omega
  have hwrite : i * w + (w - numBytes n) + (minBytes n).length ≤ buf.length := by
    rw [minBytes_length]
    omega
  have hslot : slot w (writeAt buf (i * w + (w - numBytes n)) (minBytes n)) i =
      List.replicate (w - numBytes n) 0 ++ minBytes n := by
    apply List.ext_getElem?
    intro k
    rcases Nat.lt_or_ge k w with hk | hk
    · rw [slot, slice_eq_getElem? _ _ _ _ hk, writeAt_getElem? _ _ _ _ hwrite, minBytes_length]
      rcases Nat.lt_or_ge k (w - numBytes n) with hz' | hz'
      · have hzero : buf[i * w + k]? = (List.replicate w 0)[k]? := by
          rw [← hz, slot, slice_eq_getElem? _ _ _ _ hk]
        rw [if_neg (by omega), hzero, List.getElem?_append_left (by simpa using hz'),
          List.getElem?_replicate_of_lt hk, List.getElem?_replicate_of_lt hz']
      · rw [if_pos (by omega), List.getElem?_append_right (by simpa using hz'),
          List.length_replicate]
        congr 1
        omega
    · have hlen := slot_length (writeAt buf (i * w + (w - numBytes n)) (minBytes n)) w i (by
        rw [writeAt_length _ _ _ hwrite]
        exact h)
      rw [List.getElem?_eq_none (by omega), List.getElem?_eq_none (by simp; omega)]
  rw [hslot, beNat_zeros_append, beNat_minBytes]

/-- A number written right-aligned into zeros reads back as itself. -/
theorem beNat_writeAt_zeros (w n : Nat) (hn : n < 256 ^ w) :
    beNat (writeAt (List.replicate w 0) (w - numBytes n) (minBytes n)) = n := by
  have hle := numBytes_le n w hn
  have hslot := beNat_slot_writeAt_minBytes (List.replicate w 0) w 0 n hn (by simp [slot, slice]) (by simp)
  have hlen := writeAt_length (List.replicate w 0) (minBytes n) (w - numBytes n) (by
    rw [minBytes_length, List.length_replicate]
    omega)
  rw [List.length_replicate] at hlen
  rwa [Nat.zero_mul, Nat.zero_add, slot, slice, Nat.zero_mul, List.drop_zero, List.take_of_length_le hlen.le] at hslot

theorem slot_replicate (w n i : Nat) (b : UInt8) (h : i < n) :
    slot w (List.replicate (w * n) b) i = List.replicate w b := by
  have hmul : (i + 1) * w ≤ w * n := by
    rw [Nat.mul_comm w n]
    exact Nat.mul_le_mul_right w h
  rw [Nat.add_mul] at hmul
  rw [slot, slice, List.drop_replicate, List.take_replicate]
  congr 1
  omega

theorem slot_flatMap {α : Type*} (f : α → Bytes) (w : Nat) (xs : List α) (i : Nat) (x : α)
    (hw : ∀ y ∈ xs, (f y).length = w) (hx : xs[i]? = some x) :
    slot w (xs.flatMap f) i = f x := by
  induction xs generalizing i with
  | nil => simp at hx
  | cons y ys ih =>
    have hy : (f y).length = w := hw y (by simp)
    cases i with
    | zero =>
      obtain rfl : y = x := by simpa using hx
      rw [List.flatMap_cons, slot, slice, Nat.zero_mul, List.drop_zero, ← hy, List.take_left]
    | succ i =>
      have hdrop : slot w (f y ++ ys.flatMap f) (i + 1) = slot w (ys.flatMap f) i := by
        have hoff : (i + 1) * w = (f y).length + i * w := by
          rw [hy]
          ring
        rw [slot, slot, slice, slice, hoff, List.drop_length_add_append]
      rw [List.flatMap_cons, hdrop]
      exact ih i (fun z hz => hw z (by simp [hz])) (by simpa using hx)

end Buffers

end Lib
