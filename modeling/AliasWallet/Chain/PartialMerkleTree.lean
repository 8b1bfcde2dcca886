import AliasWallet.Core.Block
import AliasWallet.Crypto.Concrete
import AliasWallet.Lib.MerkleTree

/-!
# Partial merkle trees (`main.cpp`, `main.h`)

`CPartialMerkleTree` sends some txids of a block with as many inner hashes as their proof takes. Bits and
hashes are written and read in one depth-first order.
-/

namespace AliasWallet
open Lib

section Build

variable (hash : HashFn)

/-- The hash of two nodes. -/
def merkleNode (left right : UInt256) : UInt256 := hash (uint256Bytes left ++ uint256Bytes right)

structure CPartialMerkleTree where
  nTransactions : Nat
  vBits : List Bool
  vHash : List UInt256
  fBad : Bool
  deriving DecidableEq, Repr

/-- `CalcTreeWidth`. `ExtractMatches` bounds the number of transactions first, so nothing wraps. -/
def calcTreeWidth (nTransactions height : Nat) : Nat :=
  (nTransactions + (1 <<< height) - 1) >>> height

/-- `while (CalcTreeWidth(nHeight) > 1) nHeight++`, for a number of rounds. -/
def treeHeightFrom (nTransactions : Nat) : Nat → Nat → Option Nat
  | 0, _ => none
  | n + 1, nHeight =>
    if calcTreeWidth nTransactions nHeight > 1 then treeHeightFrom nTransactions n (nHeight + 1)
    else some nHeight

def treeHeight (nTransactions : Nat) : Option Nat :=
  treeHeightFrom nTransactions (nTransactions + 1) 0

/-- `CalcHash`. -/
def calcHash (vTxid : List UInt256) : Nat → Nat → UInt256
  | 0, pos => vTxid.getD pos 0
  | height + 1, pos =>
    let left := calcHash vTxid height (pos * 2)
    let right :=
      if pos * 2 + 1 < calcTreeWidth vTxid.length height then calcHash vTxid height (pos * 2 + 1)
      else left
    merkleNode hash left right

/-- `TraverseAndBuild`: what it appends to `vBits` and `vHash`. -/
def traverseAndBuild (vTxid : List UInt256) (vMatch : List Bool) :
    Nat → Nat → List Bool × List UInt256
  | height, pos =>
    let fParentOfMatch := (List.range' (pos <<< height) (1 <<< height)).any fun p =>
      decide (p < vTxid.length) && vMatch.getD p false
    match height with
    | 0 => ([fParentOfMatch], [calcHash hash vTxid 0 pos])
    | height + 1 =>
      if !fParentOfMatch then ([fParentOfMatch], [calcHash hash vTxid (height + 1) pos])
      else
        let (vBits, vHash) := traverseAndBuild vTxid vMatch height (pos * 2)
        let (vBits', vHash') :=
          if pos * 2 + 1 < calcTreeWidth vTxid.length height then
            traverseAndBuild vTxid vMatch height (pos * 2 + 1) else ([], [])
        (fParentOfMatch :: (vBits ++ vBits'), vHash ++ vHash')

/-- The constructor; `none` where the loop for the height does not end. -/
def CPartialMerkleTree.new (vTxid : List UInt256) (vMatch : List Bool) :
    Option CPartialMerkleTree := do
  let nHeight ← treeHeight vTxid.length
  let (vBits, vHash) := traverseAndBuild hash vTxid vMatch nHeight 0
  return ⟨vTxid.length, vBits, vHash, false⟩

end Build

section Serialise

/-- The flag bits, eight in a byte, the least significant first. -/
def packBits (vBits : List Bool) : Bytes :=
  (List.range vBits.length).foldl (fun vBytes p =>
    vBytes.modify (p / 8) fun byte => byte ||| ((vBits.getD p false).toUInt8 <<< (p % 8).toUInt8))
    (List.replicate ((vBits.length + 7) / 8) 0)

/-- The bits of all bytes, padding included. -/
def unpackBits (vBytes : Bytes) : List Bool :=
  (List.range (vBytes.length * 8)).map fun p =>
    (vBytes.getD (p / 8) 0 &&& ((1 : UInt8) <<< (p % 8).toUInt8)) != 0

/-- A tree that has been written and read. -/
def CPartialMerkleTree.reread (t : CPartialMerkleTree) : CPartialMerkleTree :=
  { t with vBits := unpackBits (packBits t.vBits), fBad := false }

end Serialise

section Extract

variable (hash : HashFn)

/-- What `TraverseAndExtract` keeps in its reference arguments and in `fBad`. -/
structure ExtractState where
  nBitsUsed : Nat
  nHashUsed : Nat
  vMatch : List UInt256
  fBad : Bool
  deriving DecidableEq, Repr

variable (t : CPartialMerkleTree)

/-- The next stored hash, reported where it is a matched txid. Reading outside the vector is
undefined. -/
def takeHash (fMatched : Bool) (s : ExtractState) : Option (UInt256 × ExtractState) :=
  if s.nHashUsed ≥ t.vHash.length then some (0, { s with fBad := true })
  else do
    let h ← t.vHash[s.nHashUsed]?
    let vMatch := if fMatched then s.vMatch ++ [h] else s.vMatch
    return (h, { s with nHashUsed := s.nHashUsed + 1, vMatch })

/-- The next flag bit, for the rest of the function. -/
def takeBit (s : ExtractState) (next : Bool → ExtractState → Option (UInt256 × ExtractState)) :
    Option (UInt256 × ExtractState) :=
  if s.nBitsUsed ≥ t.vBits.length then some (0, { s with fBad := true })
  else t.vBits[s.nBitsUsed]?.bind fun fParentOfMatch =>
    next fParentOfMatch { s with nBitsUsed := s.nBitsUsed + 1 }

/-- `TraverseAndExtract`. -/
def traverseAndExtract : Nat → Nat → ExtractState → Option (UInt256 × ExtractState)
  | 0, _, s => takeBit t s (takeHash t)
  | height + 1, pos, s =>
    takeBit t s fun fParentOfMatch s =>
      if !fParentOfMatch then takeHash t false s
      else
        (traverseAndExtract height (pos * 2) s).bind fun (left, s) =>
          (if pos * 2 + 1 < calcTreeWidth t.nTransactions height then
              traverseAndExtract height (pos * 2 + 1) s
            else some (left, s)).bind fun (right, s) => some (merkleNode hash left right, s)

/-- `ExtractMatches`: the root, 0 for a failure, and the txids that it reports. -/
def extractMatches : Option (UInt256 × List UInt256) :=
  if t.nTransactions = 0 then some (0, [])
  else if t.nTransactions > MAX_BLOCK_SIZE / 60 then some (0, [])
  else if t.vHash.length > t.nTransactions then some (0, [])
  else if t.vBits.length < t.vHash.length then some (0, [])
  else do
    let nHeight ← treeHeight t.nTransactions
    let (hashMerkleRoot, s) ← traverseAndExtract hash t nHeight 0 ⟨0, 0, [], t.fBad⟩
    if s.fBad then return (0, s.vMatch)
    if (s.nBitsUsed + 7) / 8 ≠ (t.vBits.length + 7) / 8 then return (0, s.vMatch)
    if s.nHashUsed ≠ t.vHash.length then return (0, s.vMatch)
    return (hashMerkleRoot, s.vMatch)

end Extract

section Shape

variable (hash : HashFn)

theorem calcTreeWidth_eq (n height : Nat) : calcTreeWidth n height = Merkle.width n height := by
  rw [calcTreeWidth, Nat.shiftRight_eq_div_pow, Nat.shiftLeft_eq, Nat.one_mul, Merkle.width]

/-- The loop ends: above one node the width falls in every round. -/
theorem treeHeightFrom_spec (n rounds h : Nat) (hrounds : Merkle.width n h < rounds)
    (hbelow : ∀ j < h, 1 < Merkle.width n j) :
    ∃ k, treeHeightFrom n rounds h = some k ∧ Merkle.width n k ≤ 1 ∧
      ∀ j < k, 1 < Merkle.width n j := by
  induction rounds generalizing h with
  | zero => omega
  | succ rounds ih =>
    rw [treeHeightFrom, calcTreeWidth_eq]
    by_cases hwide : Merkle.width n h > 1
    · rw [if_pos hwide]
      apply ih (h + 1)
      · rw [Merkle.width_succ]
        omega
      · intro j hj
        rcases Nat.lt_succ_iff_lt_or_eq.mp hj with hlt | rfl
        · exact hbelow j hlt
        · exact hwide
    · rw [if_neg hwide]
      exact ⟨h, rfl, by omega, hbelow⟩

theorem treeHeight_spec (n : Nat) :
    ∃ k, treeHeight n = some k ∧ Merkle.width n k ≤ 1 ∧ ∀ j < k, 1 < Merkle.width n j := by
  apply treeHeightFrom_spec
  · simp
  · simp

theorem merkleLevel_eq (l : List UInt256) :
    CBlock.merkleLevel hash l = Merkle.level (merkleNode hash) l := by
  induction l using Merkle.levelPairs.induct with
  | case1 => rfl
  | case2 h => rfl
  | case3 h k hs ih =>
    rw [CBlock.merkleLevel, ih]
    rfl

/-- The top of the tree is the root. -/
theorem levels_eq_root (k fuel : Nat) (l : List UInt256) (hl : l ≠ []) (hfuel : l.length ≤ fuel)
    (htop : Merkle.width l.length k ≤ 1) (hbelow : ∀ j < k, 1 < Merkle.width l.length j) :
    Merkle.levels (merkleNode hash) k l = [CBlock.merkleRootFrom hash fuel l] := by
  induction k generalizing fuel l with
  | zero =>
    match l with
    | [] => exact absurd rfl hl
    | [h] => cases fuel <;> rfl
    | h :: h' :: l => simp at htop
  | succ k ih =>
    have hlength : (Merkle.level (merkleNode hash) l).length = Merkle.width l.length 1 :=
      Merkle.length_levels (merkleNode hash) 1 l
    have hwide := hbelow 0 (Nat.succ_pos k)
    have hup : ∀ j, Merkle.width (Merkle.width l.length 1) j = Merkle.width l.length (j + 1) := by
      intro j
      rw [← hlength, ← Merkle.length_levels (merkleNode hash), ← Merkle.levels_succ',
        Merkle.length_levels]
    match l, fuel with
    | [], _ => exact absurd rfl hl
    | [h], _ => simp at hwide
    | h :: h' :: l, 0 => simp at hfuel
    | h :: h' :: l, fuel + 1 =>
      rw [Merkle.levels_succ', CBlock.merkleRootFrom, merkleLevel_eq]
      · apply ih
        · simp [Merkle.level, Merkle.levelPairs]
        · rw [hlength, Merkle.width_succ, Merkle.width_zero]
          simp only [List.length_cons] at hfuel ⊢
          omega
        · rw [hlength, hup]
          exact htop
        · intro j hj
          rw [hlength, hup]
          exact hbelow (j + 1) (by omega)
      · simp
      · simp

/-- `CalcHash` reads the levels. -/
theorem calcHash_eq (vTxid : List UInt256) (height pos : Nat)
    (hpos : pos < Merkle.width vTxid.length height) :
    (Merkle.levels (merkleNode hash) height vTxid)[pos]? = some (calcHash hash vTxid height pos) := by
  induction height generalizing pos with
  | zero =>
    rw [Merkle.width_zero] at hpos
    simp [Merkle.levels, calcHash, hpos]
  | succ height ih =>
    rw [Merkle.width_succ] at hpos
    have hleft := ih (pos * 2) (by omega)
    rw [Nat.mul_comm] at hleft
    rw [Merkle.levels_succ_getElem? _ _ _ _ _ hleft, calcHash, calcTreeWidth_eq, Nat.mul_comm pos 2]
    by_cases hright : 2 * pos + 1 < Merkle.width vTxid.length height
    · rw [ih _ hright, if_pos hright, Option.getD_some]
    · have hend : (Merkle.levels (merkleNode hash) height vTxid)[2 * pos + 1]? = none := by
        rw [List.getElem?_eq_none_iff, Merkle.length_levels]
        omega
      rw [hend, if_neg hright, Option.getD_none]

/-- At the height of the tree `CalcHash` gives the root. -/
theorem calcHash_root (vTxid : List UInt256) (hne : vTxid ≠ []) (k : Nat)
    (htop : Merkle.width vTxid.length k ≤ 1) (hbelow : ∀ j < k, 1 < Merkle.width vTxid.length j) :
    calcHash hash vTxid k 0 = CBlock.merkleRootFrom hash vTxid.length vTxid := by
  have hpos : 0 < Merkle.width vTxid.length k := by
    rw [Merkle.lt_width_iff, Nat.zero_mul]
    exact List.length_pos_iff.mpr hne
  have hlevel := calcHash_eq hash vTxid k 0 hpos
  rw [levels_eq_root hash k vTxid.length vTxid hne le_rfl htop hbelow] at hlevel
  simpa using hlevel.symm

end Shape

section Pack

/-- The bit at a position of the bytes. -/
def bitAt (vBytes : Bytes) (p : Nat) : Bool :=
  (vBytes.getD (p / 8) 0 &&& ((1 : UInt8) <<< (p % 8).toUInt8)) != 0

theorem bit_or (b : UInt8) (x : Bool) (i j : Nat) (hi : i < 8) (hj : j < 8) :
    ((b ||| (x.toUInt8 <<< j.toUInt8)) &&& ((1 : UInt8) <<< i.toUInt8) != 0) =
      ((b &&& ((1 : UInt8) <<< i.toUInt8) != 0) || (decide (i = j) && x)) := by
  have hone : ∀ i < 8, ∀ j < 8, ∀ x : Bool,
      ((x.toUInt8 <<< j.toUInt8) &&& ((1 : UInt8) <<< i.toUInt8) != 0) = (decide (i = j) && x) := by
    decide +kernel
  have hdistrib : ∀ a b m : UInt8, (a ||| b) &&& m = (a &&& m) ||| (b &&& m) := by
    intro a b m
    apply UInt8.toBitVec_inj.mp
    ext k
    simp [Bool.and_or_distrib_right]
  rw [← hone i hi j hj x, hdistrib, Bool.eq_iff_iff]
  simp only [bne_iff_ne, ne_eq, Bool.or_eq_true, UInt8.or_eq_zero_iff]
  exact not_and_or

theorem bitAt_modify (vBytes : Bytes) (x : Bool) (k p : Nat) (hp : p / 8 < vBytes.length) :
    bitAt (vBytes.modify (k / 8) fun byte => byte ||| (x.toUInt8 <<< (k % 8).toUInt8)) p =
      (bitAt vBytes p || (decide (p = k) && x)) := by
  have hget : vBytes[p / 8]? = some vBytes[p / 8] := List.getElem?_eq_getElem hp
  simp only [bitAt, List.getD_eq_getElem?_getD, List.getElem?_modify, hget, Option.map_eq_map,
    Option.map_some, Option.getD_some]
  by_cases hsame : k / 8 = p / 8
  · have hpos : p % 8 = k % 8 ↔ p = k := by omega
    rw [if_pos hsame, bit_or _ _ _ _ (Nat.mod_lt p (by decide)) (Nat.mod_lt k (by decide))]
    simp only [hpos]
  · have hne : p ≠ k := by
      intro heq
      exact hsame (by rw [heq])
    simp [hsame, hne]

/-- The loop of the serialisation after `k` bits. -/
theorem packRounds (vBits : List Bool) (n k : Nat) :
    let vBytes := (List.range k).foldl (fun vBytes p =>
      vBytes.modify (p / 8) fun byte => byte ||| ((vBits.getD p false).toUInt8 <<< (p % 8).toUInt8))
      (List.replicate n (0 : UInt8))
    vBytes.length = n ∧ ∀ p < n * 8, bitAt vBytes p = (decide (p < k) && vBits.getD p false) := by
  induction k with
  | zero =>
    refine ⟨by simp, ?_⟩
    intro p hp
    have hbyte : p / 8 < n := by omega
    simp [bitAt, hbyte]
  | succ k ih =>
    obtain ⟨hlength, hbits⟩ := ih
    rw [List.range_succ, List.foldl_append, List.foldl_cons, List.foldl_nil]
    refine ⟨by rw [List.length_modify, hlength], ?_⟩
    intro p hp
    rw [bitAt_modify _ _ _ _ (by rw [hlength]; omega), hbits p hp]
    by_cases heq : p = k
    · simp [heq]
    · have hlt : p < k + 1 ↔ p < k := by omega
      simp [heq, hlt]

/-- Reading the bytes back gives the bits and padding. -/
theorem unpackBits_packBits (vBits : List Bool) :
    unpackBits (packBits vBits) =
      vBits ++ List.replicate ((vBits.length + 7) / 8 * 8 - vBits.length) false := by
  obtain ⟨hlength, hbits⟩ := packRounds vBits ((vBits.length + 7) / 8) vBits.length
  have hlen : (packBits vBits).length = (vBits.length + 7) / 8 := hlength
  apply List.ext_getElem
  · simp only [unpackBits, List.length_map, List.length_range, List.length_append,
      List.length_replicate, hlen]
    omega
  · intro p hp hp'
    have hrange : p < (vBits.length + 7) / 8 * 8 := by
      simpa [unpackBits, hlen] using hp
    have hbit : (unpackBits (packBits vBits))[p] = bitAt (packBits vBits) p := by
      simp [unpackBits, bitAt]
    rw [hbit, packBits, hbits p hrange]
    by_cases hin : p < vBits.length
    · simp [hin]
    · rw [List.getElem_append_right (by omega)]
      simp [hin]

end Pack

section Segments

variable {α : Type} (z : List α)

/-- The leaves below a node. -/
def segment (height pos : Nat) : List α := (z.drop (pos * 2 ^ height)).take (2 ^ height)

theorem segment_succ (height pos : Nat) :
    segment z (height + 1) pos = segment z height (pos * 2) ++ segment z height (pos * 2 + 1) := by
  have hdouble : 2 ^ (height + 1) = 2 ^ height + 2 ^ height := by
    rw [Nat.pow_succ]
    omega
  have hleft : pos * 2 ^ (height + 1) = pos * 2 * 2 ^ height := by
    rw [Nat.pow_succ]
    ring
  have hright : pos * 2 * 2 ^ height + 2 ^ height = (pos * 2 + 1) * 2 ^ height := by
    ring
  rw [segment, hleft, hdouble, List.take_add, List.drop_drop, hright, segment, segment]

theorem segment_eq_nil (height pos : Nat) (hpos : ¬ pos < Merkle.width z.length height) :
    segment z height pos = [] := by
  rw [Merkle.lt_width_iff] at hpos
  rw [segment, List.drop_eq_nil_of_le (by omega), List.take_nil]

theorem segment_zero (pos : Nat) (hpos : pos < z.length) : segment z 0 pos = [z.get ⟨pos, hpos⟩] := by
  rw [segment, Nat.pow_zero, Nat.mul_one, List.drop_eq_getElem_cons hpos, List.take_succ_cons,
    List.take_zero]
  rfl

theorem segment_length_pos (height pos : Nat) (hpos : pos < Merkle.width z.length height) :
    0 < (segment z height pos).length := by
  rw [Merkle.lt_width_iff] at hpos
  have htwo : 0 < 2 ^ height := Nat.two_pow_pos height
  rw [segment, List.length_take, List.length_drop]
  omega

end Segments

section RoundTrip

variable (hash : HashFn) (vTxid : List UInt256) (vMatch : List Bool)

/-- The txids that the match vector selects, in order. -/
def matchedTxids (z : List (UInt256 × Bool)) : List UInt256 := (z.filter Prod.snd).map Prod.fst

theorem parentOfMatch_eq (hlen : vMatch.length = vTxid.length) (height pos : Nat) :
    ((List.range' (pos <<< height) (1 <<< height)).any fun p =>
      decide (p < vTxid.length) && vMatch.getD p false) =
      (segment (vTxid.zip vMatch) height pos).any Prod.snd := by
  rw [Nat.shiftLeft_eq, Nat.shiftLeft_eq, Nat.one_mul, Bool.eq_iff_iff, List.any_eq_true,
    List.any_eq_true]
  constructor
  · rintro ⟨p, hp, hmatch⟩
    rw [List.mem_range'_1] at hp
    simp only [Bool.and_eq_true, decide_eq_true_eq] at hmatch
    have hp' : p < vMatch.length := by omega
    refine ⟨(vTxid[p], vMatch[p]), ?_, by simpa [hp'] using hmatch.2⟩
    rw [segment, List.mem_take_iff_getElem]
    refine ⟨p - pos * 2 ^ height, ?_, ?_⟩
    · simp only [List.length_drop, List.length_zip]
      omega
    · have hadd : pos * 2 ^ height + (p - pos * 2 ^ height) = p := by omega
      simp [hadd]
  · rintro ⟨e, he, hmatch⟩
    rw [segment, List.mem_take_iff_getElem] at he
    obtain ⟨i, hi, rfl⟩ := he
    simp only [List.length_drop, List.length_zip] at hi
    have hin : pos * 2 ^ height + i < vMatch.length := by omega
    refine ⟨pos * 2 ^ height + i, by rw [List.mem_range'_1]; omega, ?_⟩
    have hin' : pos * 2 ^ height + i < vTxid.length := by omega
    simpa [hin, hin'] using hmatch

variable {hash vTxid vMatch} {t : CPartialMerkleTree}

theorem takeHash_append (fMatched : Bool) (s : ExtractState) (pre post : List UInt256) (h : UInt256)
    (hhash : t.vHash = pre ++ h :: post) (hused : s.nHashUsed = pre.length) :
    takeHash t fMatched s = some (h, { s with
      nHashUsed := s.nHashUsed + 1, vMatch := if fMatched then s.vMatch ++ [h] else s.vMatch }) := by
  simp [takeHash, hhash, hused]

theorem takeBit_append (s : ExtractState) (next : Bool → ExtractState → Option (UInt256 × ExtractState))
    (pre post : List Bool) (b : Bool) (hbits : t.vBits = pre ++ b :: post)
    (hused : s.nBitsUsed = pre.length) :
    takeBit t s next = next b { s with nBitsUsed := s.nBitsUsed + 1 } := by
  simp [takeBit, hbits, hused]

end RoundTrip

/-- The checks of `ExtractMatches` around the traversal. -/
theorem extractMatches_eq {hash : HashFn} {t : CPartialMerkleTree} (k : Nat) (r : UInt256)
    (s : ExtractState) (hsome : t.nTransactions ≠ 0) (hlimit : t.nTransactions ≤ MAX_BLOCK_SIZE / 60)
    (hhash : t.vHash.length ≤ t.nTransactions) (hbits : t.vHash.length ≤ t.vBits.length)
    (hk : treeHeight t.nTransactions = some k)
    (hextract : traverseAndExtract hash t k 0 ⟨0, 0, [], t.fBad⟩ = some (r, s)) :
    extractMatches hash t =
      some (if s.fBad ∨ (s.nBitsUsed + 7) / 8 ≠ (t.vBits.length + 7) / 8 ∨
        s.nHashUsed ≠ t.vHash.length then 0 else r, s.vMatch) := by
  rw [extractMatches, if_neg hsome, if_neg (by omega), if_neg (by omega), if_neg (by omega), hk,
    Option.bind_eq_bind, Option.bind_some, hextract, Option.bind_eq_bind, Option.bind_some]
  by_cases hbad : s.fBad = true
  · simp [hbad]
  · by_cases hused : (s.nBitsUsed + 7) / 8 = (t.vBits.length + 7) / 8
    · by_cases hall : s.nHashUsed = t.vHash.length
      · simp [hbad, hused, hall]
      · simp [hbad, hused, hall]
    · simp [hbad, hused]

section RoundTripProof

variable {hash : HashFn} {vTxid : List UInt256} {vMatch : List Bool} {t : CPartialMerkleTree}
  (hlen : vMatch.length = vTxid.length)
include hlen

theorem traverseAndBuild_zero (pos : Nat) :
    traverseAndBuild hash vTxid vMatch 0 pos =
      ([(segment (vTxid.zip vMatch) 0 pos).any Prod.snd], [calcHash hash vTxid 0 pos]) := by
  rw [traverseAndBuild, parentOfMatch_eq vTxid vMatch hlen 0 pos]

theorem traverseAndBuild_succ (height pos : Nat) :
    traverseAndBuild hash vTxid vMatch (height + 1) pos =
      if (segment (vTxid.zip vMatch) (height + 1) pos).any Prod.snd then
        let left := traverseAndBuild hash vTxid vMatch height (pos * 2)
        let right := if pos * 2 + 1 < Merkle.width vTxid.length height then
          traverseAndBuild hash vTxid vMatch height (pos * 2 + 1) else ([], [])
        (true :: (left.1 ++ right.1), left.2 ++ right.2)
      else ([false], [calcHash hash vTxid (height + 1) pos]) := by
  rw [traverseAndBuild, parentOfMatch_eq vTxid vMatch hlen (height + 1) pos, calcTreeWidth_eq]
  cases (segment (vTxid.zip vMatch) (height + 1) pos).any Prod.snd <;> rfl

omit hlen in
theorem matchedTxids_eq_nil (z : List (UInt256 × Bool)) (hnone : z.any Prod.snd = false) :
    matchedTxids z = [] := by
  rw [List.any_eq_false] at hnone
  rw [matchedTxids, List.filter_eq_nil_iff.mpr hnone, List.map_nil]

variable (hash) in
/-- Extraction of what was built, in any surroundings. -/
theorem traverseAndExtract_build (hn : t.nTransactions = vTxid.length) (height pos : Nat)
    (hpos : pos < Merkle.width vTxid.length height) (preB postB : List Bool)
    (preH postH : List UInt256) (s : ExtractState)
    (hbits : t.vBits = preB ++ (traverseAndBuild hash vTxid vMatch height pos).1 ++ postB)
    (hhash : t.vHash = preH ++ (traverseAndBuild hash vTxid vMatch height pos).2 ++ postH)
    (hbitsUsed : s.nBitsUsed = preB.length) (hhashUsed : s.nHashUsed = preH.length) :
    traverseAndExtract hash t height pos s = some (calcHash hash vTxid height pos,
      { nBitsUsed := s.nBitsUsed + (traverseAndBuild hash vTxid vMatch height pos).1.length
        nHashUsed := s.nHashUsed + (traverseAndBuild hash vTxid vMatch height pos).2.length
        vMatch := s.vMatch ++ matchedTxids (segment (vTxid.zip vMatch) height pos)
        fBad := s.fBad }) := by
  induction height generalizing pos preB postB preH postH s with
  | zero =>
    rw [Merkle.width_zero] at hpos
    have hin : pos < (vTxid.zip vMatch).length := by
      rw [List.length_zip]
      omega
    rw [traverseAndBuild_zero hlen] at hbits hhash ⊢
    simp only [List.append_assoc, List.singleton_append] at hbits hhash
    rw [traverseAndExtract, takeBit_append s _ preB postB _ hbits hbitsUsed,
      takeHash_append _ { s with nBitsUsed := s.nBitsUsed + 1 } preH postH _ hhash hhashUsed,
      segment_zero _ pos hin]
    cases hmatch : vMatch[pos] with
    | false => simp [matchedTxids, hmatch]
    | true => simp [matchedTxids, hmatch, calcHash, hpos]
  | succ height ih =>
    rw [traverseAndBuild_succ hlen] at hbits hhash ⊢
    cases hany : (segment (vTxid.zip vMatch) (height + 1) pos).any Prod.snd with
    | false =>
      simp only [hany, Bool.false_eq_true, if_false, List.append_assoc, List.singleton_append]
        at hbits hhash ⊢
      rw [traverseAndExtract, takeBit_append s _ preB postB _ hbits hbitsUsed]
      simp only [Bool.not_false, if_true]
      rw [takeHash_append _ { s with nBitsUsed := s.nBitsUsed + 1 } preH postH _ hhash hhashUsed,
        matchedTxids_eq_nil _ hany]
      simp
    | true =>
      simp only [hany, if_true] at hbits hhash ⊢
      rw [Merkle.width_succ] at hpos
      have hleft : pos * 2 < Merkle.width vTxid.length height := by omega
      rw [traverseAndExtract, takeBit_append s _ preB _ true (by simpa using hbits) hbitsUsed]
      simp only [Bool.not_true, Bool.false_eq_true, if_false]
      rw [ih (pos * 2) hleft (preB ++ [true]) _ preH _ { s with nBitsUsed := s.nBitsUsed + 1 }
        (by simpa using hbits) (by simpa using hhash) (by simp [hbitsUsed]) hhashUsed]
      simp only [Option.bind_some, calcTreeWidth_eq, hn]
      by_cases hright : pos * 2 + 1 < Merkle.width vTxid.length height
      · simp only [hright, if_true] at hbits hhash ⊢
        rw [ih (pos * 2 + 1) hright
          (preB ++ [true] ++ (traverseAndBuild hash vTxid vMatch height (pos * 2)).1) postB
          (preH ++ (traverseAndBuild hash vTxid vMatch height (pos * 2)).2) postH _
          (by simpa using hbits) (by simpa using hhash)
          (by simp only [hbitsUsed, List.length_append, List.length_singleton])
          (by simp only [hhashUsed, List.length_append])]
        simp [calcHash, calcTreeWidth_eq, hright, segment_succ, matchedTxids]
        omega
      · have hnil : segment (vTxid.zip vMatch) height (pos * 2 + 1) = [] := by
          apply segment_eq_nil
          rwa [List.length_zip, hlen, Nat.min_self]
        simp [calcHash, calcTreeWidth_eq, hright, segment_succ, matchedTxids, hnil]
        omega

variable (hash) in
/-- No more hashes than leaves, and no more than bits. -/
theorem traverseAndBuild_length (height pos : Nat) (hpos : pos < Merkle.width vTxid.length height) :
    (traverseAndBuild hash vTxid vMatch height pos).2.length ≤ (segment vTxid height pos).length ∧
      (traverseAndBuild hash vTxid vMatch height pos).2.length ≤
        (traverseAndBuild hash vTxid vMatch height pos).1.length := by
  induction height generalizing pos with
  | zero =>
    rw [traverseAndBuild_zero hlen]
    exact ⟨segment_length_pos vTxid 0 pos hpos, le_rfl⟩
  | succ height ih =>
    have hown := segment_length_pos vTxid (height + 1) pos hpos
    rw [traverseAndBuild_succ hlen]
    split
    · rw [Merkle.width_succ] at hpos
      have hleft := ih (pos * 2) (by omega)
      rw [segment_succ]
      by_cases hright : pos * 2 + 1 < Merkle.width vTxid.length height
      · have hright' := ih (pos * 2 + 1) hright
        simp only [hright, if_true, List.length_append, List.length_cons]
        omega
      · simp only [hright, if_false, List.length_append, List.length_cons, List.length_nil]
        omega
    · exact ⟨hown, le_rfl⟩

/-- A tree that was built, written and read gives the root of the block and the matched txids in
their order. -/
theorem extractMatches_new (hash : HashFn) (hne : vTxid ≠ [])
    (hlimit : vTxid.length ≤ MAX_BLOCK_SIZE / 60) :
    ∃ t, CPartialMerkleTree.new hash vTxid vMatch = some t ∧
      extractMatches hash t.reread = some (CBlock.merkleRootFrom hash vTxid.length vTxid,
        matchedTxids (vTxid.zip vMatch)) := by
  obtain ⟨k, hk, htop, hbelow⟩ := treeHeight_spec vTxid.length
  have hlength : 0 < vTxid.length := List.length_pos_iff.mpr hne
  have hpos : 0 < Merkle.width vTxid.length k := by
    rw [Merkle.lt_width_iff]
    omega
  -- the whole list is below the root
  have hall : vTxid.length ≤ 2 ^ k := by
    have hone : ¬ 1 < Merkle.width vTxid.length k := by omega
    rw [Merkle.lt_width_iff] at hone
    omega
  have hroot := calcHash_root hash vTxid hne k htop hbelow
  have hcounts := traverseAndBuild_length hash hlen k 0 hpos
  have hwhole : ∀ {α : Type} (z : List α), z.length ≤ 2 ^ k → segment z k 0 = z := by
    intro α z hz
    simp [segment, List.take_of_length_le hz]
  have hextract := traverseAndExtract_build hash hlen
    (t := ⟨vTxid.length, unpackBits (packBits (traverseAndBuild hash vTxid vMatch k 0).1),
      (traverseAndBuild hash vTxid vMatch k 0).2, false⟩) rfl k 0 hpos [] _ [] []
    ⟨0, 0, [], false⟩ (unpackBits_packBits _) (by simp) rfl rfl
  rw [hwhole vTxid hall] at hcounts
  rw [hwhole _ (by rw [List.length_zip]; omega), hroot] at hextract
  have hpadded : (unpackBits (packBits (traverseAndBuild hash vTxid vMatch k 0).1)).length =
      ((traverseAndBuild hash vTxid vMatch k 0).1.length + 7) / 8 * 8 := by
    rw [unpackBits_packBits, List.length_append, List.length_replicate]
    omega
  have hbytes : ∀ n : Nat, ((n + 7) / 8 * 8 + 7) / 8 = (n + 7) / 8 := by
    intro n
    omega
  have henough : (traverseAndBuild hash vTxid vMatch k 0).2.length ≤
      (unpackBits (packBits (traverseAndBuild hash vTxid vMatch k 0).1)).length := by
    omega
  refine ⟨⟨vTxid.length, (traverseAndBuild hash vTxid vMatch k 0).1,
    (traverseAndBuild hash vTxid vMatch k 0).2, false⟩, ?_, ?_⟩
  · rw [CPartialMerkleTree.new, hk]
    rfl
  · rw [CPartialMerkleTree.reread, extractMatches_eq k _ _ (by simpa using hne) hlimit hcounts.1
      henough hk hextract]
    simp [hpadded, hbytes]

end RoundTripProof

theorem firstAndLast_reread :
    ∃ t, CPartialMerkleTree.new sha256d [1, 2, 3] [true, false, true] = some t ∧
      extractMatches sha256d t.reread =
        some (CBlock.merkleRootFrom sha256d 3 [1, 2, 3], [1, 3]) :=
  extractMatches_new rfl sha256d (by decide) (by decide)

end AliasWallet
