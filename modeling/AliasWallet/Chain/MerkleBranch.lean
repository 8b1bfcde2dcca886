import AliasWallet.Chain.MerkleSoundness
import Mathlib.Data.Nat.Bitwise

/-!
# Merkle branches (`GetMerkleBranch`, `CheckMerkleBranch`)

The tree is one array with the levels behind each other, from the txids up to the root. A branch holds the
neighbour on each level, and hashing along it gives the root.
-/

namespace AliasWallet
open Lib

variable (hash : HashFn)

section Array

/-- The inner loop of `BuildMerkleTree`: the level above the `nSize` entries from `j` on. -/
def pushLevel (vMerkleTree : List UInt256) (j nSize : Nat) : List UInt256 :=
  (List.range ((nSize + 1) / 2)).foldl (fun v k =>
    let i := 2 * k
    let i2 := min (i + 1) (nSize - 1)
    v ++ [merkleNode hash (v.getD (j + i) 0) (v.getD (j + i2) 0)]) vMerkleTree

/-- The outer loop. -/
def pushLevels (vMerkleTree : List UInt256) (j nSize : Nat) : List UInt256 :=
  if nSize > 1 then pushLevels (pushLevel hash vMerkleTree j nSize) (j + nSize) ((nSize + 1) / 2)
  else vMerkleTree
termination_by nSize

/-- `vMerkleTree` after `BuildMerkleTree`. -/
def merkleArray (vTxid : List UInt256) : List UInt256 := pushLevels hash vTxid 0 vTxid.length

/-- What `BuildMerkleTree` returns. -/
def merkleArrayRoot (vTxid : List UInt256) : UInt256 := (merkleArray hash vTxid).getLast?.getD 0

/-- The loop of `GetMerkleBranch`. -/
def branchLoop (vMerkleTree : List UInt256) (j nSize nIndex : Nat) : List UInt256 :=
  if nSize > 1 then
    let i := min (nIndex ^^^ 1) (nSize - 1)
    vMerkleTree.getD (j + i) 0 :: branchLoop vMerkleTree (j + nSize) ((nSize + 1) / 2) (nIndex / 2)
  else []
termination_by nSize

/-- `GetMerkleBranch`; the array may have been built before. -/
def getMerkleBranch (vMerkleTree vTxid : List UInt256) (nIndex : Nat) : List UInt256 :=
  let vMerkleTree := if vMerkleTree = [] then merkleArray hash vTxid else vMerkleTree
  branchLoop vMerkleTree 0 vTxid.length nIndex

/-- The loop of `CheckMerkleBranch`. -/
def foldBranch (h : UInt256) : List UInt256 → Int → UInt256
  | [], _ => h
  | otherside :: vMerkleBranch, nIndex =>
    foldBranch (if nIndex % 2 = 1 then merkleNode hash otherside h else merkleNode hash h otherside)
      vMerkleBranch (nIndex / 2)

/-- `CheckMerkleBranch`. -/
def checkMerkleBranch (h : UInt256) (vMerkleBranch : List UInt256) (nIndex : Int) : UInt256 :=
  if nIndex = -1 then 0 else foldBranch hash h vMerkleBranch nIndex

end Array

section Levels

/-- A node of the next level, from the entries that the loop reads. -/
theorem level_getElem? (l : List UInt256) (k : Nat) (hk : 2 * k < l.length) :
    (Merkle.level (merkleNode hash) l)[k]? =
      some (merkleNode hash (l.getD (2 * k) 0) (l.getD (min (2 * k + 1) (l.length - 1)) 0)) := by
  have hget : l[2 * k]? = some (l.getD (2 * k) 0) := by
    rw [List.getD_eq_getElem?_getD, List.getElem?_eq_getElem hk, Option.getD_some]
  have hlevel := Merkle.levels_succ_getElem? (merkleNode hash) 0 l k _ hget
  rw [Merkle.levels, Merkle.levels, Merkle.levels] at hlevel
  rw [hlevel]
  congr 2
  rcases Nat.lt_or_ge (2 * k + 1) l.length with hlt | hge
  · rw [min_eq_left (by omega), List.getElem?_eq_getElem hlt, Option.getD_some, List.getD_eq_getElem?_getD,
      List.getElem?_eq_getElem hlt, Option.getD_some]
  · have hlast : min (2 * k + 1) (l.length - 1) = 2 * k := by omega
    rw [hlast, List.getElem?_eq_none hge, Option.getD_none]

theorem level_length (l : List UInt256) :
    (Merkle.level (merkleNode hash) l).length = (l.length + 1) / 2 := by
  rw [Merkle.level, List.length_map, Merkle.length_levelPairs]

theorem getD_append_add (pre l : List UInt256) (i : Nat) : (pre ++ l).getD (pre.length + i) 0 = l.getD i 0 := by
  rw [List.getD_eq_getElem?_getD, List.getElem?_append_right (by omega), Nat.add_sub_cancel_left,
    List.getD_eq_getElem?_getD]

theorem getD_append_lt (l post : List UInt256) (i : Nat) (hi : i < l.length) :
    (l ++ post).getD i 0 = l.getD i 0 := by
  rw [List.getD_eq_getElem?_getD, List.getElem?_append_left hi, List.getD_eq_getElem?_getD]

/-- The loop appends the next level. -/
theorem pushLevel_eq (pre l : List UInt256) :
    pushLevel hash (pre ++ l) pre.length l.length = pre ++ l ++ Merkle.level (merkleNode hash) l := by
  have hrounds : ∀ n, n ≤ (l.length + 1) / 2 → (List.range n).foldl (fun v k =>
      v ++ [merkleNode hash (v.getD (pre.length + 2 * k) 0)
        (v.getD (pre.length + min (2 * k + 1) (l.length - 1)) 0)]) (pre ++ l) =
        pre ++ l ++ (Merkle.level (merkleNode hash) l).take n := by
    intro n hn
    induction n with
    | zero => rw [List.range_zero, List.foldl_nil, List.take_zero, List.append_nil]
    | succ n ih =>
      have hlt : n < (Merkle.level (merkleNode hash) l).length := by
        rw [level_length]
        omega
      have hget := level_getElem? hash l n (by omega)
      rw [List.getElem?_eq_getElem hlt, Option.some.injEq] at hget
      rw [List.range_succ, List.foldl_append, ih (by omega), List.foldl_cons, List.foldl_nil,
        List.append_assoc pre, getD_append_add, getD_append_add, getD_append_lt _ _ _ (by omega),
        getD_append_lt _ _ _ (by omega), ← hget, List.append_assoc, List.append_assoc,
        List.take_succ_eq_append_getElem hlt, ← List.append_assoc pre]
  have hall := hrounds ((l.length + 1) / 2) le_rfl
  rwa [List.take_of_length_le (by rw [level_length])] at hall

/-- The levels behind each other. -/
def stacked (l : List UInt256) : List UInt256 :=
  if l.length > 1 then l ++ stacked (Merkle.level (merkleNode hash) l) else l
termination_by l.length
decreasing_by
  rw [level_length]
  omega

theorem pushLevels_eq (pre l : List UInt256) :
    pushLevels hash (pre ++ l) pre.length l.length = pre ++ stacked hash l := by
  induction hn : l.length using Nat.strong_induction_on generalizing pre l with
  | _ n ih =>
    subst hn
    rw [pushLevels, stacked]
    by_cases hsize : l.length > 1
    · have hnext := ih _ (by rw [level_length]; omega) (pre ++ l) (Merkle.level (merkleNode hash) l) rfl
      rw [List.length_append, level_length] at hnext
      rw [if_pos hsize, if_pos hsize, pushLevel_eq, hnext, List.append_assoc]
    · rw [if_neg hsize, if_neg hsize]

theorem merkleArray_eq (vTxid : List UInt256) : merkleArray hash vTxid = stacked hash vTxid := by
  have h := pushLevels_eq hash [] vTxid
  rwa [List.nil_append, List.nil_append] at h

theorem stacked_ne_nil (l : List UInt256) (hl : l ≠ []) : stacked hash l ≠ [] := by
  rw [stacked]
  split
  · exact List.append_ne_nil_of_left_ne_nil hl _
  · exact hl

theorem level_ne_nil (l : List UInt256) (hl : l ≠ []) : Merkle.level (merkleNode hash) l ≠ [] := by
  have hpos := List.length_pos_iff.mpr hl
  apply List.length_pos_iff.mp
  rw [level_length]
  omega

/-- The last entry of the array is the root that the levels lead to. -/
theorem stacked_getLast? (fuel : Nat) (l : List UInt256) (hl : l ≠ []) (hfuel : l.length ≤ fuel) :
    (stacked hash l).getLast?.getD 0 = CBlock.merkleRootFrom hash fuel l := by
  induction fuel generalizing l with
  | zero => exact absurd (List.eq_nil_of_length_eq_zero (Nat.le_zero.mp hfuel)) hl
  | succ fuel ih =>
    rw [stacked]
    match l with
    | [] => exact absurd rfl hl
    | [h] => rfl
    | h :: h' :: l =>
      have hsize : (h :: h' :: l).length > 1 := by simp
      have hup := level_ne_nil hash _ hl
      have hlen : (Merkle.level (merkleNode hash) (h :: h' :: l)).length ≤ fuel := by
        rw [level_length]
        simp only [List.length_cons] at hfuel ⊢
        omega
      have hround : CBlock.merkleRootFrom hash (fuel + 1) (h :: h' :: l) =
          CBlock.merkleRootFrom hash fuel (CBlock.merkleLevel hash (h :: h' :: l)) := rfl
      rw [if_pos hsize, List.getLast?_append_of_ne_nil _ (stacked_ne_nil hash _ hup), ih _ hup hlen, hround,
        merkleLevel_eq]

end Levels

section Branch

/-- The next node on the way from a leaf to the root. -/
theorem foldBranch_step (l : List UInt256) (i : Nat) (hi : i < l.length) :
    (if (i : Int) % 2 = 1 then merkleNode hash (l.getD (min (i ^^^ 1) (l.length - 1)) 0) (l.getD i 0)
      else merkleNode hash (l.getD i 0) (l.getD (min (i ^^^ 1) (l.length - 1)) 0)) =
      (Merkle.level (merkleNode hash) l).getD (i / 2) 0 := by
  have hlevel := level_getElem? hash l (i / 2) (by omega)
  have hget (m : List UInt256) (k : Nat) (h : UInt256) (hh : m[k]? = some h) : m.getD k 0 = h := by
    rw [List.getD_eq_getElem?_getD, hh, Option.getD_some]
  rw [hget _ _ _ hlevel]
  rcases Nat.even_or_odd i with heven | hodd
  · have hmod := Nat.even_iff.mp heven
    have htwo : 2 * (i / 2) = i := by omega
    rw [if_neg (by omega), Nat.xor_one_of_even heven, htwo]
  · have hmod := Nat.odd_iff.mp hodd
    have htwo : 2 * (i / 2) = i - 1 := by omega
    have hone : i - 1 + 1 = i := by omega
    rw [if_pos (by omega), Nat.xor_one_of_odd hodd, htwo, hone, min_eq_left (by omega), min_eq_left (by omega)]

theorem foldBranch_branchLoop (pre l : List UInt256) (hl : l ≠ []) (i : Nat) (hi : i < l.length) :
    foldBranch hash (l.getD i 0) (branchLoop (pre ++ stacked hash l) pre.length l.length i) i =
      (stacked hash l).getLast?.getD 0 := by
  induction hn : l.length using Nat.strong_induction_on generalizing pre l i with
  | _ n ih =>
    subst hn
    rw [branchLoop, stacked]
    by_cases hsize : l.length > 1
    · have hup := level_ne_nil hash l hl
      have hlt : i / 2 < (Merkle.level (merkleNode hash) l).length := by
        rw [level_length]
        omega
      have hnext := ih _ (by rw [level_length]; omega) (pre ++ l) _ hup (i / 2) hlt rfl
      rw [List.length_append, level_length] at hnext
      rw [if_pos hsize, if_pos hsize, foldBranch, getD_append_add, getD_append_lt _ _ _ (by omega),
        foldBranch_step hash l i hi, ← List.append_assoc, List.getLast?_append_of_ne_nil _ (stacked_ne_nil hash _ hup),
        ← hnext, Int.natCast_ediv]
      rfl
    · rw [if_neg hsize, if_neg hsize, foldBranch]
      match l with
      | [] => exact absurd rfl hl
      | [h] =>
        obtain rfl : i = 0 := by
          rw [List.length_singleton] at hi
          omega
        rfl
      | h :: h' :: l => simp at hsize

/-- The branch of each transaction leads to the root of the block, whether the tree was built before or
not. -/
theorem checkMerkleBranch_getMerkleBranch (b : CBlock) (hne : b.vtx ≠ []) (vMerkleTree : List UInt256)
    (hcache : vMerkleTree = [] ∨ vMerkleTree = merkleArray hash (b.vtx.map (CTransaction.getHash hash)))
    (i : Fin b.vtx.length) :
    let vTxid := b.vtx.map (CTransaction.getHash hash)
    checkMerkleBranch hash ((b.vtx.get i).getHash hash) (getMerkleBranch hash vMerkleTree vTxid i) (i : Nat) =
        merkleArrayRoot hash vTxid ∧
      merkleArrayRoot hash vTxid = b.buildMerkleTree hash := by
  intro vTxid
  have hnil : vTxid ≠ [] := by
    intro h
    exact hne (List.map_eq_nil_iff.mp h)
  have hlt : (i : Nat) < vTxid.length := by
    rw [List.length_map]
    exact i.isLt
  have hleaf : vTxid.getD i 0 = (b.vtx.get i).getHash hash := by
    rw [List.getD_eq_getElem?_getD, List.getElem?_eq_getElem hlt, Option.getD_some, List.getElem_map]
    rfl
  have harray : (if vMerkleTree = [] then merkleArray hash vTxid else vMerkleTree) = stacked hash vTxid := by
    split
    · exact merkleArray_eq hash vTxid
    · next hbuilt => rw [hcache.resolve_left hbuilt, merkleArray_eq]
  have hroot := foldBranch_branchLoop hash [] vTxid hnil i hlt
  rw [List.nil_append, List.length_nil] at hroot
  constructor
  · rw [checkMerkleBranch, if_neg (by omega), getMerkleBranch, harray, ← hleaf, hroot, merkleArrayRoot,
      merkleArray_eq]
  · rw [merkleArrayRoot, merkleArray_eq, CBlock.buildMerkleTree,
      stacked_getLast? hash b.vtx.length vTxid hnil (by rw [List.length_map])]

/-- The last of three transactions, with the tree not built yet. -/
theorem smallBlock_branch :
    checkMerkleBranch sha256d ((smallBlock.vtx.get ⟨2, by decide⟩).getHash sha256d)
        (getMerkleBranch sha256d [] (smallBlock.vtx.map (CTransaction.getHash sha256d)) 2) 2 =
      merkleArrayRoot sha256d (smallBlock.vtx.map (CTransaction.getHash sha256d)) ∧
    merkleArrayRoot sha256d (smallBlock.vtx.map (CTransaction.getHash sha256d)) =
      smallBlock.buildMerkleTree sha256d :=
  checkMerkleBranch_getMerkleBranch sha256d smallBlock (by decide) [] (Or.inl rfl) ⟨2, by decide⟩

end Branch

end AliasWallet
