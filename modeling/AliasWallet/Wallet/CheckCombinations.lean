import Mathlib.Algebra.BigOperators.Intervals
import Mathlib.Algebra.Order.BigOperators.Group.Finset
import AliasWallet.Lib.WrappingSum

/-!
# The search for coins (`checkCombinations`)

The largest coin of a selection moves up level by level. On a level the search looks at the largest coins
below it only: the carry leaves the level at once, and the coarse search finds its gap closed. With more than
two coins every level but the last one is passed over.
-/

namespace AliasWallet
open Lib

section Search

variable (nReq : Int64) (m : Nat) (vData : List Int64)

/-- The loop that adds up `nTotal`. -/
def totalAt (vecInputIndex : List Nat) : Int64 :=
  vecInputIndex.foldl (fun nTotal i => nTotal + vData.getD i 0) 0

/-- The first set of a level. -/
def firstIndexes (l : Nat) : List Nat := (List.range m).map fun i => l - i - 1

/-- The coarse search: whether a match was found, and `fSeekFine`. -/
def coarseSeek : Nat → List Nat → Option (Bool × Bool × List Nat)
  | 0, _ => none
  | rounds + 1, vecInputIndex =>
    if vecInputIndex.getD 1 0 < vecInputIndex.getD 0 0 - 1 then
      let vecInputIndex := vecInputIndex.mapIdx fun i x => if i = 0 then x else x + 1
      let nTotal := totalAt vData vecInputIndex
      if nTotal = nReq then some (true, false, vecInputIndex)
      else if nTotal > nReq then
        some (false, true, vecInputIndex.mapIdx fun i x => if i = 0 then x else x - 1)
      else coarseSeek rounds vecInputIndex
    else some (false, false, vecInputIndex)

/-- The position where the carry ends; none leads to `EndInner`. -/
def carryEnd (l : Nat) (vecInputIndex : List Nat) : Option Nat :=
  (List.range m).find? fun i => ¬ vecInputIndex.getD i 0 ≥ l - i

/-- The loop that fills the set from position `i` down. -/
def fillDown : Nat → List Nat → List Nat
  | 0, vecInputIndex => vecInputIndex
  | i + 1, vecInputIndex => fillDown i (vecInputIndex.set i (vecInputIndex.getD (i + 1) 0 + 1))

def fillNext (i : Nat) (vecInputIndex : List Nat) : List Nat :=
  fillDown i (vecInputIndex.set i (vecInputIndex.getD i 0 + 1))

/-- The fine search on a level. -/
def fineSeek (l : Nat) : Nat → List Nat → Option (Bool × List Nat)
  | 0, _ => none
  | rounds + 1, vecInputIndex =>
    if vecInputIndex.getD 0 0 = l - 1 ∧ totalAt vData vecInputIndex ≥ nReq then some (true, vecInputIndex)
    else
      match carryEnd m l vecInputIndex with
      | none => some (false, vecInputIndex)
      | some i => fineSeek l rounds (fillNext i vecInputIndex)

/-- The levels from `l` on. -/
def seekLevels (rounds : Nat) : Nat → Nat → List Nat → Option (Bool × List Nat)
  | 0, _, vecInputIndex => some (false, vecInputIndex)
  | levels + 1, l, _ => do
    let (fFound, fSeekFine, vecInputIndex) ←
      if m ≤ 2 then some (false, true, firstIndexes m l)
      else coarseSeek nReq vData rounds (firstIndexes m l)
    if fFound then some (true, vecInputIndex)
    else if ¬ fSeekFine ∧ l < vData.length then seekLevels rounds levels (l + 1) vecInputIndex
    else
      let (fFound, vecInputIndex) ← fineSeek nReq m vData l rounds vecInputIndex
      if fFound then some (true, vecInputIndex)
      else if m + 1 > vData.length then some (false, vecInputIndex)
      else seekLevels rounds levels (l + 1) vecInputIndex

/-- The first level whose largest coin is not too small. -/
def startLevel : Option Nat :=
  (List.range (vData.length + 1)).find? fun l => m ≤ l ∧ ¬ vData.getD (l - 1) 0 * Int64.ofNat m < nReq

/-- `checkCombinations` with the selected positions; each inner loop may take that many rounds. -/
def checkCombinations (rounds : Nat) : Option (Bool × List Nat) :=
  if m > vData.length then some (false, List.replicate m 0)
  else
    match startLevel nReq m vData with
    | none => some (false, List.replicate m 0)
    | some startL => seekLevels nReq m vData rounds (vData.length + 1 - startL) startL (List.replicate m 0)

example : checkCombinations 3 2 [1, 2, 3, 4] 3 = some (true, [1, 0]) := by decide

end Search

section Carry

variable (m l : Nat)

/-- The set after `k` carries. -/
def carried (k : Nat) : List Nat := (List.range m).map fun j => if j < k then l - j else l - j - 1

theorem carried_zero : carried m l 0 = firstIndexes m l := by
  simp only [carried, firstIndexes, Nat.not_lt_zero, if_false]

theorem carried_getElem? (k j : Nat) (hj : j < m) :
    (carried m l k)[j]? = some (if j < k then l - j else l - j - 1) := by
  rw [carried, List.getElem?_map, List.getElem?_range hj, Option.map_some]

theorem carried_getD (k j : Nat) (hj : j < m) :
    (carried m l k).getD j 0 = if j < k then l - j else l - j - 1 := by
  rw [List.getD_eq_getElem?_getD, carried_getElem? m l k j hj, Option.getD_some]

theorem carried_length (k : Nat) : (carried m l k).length = m := by
  rw [carried, List.length_map, List.length_range]

theorem carryEnd_carried (k : Nat) (hl : m ≤ l) (hk : k < m) : carryEnd m l (carried m l k) = some k := by
  rw [carryEnd, List.find?_range_eq_some]
  refine ⟨?_, List.mem_range.mpr hk, fun j hj => ?_⟩
  · rw [carried_getD m l k k hk, if_neg (Nat.lt_irrefl k), decide_eq_true_iff]
    omega
  · rw [carried_getD m l k j (by omega), if_pos hj]
    simp

theorem carryEnd_last : carryEnd m l (carried m l m) = none := by
  rw [carryEnd, List.find?_eq_none]
  intro j hj
  rw [carried_getD m l m j (List.mem_range.mp hj), if_pos (List.mem_range.mp hj)]
  simp

/-- The loop changes nothing where the set is already filled. -/
theorem fillDown_carried (k i : Nat) (hl : m ≤ l) (hi : i < k) (hk : k ≤ m) :
    fillDown i (carried m l k) = carried m l k := by
  induction i with
  | zero => rfl
  | succ i ih =>
    have hsame : (carried m l k).set i ((carried m l k).getD (i + 1) 0 + 1) = carried m l k := by
      apply List.ext_getElem?
      intro j
      rw [List.getElem?_set, carried_length, carried_getD m l k (i + 1) (by omega), if_pos hi]
      by_cases hij : i = j
      · subst hij
        rw [if_pos rfl, if_pos (by omega), carried_getElem? m l k i (by omega), if_pos (by omega)]
        congr 1
        omega
      · rw [if_neg hij]
    rw [fillDown, hsame, ih (by omega)]

theorem fillNext_carried (k : Nat) (hl : m ≤ l) (hk : k < m) :
    fillNext k (carried m l k) = carried m l (k + 1) := by
  have hset : (carried m l k).set k ((carried m l k).getD k 0 + 1) = carried m l (k + 1) := by
    apply List.ext_getElem?
    intro j
    rw [List.getElem?_set, carried_length, carried_getD m l k k hk, if_neg (Nat.lt_irrefl k)]
    by_cases hkj : k = j
    · subst hkj
      rw [if_pos rfl, if_pos hk, carried_getElem? m l (k + 1) k hk, if_pos (Nat.lt_succ_self k)]
      congr 1
      omega
    · rw [if_neg hkj]
      rcases Nat.lt_or_ge j m with hj | hj
      · rw [carried_getElem? m l k j hj, carried_getElem? m l (k + 1) j hj]
        congr 1
        by_cases hlt : j < k
        · rw [if_pos hlt, if_pos (by omega)]
        · rw [if_neg hlt, if_neg (by omega)]
      · rw [List.getElem?_eq_none (by rw [carried_length]; exact hj),
          List.getElem?_eq_none (by rw [carried_length]; exact hj)]
  rw [fillNext, hset, fillDown_carried m l (k + 1) k hl (Nat.lt_succ_self k) hk]

variable (nReq : Int64) (vData : List Int64)

/-- Once it has carried, the search only leaves the level. -/
theorem fineSeek_carried (hl : m ≤ l) (hm : 0 < m) (rounds k : Nat) (hk : 0 < k) (hkm : k ≤ m)
    (hrounds : m < rounds + k) :
    fineSeek nReq m vData l rounds (carried m l k) = some (false, carried m l m) := by
  induction rounds generalizing k with
  | zero => omega
  | succ rounds ih =>
    have hfirst : (carried m l k).getD 0 0 ≠ l - 1 := by
      rw [carried_getD m l k 0 hm, if_pos hk]
      omega
    rw [fineSeek, if_neg fun h => hfirst h.1]
    rcases Nat.lt_or_ge k m with hlt | hge
    · rw [carryEnd_carried m l k hl hlt]
      dsimp only
      rw [fillNext_carried m l k hl hlt]
      exact ih (k + 1) (Nat.succ_pos k) hlt (by omega)
    · obtain rfl : k = m := by omega
      rw [carryEnd_last]

/-- The fine search decides about the first set of the level only. -/
theorem fineSeek_first (hl : m ≤ l) (hm : 0 < m) (rounds : Nat) (hrounds : m < rounds) :
    fineSeek nReq m vData l rounds (firstIndexes m l) =
      if nReq ≤ totalAt vData (firstIndexes m l) then some (true, firstIndexes m l)
      else some (false, carried m l m) := by
  obtain ⟨rounds, rfl⟩ := Nat.exists_eq_succ_of_ne_zero (by omega : rounds ≠ 0)
  have hfirst : (firstIndexes m l).getD 0 0 = l - 1 := by
    rw [← carried_zero, carried_getD m l 0 0 hm, if_neg (Nat.lt_irrefl 0), Nat.sub_zero]
  rw [Nat.succ_eq_add_one, fineSeek]
  by_cases henough : nReq ≤ totalAt vData (firstIndexes m l)
  · rw [if_pos ⟨hfirst, henough⟩, if_pos henough]
  · rw [if_neg fun h => henough h.2, if_neg henough, ← carried_zero, carryEnd_carried m l 0 hl hm]
    dsimp only
    rw [fillNext_carried m l 0 hl hm]
    exact fineSeek_carried m l nReq vData hl hm rounds 1 Nat.one_pos hm (by omega)

/-- The coarse search ends before its first round: the set of a level has no gap. -/
theorem coarseSeek_first (hm : 2 ≤ m) (rounds : Nat) (hrounds : 0 < rounds) :
    coarseSeek nReq vData rounds (firstIndexes m l) = some (false, false, firstIndexes m l) := by
  obtain ⟨rounds, rfl⟩ := Nat.exists_eq_succ_of_ne_zero hrounds.ne'
  have hone : (firstIndexes m l).getD 1 0 = l - 1 - 1 := by
    rw [← carried_zero, carried_getD m l 0 1 (by omega), if_neg (by omega)]
  have hzero : (firstIndexes m l).getD 0 0 = l - 1 := by
    rw [← carried_zero, carried_getD m l 0 0 (by omega), if_neg (by omega), Nat.sub_zero]
  rw [Nat.succ_eq_add_one, coarseSeek, hone, hzero, if_neg (Nat.lt_irrefl _)]

end Carry

section Levels

variable (nReq : Int64) (m : Nat) (vData : List Int64)

/-- The largest coins below a level are enough. -/
def LevelEnough (l : Nat) : Prop := nReq ≤ totalAt vData (firstIndexes m l)

/-- One or two coins: each level is looked at. -/
theorem seekLevels_few (hm : 0 < m) (hfew : m ≤ 2) (rounds : Nat) (hrounds : m < rounds) (levels l : Nat)
    (vecInputIndex : List Nat) (hl : m ≤ l) (hlevels : l + levels = vData.length + 1) :
    (∃ out, seekLevels nReq m vData rounds levels l vecInputIndex = some (false, out) ∧
      ∀ l', l ≤ l' → l' ≤ vData.length → ¬ LevelEnough nReq m vData l') ∨
    ∃ l', l ≤ l' ∧ l' ≤ vData.length ∧
      seekLevels nReq m vData rounds levels l vecInputIndex = some (true, firstIndexes m l') ∧
      LevelEnough nReq m vData l' ∧ ∀ k, l ≤ k → k < l' → ¬ LevelEnough nReq m vData k := by
  induction levels generalizing l vecInputIndex with
  | zero => exact Or.inl ⟨vecInputIndex, rfl, fun l' _ _ => by omega⟩
  | succ levels ih =>
    rw [seekLevels, if_pos hfew]
    simp only [Option.bind_eq_bind, Option.bind_some, Bool.false_eq_true, if_false, not_true_eq_false, false_and,
      fineSeek_first m l nReq vData hl hm rounds hrounds]
    by_cases henough : nReq ≤ totalAt vData (firstIndexes m l)
    · refine Or.inr ⟨l, le_rfl, by omega, ?_, henough, fun k _ _ => by omega⟩
      rw [if_pos henough]
      rfl
    · rw [if_neg henough, Option.bind_some]
      simp only [Bool.false_eq_true, if_false]
      by_cases hlast : m + 1 > vData.length
      · refine Or.inl ⟨_, by rw [if_pos hlast], fun l' hl' _ => ?_⟩
        obtain rfl : l' = l := by omega
        exact henough
      · rw [if_neg hlast]
        rcases ih (l + 1) (carried m l m) (by omega) (by omega) with
          ⟨out, hrun, hnone⟩ | ⟨l', hle, hlen, hrun, hfound, hbelow⟩
        · refine Or.inl ⟨out, hrun, fun l' hl' hlen => ?_⟩
          rcases Nat.eq_or_lt_of_le hl' with rfl | hlt
          · exact henough
          · exact hnone l' hlt hlen
        · refine Or.inr ⟨l', by omega, hlen, hrun, hfound, fun k hk hlt => ?_⟩
          rcases Nat.eq_or_lt_of_le hk with rfl | hgt
          · exact henough
          · exact hbelow k hgt hlt

/-- More coins: only the last level is looked at. -/
theorem seekLevels_many (hmany : 2 < m) (rounds : Nat) (hrounds : m < rounds) (levels l : Nat)
    (vecInputIndex : List Nat) (hl : m ≤ l) (hlen : l ≤ vData.length) (hlevels : l + levels = vData.length + 1) :
    (∃ out, seekLevels nReq m vData rounds levels l vecInputIndex = some (false, out) ∧
      ¬ LevelEnough nReq m vData vData.length) ∨
    seekLevels nReq m vData rounds levels l vecInputIndex = some (true, firstIndexes m vData.length) ∧
      LevelEnough nReq m vData vData.length := by
  induction levels generalizing l vecInputIndex with
  | zero => omega
  | succ levels ih =>
    rw [seekLevels, if_neg (by omega), coarseSeek_first m l nReq vData (by omega) rounds (by omega)]
    simp only [Option.bind_eq_bind, Option.bind_some, Bool.false_eq_true, if_false, not_false_eq_true, true_and]
    rcases Nat.lt_or_ge l vData.length with hlt | hge
    · rw [if_pos hlt]
      exact ih (l + 1) (firstIndexes m l) (by omega) hlt (by omega)
    · obtain rfl : l = vData.length := by omega
      obtain rfl : levels = 0 := by omega
      rw [if_neg (Nat.lt_irrefl _), fineSeek_first m _ nReq vData hl (by omega) rounds hrounds]
      by_cases henough : nReq ≤ totalAt vData (firstIndexes m vData.length)
      · refine Or.inr ⟨?_, henough⟩
        rw [if_pos henough]
        rfl
      · refine Or.inl ⟨carried m vData.length m, ?_, henough⟩
        rw [if_neg henough, Option.bind_some]
        simp only [Bool.false_eq_true, if_false, seekLevels, ite_self]

end Levels

section Totals

variable (m : Nat) (vData : List Int64)

/-- The values by ascending size, with products within `int64`. -/
structure SortedCoins : Prop where
  sorted : vData.Pairwise (· ≤ ·)
  fits : ∀ nValue ∈ vData, -2 ^ 63 ≤ nValue.toInt * m ∧ nValue.toInt * m < 2 ^ 63
  int : m < 2 ^ 31

/-- `m` positions of different coins. -/
structure Selects (picked : List Nat) : Prop where
  nodup : picked.Nodup
  length : picked.length = m
  inRange : ∀ i ∈ picked, i < vData.length

def valueAt (i : Nat) : Int := (vData.getD i 0).toInt

/-- The exact total of the coins at the positions. -/
def pickedTotal (picked : List Nat) : Int := (picked.map (valueAt vData)).sum

variable {m vData}

theorem SortedCoins.mono (h : SortedCoins m vData) {i j : Nat} (hij : i ≤ j) (hj : j < vData.length) :
    valueAt vData i ≤ valueAt vData j := by
  rcases Nat.eq_or_lt_of_le hij with rfl | hlt
  · exact le_rfl
  · have hi : i < vData.length := by omega
    have hle := List.pairwise_iff_getElem.mp h.sorted i j hi hj hlt
    rw [valueAt, valueAt, List.getD_eq_getElem?_getD, List.getD_eq_getElem?_getD, List.getElem?_eq_getElem hi,
      List.getElem?_eq_getElem hj]
    exact Int64.le_iff_toInt_le.mp hle

theorem SortedCoins.product (h : SortedCoins m vData) {i : Nat} (hi : i < vData.length) :
    -2 ^ 63 ≤ valueAt vData i * m ∧ valueAt vData i * m < 2 ^ 63 := by
  rw [valueAt, List.getD_eq_getElem?_getD, List.getElem?_eq_getElem hi]
  exact h.fits _ (List.getElem_mem hi)

/-- The total of at most `m` coins does not wrap. -/
theorem totalAt_toInt (h : SortedCoins m vData) (hm : 0 < m) (picked : List Nat) (hlen : picked.length ≤ m)
    (hin : ∀ i ∈ picked, i < vData.length) : (totalAt vData picked).toInt = pickedTotal vData picked := by
  have hbound : ∀ picked : List Nat, (∀ i ∈ picked, i < vData.length) →
      -(picked.length * 2 ^ 63 : Int) ≤ pickedTotal vData picked * m ∧
        pickedTotal vData picked * m ≤ picked.length * (2 ^ 63 - 1) := by
    intro picked hin
    induction picked with
    | nil => simp [pickedTotal]
    | cons i picked ih =>
      rw [List.forall_mem_cons] at hin
      have hrest := ih hin.2
      have hfirst := h.product hin.1
      simp only [pickedTotal, List.map_cons, List.sum_cons, List.length_cons, Int.add_mul] at hrest ⊢
      omega
  induction picked using List.reverseRecOn with
  | nil => rfl
  | append_singleton picked i ih =>
    rw [List.length_append, List.length_singleton] at hlen
    have hsum : pickedTotal vData (picked ++ [i]) = pickedTotal vData picked + valueAt vData i := by
      rw [pickedTotal, List.map_append, List.sum_append, List.map_singleton, List.sum_singleton, pickedTotal]
    have hstep : totalAt vData (picked ++ [i]) = totalAt vData picked + vData.getD i 0 := by
      rw [totalAt, List.foldl_append, List.foldl_cons, List.foldl_nil, totalAt]
    have hall := hbound (picked ++ [i]) hin
    rw [List.length_append, List.length_singleton] at hall
    have hmPos : (0 : Int) < m := by exact_mod_cast hm
    have hlow : -2 ^ 63 ≤ pickedTotal vData (picked ++ [i]) := by
      by_contra hless
      have hmul : pickedTotal vData (picked ++ [i]) * m ≤ (-2 ^ 63 - 1) * m :=
        Int.mul_le_mul_of_nonneg_right (by omega) hmPos.le
      omega
    have hhigh : pickedTotal vData (picked ++ [i]) < 2 ^ 63 := by
      by_contra hmore
      have hmul : 2 ^ 63 * (m : Int) ≤ pickedTotal vData (picked ++ [i]) * m :=
        Int.mul_le_mul_of_nonneg_right (by omega) hmPos.le
      omega
    rw [hstep, Int64.toInt_add, ih (by omega) fun j hj => hin j (List.mem_append_left _ hj), hsum]
    rw [hsum] at hlow hhigh
    exact Int.bmod_eq_of_le (by simpa [valueAt] using hlow) (by simpa [valueAt] using hhigh)

theorem firstIndexes_selects (vData : List Int64) (l : Nat) (hl : m ≤ l) (hlen : l ≤ vData.length) :
    Selects m vData (firstIndexes m l) := by
  constructor
  · apply List.Nodup.map_on _ List.nodup_range
    intro i hi j hj heq
    rw [List.mem_range] at hi hj
    omega
  · rw [firstIndexes, List.length_map, List.length_range]
  · intro i hi
    obtain ⟨j, hj, rfl⟩ := List.mem_map.mp hi
    rw [List.mem_range] at hj
    omega

theorem mem_firstIndexes_lt (l i : Nat) (hl : m ≤ l) (h : i ∈ firstIndexes m l) : i < l := by
  obtain ⟨j, hj, rfl⟩ := List.mem_map.mp h
  rw [List.mem_range] at hj
  omega

/-- The largest coins below a level have the largest total. -/
theorem sum_le_firstIndexes (h : SortedCoins m vData) (k l : Nat) (S : Finset Nat) (hS : ∀ i ∈ S, i < l)
    (hcard : S.card = k) (hlen : l ≤ vData.length) :
    ∑ i ∈ S, valueAt vData i ≤ ((List.range k).map fun i => valueAt vData (l - i - 1)).sum := by
  induction k generalizing l S with
  | zero =>
    rw [Finset.card_eq_zero.mp hcard, Finset.sum_empty, List.range_zero, List.map_nil, List.sum_nil]
  | succ k ih =>
    have hne : S.Nonempty := Finset.card_pos.mp (by omega)
    have hmax := S.max'_mem hne
    have hlt := hS _ hmax
    have hbelow : ∀ i ∈ S.erase (S.max' hne), i < l - 1 := by
      intro i hi
      have hi' := S.lt_max'_of_mem_erase_max' hne hi
      omega
    have hrest := ih (l - 1) (S.erase (S.max' hne)) hbelow
      (by rw [Finset.card_erase_of_mem hmax, hcard, Nat.add_sub_cancel]) (by omega)
    have htop : valueAt vData (S.max' hne) ≤ valueAt vData (l - 1) := h.mono (by omega) (by omega)
    rw [← Finset.add_sum_erase S _ hmax, List.range_succ_eq_map, List.map_cons, List.sum_cons, List.map_map]
    have hshift : ((fun i => valueAt vData (l - i - 1)) ∘ Nat.succ) = fun i => valueAt vData (l - 1 - i - 1) := by
      funext i
      have hindex : l - i.succ - 1 = l - 1 - i - 1 := by omega
      rw [Function.comp_apply, hindex]
    rw [hshift, Nat.sub_zero]
    exact add_le_add htop hrest

/-- No selection below a level has more than its largest coins. -/
theorem pickedTotal_le (h : SortedCoins m vData) (l : Nat) (hlen : l ≤ vData.length) (picked : List Nat)
    (hpicked : Selects m vData picked) (hbelow : ∀ i ∈ picked, i < l) :
    pickedTotal vData picked ≤ pickedTotal vData (firstIndexes m l) := by
  have hcard : picked.toFinset.card = m := by
    rw [List.toFinset_card_of_nodup hpicked.nodup, hpicked.length]
  have hle := sum_le_firstIndexes h m l picked.toFinset (fun i hi => hbelow i (List.mem_toFinset.mp hi)) hcard hlen
  rw [List.sum_toFinset _ hpicked.nodup] at hle
  refine hle.trans (le_of_eq ?_)
  rw [pickedTotal, firstIndexes, List.map_map]
  rfl

theorem levelEnough_iff (h : SortedCoins m vData) (hm : 0 < m) (nReq : Int64) (l : Nat) (hl : m ≤ l)
    (hlen : l ≤ vData.length) :
    LevelEnough nReq m vData l ↔ nReq.toInt ≤ pickedTotal vData (firstIndexes m l) := by
  have hselects := firstIndexes_selects (m := m) vData l hl hlen
  rw [LevelEnough, Int64.le_iff_toInt_le,
    totalAt_toInt h hm (firstIndexes m l) hselects.length.le hselects.inRange]

/-- A level whose largest coin is too small is not enough. -/
theorem not_levelEnough (h : SortedCoins m vData) (hm : 0 < m) (nReq : Int64) (l : Nat) (hl : m ≤ l)
    (hlen : l ≤ vData.length) (hsmall : vData.getD (l - 1) 0 * Int64.ofNat m < nReq) :
    ¬ LevelEnough nReq m vData l := by
  rw [levelEnough_iff h hm nReq l hl hlen, not_le]
  have hint := h.int
  have hproduct := h.product (i := l - 1) (by omega)
  have hofNat : (Int64.ofNat m).toInt = m := Int64.toInt_ofNat_of_lt (by omega)
  rw [Int64.lt_iff_toInt_lt, Int64.toInt_mul, hofNat,
    Int.bmod_eq_of_le (by simpa [valueAt] using hproduct.1) (by simpa [valueAt] using hproduct.2)] at hsmall
  refine lt_of_le_of_lt ?_ hsmall
  have hall : ∀ x ∈ (firstIndexes m l).map (valueAt vData), x ≤ valueAt vData (l - 1) := by
    intro x hx
    obtain ⟨i, hi, rfl⟩ := List.mem_map.mp hx
    have hlt := mem_firstIndexes_lt l i hl hi
    exact h.mono (by omega) (by omega)
  have hsum := List.sum_le_card_nsmul _ _ hall
  rw [List.length_map, (firstIndexes_selects vData l hl hlen).length] at hsum
  refine hsum.trans (le_of_eq ?_)
  simp [valueAt, mul_comm]

end Totals

section Runs

variable {nReq : Int64} {m : Nat} {vData : List Int64}

theorem startLevel_none (h : SortedCoins m vData) (hm : 0 < m) (hnone : startLevel nReq m vData = none) (l : Nat)
    (hl : m ≤ l) (hlen : l ≤ vData.length) : ¬ LevelEnough nReq m vData l := by
  have hskip := List.find?_eq_none.mp hnone l (List.mem_range.mpr (by omega))
  apply not_levelEnough h hm nReq l hl hlen
  by_contra hsmall
  exact hskip (decide_eq_true ⟨hl, hsmall⟩)

theorem startLevel_some (h : SortedCoins m vData) (hm : 0 < m) {startL : Nat}
    (hstart : startLevel nReq m vData = some startL) :
    m ≤ startL ∧ startL ≤ vData.length ∧ ∀ l, m ≤ l → l < startL → ¬ LevelEnough nReq m vData l := by
  obtain ⟨hfound, hmem, hskip⟩ := List.find?_range_eq_some.mp hstart
  rw [List.mem_range] at hmem
  refine ⟨(of_decide_eq_true hfound).1, by omega, fun l hl hlt => ?_⟩
  apply not_levelEnough h hm nReq l hl (by omega)
  by_contra hsmall
  have hpassed := hskip l hlt
  rw [decide_eq_true ⟨hl, hsmall⟩] at hpassed
  exact absurd hpassed (by decide)

/-- What a search can return. -/
theorem checkCombinations_cases (nReq : Int64) (h : SortedCoins m vData) (hm : 0 < m) (hlen : m ≤ vData.length)
    (rounds : Nat)
    (hrounds : m < rounds) :
    (∃ out, checkCombinations nReq m vData rounds = some (false, out) ∧
      ¬ LevelEnough nReq m vData vData.length) ∨
    ∃ l, m ≤ l ∧ l ≤ vData.length ∧ checkCombinations nReq m vData rounds = some (true, firstIndexes m l) ∧
      LevelEnough nReq m vData l ∧
      (m ≤ 2 → ∀ k, m ≤ k → k < l → ¬ LevelEnough nReq m vData k) ∧ (2 < m → l = vData.length) := by
  rw [checkCombinations, if_neg (by omega)]
  cases hstart : startLevel nReq m vData with
  | none => exact Or.inl ⟨_, rfl, startLevel_none h hm hstart _ hlen le_rfl⟩
  | some startL =>
    obtain ⟨hle, hstartLen, hskipped⟩ := startLevel_some h hm hstart
    have hlevels : startL + (vData.length + 1 - startL) = vData.length + 1 := by omega
    dsimp only
    rcases Nat.lt_or_ge 2 m with hmany | hfew
    · rcases seekLevels_many nReq m vData hmany rounds hrounds _ startL (List.replicate m 0) hle hstartLen hlevels
        with ⟨out, hrun, hnot⟩ | ⟨hrun, henough⟩
      · exact Or.inl ⟨out, hrun, hnot⟩
      · exact Or.inr ⟨_, hlen, le_rfl, hrun, henough, fun hfew => by omega, fun _ => rfl⟩
    · rcases seekLevels_few nReq m vData hm hfew rounds hrounds _ startL (List.replicate m 0) hle hlevels
        with ⟨out, hrun, hnone⟩ | ⟨l, hl, hlLen, hrun, henough, hbelow⟩
      · exact Or.inl ⟨out, hrun, hnone _ hstartLen le_rfl⟩
      · refine Or.inr ⟨l, by omega, hlLen, hrun, henough, fun _ k hk hlt => ?_, fun hmany => by omega⟩
        rcases Nat.lt_or_ge k startL with hbefore | hafter
        · exact hskipped k hk hbefore
        · exact hbelow k hafter hlt

/-- The search ends and decides whether `m` coins are enough. -/
theorem checkCombinations_decides (h : SortedCoins m vData) (hm : 1 ≤ m) (hlen : m ≤ vData.length) (rounds : Nat)
    (hrounds : m < rounds) :
    ∃ fFound vecInputIndex, checkCombinations nReq m vData rounds = some (fFound, vecInputIndex) ∧
      (fFound = true ↔ ∃ picked, Selects m vData picked ∧ nReq.toInt ≤ pickedTotal vData picked) ∧
      (fFound = true → Selects m vData vecInputIndex ∧ nReq.toInt ≤ pickedTotal vData vecInputIndex) := by
  rcases checkCombinations_cases nReq h hm hlen rounds hrounds with
    ⟨out, hrun, hnot⟩ | ⟨l, hl, hlLen, hrun, henough, -, -⟩
  · refine ⟨false, out, hrun, ⟨fun hfalse => absurd hfalse (by decide), ?_⟩, fun hfalse => absurd hfalse (by decide)⟩
    rintro ⟨picked, hpicked, htotal⟩
    have hmost := pickedTotal_le h vData.length le_rfl picked hpicked hpicked.inRange
    exact absurd ((levelEnough_iff h hm nReq _ hlen le_rfl).mpr (htotal.trans hmost)) hnot
  · have hselects := firstIndexes_selects (m := m) vData l hl hlLen
    have htotal := (levelEnough_iff h hm nReq l hl hlLen).mp henough
    exact ⟨true, firstIndexes m l, hrun, ⟨fun _ => ⟨_, hselects, htotal⟩, fun _ => rfl⟩,
      fun _ => ⟨hselects, htotal⟩⟩

theorem fiveCoins_sorted : SortedCoins 3 [1, 2, 2, 5, 9] := by
  have hfits : ∀ nValue ∈ [(1 : Int64), 2, 2, 5, 9], -2 ^ 63 ≤ nValue.toInt * (3 : Nat) ∧
      nValue.toInt * (3 : Nat) < 2 ^ 63 := by
    simp only [List.forall_mem_cons, List.not_mem_nil, false_imp_iff, implies_true, and_true]
    decide
  exact ⟨by decide, hfits, by decide⟩

theorem checkCombinations_decides_fiveCoins :
    SortedCoins 3 [1, 2, 2, 5, 9] ∧ ∃ fFound vecInputIndex,
      checkCombinations 12 3 [1, 2, 2, 5, 9] 4 = some (fFound, vecInputIndex) ∧
      (fFound = true ↔ ∃ picked, Selects 3 [1, 2, 2, 5, 9] picked ∧
        (12 : Int64).toInt ≤ pickedTotal [1, 2, 2, 5, 9] picked) ∧
      (fFound = true → Selects 3 [1, 2, 2, 5, 9] vecInputIndex ∧
        (12 : Int64).toInt ≤ pickedTotal [1, 2, 2, 5, 9] vecInputIndex) := by
  have hsorted := fiveCoins_sorted
  exact ⟨hsorted, checkCombinations_decides hsorted (by decide) (by decide) 4 (by decide)⟩

/-- The documented order: no `m` coins below the largest one returned have the total that was asked for. -/
def PrefersSmallCoins (nReq : Int64) (m : Nat) (vData : List Int64) (rounds : Nat) : Prop :=
  ∀ vecInputIndex, checkCombinations nReq m vData rounds = some (true, vecInputIndex) →
    ∀ largest ∈ vecInputIndex, (∀ i ∈ vecInputIndex, i ≤ largest) →
      ∀ picked, Selects m vData picked → (∀ i ∈ picked, i < largest) → pickedTotal vData picked < nReq.toInt

theorem largest_firstIndexes {l largest : Nat} (hm : 0 < m) (hl : m ≤ l) (hmem : largest ∈ firstIndexes m l)
    (hmax : ∀ i ∈ firstIndexes m l, i ≤ largest) : largest = l - 1 := by
  have hlt := mem_firstIndexes_lt l largest hl hmem
  have hge := hmax (l - 1) (List.mem_map.mpr ⟨0, List.mem_range.mpr hm, rfl⟩)
  omega

theorem sub_one_mem_firstIndexes {l : Nat} (hm : 0 < m) : l - 1 ∈ firstIndexes m l :=
  List.mem_map.mpr ⟨0, List.mem_range.mpr hm, rfl⟩

theorem Selects.le_of_below {picked : List Nat} (h : Selects m vData picked) {l : Nat} (hbelow : ∀ i ∈ picked, i < l) :
    m ≤ l := by
  have hcard : picked.toFinset.card = m := by rw [List.toFinset_card_of_nodup h.nodup, h.length]
  have hsubset : picked.toFinset ⊆ Finset.range l := fun i hi =>
    Finset.mem_range.mpr (hbelow i (List.mem_toFinset.mp hi))
  have hle := Finset.card_le_card hsubset
  rwa [hcard, Finset.card_range] at hle

/-- When the smaller coins go first. -/
theorem prefersSmallCoins_iff (h : SortedCoins m vData) (hm : 1 ≤ m) (rounds : Nat) (hrounds : m < rounds) :
    PrefersSmallCoins nReq m vData rounds ↔
      m ≤ 2 ∨ vData.length ≤ m ∨ pickedTotal vData (firstIndexes m (vData.length - 1)) < nReq.toInt := by
  rcases Nat.lt_or_ge vData.length m with hshort | hlen
  · refine iff_of_true (fun vecInputIndex hrun => ?_) (Or.inr (Or.inl hshort.le))
    rw [checkCombinations, if_pos hshort] at hrun
    exact absurd hrun (by simp)
  constructor
  · intro hprefers
    by_contra hnone
    rw [not_or, not_or, not_le, not_le, not_lt] at hnone
    obtain ⟨hmany, hmore, htotal⟩ := hnone
    have hselects := firstIndexes_selects (m := m) vData (vData.length - 1) (by omega) (by omega)
    rcases checkCombinations_cases nReq h hm hlen rounds hrounds with
      ⟨out, -, hnot⟩ | ⟨l, hl, -, hrun, -, -, hlast⟩
    · have hmost := pickedTotal_le h vData.length le_rfl _ hselects hselects.inRange
      exact hnot ((levelEnough_iff h hm nReq _ hlen le_rfl).mpr (htotal.trans hmost))
    · obtain rfl := hlast hmany
      have hless := hprefers _ hrun (vData.length - 1) (sub_one_mem_firstIndexes hm)
        (fun i hi => by have := mem_firstIndexes_lt _ i hl hi; omega) _ hselects
        fun i hi => mem_firstIndexes_lt _ i (by omega) hi
      omega
  · intro hwhen vecInputIndex hrun' largest hmem hmax picked hpicked hbelow
    rcases checkCombinations_cases nReq h hm hlen rounds hrounds with
      ⟨out, hrun, -⟩ | ⟨l, hl, hlLen, hrun, henough, hfew, hlast⟩
    · rw [hrun] at hrun'
      exact absurd hrun' (by simp)
    · rw [hrun] at hrun'
      obtain rfl : firstIndexes m l = vecInputIndex := by simpa using hrun'
      obtain rfl := largest_firstIndexes hm hl hmem hmax
      have hroom := hpicked.le_of_below hbelow
      have hmost := pickedTotal_le h (l - 1) (by omega) picked hpicked hbelow
      refine lt_of_le_of_lt hmost ?_
      rcases hwhen with hpair | hall | htotal
      · have hnot := hfew hpair (l - 1) hroom (by omega)
        rwa [levelEnough_iff h hm nReq _ hroom (by omega), not_le] at hnot
      · omega
      · rcases Nat.lt_or_ge 2 m with hmany | hpair
        · obtain rfl := hlast hmany
          exact htotal
        · have hnot := hfew hpair (l - 1) hroom (by omega)
          rwa [levelEnough_iff h hm nReq _ hroom (by omega), not_le] at hnot

theorem prefersSmallCoins_iff_fiveCoins :
    SortedCoins 3 [1, 2, 2, 5, 9] ∧ (PrefersSmallCoins 12 3 [1, 2, 2, 5, 9] 4 ↔
      3 ≤ 2 ∨ [(1 : Int64), 2, 2, 5, 9].length ≤ 3 ∨
        pickedTotal [1, 2, 2, 5, 9] (firstIndexes 3 ([(1 : Int64), 2, 2, 5, 9].length - 1)) < (12 : Int64).toInt) := by
  have hsorted := fiveCoins_sorted
  exact ⟨hsorted, prefersSmallCoins_iff hsorted (by decide) 4 (by decide)⟩

/-- Four equal coins of which three are enough: the last coin is taken and the first one left. -/
theorem equalCoins_largestFirst :
    SortedCoins 3 [1, 1, 1, 1] ∧ checkCombinations 3 3 [1, 1, 1, 1] 4 = some (true, [3, 2, 1]) ∧
      ¬ PrefersSmallCoins 3 3 [1, 1, 1, 1] 4 := by
  have hrun : checkCombinations 3 3 [1, 1, 1, 1] 4 = some (true, [3, 2, 1]) := by decide
  have hfits : ∀ nValue ∈ [(1 : Int64), 1, 1, 1], -2 ^ 63 ≤ nValue.toInt * (3 : Nat) ∧
      nValue.toInt * (3 : Nat) < 2 ^ 63 := by
    simp only [List.forall_mem_cons, List.not_mem_nil, false_imp_iff, implies_true, and_true]
    decide
  refine ⟨⟨by decide, hfits, by decide⟩, hrun, fun hprefers => ?_⟩
  have hless := hprefers [3, 2, 1] hrun 3 (by decide) (by decide) [2, 1, 0]
    ⟨by decide, by decide, by decide⟩ (by decide)
  exact absurd hless (by decide)

end Runs

end AliasWallet
