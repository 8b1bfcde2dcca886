import Mathlib.Data.List.Nodup
import Mathlib.Logic.Function.Basic
import Mathlib.Tactic.Ring

/-!
# Locked pages of memory (`allocators.h`)

Locks of the operating system do not stack, so `LockedPageManagerBase` counts for each page how often it was locked. The
ranges are lists of addresses, of which two can touch the same page.
-/

namespace AliasWallet

/-- The count of a page in `histogram` and whether the calls to the locker have left it locked. -/
structure PageLock where
  count : Option Int32
  locked : Bool
  deriving DecidableEq

/-- The pages by their base address. -/
abbrev PageLocks := UInt64 → PageLock

/-- The loop over the pages from `page` on; none where it does not end within the rounds. -/
def pageLoop {S : Type} (page_size end_page : UInt64) (body : UInt64 → S → Option S) : Nat → UInt64 → S → Option S
  | 0, _, _ => none
  | rounds + 1, page, s =>
    if page ≤ end_page then (body page s).bind (pageLoop page_size end_page body rounds (page + page_size)) else some s

/-- A change of one page; none where an assertion fails. -/
def atPage (change : PageLock → Option PageLock) (page : UInt64) (s : PageLocks) : Option PageLocks :=
  (change (s page)).map (Function.update s page)

def PageLock.lock (lock : PageLock) : Option PageLock :=
  match lock.count with
  | none => some ⟨some 1, true⟩
  | some count => some ⟨some (count + 1), lock.locked⟩

def PageLock.unlock (lock : PageLock) : Option PageLock :=
  match lock.count with
  | none => none
  | some count => if count - 1 = 0 then some ⟨none, false⟩ else some ⟨some (count - 1), lock.locked⟩

/-- Some bytes in memory. -/
structure MemoryRange where
  p : UInt64
  size : UInt64
  deriving DecidableEq

/-- The loop of `LockRange` and `UnlockRange`, in more rounds than there are pages. -/
def changeRange (page_size : UInt64) (change : PageLock → Option PageLock) (range : MemoryRange) (s : PageLocks) :
    Option PageLocks :=
  let page_mask := ~~~(page_size - 1)
  if range.size = 0 then some s
  else
    let start_page := range.p &&& page_mask
    let end_page := (range.p + range.size - 1) &&& page_mask
    pageLoop page_size end_page (atPage change) (2 ^ 64) start_page s

def lockRange (page_size : UInt64) : MemoryRange → PageLocks → Option PageLocks := changeRange page_size PageLock.lock

def unlockRange (page_size : UInt64) : MemoryRange → PageLocks → Option PageLocks :=
  changeRange page_size PageLock.unlock

section Loop

variable {S : Type} {k : Nat}

/-- The pages that a loop visits. -/
def pagesFrom (k first n : Nat) : List UInt64 := (List.range n).map fun i => UInt64.ofNat ((first + i) * 2 ^ k)

theorem pagesFrom_succ (first n : Nat) :
    pagesFrom k first (n + 1) = UInt64.ofNat (first * 2 ^ k) :: pagesFrom k (first + 1) n := by
  rw [pagesFrom, List.range_succ_eq_map, List.map_cons, List.map_map, Nat.add_zero, pagesFrom]
  congr 2
  funext i
  rw [Function.comp_apply, Nat.succ_eq_add_one, show first + (i + 1) = first + 1 + i by omega]

theorem toNat_page {i : Nat} (h : i * 2 ^ k < 2 ^ 64) : (UInt64.ofNat (i * 2 ^ k)).toNat = i * 2 ^ k :=
  UInt64.toNat_ofNat_of_lt' h

/-- The loop ends, as there is a page behind the last one. -/
theorem pageLoop_eq (body : UInt64 → S → Option S) (n : Nat) {first rounds : Nat} (hrounds : n < rounds)
    (hend : (first + n) * 2 ^ k < 2 ^ 64) (hfirst : 0 < first + n) (s : S) :
    pageLoop (UInt64.ofNat (2 ^ k)) (UInt64.ofNat ((first + n - 1) * 2 ^ k)) body rounds
      (UInt64.ofNat (first * 2 ^ k)) s = (pagesFrom k first n).foldlM (fun s page => body page s) s := by
  have hpow : 0 < 2 ^ k := Nat.two_pow_pos k
  have hlast : (first + n - 1) * 2 ^ k < 2 ^ 64 :=
    lt_of_le_of_lt (Nat.mul_le_mul_right _ (Nat.sub_le _ _)) hend
  induction n generalizing first rounds s with
  | zero =>
    obtain ⟨rounds, rfl⟩ := Nat.exists_eq_succ_of_ne_zero (Nat.ne_of_gt hrounds)
    have hbehind : ¬ UInt64.ofNat (first * 2 ^ k) ≤ UInt64.ofNat ((first + 0 - 1) * 2 ^ k) := by
      have hpage : first * 2 ^ k < 2 ^ 64 := hend
      rw [UInt64.le_iff_toNat_le, toNat_page hpage, toNat_page hlast, Nat.not_le]
      exact Nat.mul_lt_mul_of_pos_right (by omega) hpow
    rw [pageLoop, if_neg hbehind]
    rfl
  | succ n ih =>
    obtain ⟨rounds, rfl⟩ := Nat.exists_eq_succ_of_ne_zero (Nat.ne_of_gt (Nat.zero_lt_of_lt hrounds))
    have hpage : first * 2 ^ k < 2 ^ 64 := lt_of_le_of_lt (Nat.mul_le_mul_right _ (Nat.le_add_right _ _)) hend
    have hinside : UInt64.ofNat (first * 2 ^ k) ≤ UInt64.ofNat ((first + (n + 1) - 1) * 2 ^ k) := by
      rw [UInt64.le_iff_toNat_le, toNat_page hpage, toNat_page hlast]
      exact Nat.mul_le_mul_right _ (by omega)
    have hnext : UInt64.ofNat (first * 2 ^ k) + UInt64.ofNat (2 ^ k) = UInt64.ofNat ((first + 1) * 2 ^ k) := by
      rw [← UInt64.ofNat_add, Nat.add_mul, Nat.one_mul]
    have hshift : first + 1 + n = first + (n + 1) := by omega
    rw [pageLoop, if_pos hinside, hnext, pagesFrom_succ, List.foldlM_cons, ← hshift]
    congr 1
    funext s'
    exact ih (Nat.lt_of_succ_lt_succ hrounds) (hshift ▸ hend) (by omega) s' (hshift ▸ hlast)

/-- Changes of different pages do not meet. -/
theorem foldlM_atPage {change : PageLock → Option PageLock} (changed : PageLock → PageLock) {pages : List UInt64}
    (hnodup : pages.Nodup) {s : PageLocks} (hchange : ∀ page ∈ pages, change (s page) = some (changed (s page))) :
    pages.foldlM (fun s page => atPage change page s) s =
      some fun page => if page ∈ pages then changed (s page) else s page := by
  induction pages generalizing s with
  | nil => simp
  | cons first pages ih =>
    rw [List.nodup_cons] at hnodup
    have hother : ∀ page ∈ pages, page ≠ first := fun page hpage heq => hnodup.1 (heq ▸ hpage)
    rw [List.foldlM_cons, atPage, hchange first List.mem_cons_self, Option.map_some, Option.bind_eq_bind,
      Option.bind_some, ih hnodup.2]
    · congr 1
      funext page
      by_cases hfirst : page = first
      · rw [hfirst, Function.update_self, if_neg hnodup.1, if_pos List.mem_cons_self]
      · rw [Function.update_of_ne hfirst]
        simp only [List.mem_cons, hfirst, false_or]
    · intro page hpage
      rw [Function.update_of_ne (hother page hpage)]
      exact hchange page (List.mem_cons_of_mem _ hpage)

end Loop

section Ranges

variable {k : Nat}

/-- The range lies in front of the last page. -/
def MemoryRange.Fits (page_size : Nat) (range : MemoryRange) : Prop :=
  range.p.toNat + range.size.toNat + page_size ≤ 2 ^ 64

instance (page_size : Nat) (range : MemoryRange) : Decidable (range.Fits page_size) :=
  inferInstanceAs (Decidable (_ ≤ _))

/-- A page and a range have a byte in common. -/
def MemoryRange.touches (page_size : Nat) (page : UInt64) (range : MemoryRange) : Bool :=
  decide (page_size ∣ page.toNat) && decide (max range.p.toNat page.toNat <
    min (range.p.toNat + range.size.toNat) (page.toNat + page_size))

/-- A mask of high bits rounds down. -/
theorem toNat_and_mask (hk : k < 64) (x : UInt64) :
    (x &&& ~~~(UInt64.ofNat (2 ^ k) - 1)).toNat = x.toNat / 2 ^ k * 2 ^ k := by
  have hpow : 2 ^ k < 2 ^ 64 := Nat.pow_lt_pow_right (by decide) hk
  have hsize : (UInt64.ofNat (2 ^ k)).toNat = 2 ^ k := UInt64.toNat_ofNat_of_lt' hpow
  have hone : 1 ≤ UInt64.ofNat (2 ^ k) := by
    rw [UInt64.le_iff_toNat_le, hsize]
    exact Nat.two_pow_pos k
  have hmask : (~~~(UInt64.ofNat (2 ^ k) - 1)).toNat = 2 ^ 64 - (2 ^ k - 1 + 1) := by
    rw [UInt64.toNat_not, UInt64.toNat_sub_of_le _ _ hone, hsize, UInt64.toNat_one, UInt64.size]
    omega
  rw [UInt64.toNat_and, hmask, ← Nat.shiftRight_eq_div_pow, ← Nat.shiftLeft_eq]
  apply Nat.eq_of_testBit_eq
  intro i
  rw [Nat.testBit_and, Nat.testBit_two_pow_sub_succ (by omega), Nat.testBit_two_pow_sub_one, Nat.testBit_shiftLeft,
    Nat.testBit_shiftRight]
  by_cases hi : k ≤ i
  · rw [decide_eq_true hi, decide_eq_false (Nat.not_lt.mpr hi), Bool.not_false, Bool.and_true, Bool.true_and,
      Nat.add_sub_cancel' hi]
    by_cases hlt : i < 64
    · rw [decide_eq_true hlt, Bool.and_true]
    · rw [decide_eq_false hlt, Bool.and_false, Nat.testBit_lt_two_pow]
      exact lt_of_lt_of_le x.toNat_lt (Nat.pow_le_pow_right (by decide) (Nat.not_lt.mp hlt))
  · rw [decide_eq_false hi, decide_eq_true (Nat.not_le.mp hi), Bool.not_true, Bool.and_false, Bool.and_false,
      Bool.false_and]

theorem pagesFrom_nodup {first n : Nat} (hend : (first + n) * 2 ^ k < 2 ^ 64) : (pagesFrom k first n).Nodup := by
  rw [pagesFrom]
  apply List.Nodup.map_on _ List.nodup_range
  intro i hi j hj heq
  rw [List.mem_range] at hi hj
  have hbound : ∀ m < n, (first + m) * 2 ^ k < 2 ^ 64 := fun m hm =>
    lt_of_le_of_lt (Nat.mul_le_mul_right _ (by omega)) hend
  have hnat := congrArg UInt64.toNat heq
  rw [toNat_page (hbound i hi), toNat_page (hbound j hj)] at hnat
  have hsum := Nat.eq_of_mul_eq_mul_right (Nat.two_pow_pos k) hnat
  omega

/-- The pages from that of the first byte to that of the last one are those that the range touches. -/
theorem mem_pagesFrom {range : MemoryRange} (hfits : range.Fits (2 ^ k)) (hsize : 0 < range.size.toNat)
    (page : UInt64) :
    page ∈ pagesFrom k (range.p.toNat / 2 ^ k)
      ((range.p.toNat + range.size.toNat - 1) / 2 ^ k - range.p.toNat / 2 ^ k + 1) ↔
      range.touches (2 ^ k) page = true := by
  have hpow : 0 < 2 ^ k := Nat.two_pow_pos k
  have hle : range.p.toNat / 2 ^ k ≤ (range.p.toNat + range.size.toNat - 1) / 2 ^ k := Nat.div_le_div_right (by omega)
  have hlast := Nat.div_mul_le_self (range.p.toNat + range.size.toNat - 1) (2 ^ k)
  rw [MemoryRange.Fits] at hfits
  rw [MemoryRange.touches, Bool.and_eq_true, decide_eq_true_iff, decide_eq_true_iff, max_lt_iff, lt_min_iff, lt_min_iff,
    pagesFrom, List.mem_map]
  constructor
  · rintro ⟨i, hi, rfl⟩
    rw [List.mem_range] at hi
    have hindex := Nat.mul_le_mul_right (2 ^ k) (show range.p.toNat / 2 ^ k + i ≤
      (range.p.toNat + range.size.toNat - 1) / 2 ^ k by omega)
    have hfirst : range.p.toNat < (range.p.toNat / 2 ^ k + i) * 2 ^ k + 2 ^ k := by
      rw [← Nat.succ_mul, ← Nat.div_lt_iff_lt_mul hpow]
      exact Nat.lt_succ_of_le (Nat.le_add_right _ _)
    rw [toNat_page (by omega)]
    exact ⟨⟨_, Nat.mul_comm _ _⟩, ⟨by omega, by omega⟩, by omega, by omega⟩
  · rintro ⟨⟨i, hi⟩, ⟨-, hfirst⟩, hbehind, -⟩
    rw [Nat.mul_comm] at hi
    have hlow : range.p.toNat / 2 ^ k ≤ i := by
      rw [← Nat.lt_succ_iff, Nat.div_lt_iff_lt_mul hpow, Nat.succ_mul, ← hi]
      exact hfirst
    have hhigh : i ≤ (range.p.toNat + range.size.toNat - 1) / 2 ^ k := by
      rw [Nat.le_div_iff_mul_le hpow, ← hi]
      omega
    refine ⟨i - range.p.toNat / 2 ^ k, List.mem_range.mpr (by omega), ?_⟩
    rw [Nat.add_sub_cancel' hlow, ← hi, UInt64.ofNat_toNat]

/-- A loop over a range changes the pages that the range touches, once each. -/
theorem changeRange_eq (hk : k < 64) {range : MemoryRange} (hfits : range.Fits (2 ^ k))
    (change : PageLock → Option PageLock) (changed : PageLock → PageLock) {s : PageLocks}
    (hchange : ∀ page, range.touches (2 ^ k) page = true → change (s page) = some (changed (s page))) :
    changeRange (UInt64.ofNat (2 ^ k)) change range s =
      some fun page => if range.touches (2 ^ k) page then changed (s page) else s page := by
  rw [changeRange]
  dsimp only
  by_cases hsize : range.size = 0
  · rw [if_pos hsize]
    congr 1
    funext page
    have hnone : range.touches (2 ^ k) page = false := by
      rw [MemoryRange.touches, hsize, UInt64.toNat_zero, Bool.and_eq_false_iff, decide_eq_false_iff_not,
        decide_eq_false_iff_not]
      omega
    rw [hnone]
    rfl
  rw [if_neg hsize]
  have hpos : 0 < range.size.toNat := Nat.pos_of_ne_zero fun hzero => hsize (UInt64.toNat_inj.mp hzero)
  have hpow : 0 < 2 ^ k := Nat.two_pow_pos k
  have hpages := mem_pagesFrom hfits hpos
  rw [MemoryRange.Fits] at hfits
  have hlast : (range.p + range.size - 1).toNat = range.p.toNat + range.size.toNat - 1 := by
    have hsum : (range.p + range.size).toNat = range.p.toNat + range.size.toNat := by
      rw [UInt64.toNat_add, Nat.mod_eq_of_lt (by omega)]
    rw [UInt64.toNat_sub_of_le, hsum, UInt64.toNat_one]
    rw [UInt64.le_iff_toNat_le, hsum, UInt64.toNat_one]
    omega
  have hmasked : ∀ x : UInt64, x &&& ~~~(UInt64.ofNat (2 ^ k) - 1) = UInt64.ofNat (x.toNat / 2 ^ k * 2 ^ k) := by
    intro x
    rw [← toNat_and_mask hk, UInt64.ofNat_toNat]
  rw [hmasked, hmasked, hlast]
  have hle : range.p.toNat / 2 ^ k ≤ (range.p.toNat + range.size.toNat - 1) / 2 ^ k := Nat.div_le_div_right (by omega)
  have hfloor := Nat.div_mul_le_self (range.p.toNat + range.size.toNat - 1) (2 ^ k)
  generalize range.p.toNat / 2 ^ k = first at hpages hle ⊢
  generalize (range.p.toNat + range.size.toNat - 1) / 2 ^ k = last at hpages hle hfloor ⊢
  generalize hn : last - first + 1 = n at hpages
  have hbehind : (first + n) * 2 ^ k < 2 ^ 64 := by
    rw [show first + n = last + 1 by omega, Nat.succ_mul]
    omega
  have hrounds : n < 2 ^ 64 :=
    lt_of_le_of_lt ((Nat.le_add_left n _).trans (Nat.le_mul_of_pos_right _ hpow)) hbehind
  have hloop := pageLoop_eq (atPage change) n hrounds hbehind (by omega) s
  rw [show first + n - 1 = last by omega] at hloop
  rw [hloop, foldlM_atPage changed (pagesFrom_nodup hbehind) fun page hpage => hchange page ((hpages page).mp hpage)]
  congr 1
  funext page
  simp only [hpages]

end Ranges

section Runs

variable {k : Nat}

inductive MemoryCall
  | lockRange (range : MemoryRange)
  | unlockRange (range : MemoryRange)

def MemoryCall.run (page_size : UInt64) (s : PageLocks) : MemoryCall → Option PageLocks
  | .lockRange range => AliasWallet.lockRange page_size range s
  | .unlockRange range => AliasWallet.unlockRange page_size range s

/-- The ranges that are locked after a call. -/
def MemoryCall.live (ranges : List MemoryRange) : MemoryCall → List MemoryRange
  | .lockRange range => range :: ranges
  | .unlockRange range => ranges.erase range

/-- Only locked ranges are unlocked, the last page is not used, and the counters hold. -/
def MemoryCall.Paired (page_size : Nat) : List MemoryRange → List MemoryCall → Prop
  | _, [] => True
  | ranges, .lockRange range :: calls => range.Fits page_size ∧ ranges.length + 1 < 2 ^ 31 ∧
      MemoryCall.Paired page_size (range :: ranges) calls
  | ranges, .unlockRange range :: calls => range ∈ ranges ∧ MemoryCall.Paired page_size (ranges.erase range) calls

/-- The entry of a page that was locked so often. -/
def PageLock.ofCount (n : Nat) : PageLock := if n = 0 then ⟨none, false⟩ else ⟨some (Int32.ofNat n), true⟩

theorem lock_ofCount (n : Nat) : (PageLock.ofCount n).lock = some (PageLock.ofCount (n + 1)) := by
  rw [PageLock.ofCount, PageLock.ofCount, if_neg (Nat.succ_ne_zero n)]
  by_cases hn : n = 0
  · rw [if_pos hn, hn]
    rfl
  · rw [if_neg hn, Int32.ofNat_add]
    rfl

theorem unlock_ofCount {n : Nat} (h : n + 1 < 2 ^ 31) :
    (PageLock.ofCount (n + 1)).unlock = some (PageLock.ofCount n) := by
  have hless : Int32.ofNat (n + 1) - 1 = Int32.ofNat n := by
    rw [Int32.ofNat_add]
    exact Int32.add_sub_cancel _ _
  have hzero : Int32.ofNat n = 0 ↔ n = 0 := by
    rw [← Int32.toInt_inj, Int32.toInt_ofNat_of_lt (by omega), Int32.toInt_zero]
    omega
  rw [PageLock.ofCount, if_neg (Nat.succ_ne_zero n), PageLock.unlock]
  dsimp only
  rw [hless, PageLock.ofCount]
  by_cases hn : n = 0
  · rw [if_pos (hzero.mpr hn), if_pos hn]
  · rw [if_neg (mt hzero.mp hn), if_neg hn]

/-- Every page counts the ranges that touch it. -/
def Counts (k : Nat) (s : PageLocks) (ranges : List MemoryRange) : Prop :=
  ∀ page, s page = PageLock.ofCount (ranges.countP (MemoryRange.touches (2 ^ k) page))

theorem lockRange_counts (hk : k < 64) {s : PageLocks} {ranges : List MemoryRange} (h : Counts k s ranges)
    {range : MemoryRange} (hfits : range.Fits (2 ^ k)) :
    ∃ s', lockRange (UInt64.ofNat (2 ^ k)) range s = some s' ∧ Counts k s' (range :: ranges) := by
  have hchange := changeRange_eq hk hfits PageLock.lock (s := s)
    (fun lock => lock.lock.getD lock) (by
      intro page _
      rw [h page, lock_ofCount]
      rfl)
  refine ⟨_, hchange, ?_⟩
  intro page
  dsimp only
  rw [List.countP_cons, h page, lock_ofCount]
  split_ifs
  · rfl
  · rfl

theorem unlockRange_counts (hk : k < 64) {s : PageLocks} {ranges : List MemoryRange} (h : Counts k s ranges)
    {range : MemoryRange} (hfits : range.Fits (2 ^ k)) (hmem : range ∈ ranges) (hlen : ranges.length < 2 ^ 31) :
    ∃ s', unlockRange (UInt64.ofNat (2 ^ k)) range s = some s' ∧ Counts k s' (ranges.erase range) := by
  have hcount : ∀ page, s page = PageLock.ofCount ((ranges.erase range).countP (MemoryRange.touches (2 ^ k) page) +
      if range.touches (2 ^ k) page = true then 1 else 0) := by
    intro page
    rw [h page, (List.perm_cons_erase hmem).countP_eq, List.countP_cons]
  have hunlock : ∀ page, range.touches (2 ^ k) page = true →
      (s page).unlock = some (PageLock.ofCount ((ranges.erase range).countP (MemoryRange.touches (2 ^ k) page))) := by
    intro page htouches
    rw [hcount page, if_pos htouches]
    apply unlock_ofCount
    have hbound := List.countP_le_length (p := MemoryRange.touches (2 ^ k) page) (l := ranges)
    rw [(List.perm_cons_erase hmem).countP_eq, List.countP_cons, if_pos htouches] at hbound
    omega
  have hchange := changeRange_eq hk hfits PageLock.unlock (s := s)
    (fun lock => lock.unlock.getD lock) (by
      intro page htouches
      rw [hunlock page htouches]
      rfl)
  refine ⟨_, hchange, ?_⟩
  intro page
  dsimp only
  split_ifs with htouches
  · rw [hunlock page htouches]
    rfl
  · rw [hcount page, if_neg htouches]
    rfl

/-- Over every sequence of calls in which only locked ranges are unlocked, no assertion fails, every loop ends, and each
page is locked as long as a locked range has a byte on it, and counts these ranges. -/
theorem lockedPages_run (hk : k < 64) {calls : List MemoryCall} (h : MemoryCall.Paired (2 ^ k) [] calls) :
    ∃ s, calls.foldlM (MemoryCall.run (UInt64.ofNat (2 ^ k))) (fun _ => ⟨none, false⟩) = some s ∧
      ∀ page, ((s page).locked = true ↔
          ∃ range ∈ calls.foldl MemoryCall.live [], range.touches (2 ^ k) page = true) ∧
        s page = PageLock.ofCount ((calls.foldl MemoryCall.live []).countP (MemoryRange.touches (2 ^ k) page)) := by
  suffices hrun : ∀ (ranges : List MemoryRange) (s : PageLocks), MemoryCall.Paired (2 ^ k) ranges calls →
      (∀ range ∈ ranges, range.Fits (2 ^ k)) → ranges.length < 2 ^ 31 → Counts k s ranges →
      ∃ s', calls.foldlM (MemoryCall.run (UInt64.ofNat (2 ^ k))) s = some s' ∧
        Counts k s' (calls.foldl MemoryCall.live ranges) by
    obtain ⟨s, hs, hcounts⟩ := hrun [] (fun _ => ⟨none, false⟩) h (fun _ h => absurd h List.not_mem_nil) (by decide)
      fun _ => rfl
    refine ⟨s, hs, fun page => ⟨?_, hcounts page⟩⟩
    rw [hcounts page, PageLock.ofCount, ← List.countP_pos_iff]
    by_cases hzero : (calls.foldl MemoryCall.live []).countP (MemoryRange.touches (2 ^ k) page) = 0
    · rw [if_pos hzero, hzero]
      exact iff_of_false Bool.false_ne_true (lt_irrefl 0)
    · rw [if_neg hzero]
      exact iff_of_true rfl (Nat.pos_of_ne_zero hzero)
  clear h
  induction calls with
  | nil => exact fun ranges s _ _ _ hcounts => ⟨s, rfl, hcounts⟩
  | cons call calls ih =>
    intro ranges s hpaired hfits hlen hcounts
    rw [List.foldlM_cons, List.foldl_cons]
    cases call with
    | lockRange range =>
      obtain ⟨hrange, hroom, hrest⟩ := hpaired
      obtain ⟨s', hs', hcounts'⟩ := lockRange_counts hk hcounts hrange
      rw [MemoryCall.run, hs', Option.bind_eq_bind, Option.bind_some]
      exact ih (range :: ranges) s' hrest (List.forall_mem_cons.mpr ⟨hrange, hfits⟩) hroom hcounts'
    | unlockRange range =>
      obtain ⟨hmem, hrest⟩ := hpaired
      obtain ⟨s', hs', hcounts'⟩ := unlockRange_counts hk hcounts (hfits range hmem) hmem hlen
      rw [MemoryCall.run, hs', Option.bind_eq_bind, Option.bind_some]
      exact ih (ranges.erase range) s' hrest (fun r hr => hfits r (List.mem_of_mem_erase hr))
        (lt_of_le_of_lt List.length_erase_le hlen) hcounts'

/-- Two ranges with a page of 4096 bytes in common, of which one is unlocked. -/
def sharedPage : List MemoryCall :=
  [.lockRange ⟨4000, 200⟩, .lockRange ⟨4100, 32⟩, .unlockRange ⟨4000, 200⟩]

theorem lockedPages_run_shared :
    ∃ s, sharedPage.foldlM (MemoryCall.run (UInt64.ofNat (2 ^ 12))) (fun _ => ⟨none, false⟩) = some s ∧
      ∀ page, ((s page).locked = true ↔
          ∃ range ∈ sharedPage.foldl MemoryCall.live [], range.touches (2 ^ 12) page = true) ∧
        s page = PageLock.ofCount ((sharedPage.foldl MemoryCall.live []).countP (MemoryRange.touches (2 ^ 12) page)) :=
  lockedPages_run (by decide)
    ⟨by decide, by decide, by decide, by decide, List.mem_cons_of_mem _ List.mem_cons_self, trivial⟩

end Runs

end AliasWallet
