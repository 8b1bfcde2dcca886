import Mathlib.Data.List.Basic

/-!
# The time offset of the network (`util.cpp`, `util.h`)

`AddTimeData` takes one time from each address, keeps the last 200 offsets in a `CMedianFilter`, and after every odd
number of them takes over their median. With 200 offsets the filter stays at an even number: from then on the time
offset does not change any more.
-/

namespace AliasWallet

/-- `CMedianFilter<int64_t>`. -/
structure CMedianFilter where
  vValues : List Int64
  vSorted : List Int64
  nSize : Nat

def sortValues (vValues : List Int64) : List Int64 := vValues.mergeSort fun a b => decide (a ≤ b)

namespace CMedianFilter

def new (size : Nat) (initial_value : Int64) : CMedianFilter := ⟨[initial_value], [initial_value], size⟩

def input (f : CMedianFilter) (value : Int64) : CMedianFilter :=
  let vValues := (if f.vValues.length = f.nSize then f.vValues.tail else f.vValues) ++ [value]
  { f with vValues, vSorted := sortValues vValues }

/-- None where the assertion fails. -/
def median (f : CMedianFilter) : Option Int64 :=
  let size := f.vSorted.length
  if size = 0 then none
  else if size % 2 = 1 then f.vSorted[size / 2]?
  else do
    let low ← f.vSorted[size / 2 - 1]?
    let high ← f.vSorted[size / 2]?
    return (low + high) / 2

end CMedianFilter

def abs64 (n : Int64) : Int64 := if n ≥ 0 then n else -n

/-- The static variables of `AddTimeData`; `fDone` says that the warning has been given. -/
structure TimeData (α : Type) where
  setKnown : List α
  vTimeOffsets : CMedianFilter
  nTimeOffset : Int64
  fDone : Bool

/-- A time that a peer sent, and the own time when it came. -/
structure TimeSample (α : Type) where
  ip : α
  now : Int64
  nTime : Int64

section Add

variable {α : Type} [DecidableEq α]

def TimeData.new : TimeData α := ⟨[], CMedianFilter.new 200 0, 0, false⟩

/-- `AddTimeData`. -/
def addTimeData (s : TimeData α) (sample : TimeSample α) : Option (TimeData α) :=
  let nOffsetSample := sample.nTime - sample.now
  if sample.ip ∈ s.setKnown then some s
  else
    let s := { s with setKnown := sample.ip :: s.setKnown, vTimeOffsets := s.vTimeOffsets.input nOffsetSample }
    let size := s.vTimeOffsets.vValues.length
    if size ≥ 5 ∧ size % 2 = 1 then do
      let nMedian ← s.vTimeOffsets.median
      if abs64 nMedian < 70 * 60 then return { s with nTimeOffset := nMedian }
      else
        let fMatch := s.vTimeOffsets.vSorted.any fun nOffset => decide (nOffset ≠ 0) && decide (abs64 nOffset < 5 * 60)
        return { s with nTimeOffset := 0, fDone := s.fDone || !fMatch }
    else some s

/-- The offsets that count: those of addresses that are not known yet. -/
def firstOffsets : List α → List (TimeSample α) → List Int64
  | _, [] => []
  | setKnown, sample :: samples =>
    if sample.ip ∈ setKnown then firstOffsets setKnown samples
    else (sample.nTime - sample.now) :: firstOffsets (sample.ip :: setKnown) samples

end Add

/-- The largest odd number of the offsets that the filter sees before it is full. -/
def oddCount (n : Nat) : Nat := if min n 199 % 2 = 1 then min n 199 else min n 199 - 1

/-- The time offset as a function of all offsets that counted, the initial zero included. -/
def medianOffset (offsets : List Int64) : Int64 :=
  let k := oddCount offsets.length
  if k < 5 then 0
  else
    let nMedian := (sortValues (offsets.take k)).getD (k / 2) 0
    if abs64 nMedian < 70 * 60 then nMedian else 0

section Middle

theorem countP_eq_zero_of {α : Type} {p : α → Bool} {l : List α} (h : ∀ a ∈ l, p a = false) : l.countP p = 0 := by
  rw [List.countP_eq_zero]
  intro a ha
  rw [h a ha]
  exact Bool.false_ne_true

variable {α : Type} [LE α] [DecidableLE α]

/-- If most of the values lie in an interval, then so does the one in the middle. -/
theorem middle_between (htrans : ∀ a b c : α, a ≤ b → b ≤ c → a ≤ c) {lo hi : α} {l : List α}
    (hsorted : l.Pairwise (· ≤ ·)) (hodd : l.length % 2 = 1)
    (hmost : l.length < 2 * l.countP fun v => decide (lo ≤ v) && decide (v ≤ hi)) {v : α}
    (hv : l[l.length / 2]? = some v) : lo ≤ v ∧ v ≤ hi := by
  obtain ⟨hlt, hget⟩ := List.getElem?_eq_some_iff.mp hv
  have hsplit : ∀ n, l.countP (fun v => decide (lo ≤ v) && decide (v ≤ hi)) =
      (l.take n).countP (fun v => decide (lo ≤ v) && decide (v ≤ hi)) +
        (l.drop n).countP (fun v => decide (lo ≤ v) && decide (v ≤ hi)) := by
    intro n
    rw [← List.countP_append, List.take_append_drop]
  constructor
  · by_contra hlow
    -- the values up to the middle are too small
    have hzero : (l.take (l.length / 2 + 1)).countP (fun v => decide (lo ≤ v) && decide (v ≤ hi)) = 0 := by
      apply countP_eq_zero_of
      intro a ha
      obtain ⟨i, hi', hia⟩ := List.getElem_of_mem ha
      rw [List.getElem_take] at hia
      rw [List.length_take] at hi'
      have hle : lo ≤ a → lo ≤ v := by
        intro hloa
        by_cases heq : i = l.length / 2
        · subst heq
          rw [hget] at hia
          rwa [hia]
        · have hpair := List.pairwise_iff_getElem.mp hsorted i (l.length / 2) (by omega) hlt (by omega)
          rw [hia, hget] at hpair
          exact htrans _ _ _ hloa hpair
      rw [decide_eq_false fun hloa => hlow (hle hloa), Bool.false_and]
    have hrest : (l.drop (l.length / 2 + 1)).countP (fun v => decide (lo ≤ v) && decide (v ≤ hi)) ≤ _ :=
      List.countP_le_length
    rw [hsplit (l.length / 2 + 1), hzero] at hmost
    rw [List.length_drop] at hrest
    omega
  · by_contra hhigh
    -- the values from the middle on are too large
    have hzero : (l.drop (l.length / 2)).countP (fun v => decide (lo ≤ v) && decide (v ≤ hi)) = 0 := by
      apply countP_eq_zero_of
      intro a ha
      obtain ⟨i, hi', hia⟩ := List.getElem_of_mem ha
      rw [List.getElem_drop] at hia
      rw [List.length_drop] at hi'
      have hle : a ≤ hi → v ≤ hi := by
        intro hahi
        by_cases heq : i = 0
        · subst heq
          simp only [Nat.add_zero] at hia
          rw [hget] at hia
          rwa [hia]
        · have hpair := List.pairwise_iff_getElem.mp hsorted (l.length / 2) (l.length / 2 + i) hlt (by omega) (by omega)
          rw [hia, hget] at hpair
          exact htrans _ _ _ hpair hahi
      rw [decide_eq_false fun hahi => hhigh (hle hahi), Bool.and_false]
    have hrest : (l.take (l.length / 2)).countP (fun v => decide (lo ≤ v) && decide (v ≤ hi)) ≤ _ :=
      List.countP_le_length
    rw [hsplit (l.length / 2), hzero] at hmost
    rw [List.length_take] at hrest
    omega

end Middle

section Run

theorem sortValues_length (l : List Int64) : (sortValues l).length = l.length := List.length_mergeSort l

theorem sortValues_sorted (l : List Int64) : (sortValues l).Pairwise (· ≤ ·) := by
  have htrans : ∀ a b c : Int64, decide (a ≤ b) = true → decide (b ≤ c) = true → decide (a ≤ c) = true :=
    fun a b c hab hbc => decide_eq_true (Int64.le_trans (of_decide_eq_true hab) (of_decide_eq_true hbc))
  have htotal : ∀ a b : Int64, (decide (a ≤ b) || decide (b ≤ a)) = true := by
    intro a b
    rw [Bool.or_eq_true]
    exact (Int64.le_total a b).imp decide_eq_true decide_eq_true
  exact (List.pairwise_mergeSort htrans htotal l).imp fun h => of_decide_eq_true h

/-- The offset is unchanged by a value after which the filter holds an even number, few values or 200 of them. -/
theorem medianOffset_append {offsets : List Int64} {v : Int64}
    (h : ¬(5 ≤ min (offsets.length + 1) 200 ∧ min (offsets.length + 1) 200 % 2 = 1)) :
    medianOffset (offsets ++ [v]) = medianOffset offsets := by
  rw [medianOffset, medianOffset, List.length_append, List.length_singleton]
  by_cases hfew : offsets.length + 1 < 5
  · have hk : oddCount (offsets.length + 1) < 5 := by
      rw [oddCount]
      split_ifs <;> omega
    have hk' : oddCount offsets.length < 5 := by
      rw [oddCount]
      split_ifs <;> omega
    rw [if_pos hk, if_pos hk']
  · have hk : oddCount (offsets.length + 1) = oddCount offsets.length := by
      rw [oddCount, oddCount]
      split_ifs <;> omega
    have hle : oddCount offsets.length ≤ offsets.length := by
      rw [oddCount]
      split_ifs <;> omega
    dsimp only
    rw [hk, List.take_append_of_le_length hle]

/-- After an odd number of values the offset is their median, if it is small. -/
theorem medianOffset_odd (offsets : List Int64) (hmany : 5 ≤ offsets.length) (hless : offsets.length < 200)
    (hodd : offsets.length % 2 = 1) :
    medianOffset offsets =
      let nMedian := (sortValues offsets).getD (offsets.length / 2) 0
      if abs64 nMedian < 70 * 60 then nMedian else 0 := by
  have hk : oddCount offsets.length = offsets.length := by
    rw [oddCount]
    split_ifs <;> omega
  rw [medianOffset]
  dsimp only
  rw [hk, if_neg (by omega), List.take_length]

variable {α : Type}

/-- The filter holds the last 200 of the offsets that counted, and the time offset is the function of all of them. -/
structure TimeData.Follows (s : TimeData α) (offsets : List Int64) : Prop where
  size : s.vTimeOffsets.nSize = 200
  values : s.vTimeOffsets.vValues = offsets.drop (offsets.length - 200)
  offset : s.nTimeOffset = medianOffset offsets

theorem new_follows : (TimeData.new : TimeData α).Follows [0] := ⟨rfl, rfl, rfl⟩

variable [DecidableEq α]

theorem addTimeData_follows {s : TimeData α} {offsets : List Int64} (h : s.Follows offsets) (sample : TimeSample α)
    (hnew : sample.ip ∉ s.setKnown) :
    ∃ s', addTimeData s sample = some s' ∧ s'.setKnown = sample.ip :: s.setKnown ∧
      s'.Follows (offsets ++ [sample.nTime - sample.now]) := by
  generalize hv : sample.nTime - sample.now = v
  have hlen : s.vTimeOffsets.vValues.length = min offsets.length 200 := by
    rw [h.values, List.length_drop]
    omega
  have hvalues : (s.vTimeOffsets.input v).vValues = (offsets ++ [v]).drop ((offsets ++ [v]).length - 200) := by
    rw [CMedianFilter.input]
    dsimp only
    rw [hlen, h.size, h.values, List.length_append, List.length_singleton]
    split_ifs with hfull
    · rw [List.tail_drop, List.drop_append_of_le_length (by omega),
        show offsets.length + 1 - 200 = offsets.length - 200 + 1 by omega]
    · rw [show offsets.length - 200 = 0 by omega, show offsets.length + 1 - 200 = 0 by omega]
      rfl
  have hsize : (s.vTimeOffsets.input v).vValues.length = min (offsets.length + 1) 200 := by
    rw [hvalues, List.length_drop, List.length_append, List.length_singleton]
    omega
  have hsorted : (s.vTimeOffsets.input v).vSorted = sortValues (s.vTimeOffsets.input v).vValues := rfl
  rw [addTimeData]
  dsimp only
  rw [if_neg hnew, hv, hsize]
  by_cases hodd : 5 ≤ min (offsets.length + 1) 200 ∧ min (offsets.length + 1) 200 % 2 = 1
  · have hall : (s.vTimeOffsets.input v).vValues = offsets ++ [v] := by
      rw [hvalues, List.length_append, List.length_singleton, show offsets.length + 1 - 200 = 0 by omega]
      rfl
    have hcount : (offsets ++ [v]).length = offsets.length + 1 := by simp
    have hslen : (sortValues (offsets ++ [v])).length = offsets.length + 1 := by rw [sortValues_length, hcount]
    have hmedian : (s.vTimeOffsets.input v).median =
        some ((sortValues (offsets ++ [v])).getD ((offsets ++ [v]).length / 2) 0) := by
      rw [CMedianFilter.median, hsorted, hall, hslen, if_neg (by omega), if_pos (by omega), hcount,
        List.getD_eq_getElem?_getD, List.getElem?_eq_getElem (by rw [hslen]; omega)]
      rfl
    have hclosed := medianOffset_odd (offsets ++ [v]) (by omega) (by omega) (by omega)
    dsimp only at hclosed
    rw [if_pos hodd, hmedian, Option.bind_eq_bind, Option.bind_some]
    split_ifs at hclosed ⊢ with hsmall
    · exact ⟨_, rfl, rfl, h.size, hvalues, hclosed.symm⟩
    · exact ⟨_, rfl, rfl, h.size, hvalues, hclosed.symm⟩
  · rw [if_neg hodd]
    exact ⟨_, rfl, rfl, h.size, hvalues, by rw [medianOffset_append hodd]; exact h.offset⟩

theorem runTimeData_follows (samples : List (TimeSample α)) {s : TimeData α} {offsets : List Int64}
    (h : s.Follows offsets) :
    ∃ s', samples.foldlM addTimeData s = some s' ∧ s'.Follows (offsets ++ firstOffsets s.setKnown samples) := by
  induction samples generalizing s offsets with
  | nil => exact ⟨s, rfl, by simpa [firstOffsets] using h⟩
  | cons sample samples ih =>
    rw [List.foldlM_cons, firstOffsets]
    by_cases hknown : sample.ip ∈ s.setKnown
    · rw [if_pos hknown, addTimeData, if_pos hknown]
      exact ih h
    · obtain ⟨s₁, hstep, hset, hfollows⟩ := addTimeData_follows h sample hknown
      obtain ⟨s', hrun, hfollows'⟩ := ih hfollows
      rw [if_neg hknown, hstep, ← hset]
      refine ⟨s', hrun, ?_⟩
      rw [List.append_assoc] at hfollows'
      exact hfollows'

theorem abs64_medianOffset (offsets : List Int64) : abs64 (medianOffset offsets) < 70 * 60 := by
  rw [medianOffset]
  dsimp only
  split_ifs with hfew hsmall
  · decide
  · exact hsmall
  · decide

/-- Only the first 199 offsets matter. -/
theorem medianOffset_full {offsets : List Int64} (hfull : 199 ≤ offsets.length) (more : List Int64) :
    medianOffset (offsets ++ more) = medianOffset offsets := by
  have hk : ∀ n, 199 ≤ n → oddCount n = 199 := by
    intro n hn
    rw [oddCount, Nat.min_eq_right hn]
    rfl
  rw [medianOffset, medianOffset, hk _ (by rw [List.length_append]; omega), hk _ hfull]
  dsimp only
  rw [List.take_append_of_le_length hfull]

/-- In every run, no assertion fails, every address counts once, and the time offset is the median of the first odd
number of offsets, up to 199 of them, if that is less than 70 minutes; once there are as many, it stays for ever. -/
theorem addTimeData_run (samples : List (TimeSample α)) :
    ∃ s, samples.foldlM addTimeData TimeData.new = some s ∧
      s.nTimeOffset = medianOffset (0 :: firstOffsets [] samples) ∧ abs64 s.nTimeOffset < 70 * 60 ∧
        (198 ≤ (firstOffsets [] samples).length → ∀ more s',
          (samples ++ more).foldlM addTimeData TimeData.new = some s' → s'.nTimeOffset = s.nTimeOffset) := by
  obtain ⟨s, hrun, hfollows⟩ := runTimeData_follows samples (new_follows (α := α))
  have hoffset : s.nTimeOffset = medianOffset (0 :: firstOffsets [] samples) := hfollows.offset
  refine ⟨s, hrun, hoffset, ?_, ?_⟩
  · rw [hoffset]
    exact abs64_medianOffset _
  · intro hfull more s' hrun'
    obtain ⟨s'', hmore, hfollows'⟩ := runTimeData_follows more hfollows
    rw [List.foldlM_append, hrun] at hrun'
    obtain rfl := Option.some.inj (hmore.symm.trans hrun')
    rw [hfollows'.offset, hfollows.offset]
    apply medianOffset_full
    rw [List.length_append, List.length_singleton]
    exact Nat.add_le_add_left hfull 1

/-- A minority of peers does not move the clock: if most of the offsets that are used lie in an interval around zero,
then so does the time offset. -/
theorem addTimeData_majority {samples : List (TimeSample α)} {s : TimeData α} {lo hi : Int64} (hlo : lo ≤ 0)
    (hhi : 0 ≤ hi) (hrun : samples.foldlM addTimeData TimeData.new = some s)
    (hmost : let used := (0 :: firstOffsets [] samples).take (oddCount (firstOffsets [] samples).length.succ)
      used.length < 2 * used.countP fun v => decide (lo ≤ v) && decide (v ≤ hi)) :
    lo ≤ s.nTimeOffset ∧ s.nTimeOffset ≤ hi := by
  obtain ⟨s', hrun', hfollows⟩ := runTimeData_follows samples (new_follows (α := α))
  obtain rfl := Option.some.inj (hrun.symm.trans hrun')
  have hoffset : s.nTimeOffset = medianOffset (0 :: firstOffsets [] samples) := hfollows.offset
  rw [hoffset, medianOffset]
  dsimp only at hmost ⊢
  rw [List.length_cons]
  generalize hk : oddCount ((firstOffsets [] samples).length + 1) = k
  rw [show oddCount (firstOffsets [] samples).length.succ = k from hk] at hmost
  generalize hused : (0 :: firstOffsets [] samples).take k = used at hmost ⊢
  split_ifs with hfew hsmall
  · exact ⟨hlo, hhi⟩
  · have hlen : used.length = k := by
      rw [← hused, List.length_take, List.length_cons, ← hk, oddCount]
      split_ifs <;> omega
    have hodd : k % 2 = 1 := by
      rw [← hk, oddCount] at hfew ⊢
      split_ifs at hfew ⊢ <;> omega
    have hperm : (sortValues used).countP (fun v => decide (lo ≤ v) && decide (v ≤ hi)) =
        used.countP fun v => decide (lo ≤ v) && decide (v ≤ hi) := (List.mergeSort_perm used _).countP_eq _
    have hslen : (sortValues used).length = k := by rw [sortValues_length, hlen]
    apply middle_between (fun a b c => Int64.le_trans) (sortValues_sorted used) (by rw [hslen, hodd])
    · rw [hperm, hslen, ← hlen]
      exact hmost
    · rw [hslen, List.getD_eq_getElem?_getD, List.getElem?_eq_getElem (by rw [hslen]; omega)]
      rfl
  · exact ⟨hlo, hhi⟩

/-- Two of four peers are an hour ahead. -/
def hourAhead : List (TimeSample Nat) := [⟨1, 100, 103⟩, ⟨2, 100, 3700⟩, ⟨3, 100, 98⟩, ⟨4, 100, 3700⟩]

theorem addTimeData_majority_hour : ∃ s, hourAhead.foldlM addTimeData TimeData.new = some s ∧
    -2 ≤ s.nTimeOffset ∧ s.nTimeOffset ≤ 3 := by
  obtain ⟨s, hrun, -⟩ := runTimeData_follows hourAhead (new_follows (α := Nat))
  exact ⟨s, hrun, addTimeData_majority (by decide) (by decide) hrun (by decide)⟩

end Run

end AliasWallet
