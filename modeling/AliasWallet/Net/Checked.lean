import AliasWallet.Net.AddrManCheck

/-!
# What `Check_` checks

`Check_` finds nothing wrong exactly when the entries, the counters and the buckets say the same. It does not look at
which tried bucket an entry is in, nor at the sizes of the buckets.
-/

namespace AliasWallet
open Lib

namespace CAddrMan

/-- The ids in the tried buckets, one bucket after the other. -/
def triedIds (st : CAddrMan) : List Nat := (List.finRange ADDRMAN_TRIED_BUCKET_COUNT).flatMap st.vvTried

/-- What `Check_` finds right of an entry. -/
structure EntryChecked (st : CAddrMan) (n : Nat) (info : CAddrInfo) : Prop where
  tried : info.fInTried = true → info.nLastSuccess ≠ 0 ∧ info.nRefCount = 0
  new : info.fInTried = false → 0 < info.nRefCount ∧ info.nRefCount ≤ ADDRMAN_NEW_BUCKETS_PER_ADDRESS
  addr : (st.mapAddr.lookup info.toCNetAddr).getD 0 = n
  place : st.vRandom[info.nRandomPos]? = some n
  lastTry : 0 ≤ info.nLastTry
  lastSuccess : 0 ≤ info.nLastSuccess

structure Checked (st : CAddrMan) : Prop where
  entry : ∀ n info, st.mapInfo.lookup n = some info → EntryChecked st n info
  total : (st.vRandom.length : Int) = st.nTried + st.nNew
  nTried : (st.counted.1.card : Int) = st.nTried
  nNew : (st.counted.2.keys.length : Int) = st.nNew
  triedOnce : st.triedIds.Nodup
  inTried : ∀ n, n ∈ st.triedIds ↔ n ∈ st.counted.1
  inNew : ∀ n, (st.counted.2.lookup n).getD 0 = ((holders st.vvNew n).card : Int)

section Loops

variable {st : CAddrMan}

theorem bind_ok_iff {α β : Type} {x : Except Int α} {f : α → Except Int β} {b : β} :
    (x >>= f) = .ok b ↔ ∃ a, x = .ok a ∧ f a = .ok b := by
  cases x with
  | error e => simp [bind, Except.bind]
  | ok a => simp [bind, Except.bind]

theorem guard_ok_iff {α : Type} {p : Prop} [Decidable p] {e : Int} {x : Except Int α} {a : α} :
    (if p then .error e else x) = .ok a ↔ ¬p ∧ x = .ok a := by
  by_cases hp : p
  · simp [hp]
  · simp [hp]

/-- One round of the first loop. -/
theorem checkInfo_ok_iff (st : CAddrMan) (s s' : Finset Nat × AList fun _ : Nat => Int) (n : Nat) (info : CAddrInfo) :
    st.checkInfo s ⟨n, info⟩ = .ok s' ↔ EntryChecked st n info ∧ s' = countInfo s ⟨n, info⟩ := by
  have htail : ∀ t, (if (st.mapAddr.lookup info.toCNetAddr).getD 0 ≠ n then .error (-5)
      else if st.vRandom[info.nRandomPos]? ≠ some n then .error (-14)
      else if info.nLastTry < 0 then .error (-6)
      else if info.nLastSuccess < 0 then .error (-8)
      else .ok t) = (.ok s' : Except Int (Finset Nat × AList fun _ : Nat => Int)) ↔
      (st.mapAddr.lookup info.toCNetAddr).getD 0 = n ∧ st.vRandom[info.nRandomPos]? = some n ∧ 0 ≤ info.nLastTry ∧
        0 ≤ info.nLastSuccess ∧ t = s' := by
    intro t
    rw [guard_ok_iff, guard_ok_iff, guard_ok_iff, guard_ok_iff, not_not, not_not, Int64.not_lt, Int64.not_lt,
      Except.ok.injEq]
  have herror : ∀ (e : Int) (f : Finset Nat × (AList fun _ : Nat => Int) → Except Int _),
      (Except.error e >>= f) = (.error e : Except Int (Finset Nat × AList fun _ : Nat => Int)) := fun _ _ => rfl
  have hok : ∀ (t : Finset Nat × AList fun _ : Nat => Int) (f : _ → Except Int (Finset Nat × AList fun _ : Nat => Int)),
      (Except.ok t >>= f) = f t := fun _ _ => rfl
  rw [checkInfo, countInfo]
  cases hin : info.fInTried with
  | true =>
    simp only [if_true, herror, hok, guard_ok_iff, htail, not_not]
    constructor
    · intro h
      obtain ⟨hsuccess, hrefs, haddr, hplace, htry, hlast, rfl⟩ := h
      exact ⟨⟨fun _ => ⟨hsuccess, hrefs⟩, fun hno => absurd (hin.symm.trans hno) (by simp), haddr, hplace, htry, hlast⟩,
        rfl⟩
    · intro h
      obtain ⟨hentry, rfl⟩ := h
      exact ⟨(hentry.tried hin).1, (hentry.tried hin).2, hentry.addr, hentry.place, hentry.lastTry, hentry.lastSuccess,
        rfl⟩
  | false =>
    simp only [Bool.false_eq_true, if_false, herror, hok, guard_ok_iff, htail, not_or, not_lt]
    constructor
    · intro h
      obtain ⟨⟨hnonneg, hmax⟩, hne, haddr, hplace, htry, hlast, rfl⟩ := h
      exact ⟨⟨fun hno => absurd (hin.symm.trans hno) (by simp), fun _ => ⟨by omega, hmax⟩, haddr, hplace, htry, hlast⟩,
        rfl⟩
    · intro h
      obtain ⟨hentry, rfl⟩ := h
      have hnew := hentry.new hin
      exact ⟨⟨hnew.1.le, hnew.2⟩, hnew.1.ne', hentry.addr, hentry.place, hentry.lastTry, hentry.lastSuccess, rfl⟩

theorem checkInfos_ok_iff (st : CAddrMan) (l : List (Sigma fun _ : Nat => CAddrInfo))
    (s s' : Finset Nat × AList fun _ : Nat => Int) :
    l.foldlM st.checkInfo s = .ok s' ↔ (∀ e ∈ l, EntryChecked st e.1 e.2) ∧ s' = l.foldl countInfo s := by
  induction l generalizing s with
  | nil =>
    have hnil : (List.nil : List (Sigma fun _ : Nat => CAddrInfo)).foldlM st.checkInfo s = .ok s := rfl
    rw [hnil, List.foldl_nil, Except.ok.injEq]
    simp [eq_comm]
  | cons e l ih =>
    rw [List.foldlM_cons, List.foldl_cons, List.forall_mem_cons, bind_ok_iff]
    constructor
    · intro h
      obtain ⟨s₁, hround, hrest⟩ := h
      obtain ⟨hentry, rfl⟩ := (checkInfo_ok_iff st s s₁ e.1 e.2).mp hround
      obtain ⟨hentries, hcount⟩ := (ih _).mp hrest
      exact ⟨⟨hentry, hentries⟩, hcount⟩
    · intro h
      exact ⟨_, (checkInfo_ok_iff st s _ e.1 e.2).mpr ⟨h.1.1, rfl⟩, (ih _).mpr ⟨h.1.2, h.2⟩⟩

/-- The tried buckets take out ids of the set, each once. -/
theorem checkTried_ok {l : List Nat} {S T : Finset Nat} (h : l.foldlM checkTried S = .ok T) :
    l.Nodup ∧ (∀ n ∈ l, n ∈ S) ∧ T = S \ l.toFinset := by
  induction l generalizing S with
  | nil =>
    obtain rfl : S = T := Except.ok.inj h
    simp
  | cons n l ih =>
    rw [List.foldlM_cons, bind_ok_iff] at h
    obtain ⟨S₁, hround, hrest⟩ := h
    rw [checkTried] at hround
    by_cases hn : n ∈ S
    · rw [if_pos hn] at hround
      obtain rfl := Except.ok.inj hround
      obtain ⟨hnodup, hmem, rfl⟩ := ih hrest
      refine ⟨List.nodup_cons.mpr ⟨fun hl => ?_, hnodup⟩, ?_, ?_⟩
      · exact Finset.notMem_erase n S (hmem n hl)
      · rw [List.forall_mem_cons]
        exact ⟨hn, fun k hk => Finset.mem_of_mem_erase (hmem k hk)⟩
      · rw [List.toFinset_cons, Finset.sdiff_insert, Finset.erase_sdiff_comm]
    · rw [if_neg hn] at hround
      cases hround

/-- The new buckets count an id down as often as they hold it. -/
theorem checkNew_ok {l : List Nat} {m m' : AList fun _ : Nat => Int} (h : l.foldlM checkNew m = .ok m') (n : Nat) :
    (m.lookup n).getD 0 = (m'.lookup n).getD 0 + l.count n := by
  induction l generalizing m with
  | nil =>
    obtain rfl : m = m' := Except.ok.inj h
    simp
  | cons k l ih =>
    rw [List.foldlM_cons, bind_ok_iff] at h
    obtain ⟨m₁, hround, hrest⟩ := h
    rw [checkNew] at hround
    cases hfound : m.lookup k with
    | none =>
      rw [hfound] at hround
      cases hround
    | some c =>
      rw [hfound] at hround
      obtain rfl := Except.ok.inj hround
      have hnext := ih hrest
      by_cases hn : n = k
      · subst hn
        have hself : ((if c - 1 = 0 then m.erase n else m.insert n (c - 1)).lookup n).getD 0 = c - 1 := by
          split
          · rename_i hzero
            rw [AList.lookup_erase, Option.getD_none, hzero]
          · rw [AList.lookup_insert, Option.getD_some]
        rw [hself] at hnext
        rw [hfound, Option.getD_some, List.count_cons_self]
        omega
      · have hother : (if c - 1 = 0 then m.erase k else m.insert k (c - 1)).lookup n = m.lookup n := by
          split
          · exact AList.lookup_erase_ne hn
          · exact AList.lookup_insert_ne hn
        rw [hother] at hnext
        rw [hnext, List.count_cons_of_ne (Ne.symm hn)]

end Loops

section Check

variable {st : CAddrMan}

theorem keys_length_eq_zero {m : AList fun _ : Nat => Int} (h : m.keys.length = 0) (n : Nat) : m.lookup n = none := by
  rw [AList.lookup_eq_none, AList.mem_keys, List.length_eq_zero_iff.mp h]
  exact List.not_mem_nil

/-- `Check_` finds nothing wrong exactly in the checked states. -/
theorem check_ok_iff (st : CAddrMan) : st.check_ = .ok () ↔ Checked st := by
  have hcounted : st.mapInfo.entries.foldl countInfo (∅, ∅) = st.counted := rfl
  rw [CAddrMan.check_, guard_ok_iff, not_not, bind_ok_iff]
  constructor
  · intro h
    obtain ⟨htotal, s, hinfos, h⟩ := h
    obtain ⟨hentries, rfl⟩ := (checkInfos_ok_iff st _ _ s).mp hinfos
    rw [hcounted] at h
    dsimp only at h
    rw [guard_ok_iff, guard_ok_iff, not_not, not_not, bind_ok_iff] at h
    obtain ⟨htried, hnew, T, hT, h⟩ := h
    rw [bind_ok_iff] at h
    obtain ⟨m, hm, h⟩ := h
    rw [guard_ok_iff, guard_ok_iff, not_not, not_not] at h
    obtain ⟨hnodup, hmem, rfl⟩ := checkTried_ok hT
    have hcover := Finset.sdiff_eq_empty_iff_subset.mp (Finset.card_eq_zero.mp h.1)
    refine ⟨fun n info hfound => hentries ⟨n, info⟩ (AList.mem_lookup_iff.mp hfound), htotal, htried, hnew, hnodup,
      fun n => ⟨hmem n, fun hn => List.mem_toFinset.mp (hcover hn)⟩, fun n => ?_⟩
    rw [checkNew_ok hm n, keys_length_eq_zero h.2.1 n, count_new]
    simp
  · intro h
    refine ⟨h.total, st.counted, (checkInfos_ok_iff st _ _ _).mpr ⟨fun e he => ?_, rfl⟩, ?_⟩
    · exact h.entry e.1 e.2 (AList.mem_lookup_iff.mpr he)
    · have htried := checkTried_fold _ h.triedOnce st.counted.1 fun n hn => (h.inTried n).mp hn
      have hall : st.counted.1 \ st.triedIds.toFinset = ∅ := by
        rw [Finset.sdiff_eq_empty_iff_subset]
        intro n hn
        exact List.mem_toFinset.mpr ((h.inTried n).mpr hn)
      have hnew := checkNew_fold ((List.finRange ADDRMAN_NEW_BUCKET_COUNT).flatMap fun b =>
        (st.vvNew b).sort (· ≤ ·)) st.counted.2 (fun n => (h.inNew n).trans (by rw [count_new])) (by
          intro n c hc
          obtain ⟨info, hfound, hin, rfl⟩ := (lookup_counted st n c).mp hc
          exact ((h.entry n info hfound).new hin).1.ne')
      dsimp only
      rw [guard_ok_iff, guard_ok_iff, not_not, not_not, bind_ok_iff]
      refine ⟨h.nTried, h.nNew, _, htried, ?_⟩
      rw [bind_ok_iff]
      refine ⟨∅, hnew, ?_⟩
      rw [hall]
      rfl

end Check

end CAddrMan

end AliasWallet
