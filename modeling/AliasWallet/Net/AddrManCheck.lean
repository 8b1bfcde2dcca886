import AliasWallet.Net.AddrManCalls
import Mathlib.Algebra.BigOperators.Fin

/-!
# `Check_`

On a settled state the address manager's own check finds nothing wrong, but for times that clocks have given as
negative. So it finds nothing after any sequence of calls.
-/

namespace AliasWallet
open Lib

namespace CAddrMan

section Entries

variable {hash : HashFn} {timely : Prop} {st : CAddrMan}

/-- What a round of the first loop collects. -/
def countInfo (s : Finset Nat × AList fun _ : Nat => Int) (e : Sigma fun _ : Nat => CAddrInfo) :
    Finset Nat × AList fun _ : Nat => Int :=
  if e.2.fInTried then (insert e.1 s.1, s.2) else (s.1, s.2.insert e.1 e.2.nRefCount)

theorem Consistent.checkInfo_eq (h : Consistent hash timely .settled st)
    (s : Finset Nat × AList fun _ : Nat => Int) {n : Nat} {info : CAddrInfo}
    (hfound : st.mapInfo.lookup n = some info) :
    st.checkInfo s ⟨n, info⟩ = if info.nLastTry < 0 then .error (-6) else if info.nLastSuccess < 0 then .error (-8)
      else .ok (countInfo s ⟨n, info⟩) := by
  have hentry := h.entry hfound
  have haddr : (st.mapAddr.lookup info.toCNetAddr).getD 0 = n := by
    rw [(h.addr _ n).mpr ⟨info, hfound, rfl⟩, Option.getD_some]
  have hplace : st.vRandom[info.nRandomPos]? = some n :=
    (h.placed n _).mp (by rw [positions, hfound, Option.map_some])
  rw [checkInfo, countInfo]
  cases hin : info.fInTried with
  | true =>
    obtain ⟨hzero, hnonzero, -⟩ := hentry.tried hin
    simp [hzero, hnonzero, haddr, hplace, Except.bind, bind]
  | false =>
    obtain ⟨-, -, hmax, hpos⟩ := hentry.new hin
    have hnow := hpos (by simp)
    have hrange : ¬ (info.nRefCount < 0 ∨ ADDRMAN_NEW_BUCKETS_PER_ADDRESS < info.nRefCount) := by omega
    simp [hrange, hnow.ne', haddr, hplace, Except.bind, bind]

/-- The first loop runs through, or it stops at a negative time. -/
theorem Consistent.checkInfos (h : Consistent hash timely .settled st) (l : List (Sigma fun _ : Nat => CAddrInfo))
    (hl : ∀ e ∈ l, st.mapInfo.lookup e.1 = some e.2) (s : Finset Nat × AList fun _ : Nat => Int) :
    l.foldlM st.checkInfo s = .ok (l.foldl countInfo s) ∨ ¬ timely ∧
      (l.foldlM st.checkInfo s = .error (-6) ∨ l.foldlM st.checkInfo s = .error (-8)) := by
  induction l generalizing s with
  | nil => exact Or.inl rfl
  | cons e l ih =>
    have hfound := hl e List.mem_cons_self
    have hentry := h.entry hfound
    rw [List.foldlM_cons, h.checkInfo_eq s hfound, List.foldl_cons]
    by_cases htry : e.2.nLastTry < 0
    · rw [if_pos htry]
      exact Or.inr ⟨fun ht => absurd (hentry.lastTry ht) (Int64.not_le.mpr htry), Or.inl rfl⟩
    rw [if_neg htry]
    by_cases hsuccess : e.2.nLastSuccess < 0
    · rw [if_pos hsuccess]
      exact Or.inr ⟨fun ht => absurd (hentry.lastSuccess ht) (Int64.not_le.mpr hsuccess), Or.inr rfl⟩
    rw [if_neg hsuccess]
    exact ih (fun e he => hl e (List.mem_cons_of_mem _ he)) _

theorem mem_countInfos (l : List (Sigma fun _ : Nat => CAddrInfo)) (s : Finset Nat × AList fun _ : Nat => Int)
    (n : Nat) : n ∈ (l.foldl countInfo s).1 ↔ n ∈ s.1 ∨ ∃ info, ⟨n, info⟩ ∈ l ∧ info.fInTried = true := by
  induction l generalizing s with
  | nil => simp
  | cons e l ih =>
    obtain ⟨m, info⟩ := e
    rw [List.foldl_cons, ih, countInfo]
    cases hin : info.fInTried with
    | true =>
      have hinsert : n ∈ insert m s.1 ↔ n = m ∨ n ∈ s.1 := Finset.mem_insert
      dsimp only
      rw [if_pos rfl, hinsert]
      constructor
      · rintro ((rfl | hs) | ⟨info', hl, htried⟩)
        · exact Or.inr ⟨info, List.mem_cons_self, hin⟩
        · exact Or.inl hs
        · exact Or.inr ⟨info', List.mem_cons_of_mem _ hl, htried⟩
      · rintro (hs | ⟨info', hl, htried⟩)
        · exact Or.inl (Or.inr hs)
        · rcases List.mem_cons.mp hl with heq | hl
          · exact Or.inl (Or.inl (congrArg Sigma.fst heq))
          · exact Or.inr ⟨info', hl, htried⟩
    | false =>
      dsimp only
      rw [if_neg Bool.false_ne_true]
      refine or_congr_right (exists_congr fun info' => and_congr_left fun htried => ?_)
      rw [List.mem_cons, or_iff_right]
      intro hsame
      obtain ⟨rfl, hinfo⟩ := Sigma.mk.inj hsame
      rw [eq_of_heq hinfo, hin] at htried
      exact absurd htried Bool.false_ne_true

theorem lookup_countInfos (l : List (Sigma fun _ : Nat => CAddrInfo)) (hl : l.NodupKeys)
    (s : Finset Nat × AList fun _ : Nat => Int) (n : Nat) (c : Int) :
    (l.foldl countInfo s).2.lookup n = some c ↔
      (∃ info, ⟨n, info⟩ ∈ l ∧ info.fInTried = false ∧ info.nRefCount = c) ∨
        s.2.lookup n = some c ∧ ∀ info, ⟨n, info⟩ ∈ l → info.fInTried = true := by
  induction l generalizing s with
  | nil => simp
  | cons e l ih =>
    obtain ⟨m, info⟩ := e
    obtain ⟨hfresh, hl⟩ := List.nodupKeys_cons.mp hl
    have hcons : ∀ info', (⟨n, info'⟩ : Sigma fun _ : Nat => CAddrInfo) ∈ ⟨m, info⟩ :: l ↔
        (n = m ∧ info' = info) ∨ ⟨n, info'⟩ ∈ l := by
      intro info'
      rw [List.mem_cons, Sigma.mk.injEq, heq_eq_eq]
    simp only [hcons]
    rw [List.foldl_cons, ih hl, countInfo]
    by_cases hn : n = m
    · -- the id occurs here and nowhere else
      subst hn
      have hnone : ∀ info', (⟨n, info'⟩ : Sigma fun _ : Nat => CAddrInfo) ∉ l :=
        fun info' hmem => hfresh (List.mem_keys_of_mem hmem : n ∈ l.keys)
      cases hin : info.fInTried with
      | true => simp [hnone, hin]
      | false => simp [hnone, hin]
    · cases hin : info.fInTried with
      | true => simp [hn]
      | false => simp [hn, AList.lookup_insert_ne]

end Entries

section Buckets

/-- Each id of the buckets is taken out once. -/
theorem checkTried_fold (l : List Nat) (hl : l.Nodup) (S : Finset Nat) (hmem : ∀ n ∈ l, n ∈ S) :
    l.foldlM checkTried S = .ok (S \ l.toFinset) := by
  induction l generalizing S with
  | nil =>
    rw [List.toFinset_nil, Finset.sdiff_empty]
    rfl
  | cons n l ih =>
    obtain ⟨hn, hl⟩ := List.nodup_cons.mp hl
    rw [List.foldlM_cons, checkTried, if_pos (hmem n List.mem_cons_self)]
    refine (ih hl (S.erase n) fun k hk => ?_).trans ?_
    · exact Finset.mem_erase.mpr ⟨fun heq => hn (heq ▸ hk), hmem k (List.mem_cons_of_mem _ hk)⟩
    · rw [List.toFinset_cons, Finset.sdiff_insert, Finset.erase_sdiff_comm]

/-- Each id of the buckets is counted down, to nothing where it occurs as often as the counter says. -/
theorem checkNew_fold (l : List Nat) (m : AList fun _ : Nat => Int) (hcount : ∀ n, (m.lookup n).getD 0 = l.count n)
    (hpos : ∀ n c, m.lookup n = some c → c ≠ 0) : l.foldlM checkNew m = .ok ∅ := by
  induction l generalizing m with
  | nil =>
    have hempty : m = ∅ := by
      apply AList.ext
      apply List.eq_nil_iff_forall_not_mem.mpr
      rintro ⟨n, c⟩ hmem
      have hfound := AList.mem_lookup_iff.mpr hmem
      have hzero := hcount n
      rw [hfound, Option.getD_some, List.count_nil] at hzero
      exact hpos n c hfound hzero
    rw [hempty]
    rfl
  | cons n l ih =>
    have hn := hcount n
    rw [List.count_cons_self] at hn
    rw [List.foldlM_cons, checkNew]
    cases hfound : m.lookup n with
    | none =>
      rw [hfound, Option.getD_none] at hn
      omega
    | some c =>
      rw [hfound, Option.getD_some] at hn
      have hself : (if c - 1 = 0 then m.erase n else m.insert n (c - 1)).lookup n =
          if c - 1 = 0 then none else some (c - 1) := by
        split
        · exact AList.lookup_erase n m
        · exact AList.lookup_insert m
      have hother : ∀ k, k ≠ n → (if c - 1 = 0 then m.erase n else m.insert n (c - 1)).lookup k = m.lookup k := by
        intro k hk
        split
        · exact AList.lookup_erase_ne hk
        · exact AList.lookup_insert_ne hk
      apply ih
      · intro k
        by_cases hk : k = n
        · subst hk
          rw [hself]
          split
          · rw [Option.getD_none]
            omega
          · rw [Option.getD_some]
            omega
        · rw [hother k hk, hcount k, List.count_cons_of_ne (Ne.symm hk)]
      · intro k c' hk
        by_cases hkn : k = n
        · subst hkn
          rw [hself] at hk
          split at hk
          · exact absurd hk (by simp)
          · obtain rfl := Option.some.inj hk
            assumption
        · exact hpos k c' (hother k hkn ▸ hk)

end Buckets

section Check

variable {hash : HashFn} {timely : Prop} {st : CAddrMan}

/-- The ids of the random order are those of the entries. -/
theorem Consistent.length_keys (h : Consistent hash timely .settled st) :
    st.mapInfo.keys.toFinset.card = st.vRandom.length := by
  have hperm : st.vRandom.toFinset = st.mapInfo.keys.toFinset := by
    ext n
    rw [List.mem_toFinset, List.mem_toFinset, h.placed.mem_iff, positions, Option.isSome_map, AList.lookup_isSome]
    exact AList.mem_keys
  rw [← hperm, List.toFinset_card_of_nodup h.placed.nodup]

theorem Consistent.tried_nodup (h : Consistent hash timely .settled st) :
    ((List.finRange ADDRMAN_TRIED_BUCKET_COUNT).flatMap st.vvTried).Nodup := by
  refine List.nodup_flatMap.mpr ⟨fun b _ => h.triedNodup b, ?_⟩
  refine (List.nodup_finRange _).imp fun {b c} hbc => ?_
  rw [Function.onFun, List.disjoint_left]
  intro n hb hc
  obtain ⟨info, hfound, -, hbucket⟩ := h.of_mem_tried hb
  obtain ⟨info', hfound', -, hbucket'⟩ := h.of_mem_tried hc
  obtain rfl : info = info' := Option.some.inj (hfound.symm.trans hfound')
  exact hbc (hbucket.symm.trans hbucket')

/-- In all new buckets together an id occurs as often as buckets hold it. -/
theorem count_new (vvNew : NewBucket → Finset Nat) (n : Nat) :
    ((List.finRange ADDRMAN_NEW_BUCKET_COUNT).flatMap fun b => (vvNew b).sort (· ≤ ·)).count n =
      (holders vvNew n).card := by
  rw [List.count_flatMap, holders, Finset.card_filter, Fin.sum_univ_def]
  apply congrArg List.sum
  apply List.map_congr_left
  intro b _
  rw [Function.comp_apply, List.Nodup.count (Finset.sort_nodup _ _)]
  exact if_congr (Finset.mem_sort _) rfl rfl

/-- What the first loop collects from all entries. -/
def counted (st : CAddrMan) : Finset Nat × AList fun _ : Nat => Int := st.mapInfo.entries.foldl countInfo (∅, ∅)

theorem mem_counted (st : CAddrMan) (n : Nat) :
    n ∈ st.counted.1 ↔ ∃ info, st.mapInfo.lookup n = some info ∧ info.fInTried = true := by
  rw [counted, mem_countInfos, or_iff_right (Finset.notMem_empty n)]
  exact exists_congr fun info => and_congr_left fun _ => AList.mem_lookup_iff.symm

theorem lookup_counted (st : CAddrMan) (n : Nat) (c : Int) :
    st.counted.2.lookup n = some c ↔
      ∃ info, st.mapInfo.lookup n = some info ∧ info.fInTried = false ∧ info.nRefCount = c := by
  rw [counted, lookup_countInfos _ st.mapInfo.nodupKeys, or_iff_left (fun hnone => absurd hnone.1 (by simp))]
  exact exists_congr fun info => and_congr_left fun _ => AList.mem_lookup_iff.symm

theorem Consistent.card_tried (h : Consistent hash timely .settled st) : (st.counted.1.card : Int) = st.nTried := by
  rw [h.nTried, card_eq_totalLength st.vvTried st.counted.1 h.triedNodup]
  · intro n
    rw [mem_counted]
    constructor
    · rintro ⟨info, hfound, hin⟩
      exact ⟨_, (((h.entry hfound).tried hin).2.2.2.1 _).mpr rfl⟩
    · rintro ⟨b, hb⟩
      obtain ⟨info, hfound, hin, -⟩ := h.of_mem_tried hb
      exact ⟨info, hfound, hin⟩
  · intro n b c hb hc
    obtain ⟨info, hfound, -, hbucket⟩ := h.of_mem_tried hb
    obtain ⟨info', hfound', -, hbucket'⟩ := h.of_mem_tried hc
    obtain rfl : info = info' := Option.some.inj (hfound.symm.trans hfound')
    exact hbucket.symm.trans hbucket'

theorem mem_keys_counted (st : CAddrMan) (n : Nat) :
    n ∈ st.counted.2.keys.toFinset ↔ ∃ info, st.mapInfo.lookup n = some info ∧ info.fInTried = false := by
  rw [List.mem_toFinset, ← AList.mem_keys, ← AList.lookup_isSome, Option.isSome_iff_exists]
  constructor
  · rintro ⟨c, hc⟩
    obtain ⟨info, hfound, hin, -⟩ := (lookup_counted st n c).mp hc
    exact ⟨info, hfound, hin⟩
  · rintro ⟨info, hfound, hin⟩
    exact ⟨info.nRefCount, (lookup_counted st n _).mpr ⟨info, hfound, hin, rfl⟩⟩

theorem Consistent.card_new (h : Consistent hash timely .settled st) :
    (st.counted.2.keys.length : Int) = st.nNew := by
  have hsplit : st.mapInfo.keys.toFinset = st.counted.1 ∪ st.counted.2.keys.toFinset := by
    ext n
    rw [Finset.mem_union, mem_counted, mem_keys_counted, List.mem_toFinset, ← AList.mem_keys, ← AList.lookup_isSome,
      Option.isSome_iff_exists, ← exists_or]
    refine exists_congr fun info => ?_
    cases info.fInTried <;> simp
  have hdisjoint : Disjoint st.counted.1 st.counted.2.keys.toFinset := by
    rw [Finset.disjoint_left]
    intro n htried hnew
    obtain ⟨info, hfound, hin⟩ := (mem_counted st n).mp htried
    obtain ⟨info', hfound', hin'⟩ := (mem_keys_counted st n).mp hnew
    obtain rfl : info = info' := Option.some.inj (hfound.symm.trans hfound')
    exact absurd (hin.symm.trans hin') (by simp)
  have hcard := h.length_keys
  rw [hsplit, Finset.card_union_of_disjoint hdisjoint, List.toFinset_card_of_nodup st.counted.2.keys_nodup] at hcard
  have htotal := h.total
  have htried := h.card_tried
  rw [Pending.missing_settled] at htotal
  omega

/-- The counters are the numbers of buckets. -/
theorem Consistent.counted_eq (h : Consistent hash timely .settled st) (n : Nat) :
    (st.counted.2.lookup n).getD 0 = ((holders st.vvNew n).card : Int) := by
  have hfits := h.fits n
  cases hc : st.counted.2.lookup n with
  | some c =>
    obtain ⟨info, hfound, hin, rfl⟩ := (lookup_counted st n c).mp hc
    obtain ⟨-, hcount, -⟩ := (h.entry hfound).new hin
    rw [Pending.owes_settled, Nat.cast_zero, add_zero] at hcount
    exact hcount
  | none =>
    have hempty : holders st.vvNew n = ∅ := by
      cases hfound : st.mapInfo.lookup n with
      | none =>
        rw [hfound] at hfits
        exact hfits.2.1
      | some info =>
        cases hin : info.fInTried with
        | true => exact ((h.entry hfound).tried hin).2.2.1
        | false =>
          rw [(lookup_counted st n _).mpr ⟨info, hfound, hin, rfl⟩] at hc
          exact absurd hc (by simp)
    rw [hempty]
    rfl

/-- `Check_` finds nothing wrong but negative times. -/
theorem Consistent.check_ (h : Consistent hash timely .settled st) :
    st.check_ = .ok () ∨ ¬ timely ∧ (st.check_ = .error (-6) ∨ st.check_ = .error (-8)) := by
  have hlookup : ∀ e ∈ st.mapInfo.entries, st.mapInfo.lookup e.1 = some e.2 :=
    fun e he => AList.mem_lookup_iff.mpr he
  have htotal : (st.vRandom.length : Int) = st.nTried + st.nNew := by
    have htotal := h.total
    rwa [Pending.missing_settled, add_zero] at htotal
  rw [CAddrMan.check_, if_neg (not_not.mpr htotal)]
  rcases h.checkInfos st.mapInfo.entries hlookup (∅, ∅) with hrun | ⟨hneg, hrun | hrun⟩
  · rw [hrun]
    left
    have hcounts : st.mapInfo.entries.foldl countInfo (∅, ∅) = st.counted := rfl
    have hmem : ∀ n ∈ (List.finRange ADDRMAN_TRIED_BUCKET_COUNT).flatMap st.vvTried, n ∈ st.counted.1 := by
      intro n hn
      obtain ⟨b, -, hb⟩ := List.mem_flatMap.mp hn
      obtain ⟨info, hfound, hin, -⟩ := h.of_mem_tried hb
      exact (mem_counted st n).mpr ⟨info, hfound, hin⟩
    have hall : st.counted.1 \ ((List.finRange ADDRMAN_TRIED_BUCKET_COUNT).flatMap st.vvTried).toFinset = ∅ := by
      rw [Finset.sdiff_eq_empty_iff_subset]
      intro n hn
      obtain ⟨info, hfound, hin⟩ := (mem_counted st n).mp hn
      exact List.mem_toFinset.mpr (List.mem_flatMap.mpr
        ⟨_, List.mem_finRange _, (((h.entry hfound).tried hin).2.2.2.1 _).mpr rfl⟩)
    have htried := checkTried_fold _ h.tried_nodup st.counted.1 hmem
    have hnew := checkNew_fold ((List.finRange ADDRMAN_NEW_BUCKET_COUNT).flatMap fun b =>
      (st.vvNew b).sort (· ≤ ·)) st.counted.2 (fun n => (h.counted_eq n).trans (by rw [count_new])) (by
        intro n c hc
        obtain ⟨info, hfound, hin, rfl⟩ := (lookup_counted st n c).mp hc
        exact (((h.entry hfound).new hin).2.2.2 (by simp)).ne')
    rw [hcounts]
    simp only [Except.bind, bind]
    rw [if_neg (not_not.mpr h.card_tried), if_neg (not_not.mpr h.card_new), htried, hall]
    simp only [hnew]
    rfl
  · rw [hrun]
    exact Or.inr ⟨hneg, Or.inl rfl⟩
  · rw [hrun]
    exact Or.inr ⟨hneg, Or.inr rfl⟩

def peer : CAddress where
  ip := pchIPv4 ++ [8, 8, 8, 8]
  torV3 := none
  ip_length := rfl
  torV3_length := by simp
  port := 37347
  nServices := 1
  nTime := 1500000000
  nLastTry := 0

/-- A peer is heard of, tried and reached. -/
def metPeer : List Call :=
  [.add peer peer.toCNetAddr 0 1500000000 0 (fun _ => 1500000000) id, .attempt peer.toCService 1500000060,
    .good peer.toCService 1500000061 0 id]

/-- The peer is tried by a clock before the year 1970. -/
def earlyAttempt : List Call :=
  [.add peer peer.toCNetAddr 0 1500000000 0 (fun _ => 1500000000) id, .attempt peer.toCService (-1)]

end Check

end CAddrMan

end AliasWallet
