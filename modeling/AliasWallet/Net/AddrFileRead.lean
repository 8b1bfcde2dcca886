import AliasWallet.Net.AddrFileSpec

/-!
# Filing the entries that are read (`IMPLEMENT_SERIALIZE` of `addrman.h`)

What reading makes of the entries and of the indices, whatever bytes they come from. Entries with distinct addresses are
filed one behind the other, and a tried one is lost only where its bucket has no place for all that belong there. The
indices give each new entry as many references as buckets name it.
-/

namespace AliasWallet
open Lib

namespace CAddrMan

section Entries

variable {hash : HashFn} {st : CAddrMan} {l news : List CAddrInfo} {info : CAddrInfo}

def addrsOf (l : List CAddrInfo) : List CNetAddr := l.map fun info => info.toCNetAddr

theorem addrsOf_append (l l' : List CAddrInfo) : addrsOf (l ++ l') = addrsOf l ++ addrsOf l' := List.map_append

theorem mem_addrsOf (hinfo : info ∈ l) : info.toCNetAddr ∈ addrsOf l := List.mem_map_of_mem hinfo

/-- An entry behind others with distinct addresses has another address than these. -/
theorem fresh_of_nodup (h : (addrsOf (l ++ [info])).Nodup) : (addrsOf l).Nodup ∧ info.toCNetAddr ∉ addrsOf l := by
  rw [addrsOf_append] at h
  exact ⟨h.of_append_left, fun hmem => List.disjoint_of_nodup_append h hmem (List.mem_singleton_self _)⟩

/-- The entries, the index by addresses and the vector hold just these entries, with their places as ids. -/
structure Filed (st : CAddrMan) (l : List CAddrInfo) : Prop where
  info : ∀ j, st.mapInfo.lookup j = l[j]?.map (CAddrInfo.moveTo j)
  addr : ∀ j info, l[j]? = some info → st.mapAddr.lookup info.toCNetAddr = some j
  random : st.vRandom = List.range l.length

/-- An entry is filed. -/
def put (st : CAddrMan) (n : Nat) (info : CAddrInfo) : CAddrMan :=
  { st with
    mapInfo := st.mapInfo.insert n (info.moveTo st.vRandom.length)
    mapAddr := st.mapAddr.insert info.toCNetAddr n
    vRandom := st.vRandom ++ [n] }

theorem Filed.put (h : Filed st l) (hfresh : info.toCNetAddr ∉ addrsOf l) :
    Filed (st.put l.length info) (l ++ [info]) where
  info j := by
    show (st.mapInfo.insert l.length (info.moveTo st.vRandom.length)).lookup j = _
    rw [h.random, List.length_range]
    by_cases hj : j = l.length
    · rw [hj, AList.lookup_insert, List.getElem?_concat_length]
      rfl
    · rw [AList.lookup_insert_ne hj, h.info]
      congr 1
      cases Nat.lt_or_gt_of_ne hj with
      | inl hlt => rw [List.getElem?_append_left hlt]
      | inr hgt => rw [List.getElem?_eq_none (Nat.le_of_lt hgt), List.getElem?_eq_none (by simpa using hgt)]
  addr j info' hinfo := by
    show (st.mapAddr.insert info.toCNetAddr l.length).lookup info'.toCNetAddr = some j
    cases Nat.lt_trichotomy j l.length with
    | inl hlt =>
      rw [List.getElem?_append_left hlt] at hinfo
      have hne : info'.toCNetAddr ≠ info.toCNetAddr := fun heq =>
        hfresh (heq ▸ mem_addrsOf (List.mem_of_getElem? hinfo))
      rw [AList.lookup_insert_ne hne, h.addr j info' hinfo]
    | inr hge =>
      cases hge with
      | inl heq =>
        rw [heq, List.getElem?_concat_length] at hinfo
        rw [← Option.some.inj hinfo, AList.lookup_insert, heq]
      | inr hgt =>
        rw [List.getElem?_eq_none (by simpa using hgt)] at hinfo
        cases hinfo
  random := by
    show st.vRandom ++ [l.length] = _
    rw [h.random, List.length_append, List.length_singleton, List.range_succ]

theorem fileNew_eq (hash : HashFn) (st : CAddrMan) (n : Nat) (info : CAddrInfo) :
    fileNew hash ADDRMAN_NEW_BUCKET_COUNT st n info = st.put n info := rfl

/-- The new entries are filed in their order. -/
theorem fileNews_spec (h : Filed st []) (hnodup : (addrsOf l).Nodup) :
    ∃ st', l.zipIdx.foldl (fun st p => fileNew hash ADDRMAN_NEW_BUCKET_COUNT st p.2 p.1) st = st' ∧ Filed st' l ∧
      st' = { st with mapInfo := st'.mapInfo, mapAddr := st'.mapAddr, vRandom := st'.vRandom } := by
  induction l using List.reverseRecOn with
  | nil => exact ⟨st, rfl, h, rfl⟩
  | append_singleton l info ih =>
    obtain ⟨hbefore, hfresh⟩ := fresh_of_nodup hnodup
    obtain ⟨st', hrun, hfiled, hkept⟩ := ih hbefore
    refine ⟨st'.put l.length info, ?_, hfiled.put hfresh, ?_⟩
    · rw [List.zipIdx_append, List.foldl_append, hrun, Nat.zero_add, List.zipIdx_cons, List.zipIdx_nil,
        List.foldl_cons, List.foldl_nil, fileNew_eq]
    · rw [hkept]
      rfl

/-- A tried entry is filed in its bucket. -/
def putTried (hash : HashFn) (st : CAddrMan) (info : CAddrInfo) : CAddrMan :=
  let nKBucket := info.getTriedBucket hash st.nKey
  { st.put st.nIdCount info.promoted with
    vvTried := Function.update st.vvTried nKBucket (st.vvTried nKBucket ++ [st.nIdCount])
    nIdCount := st.nIdCount + 1 }

theorem fileTried_eq (hplace : (st.vvTried (info.getTriedBucket hash st.nKey)).length < ADDRMAN_TRIED_BUCKET_SIZE)
    (nLost : Int) : fileTried hash (st, nLost) info = (putTried hash st info, nLost) := if_pos hplace

/-- The places of the entries that belong to a tried bucket, from the first free id on. -/
def triedPlaces (hash : HashFn) (nKey : Bytes) (l : List CAddrInfo) (nIdCount : Nat) (b : TriedBucket) : List Nat :=
  ((l.zipIdx nIdCount).filter fun p => p.1.getTriedBucket hash nKey = b).map Prod.snd

theorem triedPlaces_append (hash : HashFn) (nKey : Bytes) (l : List CAddrInfo) (info : CAddrInfo) (nIdCount : Nat)
    (b : TriedBucket) : triedPlaces hash nKey (l ++ [info]) nIdCount b = triedPlaces hash nKey l nIdCount b ++
      if info.getTriedBucket hash nKey = b then [nIdCount + l.length] else [] := by
  rw [triedPlaces, triedPlaces, List.zipIdx_append, List.filter_append, List.map_append]
  by_cases hb : info.getTriedBucket hash nKey = b
  · simp [hb]
  · simp [hb]

theorem triedPlaces_length (hash : HashFn) (nKey : Bytes) (l : List CAddrInfo) (nIdCount : Nat) (b : TriedBucket) :
    (triedPlaces hash nKey l nIdCount b).length = l.countP fun info => info.getTriedBucket hash nKey = b := by
  induction l using List.reverseRecOn with
  | nil => rfl
  | append_singleton l info ih =>
    rw [triedPlaces_append, List.length_append, ih, List.countP_append]
    by_cases hb : info.getTriedBucket hash nKey = b
    · simp [hb]
    · simp [hb]

/-- No tried entry is lost where each bucket has place for all entries that belong to it. -/
theorem fileTrieds_spec (h : Filed st news) (hcount : st.nIdCount = news.length) (hempty : ∀ b, st.vvTried b = [])
    (hnodup : (addrsOf (news ++ l)).Nodup)
    (hfew : ∀ b, (l.countP fun info => info.getTriedBucket hash st.nKey = b) ≤ ADDRMAN_TRIED_BUCKET_SIZE) :
    ∃ st', l.foldl (fileTried hash) (st, 0) = (st', 0) ∧ Filed st' (news ++ l.map CAddrInfo.promoted) ∧
      st'.nIdCount = news.length + l.length ∧ (∀ b, st'.vvTried b = triedPlaces hash st.nKey l news.length b) ∧
      st' = { st with
        nIdCount := st'.nIdCount
        mapInfo := st'.mapInfo
        mapAddr := st'.mapAddr
        vRandom := st'.vRandom
        vvTried := st'.vvTried } := by
  induction l using List.reverseRecOn with
  | nil =>
    rw [List.map_nil, List.append_nil]
    exact ⟨st, rfl, h, hcount, hempty, rfl⟩
  | append_singleton l info ih =>
    rw [← List.append_assoc] at hnodup
    obtain ⟨hbefore, hfresh⟩ := fresh_of_nodup hnodup
    have hfewBefore : ∀ b, (l.countP fun info => info.getTriedBucket hash st.nKey = b) ≤ ADDRMAN_TRIED_BUCKET_SIZE := by
      intro b
      have hall := hfew b
      rw [List.countP_append] at hall
      omega
    obtain ⟨st', hrun, hfiled, hnext, hplaces, hkept⟩ := ih hbefore hfewBefore
    have hkey : st'.nKey = st.nKey := by rw [hkept]
    have hsame : addrsOf (news ++ l.map CAddrInfo.promoted) = addrsOf (news ++ l) := by
      rw [addrsOf_append, addrsOf_append, addrsOf, addrsOf, addrsOf, List.map_map]
      rfl
    rw [← hsame] at hfresh
    have hlen : (news ++ l.map CAddrInfo.promoted).length = st'.nIdCount := by
      rw [List.length_append, List.length_map, hnext]
    have hplace : (st'.vvTried (info.getTriedBucket hash st'.nKey)).length < ADDRMAN_TRIED_BUCKET_SIZE := by
      have hall := hfew (info.getTriedBucket hash st.nKey)
      rw [List.countP_append, List.countP_singleton, if_pos (by simp)] at hall
      rw [hkey, hplaces, triedPlaces_length]
      omega
    have hput : Filed (st'.put _ info.promoted) _ := hfiled.put hfresh
    rw [hlen, List.append_assoc] at hput
    refine ⟨putTried hash st' info, ?_, ?_, ?_, ?_, ?_⟩
    · rw [List.foldl_append, hrun, List.foldl_cons, List.foldl_nil, fileTried_eq hplace]
    · rw [List.map_append, List.map_singleton]
      exact ⟨hput.info, hput.addr, hput.random⟩
    · show st'.nIdCount + 1 = _
      rw [hnext, List.length_append, List.length_singleton, Nat.add_assoc]
    · intro b
      show Function.update st'.vvTried (info.getTriedBucket hash st'.nKey)
        (st'.vvTried (info.getTriedBucket hash st'.nKey) ++ [st'.nIdCount]) b = _
      rw [triedPlaces_append, hkey, hnext]
      by_cases hb : info.getTriedBucket hash st.nKey = b
      · rw [if_pos hb, ← hb, Function.update_self, hplaces]
      · rw [if_neg hb, Function.update_of_ne (Ne.symm hb), hplaces, List.append_nil]
    · rw [hkept]
      rfl

end Entries

section Indices

variable {st : CAddrMan} {l : List (NewBucket × Nat)}

/-- The indices of all buckets, one after the other. -/
def fileIndices (st : CAddrMan) (l : List (NewBucket × Nat)) : CAddrMan :=
  l.foldl (fun st p => fileIndex ADDRMAN_NEW_BUCKET_COUNT p.1 st p.2) st

/-- An index of an entry with too few references puts it into the bucket. -/
theorem fileIndex_eq {b : NewBucket} {n : Nat} {info : CAddrInfo} (hfound : st.mapInfo.lookup n = some info)
    (hfew : info.nRefCount < ADDRMAN_NEW_BUCKETS_PER_ADDRESS) :
    (fileIndex ADDRMAN_NEW_BUCKET_COUNT b st n).vvNew = Function.update st.vvNew b (insert n (st.vvNew b)) ∧
      (∀ k, (fileIndex ADDRMAN_NEW_BUCKET_COUNT b st n).mapInfo.lookup k =
        if k = n then some (info.addRef 1) else st.mapInfo.lookup k) ∧
      fileIndex ADDRMAN_NEW_BUCKET_COUNT b st n = { st with
        mapInfo := (fileIndex ADDRMAN_NEW_BUCKET_COUNT b st n).mapInfo
        vvNew := (fileIndex ADDRMAN_NEW_BUCKET_COUNT b st n).vvNew } := by
  rw [fileIndex, hfound, Option.getD_some]
  dsimp only
  rw [if_pos ⟨rfl, hfew⟩]
  refine ⟨rfl, fun k => ?_, rfl⟩
  by_cases hk : k = n
  · rw [if_pos hk, hk]
    exact lookup_modify_self (AList.lookup_insert _) _
  · rw [if_neg hk]
    exact (lookup_modify_of_ne hk _).trans (AList.lookup_insert_ne hk)

/-- Buckets that named no entry before hold what the indices name, and the entries count it. -/
theorem fileIndices_spec (hempty : ∀ b, st.vvNew b = ∅)
    (hids : ∀ p ∈ l, ∃ info, st.mapInfo.lookup p.2 = some info ∧ info.nRefCount = 0) (hnodup : l.Nodup)
    (hfew : ∀ n, ((Finset.univ.filter fun b => (b, n) ∈ l).card : Int) ≤ ADDRMAN_NEW_BUCKETS_PER_ADDRESS) :
    (∀ b n, n ∈ (fileIndices st l).vvNew b ↔ (b, n) ∈ l) ∧
      (∀ n, (fileIndices st l).mapInfo.lookup n =
        (st.mapInfo.lookup n).map (CAddrInfo.addRef (holders (fileIndices st l).vvNew n).card)) ∧
      fileIndices st l = { st with mapInfo := (fileIndices st l).mapInfo, vvNew := (fileIndices st l).vvNew } := by
  induction l using List.reverseRecOn with
  | nil =>
    refine ⟨fun b n => ?_, fun n => ?_, rfl⟩
    · show n ∈ st.vvNew b ↔ _
      rw [hempty]
      simp
    · show st.mapInfo.lookup n = (st.mapInfo.lookup n).map (CAddrInfo.addRef (holders st.vvNew n).card)
      have hnone : holders st.vvNew n = ∅ := by
        ext b
        rw [mem_holders, hempty]
        simp
      rw [hnone]
      cases st.mapInfo.lookup n with
      | none => rfl
      | some info => simp [CAddrInfo.addRef]
  | append_singleton l p ih =>
    obtain ⟨b, n⟩ := p
    have hbefore : ∀ k, ((Finset.univ.filter fun b => (b, k) ∈ l).card : Int) ≤ ADDRMAN_NEW_BUCKETS_PER_ADDRESS := by
      intro k
      refine le_trans ?_ (hfew k)
      rw [Nat.cast_le]
      apply Finset.card_le_card
      intro c hc
      rw [Finset.mem_filter] at hc ⊢
      exact ⟨hc.1, List.mem_append_left _ hc.2⟩
    obtain ⟨hnew, hinfo, hkept⟩ := ih (fun p hp => hids p (List.mem_append_left _ hp)) hnodup.of_append_left hbefore
    have hnotMem : (b, n) ∉ l := fun hmem => List.disjoint_of_nodup_append hnodup hmem (List.mem_singleton_self _)
    have hstep : fileIndices st (l ++ [(b, n)]) = fileIndex ADDRMAN_NEW_BUCKET_COUNT b (fileIndices st l) n := by
      rw [fileIndices, List.foldl_append]
      rfl
    obtain ⟨info, hfound, hzero⟩ := hids (b, n) (List.mem_append_right _ (List.mem_singleton_self _))
    have hmem : b ∉ holders (fileIndices st l).vvNew n := by
      rw [mem_holders, hnew]
      exact hnotMem
    have hlookup := hinfo n
    rw [hfound, Option.map_some] at hlookup
    have hlt : (info.addRef (holders (fileIndices st l).vvNew n).card).nRefCount < ADDRMAN_NEW_BUCKETS_PER_ADDRESS := by
      have hall : (holders (fileIndices st l).vvNew n).card + 1 =
          (Finset.univ.filter fun c => (c, n) ∈ l ++ [(b, n)]).card := by
        rw [← Finset.card_insert_of_notMem hmem]
        congr 1
        ext c
        rw [Finset.mem_insert, mem_holders, hnew, Finset.mem_filter]
        simp [or_comm]
      have hmax := hfew n
      show info.nRefCount + (holders (fileIndices st l).vvNew n).card < ADDRMAN_NEW_BUCKETS_PER_ADDRESS
      omega
    obtain ⟨hnew', hinfo', hkept'⟩ := fileIndex_eq (b := b) hlookup hlt
    rw [hstep]
    refine ⟨fun c k => ?_, fun k => ?_, ?_⟩
    · rw [hnew']
      by_cases hc : c = b
      · rw [hc, Function.update_self, Finset.mem_insert, hnew]
        simp [or_comm]
      · rw [Function.update_of_ne hc, hnew]
        simp [hc]
    · rw [hinfo', hnew']
      by_cases hk : k = n
      · rw [if_pos hk, hk, hfound, holders_insert_self, Finset.card_insert_of_notMem hmem, Option.map_some]
        simp [CAddrInfo.addRef, Int.add_assoc]
      · rw [if_neg hk, holders_insert_of_ne hk, hinfo]
    · rw [hkept', hkept]

end Indices

end CAddrMan

end AliasWallet
