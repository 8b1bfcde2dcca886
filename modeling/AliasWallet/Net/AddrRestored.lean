import AliasWallet.Crypto.Concrete
import AliasWallet.Net.AddrFileKept

/-!
# The address file restores the address manager

A state that `Check_` finds right, with its tried entries where they belong, comes back right and with the same entries
in the same buckets. `Check_` alone is not enough: a tried entry that is in another bucket comes back in its own.
-/

namespace AliasWallet
open Lib

/-- An entry without what is only in memory. -/
def CAddrInfo.statistics (info : CAddrInfo) : CAddrInfo := { info with nLastTry := 0, nRandomPos := 0 }

namespace CAddrMan

section Checked

variable {hash : HashFn} {st st' : CAddrMan}

/-- The entries with their new ids. -/
def restored (st : CAddrMan) : List (Nat × CAddrInfo) :=
  st.saved.zipIdx.map fun p => (p.2, { p.1.2 with nLastTry := 0, nRandomPos := p.2 })

theorem ReadBack.mem_restored (h : ReadBack st st') (j : Nat) (info : CAddrInfo) :
    (j, info) ∈ st.restored ↔ st'.mapInfo.lookup j = some info := by
  rw [h.info, restored, List.mem_map, Option.map_eq_some_iff]
  constructor
  · intro hmem
    obtain ⟨⟨e, k⟩, he, heq⟩ := hmem
    obtain ⟨rfl, rfl⟩ := Prod.mk.inj heq
    exact ⟨e, List.mem_zipIdx_iff_getElem?.mp he, rfl⟩
  · intro hplace
    obtain ⟨e, he, rfl⟩ := hplace
    exact ⟨(e, j), List.mem_zipIdx_iff_getElem?.mpr he, rfl⟩

theorem restored_keys_nodup (st : CAddrMan) : (st.restored.map Prod.fst).Nodup := by
  have hids : st.restored.map Prod.fst = st.saved.zipIdx.map Prod.snd := by rw [restored, List.map_map]; rfl
  rw [hids, List.zipIdx_map_snd]
  exact List.nodup_range'

/-- As many entries of a kind come back as there were. -/
theorem restored_filter_length (st : CAddrMan) (p : Bool → Bool) :
    (st.restored.filter fun e => p e.2.fInTried).length = (st.infosById.filter fun e => p e.2.fInTried).length := by
  rw [← ((saved_perm st).filter _).length_eq, ← List.countP_eq_length_filter, ← List.countP_eq_length_filter, restored,
    List.countP_map]
  show List.countP ((fun e : Nat × CAddrInfo => p e.2.fInTried) ∘ Prod.fst) st.saved.zipIdx = _
  rw [← List.countP_map, List.zipIdx_map_fst]

theorem ReadBack.holders_eq (h : ReadBack st st') {j : Nat} {e : Nat × CAddrInfo} (he : st.saved[j]? = some e) :
    holders st'.vvNew j = holders st.vvNew e.1 := by
  ext b
  rw [mem_holders, mem_holders, h.inNew, he]
  simp

theorem ReadBack.entry (h : ReadBack st st') (hchecked : Checked st) (j : Nat) (info : CAddrInfo)
    (hfound : st'.mapInfo.lookup j = some info) : EntryChecked st' j info := by
  rw [h.info] at hfound
  obtain ⟨e, he, rfl⟩ := Option.map_eq_some_iff.mp hfound
  have hentry := hchecked.entry e.1 e.2 (mem_saved.mp (List.mem_of_getElem? he))
  refine ⟨hentry.tried, hentry.new, ?_, ?_, Int64.le_refl 0, hentry.lastSuccess⟩
  · show (st'.mapAddr.lookup e.2.toCNetAddr).getD 0 = j
    rw [h.addr j e he, Option.getD_some]
  · rw [h.random]
    exact List.getElem?_range (List.getElem?_eq_some_iff.mp he).1

theorem ReadBack.mem_triedIds (h : ReadBack st st') (j : Nat) :
    j ∈ st'.triedIds ↔ ∃ e, st.saved[j]? = some e ∧ e.1 ∈ st.triedIds := by
  simp only [triedIds, List.mem_flatMap, h.inTried]
  constructor
  · intro hmem
    obtain ⟨b, hb, e, he, hn⟩ := hmem
    exact ⟨e, he, b, hb, hn⟩
  · intro hmem
    obtain ⟨e, he, b, hb, hn⟩ := hmem
    exact ⟨b, hb, e, he, hn⟩

theorem ReadBack.triedIds_nodup (h : ReadBack st st') (hchecked : Checked st) : st'.triedIds.Nodup := by
  rw [triedIds, List.nodup_flatMap]
  refine ⟨fun b _ => h.triedOnce b, ?_⟩
  apply (List.nodup_flatMap.mp hchecked.triedOnce).2.imp
  intro b c hdisjoint
  rw [Function.onFun, List.disjoint_left] at hdisjoint ⊢
  intro j hb hc
  obtain ⟨e, he, hnb⟩ := (h.inTried b j).mp hb
  obtain ⟨e', he', hnc⟩ := (h.inTried c j).mp hc
  rw [he] at he'
  exact hdisjoint hnb (Option.some.inj he' ▸ hnc)

/-- What comes back is right where the state that was written was. -/
theorem ReadBack.checked (h : ReadBack st st') (hchecked : Checked st) : Checked st' where
  entry := h.entry hchecked
  total := by
    have hnew := hchecked.savedNew_length
    have htried := hchecked.savedTried_length
    rw [h.random, List.length_range, saved, List.length_append, h.nNew, h.nTried]
    omega
  nTried := by
    rw [card_counted_tried h.mem_restored st.restored_keys_nodup, h.nTried, ← hchecked.savedTried_length]
    exact congrArg Nat.cast (restored_filter_length st id)
  nNew := by
    rw [length_counted_new h.mem_restored st.restored_keys_nodup, h.nNew, ← hchecked.savedNew_length]
    exact congrArg Nat.cast (restored_filter_length st not)
  triedOnce := h.triedIds_nodup hchecked
  inTried j := by
    rw [h.mem_triedIds, mem_counted, h.info]
    constructor
    · intro hmem
      obtain ⟨e, he, hn⟩ := hmem
      obtain ⟨info, hfound, hin⟩ := (mem_counted st e.1).mp ((hchecked.inTried e.1).mp hn)
      have hsame : info = e.2 := by
        rw [mem_saved.mp (List.mem_of_getElem? he)] at hfound
        exact (Option.some.inj hfound).symm
      exact ⟨{ e.2 with nLastTry := 0, nRandomPos := j }, by rw [he]; rfl, hsame ▸ hin⟩
    · intro hmem
      obtain ⟨info, hinfo, hin⟩ := hmem
      obtain ⟨e, he, rfl⟩ := Option.map_eq_some_iff.mp hinfo
      have hfound := mem_saved.mp (List.mem_of_getElem? he)
      exact ⟨e, he, (hchecked.inTried e.1).mpr ((mem_counted st e.1).mpr ⟨e.2, hfound, hin⟩)⟩
  inNew j := by
    cases he : st.saved[j]? with
    | none =>
      have hholders : holders st'.vvNew j = ∅ := by
        ext b
        rw [mem_holders, h.inNew, he]
        simp
      cases hc : st'.counted.2.lookup j with
      | none => rw [hholders]; rfl
      | some c =>
        obtain ⟨info, hfound, -⟩ := (lookup_counted st' j c).mp hc
        rw [h.info, he] at hfound
        cases hfound
    | some e =>
      have hsame : st'.counted.2.lookup j = st.counted.2.lookup e.1 := by
        apply Option.ext
        intro c
        rw [lookup_counted, lookup_counted, h.info, he,
          mem_saved.mp (List.mem_of_getElem? he)]
        simp
      rw [h.holders_eq he, hsame]
      exact hchecked.inNew e.1

end Checked

section Restored

variable {hash : HashFn} {st st' : CAddrMan}

/-- The entries with ids in a set, as far as they are written. -/
def entriesOf (st : CAddrMan) (ids : Set Nat) : Set CAddrInfo :=
  { info | ∃ n ∈ ids, ∃ info', st.mapInfo.lookup n = some info' ∧ info'.statistics = info }

/-- Two states have the same entries in the same buckets. -/
structure SameSaved (st st' : CAddrMan) : Prop where
  nKey : st'.nKey = st.nKey
  nNew : st'.nNew = st.nNew
  nTried : st'.nTried = st.nTried
  all : st'.entriesOf { n | n ∈ st'.mapInfo } = st.entriesOf { n | n ∈ st.mapInfo }
  inNew : ∀ b, st'.entriesOf { n | n ∈ st'.vvNew b } = st.entriesOf { n | n ∈ st.vvNew b }
  inTried : ∀ b, st'.entriesOf { n | n ∈ st'.vvTried b } = st.entriesOf { n | n ∈ st.vvTried b }

theorem ReadBack.entriesOf_eq (h : ReadBack st st') {ids ids' : Set Nat}
    (hids : ∀ j, j ∈ ids' ↔ ∃ e, st.saved[j]? = some e ∧ e.1 ∈ ids) : st'.entriesOf ids' = st.entriesOf ids := by
  ext info
  constructor
  · intro hinfo
    obtain ⟨j, hj, info', hfound, rfl⟩ := hinfo
    obtain ⟨e, he, hn⟩ := (hids j).mp hj
    rw [h.info, he] at hfound
    exact ⟨e.1, hn, e.2, mem_saved.mp (List.mem_of_getElem? he), by rw [← Option.some.inj hfound]; rfl⟩
  · intro hinfo
    obtain ⟨n, hn, info', hfound, rfl⟩ := hinfo
    obtain ⟨j, hj⟩ := List.mem_iff_getElem?.mp (mem_saved.mpr hfound)
    exact ⟨j, (hids j).mpr ⟨(n, info'), hj, hn⟩, { info' with nLastTry := 0, nRandomPos := j },
      by rw [h.info, hj]; rfl, rfl⟩

theorem ReadBack.mem_mapInfo (h : ReadBack st st') (j : Nat) :
    j ∈ st'.mapInfo ↔ ∃ e, st.saved[j]? = some e ∧ e.1 ∈ st.mapInfo := by
  rw [← AList.lookup_isSome, h.info, Option.isSome_map, Option.isSome_iff_exists]
  apply exists_congr
  intro e
  constructor
  · intro he
    exact ⟨he, AList.lookup_isSome.mp (by rw [mem_saved.mp (List.mem_of_getElem? he)]; rfl)⟩
  · exact And.left

theorem ReadBack.sameSaved (h : ReadBack st st') : SameSaved st st' where
  nKey := h.nKey
  nNew := h.nNew
  nTried := h.nTried
  all := h.entriesOf_eq h.mem_mapInfo
  inNew b := h.entriesOf_eq (h.inNew b)
  inTried b := h.entriesOf_eq (h.inTried b)

/-- The address file restores every state that `Check_` finds right and whose tried entries are where they belong. -/
theorem addressFile_restores {hash : HashFn} {st : CAddrMan} (hcheck : st.check_ = .ok ()) (hrange : InRange st)
    (hplaced : TriedPlaced hash st) (am : CAddrMan) (rest : Bytes) :
    ∃ st', (unserialize hash am).run (st.diskBytes ++ rest) = some (st', rest) ∧ st'.check_ = .ok () ∧
      SameSaved st st' := by
  have hchecked := (check_ok_iff st).mp hcheck
  obtain ⟨st', hrun, hback⟩ := hchecked.unserialize_diskBytes hrange hplaced am rest
  exact ⟨st', hrun, (check_ok_iff st').mpr (hback.checked hchecked), hback.sameSaved⟩

theorem Consistent.triedPlaced {timely : Prop} (h : Consistent hash timely .settled st) : TriedPlaced hash st where
  bucket b n hn info hfound := by
    obtain ⟨info', hfound', -, hbucket⟩ := h.of_mem_tried hn
    rw [hfound] at hfound'
    rw [Option.some.inj hfound']
    exact hbucket
  size := h.triedSize

/-- The state after any calls with sensible times comes back from the disk. -/
theorem runCalls_restored (hash : HashFn) (nKey : Bytes) (calls : List Call) (htimed : ∀ c ∈ calls, c.Timed)
    (htimely : ∀ c ∈ calls, c.Timely) :
    ∃ st, runCalls hash nKey calls = some st ∧ (InRange st → ∀ am rest, ∃ st',
      (unserialize hash am).run (st.diskBytes ++ rest) = some (st', rest) ∧ Checked st' ∧ SameSaved st st') := by
  obtain ⟨st, hrun, hst⟩ := runCalls_consistent hash True nKey calls htimed fun _ => htimely
  refine ⟨st, hrun, fun hrange am rest => ?_⟩
  have hchecked := (check_ok_iff st).mp (hst.check_.resolve_right fun hneg => hneg.1 trivial)
  obtain ⟨st', hread, hback⟩ := hchecked.unserialize_diskBytes hrange hst.triedPlaced am rest
  exact ⟨st', hread, hback.checked hchecked, hback.sameSaved⟩

/-- A bucket whose entry came back in another one. -/
theorem ReadBack.entriesOf_tried_empty (h : ReadBack st st') {b : TriedBucket} (hempty : st.vvTried b = []) :
    st'.entriesOf { n | n ∈ st'.vvTried b } = ∅ := by
  rw [Set.eq_empty_iff_forall_notMem]
  intro info hinfo
  obtain ⟨j, hj, -⟩ := hinfo
  obtain ⟨e, -, hn⟩ := (h.inTried b j).mp hj
  rw [hempty] at hn
  exact absurd hn List.not_mem_nil

end Restored

section Sample

/-- A peer that was reached. -/
def reachedPeer : CAddrInfo :=
  { peer with
    source := peer.toCNetAddr
    nLastSuccess := 1500000061
    nAttempts := 1
    nRefCount := 0
    fInTried := true
    nRandomPos := 0
    nLastTry := 1500000060 }

/-- A peer that was heard of twice. -/
def heardPeer : CAddrInfo where
  ip := pchIPv4 ++ [8, 8, 4, 4]
  torV3 := none
  ip_length := rfl
  torV3_length := by simp
  port := 37347
  nServices := 1
  nTime := 1500000000
  nLastTry := 0
  source := peer.toCNetAddr
  nLastSuccess := 0
  nAttempts := 0
  nRefCount := 2
  fInTried := false
  nRandomPos := 1

/-- The one peer is in a tried bucket and the other one in two new ones. -/
def twoPeers (b : TriedBucket) : CAddrMan where
  nKey := [7]
  nIdCount := 4
  mapInfo := ((∅ : AList fun _ : Nat => CAddrInfo).insert 1 reachedPeer).insert 3 heardPeer
  mapAddr := ((∅ : AList fun _ : CNetAddr => Nat).insert reachedPeer.toCNetAddr 1).insert heardPeer.toCNetAddr 3
  vRandom := [1, 3]
  nTried := 1
  vvTried := fun c => if c = b then [1] else []
  nNew := 1
  vvNew := fun c => if c = newBucket 5 ∨ c = newBucket 200 then {3} else ∅

theorem twoPeers_check : ∀ b, (twoPeers b).check_ = .ok () := by decide +kernel

theorem twoPeers_lookup (b : TriedBucket) (n : Nat) (info : CAddrInfo) :
    (twoPeers b).mapInfo.lookup n = some info ↔ n = 3 ∧ info = heardPeer ∨ n = 1 ∧ info = reachedPeer := by
  have hlookup : (twoPeers b).mapInfo.lookup n =
      if n = 3 then some heardPeer else if n = 1 then some reachedPeer else none := by
    show (((∅ : AList fun _ : Nat => CAddrInfo).insert 1 reachedPeer).insert 3 heardPeer).lookup n = _
    by_cases hthree : n = 3
    · rw [hthree, AList.lookup_insert, if_pos rfl]
    · rw [AList.lookup_insert_ne hthree, if_neg hthree]
      by_cases hone : n = 1
      · rw [hone, AList.lookup_insert, if_pos rfl]
      · rw [AList.lookup_insert_ne hone, if_neg hone]
        rfl
  rw [hlookup]
  by_cases hthree : n = 3
  · simp [hthree, eq_comm]
  · by_cases hone : n = 1
    · simp [hone, eq_comm]
    · simp [hthree, hone]

theorem twoPeers_inRange (b : TriedBucket) : InRange (twoPeers b) where
  nKey := by
    show 1 ≤ MAX_SIZE
    decide
  nNew := by
    show (1 : Int) < 0x80000000
    decide
  nTried := by
    show (1 : Int) < 0x80000000
    decide
  nAttempts n info h := by
    cases (twoPeers_lookup b n info).mp h with
    | inl h => rw [h.2]; decide
    | inr h => rw [h.2]; decide

theorem twoPeers_placed (hash : HashFn) {b : TriedBucket} (hb : reachedPeer.getTriedBucket hash [7] = b) :
    TriedPlaced hash (twoPeers b) where
  bucket c n hn info hfound := by
    have hmem : n ∈ if c = b then [1] else [] := hn
    by_cases hc : c = b
    · rw [if_pos hc, List.mem_singleton] at hmem
      rw [hmem, twoPeers_lookup] at hfound
      have hinfo : info = reachedPeer := by simpa using hfound
      rw [hinfo, hc]
      exact hb
    · rw [if_neg hc] at hmem
      exact absurd hmem List.not_mem_nil
  size c := by
    show (if c = b then [1] else []).length ≤ _
    split
    · decide
    · decide

theorem addressFile_restores_twoPeers : (twoPeers (triedBucket 0)).check_ = .ok () ∧
    ∃ st', (unserialize (fun _ => 0) (empty [])).run ((twoPeers (triedBucket 0)).diskBytes ++ []) = some (st', []) ∧
      st'.check_ = .ok () ∧ SameSaved (twoPeers (triedBucket 0)) st' :=
  ⟨twoPeers_check _, addressFile_restores (twoPeers_check _) (twoPeers_inRange _)
    (twoPeers_placed (fun _ => 0) (by decide)) (empty []) []⟩

/-- `Check_` finds a state right in which a tried entry is in another bucket than its own, and that
bucket comes back without it. -/
theorem addressFile_moves : ∃ b : TriedBucket, (twoPeers b).check_ = .ok () ∧ InRange (twoPeers b) ∧
    ∀ am rest, ∃ st', (unserialize sha256d am).run ((twoPeers b).diskBytes ++ rest) = some (st', rest) ∧
      reachedPeer.statistics ∈ (twoPeers b).entriesOf { n | n ∈ (twoPeers b).vvTried b } ∧
      st'.entriesOf { n | n ∈ st'.vvTried b } = ∅ := by
  -- the file is the one of the state with the entry in its own bucket
  have hbytes : ∀ b c, (twoPeers b).diskBytes = (twoPeers c).diskBytes := fun _ _ => rfl
  have hother : ∀ c : TriedBucket, ∃ b, b ≠ c := by
    intro c
    by_cases hc : triedBucket 0 = c
    · exact ⟨triedBucket 1, fun heq => absurd (hc.trans heq.symm) (by decide)⟩
    · exact ⟨triedBucket 0, hc⟩
  obtain ⟨b, hb⟩ := hother (reachedPeer.getTriedBucket sha256d [7])
  refine ⟨b, twoPeers_check b, twoPeers_inRange b, fun am rest => ?_⟩
  have hchecked := (check_ok_iff _).mp (twoPeers_check (reachedPeer.getTriedBucket sha256d [7]))
  obtain ⟨st', hrun, hback⟩ := hchecked.unserialize_diskBytes (twoPeers_inRange _) (twoPeers_placed sha256d rfl) am rest
  refine ⟨st', by rw [hbytes b]; exact hrun, ?_, hback.entriesOf_tried_empty (if_neg hb)⟩
  have hmem : 1 ∈ (twoPeers b).vvTried b := by
    show 1 ∈ if b = b then [1] else []
    simp
  exact ⟨1, hmem, reachedPeer, (twoPeers_lookup b 1 reachedPeer).mpr (.inr ⟨rfl, rfl⟩), rfl⟩

end Sample

end CAddrMan

end AliasWallet
