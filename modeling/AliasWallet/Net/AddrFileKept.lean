import AliasWallet.Net.AddrFileRead

/-!
# The state that comes back from the disk

Every entry comes back with its place in the file as its id, in the buckets in which it was. `Check_` does not see
whether a tried entry is in the bucket that its hash gives, and reading puts it there.
-/

namespace AliasWallet
open Lib

namespace CAddrMan

section Places

variable {hash : HashFn} {st : CAddrMan}

/-- The fields are in the ranges of their types, and the key can be read. -/
structure InRange (st : CAddrMan) : Prop where
  nKey : st.nKey.length ≤ MAX_SIZE
  nNew : st.nNew < 0x80000000
  nTried : st.nTried < 0x80000000
  nAttempts : ∀ n info, st.mapInfo.lookup n = some info →
    -0x80000000 ≤ info.nAttempts ∧ info.nAttempts < 0x80000000

/-- The tried entries are where they belong, and no more of them than there is place for. -/
structure TriedPlaced (hash : HashFn) (st : CAddrMan) : Prop where
  bucket : ∀ b, ∀ n ∈ st.vvTried b, ∀ info, st.mapInfo.lookup n = some info → info.getTriedBucket hash st.nKey = b
  size : ∀ b, (st.vvTried b).length ≤ ADDRMAN_TRIED_BUCKET_SIZE

theorem saved_perm (st : CAddrMan) : st.saved.Perm st.infosById := by
  have hperm := List.filter_append_perm (fun e : Nat × CAddrInfo => !e.2.fInTried) st.infosById
  simp only [Bool.not_not] at hperm
  exact hperm

theorem mem_saved {n : Nat} {info : CAddrInfo} : (n, info) ∈ st.saved ↔ st.mapInfo.lookup n = some info :=
  (saved_perm st).mem_iff.trans mem_infosById

theorem saved_keys_nodup (st : CAddrMan) : (st.saved.map Prod.fst).Nodup :=
  ((saved_perm st).map Prod.fst).nodup_iff.mpr st.infosById_keys_nodup

/-- An id has one place. -/
theorem saved_place_unique {i j : Nat} {e e' : Nat × CAddrInfo} (hi : st.saved[i]? = some e)
    (hj : st.saved[j]? = some e') (hsame : e.1 = e'.1) : i = j := by
  have hgetI : (st.saved.map Prod.fst)[i]? = some e.1 := by rw [List.getElem?_map, hi]; rfl
  have hgetJ : (st.saved.map Prod.fst)[j]? = some e.1 := by rw [List.getElem?_map, hj, hsame]; rfl
  have hlt := (List.getElem?_eq_some_iff.mp hgetI).1
  exact (List.getElem?_inj hlt st.saved_keys_nodup).mp (hgetI.trans hgetJ.symm)

theorem Checked.saved_addrs_nodup (h : Checked st) : (st.saved.map fun e => e.2.toCNetAddr).Nodup := by
  apply List.Nodup.map_on
  · intro e he e' he' hsame
    have haddr := (h.entry e.1 e.2 (mem_saved.mp he)).addr
    have haddr' := (h.entry e'.1 e'.2 (mem_saved.mp he')).addr
    rw [hsame, haddr'] at haddr
    exact List.inj_on_of_nodup_map st.saved_keys_nodup he he' haddr.symm
  · exact List.Nodup.of_map Prod.fst st.saved_keys_nodup

/-- The references of an entry are the new buckets that hold it. -/
theorem Checked.holders_card (h : Checked st) {n : Nat} {info : CAddrInfo} (hfound : st.mapInfo.lookup n = some info) :
    ((holders st.vvNew n).card : Int) = info.nRefCount := by
  rw [← h.inNew n]
  cases hc : st.counted.2.lookup n with
  | some c =>
    obtain ⟨info', hfound', -, hrefs⟩ := (lookup_counted st n c).mp hc
    rw [hfound] at hfound'
    rw [Option.some.inj hfound', hrefs, Option.getD_some]
  | none =>
    have hin : info.fInTried = true := by
      by_contra hout
      have hsome := (lookup_counted st n info.nRefCount).mpr ⟨info, hfound, Bool.eq_false_iff.mpr hout, rfl⟩
      rw [hc] at hsome
      cases hsome
    rw [Option.getD_none, ((h.entry n info hfound).tried hin).2]

theorem Checked.holders_le (h : Checked st) {n : Nat} {info : CAddrInfo} (hfound : st.mapInfo.lookup n = some info) :
    ((holders st.vvNew n).card : Int) ≤ ADDRMAN_NEW_BUCKETS_PER_ADDRESS := by
  rw [h.holders_card hfound]
  cases hin : info.fInTried with
  | true =>
    rw [((h.entry n info hfound).tried hin).2]
    decide
  | false => exact ((h.entry n info hfound).new hin).2

theorem Checked.mem_tried_iff (h : Checked st) {n : Nat} {info : CAddrInfo} (hfound : st.mapInfo.lookup n = some info) :
    (∃ b, n ∈ st.vvTried b) ↔ info.fInTried = true := by
  have hids := h.inTried n
  rw [triedIds, List.mem_flatMap, mem_counted, hfound] at hids
  simpa using hids

/-- What the tried buckets hold are entries. -/
theorem Checked.of_mem_tried (h : Checked st) {b : TriedBucket} {n : Nat} (hn : n ∈ st.vvTried b) :
    ∃ info, st.mapInfo.lookup n = some info ∧ info.fInTried = true :=
  (mem_counted st n).mp ((h.inTried n).mp (List.mem_flatMap.mpr ⟨b, List.mem_finRange b, hn⟩))

end Places

section Indices

variable {st : CAddrMan}

/-- The indices that are written for a bucket. -/
def bucketIndices (st : CAddrMan) (b : NewBucket) : List Nat := ((st.vvNew b).sort (· ≤ ·)).map st.savedIndex

/-- The indices of all buckets, with their buckets. -/
def indices (st : CAddrMan) : List (NewBucket × Nat) :=
  (List.finRange ADDRMAN_NEW_BUCKET_COUNT).flatMap fun b => (st.bucketIndices b).map fun j => (b, j)

theorem mem_indices {b : NewBucket} {j : Nat} : (b, j) ∈ st.indices ↔ ∃ n ∈ st.vvNew b, st.savedIndex n = j := by
  rw [indices, List.mem_flatMap]
  constructor
  · intro h
    obtain ⟨c, -, hc⟩ := h
    obtain ⟨k, hk, heq⟩ := List.mem_map.mp hc
    obtain ⟨rfl, rfl⟩ := Prod.mk.inj heq
    obtain ⟨n, hn, rfl⟩ := List.mem_map.mp hk
    exact ⟨n, (Finset.mem_sort _).mp hn, rfl⟩
  · intro h
    obtain ⟨n, hn, rfl⟩ := h
    exact ⟨b, List.mem_finRange b,
      List.mem_map_of_mem (List.mem_map_of_mem ((Finset.mem_sort (· ≤ ·)).mpr hn))⟩

/-- The index of an entry of a new bucket is its place among all entries. -/
theorem Checked.saved_index (h : Checked st) {b : NewBucket} {n : Nat} (hn : n ∈ st.vvNew b) :
    st.savedIndex n < st.savedNew.length ∧ ∃ info, st.saved[st.savedIndex n]? = some (n, info) := by
  obtain ⟨info, hplace, -⟩ := h.savedIndex_spec hn
  have hlt := (List.getElem?_eq_some_iff.mp hplace).1
  exact ⟨hlt, info, (List.getElem?_append_left hlt).trans hplace⟩

theorem Checked.mem_indices_iff (h : Checked st) {b : NewBucket} {j : Nat} :
    (b, j) ∈ st.indices ↔ ∃ e, st.saved[j]? = some e ∧ e.1 ∈ st.vvNew b := by
  rw [mem_indices]
  constructor
  · intro hindex
    obtain ⟨n, hn, rfl⟩ := hindex
    obtain ⟨-, info, hplace⟩ := h.saved_index hn
    exact ⟨_, hplace, hn⟩
  · intro hplace
    obtain ⟨e, he, hn⟩ := hplace
    obtain ⟨-, info, hplace⟩ := h.saved_index hn
    exact ⟨e.1, hn, saved_place_unique hplace he rfl⟩

theorem Checked.indices_nodup (h : Checked st) : st.indices.Nodup := by
  rw [indices, List.nodup_flatMap]
  constructor
  · intro b hb
    apply List.Nodup.map (fun j k hjk => (Prod.mk.inj hjk).2)
    apply List.Nodup.map_on _ (Finset.sort_nodup _ _)
    intro n hn k hk hsame
    obtain ⟨-, info, hplace⟩ := h.saved_index ((Finset.mem_sort (· ≤ ·)).mp hn)
    obtain ⟨-, info', hplace'⟩ := h.saved_index ((Finset.mem_sort (· ≤ ·)).mp hk)
    rw [hsame, hplace'] at hplace
    exact (Prod.mk.inj (Option.some.inj hplace)).1.symm
  · apply (List.nodup_finRange ADDRMAN_NEW_BUCKET_COUNT).imp
    intro b c hne
    rw [Function.onFun, List.disjoint_left]
    intro p hb hc
    obtain ⟨j, -, rfl⟩ := List.mem_map.mp hb
    obtain ⟨k, -, heq⟩ := List.mem_map.mp hc
    exact hne (Prod.mk.inj heq).1.symm

/-- No entry is in more buckets than an entry may be. -/
theorem Checked.indices_few (h : Checked st) (j : Nat) :
    ((Finset.univ.filter fun b => (b, j) ∈ st.indices).card : Int) ≤ ADDRMAN_NEW_BUCKETS_PER_ADDRESS := by
  cases hplace : st.saved[j]? with
  | none =>
    have hnone : (Finset.univ.filter fun b => (b, j) ∈ st.indices) = ∅ := by
      rw [Finset.filter_eq_empty_iff]
      intro b _ hb
      obtain ⟨e, he, -⟩ := h.mem_indices_iff.mp hb
      rw [hplace] at he
      cases he
    rw [hnone]
    decide
  | some e =>
    have hsame : (Finset.univ.filter fun b => (b, j) ∈ st.indices) = holders st.vvNew e.1 := by
      ext b
      rw [Finset.mem_filter, and_iff_right (Finset.mem_univ b), mem_holders, h.mem_indices_iff, hplace]
      simp
    rw [hsame]
    exact h.holders_le (mem_saved.mp (List.mem_of_getElem? hplace))

theorem Checked.bucket_card_le (h : Checked st) (b : NewBucket) : ((st.vvNew b).card : Int) ≤ st.nNew := by
  rw [← h.nNew, Nat.cast_le, ← List.toFinset_card_of_nodup st.counted.2.keys_nodup]
  apply Finset.card_le_card
  intro n hn
  obtain ⟨info, hfound, hin, -⟩ := h.of_mem_new hn
  exact (mem_keys_counted st n).mpr ⟨info, hfound, hin⟩

theorem Checked.writeBucket_eq (h : Checked st) (b : NewBucket) :
    writeBucket (writeNew st.nNew st.infosById 0 ∅).2 (st.vvNew b) =
      intBytes (st.bucketIndices b).length ++ (st.bucketIndices b).flatMap fun j : Nat => intBytes j := by
  rw [writeBucket, bucketIndices, List.length_map, Finset.length_sort, List.flatMap_map]
  congr 1
  apply List.flatMap_congr
  intro n hn
  obtain ⟨info, -, hlookup⟩ := h.savedIndex_spec ((Finset.mem_sort (· ≤ ·)).mp hn)
  rw [hlookup]

end Indices

section Reading

variable {hash : HashFn} {st : CAddrMan}

theorem readNew_diskBytes {info : CAddrInfo} (hattempts : -0x80000000 ≤ info.nAttempts ∧ info.nAttempts < 0x80000000)
    (st : CAddrMan) (n : Nat) (rest : Bytes) :
    (readNew hash ADDRMAN_NEW_BUCKET_COUNT st n).run (info.diskBytes ++ rest) =
      some (fileNew hash ADDRMAN_NEW_BUCKET_COUNT st n info.onDisk, rest) := by
  rw [readNew, run_bind_of_some (CAddrInfo.unserialize_diskBytes hattempts.1 hattempts.2 rest)]
  rfl

theorem readTried_diskBytes {info : CAddrInfo}
    (hattempts : -0x80000000 ≤ info.nAttempts ∧ info.nAttempts < 0x80000000) (s : CAddrMan × Int) (n : Nat)
    (rest : Bytes) :
    (readTried hash s n).run (info.diskBytes ++ rest) = some (fileTried hash s info.onDisk, rest) := by
  rw [readTried, run_bind_of_some (CAddrInfo.unserialize_diskBytes hattempts.1 hattempts.2 rest)]
  rfl

theorem readIndex_intBytes {j : Nat} (hj : j < 0x80000000) (b : NewBucket) (st : CAddrMan) (n : Nat) (rest : Bytes) :
    (readIndex ADDRMAN_NEW_BUCKET_COUNT b st n).run (intBytes j ++ rest) =
      some (fileIndex ADDRMAN_NEW_BUCKET_COUNT b st j, rest) := by
  rw [readIndex, run_bind_of_some (readInt_intBytes (by omega) (by omega) rest), if_neg (by omega), Int.toNat_natCast]
  rfl

/-- A loop that does not look at the index. -/
theorem foldl_zipIdx_fst {α β : Type} (f : β → α → β) (l : List α) (k : Nat) (b : β) :
    (l.zipIdx k).foldl (fun b p => f b p.1) b = l.foldl f b := by
  rw [← List.foldl_map (f := Prod.fst) (g := f), List.zipIdx_map_fst]

/-- A bucket is read. -/
theorem Checked.readBucket_writeBucket (h : Checked st) (hrange : InRange st) (s : CAddrMan) (b : NewBucket)
    (rest : Bytes) :
    (readBucket ADDRMAN_NEW_BUCKET_COUNT s b).run
        (writeBucket (writeNew st.nNew st.infosById 0 ∅).2 (st.vvNew b) ++ rest) =
      some (fileIndices s ((st.bucketIndices b).map fun j => (b, j)), rest) := by
  have hlen : ((st.bucketIndices b).length : Int) < 0x80000000 := by
    rw [bucketIndices, List.length_map, Finset.length_sort]
    exact Int.lt_of_le_of_lt (h.bucket_card_le b) hrange.nNew
  have hsmall : ∀ n j : Nat, (st.bucketIndices b)[n]? = some j → j < 0x80000000 := by
    intro n j hj
    obtain ⟨k, hk, rfl⟩ := List.mem_map.mp (List.mem_of_getElem? hj)
    have hlt := (h.saved_index ((Finset.mem_sort (· ≤ ·)).mp hk)).1
    have hall := h.savedNew_length
    have hmax := hrange.nNew
    omega
  have hloop : ((List.range (st.bucketIndices b).length).foldlM (readIndex ADDRMAN_NEW_BUCKET_COUNT b) s).run
      ((st.bucketIndices b).flatMap (fun j : Nat => intBytes j) ++ rest) =
      some ((st.bucketIndices b).foldl (fileIndex ADDRMAN_NEW_BUCKET_COUNT b) s, rest) := by
    rw [foldlM_range_run fun n j hj s rest => readIndex_intBytes (hsmall n j hj) b s n rest]
    rw [foldl_zipIdx_fst]
  rw [h.writeBucket_eq, List.append_assoc, readBucket, dif_pos b.isLt,
    run_bind_of_some (readInt_intBytes (by omega) hlen _), Int.toNat_natCast, hloop, fileIndices, List.foldl_map]

/-- All buckets are read. -/
theorem Checked.readBuckets_writeBuckets (h : Checked st) (hrange : InRange st) (s : CAddrMan) (rest : Bytes) :
    ((List.range ADDRMAN_NEW_BUCKET_COUNT).foldlM (readBucket ADDRMAN_NEW_BUCKET_COUNT) s).run
        ((List.finRange ADDRMAN_NEW_BUCKET_COUNT).flatMap (fun b =>
          writeBucket (writeNew st.nNew st.infosById 0 ∅).2 (st.vvNew b)) ++ rest) =
      some (fileIndices s st.indices, rest) := by
  have hround : ∀ n (b : NewBucket), (List.finRange ADDRMAN_NEW_BUCKET_COUNT)[n]? = some b → ∀ s rest,
      (readBucket ADDRMAN_NEW_BUCKET_COUNT s n).run
        (writeBucket (writeNew st.nNew st.infosById 0 ∅).2 (st.vvNew b) ++ rest) =
      some (fileIndices s ((st.bucketIndices b).map fun j => (b, j)), rest) := by
    intro n b hb s rest
    obtain ⟨hlt, rfl⟩ := List.getElem?_eq_some_iff.mp hb
    have hn : (List.finRange ADDRMAN_NEW_BUCKET_COUNT)[n].val = n := by rw [List.getElem_finRange]; rfl
    have hread := h.readBucket_writeBucket hrange s (List.finRange ADDRMAN_NEW_BUCKET_COUNT)[n] rest
    rw [hn] at hread
    exact hread
  have hloop := foldlM_range_run hround s rest
  rw [List.length_finRange, foldl_zipIdx_fst (fun s b => fileIndices s ((st.bucketIndices b).map fun j => (b, j)))]
    at hloop
  rw [hloop, fileIndices, indices, List.foldl_flatMap]
  rfl

/-- The new entries that are read. -/
def readNews (st : CAddrMan) : List CAddrInfo := st.savedNew.map fun e => e.2.onDisk

/-- The tried entries that are read. -/
def readTrieds (st : CAddrMan) : List CAddrInfo := st.savedTried.map fun e => e.2.onDisk

theorem InRange.readNews_run (hrange : InRange st) (s : CAddrMan) (rest : Bytes) :
    ((List.range st.savedNew.length).foldlM (readNew hash ADDRMAN_NEW_BUCKET_COUNT) s).run
        (st.savedNew.flatMap (fun e => e.2.diskBytes) ++ rest) =
      some (st.readNews.zipIdx.foldl (fun s p => fileNew hash ADDRMAN_NEW_BUCKET_COUNT s p.2 p.1) s, rest) := by
  have hround : ∀ n (e : Nat × CAddrInfo), st.savedNew[n]? = some e → ∀ s rest,
      (readNew hash ADDRMAN_NEW_BUCKET_COUNT s n).run (e.2.diskBytes ++ rest) =
        some (fileNew hash ADDRMAN_NEW_BUCKET_COUNT s n e.2.onDisk, rest) := by
    intro n e he s rest
    have hfound := mem_infosById.mp (List.mem_filter.mp (List.mem_of_getElem? he)).1
    exact readNew_diskBytes (hrange.nAttempts e.1 e.2 hfound) s n rest
  rw [foldlM_range_run hround, readNews, List.zipIdx_map, List.foldl_map]
  rfl

theorem InRange.readTrieds_run (hrange : InRange st) (s : CAddrMan × Int) (rest : Bytes) :
    ((List.range st.savedTried.length).foldlM (readTried hash) s).run
        (st.savedTried.flatMap (fun e => e.2.diskBytes) ++ rest) =
      some (st.readTrieds.foldl (fileTried hash) s, rest) := by
  have hround : ∀ n (e : Nat × CAddrInfo), st.savedTried[n]? = some e → ∀ s rest,
      (readTried hash s n).run (e.2.diskBytes ++ rest) = some (fileTried hash s e.2.onDisk, rest) := by
    intro n e he s rest
    have hfound := mem_infosById.mp (List.mem_filter.mp (List.mem_of_getElem? he)).1
    exact readTried_diskBytes (hrange.nAttempts e.1 e.2 hfound) s n rest
  rw [foldlM_range_run hround, foldl_zipIdx_fst (fun s (e : Nat × CAddrInfo) => fileTried hash s e.2.onDisk),
    readTrieds, List.foldl_map]

end Reading

section ReadBack

variable {hash : HashFn} {st : CAddrMan}

/-- The second state is the first one with the places in the file as ids. -/
structure ReadBack (st st' : CAddrMan) : Prop where
  nKey : st'.nKey = st.nKey
  nNew : st'.nNew = st.nNew
  nTried : st'.nTried = st.nTried
  info : ∀ j, st'.mapInfo.lookup j = st.saved[j]?.map fun e => { e.2 with nLastTry := 0, nRandomPos := j }
  addr : ∀ j e, st.saved[j]? = some e → st'.mapAddr.lookup e.2.toCNetAddr = some j
  random : st'.vRandom = List.range st.saved.length
  inNew : ∀ b j, j ∈ st'.vvNew b ↔ ∃ e, st.saved[j]? = some e ∧ e.1 ∈ st.vvNew b
  inTried : ∀ b j, j ∈ st'.vvTried b ↔ ∃ e, st.saved[j]? = some e ∧ e.1 ∈ st.vvTried b
  triedOnce : ∀ b, (st'.vvTried b).Nodup

theorem getTriedBucket_onDisk (info : CAddrInfo) (nKey : Bytes) :
    info.onDisk.getTriedBucket hash nKey = info.getTriedBucket hash nKey := rfl

/-- The places of the tried entries of a bucket. -/
theorem Checked.mem_triedPlaces (h : Checked st) (hplaced : TriedPlaced hash st) (b : TriedBucket) (j : Nat) :
    j ∈ triedPlaces hash st.nKey st.readTrieds st.readNews.length b ↔
      ∃ e, st.saved[j]? = some e ∧ e.1 ∈ st.vvTried b := by
  have hlen : st.readNews.length = st.savedNew.length := List.length_map _
  rw [triedPlaces, List.mem_map, hlen]
  constructor
  · intro hplace
    obtain ⟨⟨info, k⟩, hmem, rfl⟩ := hplace
    obtain ⟨hzip, hbucket⟩ := List.mem_filter.mp hmem
    obtain ⟨hle, hget⟩ := List.mem_zipIdx_iff_le_and_getElem?_sub.mp hzip
    dsimp only at hle hget hbucket ⊢
    rw [readTrieds, List.getElem?_map] at hget
    obtain ⟨e, he, rfl⟩ := Option.map_eq_some_iff.mp hget
    obtain ⟨hmemE, hin⟩ := List.mem_filter.mp (List.mem_of_getElem? he)
    obtain ⟨c, hc⟩ := (h.mem_tried_iff (mem_infosById.mp hmemE)).mpr hin
    have hcb := hplaced.bucket c e.1 hc e.2 (mem_infosById.mp hmemE)
    rw [decide_eq_true_eq, getTriedBucket_onDisk, hcb] at hbucket
    exact ⟨e, (List.getElem?_append_right hle).trans he, hbucket ▸ hc⟩
  · intro hplace
    obtain ⟨e, he, hb⟩ := hplace
    have hfound := mem_saved.mp (List.mem_of_getElem? he)
    have hin := (h.mem_tried_iff hfound).mp ⟨b, hb⟩
    have hle : st.savedNew.length ≤ j := by
      by_contra hlt
      rw [saved, List.getElem?_append_left (by omega)] at he
      have hnew := (List.mem_filter.mp (List.mem_of_getElem? he)).2
      rw [hin] at hnew
      cases hnew
    rw [saved, List.getElem?_append_right hle] at he
    refine ⟨(e.2.onDisk, j), List.mem_filter.mpr ⟨?_, ?_⟩, rfl⟩
    · rw [List.mem_zipIdx_iff_le_and_getElem?_sub, readTrieds, List.getElem?_map, he]
      exact ⟨hle, rfl⟩
    · rw [decide_eq_true_eq, getTriedBucket_onDisk]
      exact hplaced.bucket b e.1 hb e.2 hfound

/-- No bucket gets more tried entries than it has place for. -/
theorem Checked.readTrieds_few (h : Checked st) (hplaced : TriedPlaced hash st) (b : TriedBucket) :
    (st.readTrieds.countP fun info => info.getTriedBucket hash st.nKey = b) ≤ ADDRMAN_TRIED_BUCKET_SIZE := by
  refine le_trans ?_ (hplaced.size b)
  rw [readTrieds, List.countP_map, List.countP_eq_length_filter, ← List.length_map Prod.fst]
  apply List.Subperm.length_le
  apply List.subperm_of_subset
  · exact (List.filter_sublist.map Prod.fst).nodup ((List.filter_sublist.map Prod.fst).nodup st.infosById_keys_nodup)
  · intro n hn
    obtain ⟨e, he, rfl⟩ := List.mem_map.mp hn
    obtain ⟨hmem, hbucket⟩ := List.mem_filter.mp he
    obtain ⟨hmemE, hin⟩ := List.mem_filter.mp hmem
    obtain ⟨c, hc⟩ := (h.mem_tried_iff (mem_infosById.mp hmemE)).mpr hin
    have hcb := hplaced.bucket c e.1 hc e.2 (mem_infosById.mp hmemE)
    rw [Function.comp_apply, decide_eq_true_eq, getTriedBucket_onDisk, hcb] at hbucket
    exact hbucket ▸ hc

/-- A manager with nothing in it but the key and the counters. -/
def header (am : CAddrMan) (nKey : Bytes) (nNew nTried : Int) : CAddrMan :=
  { am with
    nKey, nNew, nTried
    nIdCount := 0
    mapInfo := ∅
    mapAddr := ∅
    vRandom := []
    vvTried := fun _ => []
    vvNew := fun _ => ∅ }

theorem header_filed (am : CAddrMan) (nKey : Bytes) (nNew nTried : Int) : Filed (am.header nKey nNew nTried) [] where
  info _ := rfl
  addr _ _ h := nomatch h
  random := rfl

theorem diskBytes_eq (st : CAddrMan) (rest : Bytes) : st.diskBytes ++ rest = [0] ++ (scriptBytes st.nKey ++
    (intBytes st.nNew ++ (intBytes st.nTried ++ (intBytes ADDRMAN_NEW_BUCKET_COUNT ++
    ((writeNew st.nNew st.infosById 0 ∅).1 ++ (writeTried st.nTried st.infosById 0 ++
    ((List.finRange ADDRMAN_NEW_BUCKET_COUNT).flatMap (fun b =>
      writeBucket (writeNew st.nNew st.infosById 0 ∅).2 (st.vvNew b)) ++ rest))))))) := by
  simp only [diskBytes, List.append_assoc]

/-- What reading does once the entries are filed. -/
theorem Checked.unserialize_run (h : Checked st) (hrange : InRange st) (am st₁ st₂ : CAddrMan)
    (hnews : st.readNews.zipIdx.foldl (fun s p => fileNew hash ADDRMAN_NEW_BUCKET_COUNT s p.2 p.1)
      (am.header st.nKey st.nNew st.nTried) = st₁)
    (htrieds : st.readTrieds.foldl (fileTried hash) ({ st₁ with nIdCount := st.savedNew.length }, 0) = (st₂, 0))
    (rest : Bytes) :
    (unserialize hash am).run (st.diskBytes ++ rest) =
      some (fileIndices { st₂ with nTried := st₂.nTried - 0 } st.indices, rest) := by
  have hnew := h.savedNew_length
  have htried := h.savedTried_length
  have hnewMax := hrange.nNew
  have htriedMax := hrange.nTried
  have hnewNat : st.nNew.toNat = st.savedNew.length := by omega
  have htriedNat : st.nTried.toNat = st.savedTried.length := by omega
  rw [diskBytes_eq, unserialize, run_bind_of_some (readByte_exact.read_write 0 trivial _),
    run_bind_of_some (readScript_exact.read_write st.nKey hrange.nKey _),
    run_bind_of_some (readInt_intBytes (by omega) hnewMax _),
    run_bind_of_some (readInt_intBytes (by omega) htriedMax _),
    run_bind_of_some (readInt_intBytes (by decide) (by decide) _), if_neg (by omega)]
  dsimp only
  rw [hnewNat, htriedNat, h.writeNew_eq.1, h.writeTried_eq, run_bind_of_some (hrange.readNews_run _ _)]
  have hheader : st.readNews.zipIdx.foldl (fun s p => fileNew hash ADDRMAN_NEW_BUCKET_COUNT s p.2 p.1)
      { am with
        nKey := st.nKey
        nNew := st.nNew
        nTried := st.nTried
        nIdCount := 0
        mapInfo := ∅
        mapAddr := ∅
        vRandom := []
        vvTried := fun _ => []
        vvNew := fun _ => ∅ } = st₁ := hnews
  rw [hheader, run_bind_of_some (hrange.readTrieds_run _ _), htrieds]
  exact h.readBuckets_writeBuckets hrange _ rest

/-- The entries that are filed, in the order of the file. -/
theorem filed_eq (st : CAddrMan) : st.readNews ++ st.readTrieds.map CAddrInfo.promoted =
    st.saved.map fun e => { e.2.onDisk with fInTried := e.2.fInTried } := by
  rw [saved, List.map_append, readNews, readTrieds, List.map_map]
  congr 1
  · apply List.map_congr_left
    intro e he
    have hin : e.2.fInTried = false := by simpa using (List.mem_filter.mp he).2
    rw [hin]
    rfl
  · apply List.map_congr_left
    intro e he
    have hin : e.2.fInTried = true := (List.mem_filter.mp he).2
    rw [hin]
    rfl

theorem Checked.readAddrs_nodup (h : Checked st) : (addrsOf (st.readNews ++ st.readTrieds)).Nodup := by
  have hsame : addrsOf (st.readNews ++ st.readTrieds) = st.saved.map fun e => e.2.toCNetAddr := by
    rw [addrsOf_append, addrsOf, addrsOf, readNews, readTrieds, List.map_map, List.map_map, saved, List.map_append]
    rfl
  rw [hsame]
  exact h.saved_addrs_nodup

/-- What was written is read, and is the state with the places in the file as ids. -/
theorem Checked.unserialize_diskBytes (h : Checked st) (hrange : InRange st) (hplaced : TriedPlaced hash st)
    (am : CAddrMan) (rest : Bytes) :
    ∃ st', (unserialize hash am).run (st.diskBytes ++ rest) = some (st', rest) ∧ ReadBack st st' := by
  obtain ⟨st₁, hnews, hfiled₁, hkept₁⟩ := fileNews_spec (header_filed am st.nKey st.nNew st.nTried)
    ((addrsOf_append st.readNews st.readTrieds) ▸ h.readAddrs_nodup).of_append_left
  have hlen : st.savedNew.length = st.readNews.length := (List.length_map _).symm
  have hkey₁ : st₁.nKey = st.nKey := by rw [hkept₁]; rfl
  have hfiled : Filed { st₁ with nIdCount := st.savedNew.length } st.readNews :=
    ⟨hfiled₁.info, hfiled₁.addr, hfiled₁.random⟩
  have hempty₁ : ∀ b, st₁.vvTried b = [] := by
    intro b
    rw [hkept₁]
    rfl
  have hfew : ∀ b, (st.readTrieds.countP fun info => info.getTriedBucket hash st₁.nKey = b) ≤
      ADDRMAN_TRIED_BUCKET_SIZE := by
    rw [hkey₁]
    exact h.readTrieds_few hplaced
  obtain ⟨st₂, htrieds, hfiled₂, -, hplaces, hkept₂⟩ := fileTrieds_spec hfiled hlen hempty₁ h.readAddrs_nodup hfew
  rw [filed_eq] at hfiled₂
  obtain ⟨st₃, hst₃⟩ : ∃ s : CAddrMan, s = { st₂ with nTried := st₂.nTried - 0 } := ⟨_, rfl⟩
  have hempty : ∀ b, st₃.vvNew b = ∅ := by
    intro b
    rw [hst₃, hkept₂, hkept₁]
    rfl
  have hfiled₃ : Filed st₃ (st.saved.map fun e => { e.2.onDisk with fInTried := e.2.fInTried }) := by
    rw [hst₃]
    exact ⟨hfiled₂.info, hfiled₂.addr, hfiled₂.random⟩
  have hids : ∀ p ∈ st.indices, ∃ info, st₃.mapInfo.lookup p.2 = some info ∧ info.nRefCount = 0 := by
    intro p hp
    obtain ⟨e, he, -⟩ := h.mem_indices_iff.mp hp
    refine ⟨_, by rw [hfiled₃.info, List.getElem?_map, he]; rfl, rfl⟩
  obtain ⟨hnew, hinfo, hkept₃⟩ := fileIndices_spec hempty hids h.indices_nodup h.indices_few
  refine ⟨fileIndices st₃ st.indices, ?_, ?_⟩
  · rw [hst₃]
    exact h.unserialize_run hrange am st₁ st₂ hnews htrieds rest
  generalize fileIndices st₃ st.indices = st' at hnew hinfo hkept₃ ⊢
  have hinNew : ∀ b j, j ∈ st'.vvNew b ↔ ∃ e, st.saved[j]? = some e ∧ e.1 ∈ st.vvNew b := fun b j =>
    (hnew b j).trans h.mem_indices_iff
  have hrefs : ∀ j e, st.saved[j]? = some e → holders st'.vvNew j = holders st.vvNew e.1 := by
    intro j e he
    ext b
    rw [mem_holders, mem_holders, hinNew, he]
    simp
  have hinTried : ∀ b, st'.vvTried b = triedPlaces hash st.nKey st.readTrieds st.readNews.length b := by
    intro b
    rw [hkept₃, hst₃]
    exact (hplaces b).trans (by rw [hkey₁])
  constructor
  · rw [hkept₃, hst₃, hkept₂]
    exact hkey₁
  · rw [hkept₃, hst₃, hkept₂, hkept₁]
    rfl
  · rw [hkept₃, hst₃]
    show st₂.nTried - 0 = st.nTried
    rw [hkept₂, hkept₁, Int.sub_zero]
    rfl
  · intro j
    rw [hinfo, hfiled₃.info, List.getElem?_map]
    cases he : st.saved[j]? with
    | none => rfl
    | some e =>
      have hcard := h.holders_card (mem_saved.mp (List.mem_of_getElem? he))
      rw [hrefs j e he, hcard]
      simp [CAddrInfo.addRef, CAddrInfo.moveTo, CAddrInfo.onDisk]
  · intro j e he
    rw [hkept₃]
    exact hfiled₃.addr j { e.2.onDisk with fInTried := e.2.fInTried } (by rw [List.getElem?_map, he]; rfl)
  · rw [hkept₃]
    exact hfiled₃.random.trans (by rw [List.length_map])
  · exact hinNew
  · intro b j
    rw [hinTried]
    exact h.mem_triedPlaces hplaced b j
  · intro b
    rw [hinTried, triedPlaces]
    apply (List.filter_sublist.map Prod.snd).nodup
    rw [List.zipIdx_map_snd]
    exact List.nodup_range'

end ReadBack

end CAddrMan

end AliasWallet
