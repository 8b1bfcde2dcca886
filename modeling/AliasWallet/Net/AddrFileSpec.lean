import AliasWallet.Net.AddrFile
import AliasWallet.Net.Checked

/-!
# The address manager comes back from the disk

What was written is read as entries with new ids. The new entries are numbered by their order in the map, and so are the
tried ones behind them; buckets, counters and statistics are those of the state that was written.
-/

namespace AliasWallet
open Lib

section Readers

variable {rest : Bytes}

theorem readInt_intBytes {n : Int} (hmin : -0x80000000 ≤ n) (hmax : n < 0x80000000) (rest : Bytes) :
    readInt.run (intBytes n ++ rest) = some (n, rest) := by
  rw [readInt, intBytes, run_bind_of_some (readInt32_exact.read_write (Int32.ofInt n) trivial rest)]
  have hback : (Int32.ofInt n).toInt = n := Int32.toInt_ofInt_of_le (by simpa using hmin) (by simpa using hmax)
  rw [hback]
  rfl

theorem readUInt16BE_portBytes (port : UInt16) (rest : Bytes) :
    readUInt16BE.run (portBytes port ++ rest) = some (port, rest) := by
  have hlen : (portBytes port).length = 2 := by rw [portBytes, beBytes, List.length_reverse, leBytes_length]
  have hvalue : beNat (portBytes port) = port.toNat := by
    rw [portBytes, beNat_beBytes]
    exact Nat.mod_eq_of_lt port.toNat_lt
  rw [readUInt16BE, run_bind_of_some ((readBytes_exact 2).read_write (portBytes port) hlen rest), hvalue,
    UInt16.ofNat_toNat]
  rfl

theorem readUInt64_uint64Bytes (n : UInt64) (rest : Bytes) :
    readUInt64.run (uint64Bytes n ++ rest) = some (n, rest) := by
  have hexact := readFixed_exact 8 UInt64.ofNat UInt64.toNat (fun a => a.toNat_lt) (fun a => UInt64.ofNat_toNat)
    fun n hn => UInt64.toNat_ofNat_of_lt' hn
  exact hexact.read_write n trivial rest

theorem CNetAddr.ofIp_ip (a : CNetAddr) (h : a.torV3 = none) : CNetAddr.ofIp a.ip = some a := by
  obtain ⟨ip, torV3, hip, htor⟩ := a
  subst h
  exact dif_pos hip

theorem CNetAddr.ofIpTor_ip_tor (a : CNetAddr) {ipTorRest : Bytes} (h : a.torV3 = some ipTorRest) :
    CNetAddr.ofIpTor (a.ip ++ ipTorRest) = some a := by
  obtain ⟨ip, torV3, hip, htor⟩ := a
  subst h
  obtain ⟨hrest, hcat⟩ := htor ipTorRest rfl
  have hlen : (ip ++ ipTorRest).length = 41 := by rw [List.length_append, hip, hrest]
  have htake : (ip ++ ipTorRest).take 6 = pchOnionCat := by
    rw [List.take_append_of_le_length (by omega)]
    exact hcat
  rw [CNetAddr.ofIpTor, dif_pos hlen, dif_pos htake]
  congr 2
  · exact List.take_left' hip
  · rw [List.drop_left' hip]

theorem CNetAddr.unserialize_diskBytes (a : CNetAddr) (rest : Bytes) :
    CNetAddr.unserialize.run (a.diskBytes ++ rest) = some (a, rest) := by
  rw [CNetAddr.diskBytes, CNetAddr.unserialize]
  cases htor : a.torV3 with
  | none =>
    dsimp only
    rw [List.append_assoc, run_bind_of_some (readInt32_exact.read_write ADDR_LEGACY trivial _), if_neg (by decide),
      run_bind_of_some ((readBytes_exact 16).read_write a.ip a.ip_length rest), a.ofIp_ip htor]
    rfl
  | some ipTorRest =>
    have hlen : (a.ip ++ ipTorRest).length = 41 := by
      rw [List.length_append, a.ip_length, (a.torV3_length ipTorRest htor).1]
    dsimp only
    rw [List.append_assoc, run_bind_of_some (readInt32_exact.read_write ADDR_TORV3 trivial _), if_pos rfl,
      run_bind_of_some ((readBytes_exact 41).read_write (a.ip ++ ipTorRest) hlen rest), a.ofIpTor_ip_tor htor]
    rfl

theorem CService.unserialize_diskBytes (s : CService) (rest : Bytes) :
    CService.unserialize.run (s.diskBytes ++ rest) = some (s, rest) := by
  rw [CService.diskBytes, List.append_assoc, CService.unserialize,
    run_bind_of_some (CNetAddr.unserialize_diskBytes s.toCNetAddr _),
    run_bind_of_some (readUInt16BE_portBytes s.port rest)]
  rfl

theorem CAddress.unserialize_diskBytes (addr : CAddress) (rest : Bytes) :
    CAddress.unserialize.run (addr.diskBytes ++ rest) = some ({ addr with nLastTry := 0 }, rest) := by
  rw [CAddress.diskBytes, List.append_assoc, List.append_assoc, List.append_assoc, CAddress.unserialize,
    run_bind_of_some (readInt32_exact.read_write 0 trivial _),
    run_bind_of_some (readUInt32_exact.read_write addr.nTime trivial _),
    run_bind_of_some (readUInt64_uint64Bytes addr.nServices _),
    run_bind_of_some (CService.unserialize_diskBytes addr.toCService rest)]
  rfl

/-- The fields that are written; the others are those of a fresh entry. -/
def CAddrInfo.onDisk (info : CAddrInfo) : CAddrInfo :=
  { info with nLastTry := 0, nRefCount := 0, fInTried := false, nRandomPos := 0 }

theorem CAddrInfo.unserialize_diskBytes {info : CAddrInfo} (hmin : -0x80000000 ≤ info.nAttempts)
    (hmax : info.nAttempts < 0x80000000) (rest : Bytes) :
    CAddrInfo.unserialize.run (info.diskBytes ++ rest) = some (info.onDisk, rest) := by
  rw [CAddrInfo.diskBytes, List.append_assoc, List.append_assoc, List.append_assoc, CAddrInfo.unserialize,
    run_bind_of_some (CAddress.unserialize_diskBytes info.toCAddress _),
    run_bind_of_some (CNetAddr.unserialize_diskBytes info.source _),
    run_bind_of_some (readInt64_exact.read_write info.nLastSuccess trivial _),
    run_bind_of_some (readInt_intBytes hmin hmax rest)]
  rfl

end Readers

namespace CAddrMan

section Entries

variable {st : CAddrMan}

theorem mem_infosById {n : Nat} {info : CAddrInfo} :
    (n, info) ∈ st.infosById ↔ st.mapInfo.lookup n = some info := by
  rw [infosById, List.mem_filterMap]
  constructor
  · intro h
    obtain ⟨k, -, hk⟩ := h
    obtain ⟨info', hfound, heq⟩ := Option.map_eq_some_iff.mp hk
    obtain ⟨rfl, rfl⟩ := Prod.mk.inj heq
    exact hfound
  · intro h
    have hkey : n ∈ st.mapInfo.keys := AList.mem_keys.mp (AList.lookup_isSome.mp (by rw [h]; rfl))
    exact ⟨n, (Finset.mem_sort _).mpr (List.mem_toFinset.mpr hkey), by rw [h]; rfl⟩

theorem infosById_keys_nodup (st : CAddrMan) : (st.infosById.map Prod.fst).Nodup := by
  have hkeys : (st.infosById.map Prod.fst).Sublist (st.mapInfo.keys.toFinset.sort (· ≤ ·)) := by
    rw [infosById, List.map_filterMap]
    generalize st.mapInfo.keys.toFinset.sort (· ≤ ·) = ids
    induction ids with
    | nil => exact List.Sublist.slnil
    | cons n ids ih =>
      cases hfound : st.mapInfo.lookup n with
      | none =>
        rw [List.filterMap_cons_none (by rw [hfound]; rfl)]
        exact ih.cons n
      | some info =>
        rw [List.filterMap_cons_some (by rw [hfound]; rfl)]
        exact ih.cons_cons n
  exact hkeys.nodup (Finset.sort_nodup _ _)

/-- Tried entries are counted by any list of the entries. -/
theorem card_counted_tried {l : List (Nat × CAddrInfo)}
    (hmem : ∀ n info, (n, info) ∈ l ↔ st.mapInfo.lookup n = some info) (hnodup : (l.map Prod.fst).Nodup) :
    st.counted.1.card = (l.filter fun e => e.2.fInTried).length := by
  have hsame : st.counted.1 = ((l.filter fun e => e.2.fInTried).map Prod.fst).toFinset := by
    ext n
    rw [mem_counted, List.mem_toFinset, List.mem_map]
    constructor
    · intro h
      obtain ⟨info, hfound, hin⟩ := h
      exact ⟨(n, info), List.mem_filter.mpr ⟨(hmem n info).mpr hfound, hin⟩, rfl⟩
    · intro h
      obtain ⟨⟨k, info⟩, he, rfl⟩ := h
      exact ⟨info, (hmem k info).mp (List.mem_filter.mp he).1, (List.mem_filter.mp he).2⟩
  rw [hsame, List.toFinset_card_of_nodup ((List.filter_sublist.map Prod.fst).nodup hnodup), List.length_map]

/-- New entries are counted by any list of the entries. -/
theorem length_counted_new {l : List (Nat × CAddrInfo)}
    (hmem : ∀ n info, (n, info) ∈ l ↔ st.mapInfo.lookup n = some info) (hnodup : (l.map Prod.fst).Nodup) :
    st.counted.2.keys.length = (l.filter fun e => !e.2.fInTried).length := by
  have hsame : st.counted.2.keys.toFinset = ((l.filter fun e => !e.2.fInTried).map Prod.fst).toFinset := by
    ext n
    rw [mem_keys_counted, List.mem_toFinset, List.mem_map]
    constructor
    · intro h
      obtain ⟨info, hfound, hin⟩ := h
      exact ⟨(n, info), List.mem_filter.mpr ⟨(hmem n info).mpr hfound, by rw [hin]; rfl⟩, rfl⟩
    · intro h
      obtain ⟨⟨k, info⟩, he, rfl⟩ := h
      exact ⟨info, (hmem k info).mp (List.mem_filter.mp he).1, by simpa using (List.mem_filter.mp he).2⟩
  have hcard := congrArg Finset.card hsame
  rw [List.toFinset_card_of_nodup st.counted.2.keys_nodup,
    List.toFinset_card_of_nodup ((List.filter_sublist.map Prod.fst).nodup hnodup), List.length_map] at hcard
  exact hcard

end Entries

section Written

variable {st : CAddrMan}

/-- The new entries in the order in which they are written. -/
def savedNew (st : CAddrMan) : List (Nat × CAddrInfo) := st.infosById.filter fun e => !e.2.fInTried

/-- The tried entries in the order in which they are written. -/
def savedTried (st : CAddrMan) : List (Nat × CAddrInfo) := st.infosById.filter fun e => e.2.fInTried

/-- All entries in the order in which they are written: an entry is read back with its place here as its id. -/
def saved (st : CAddrMan) : List (Nat × CAddrInfo) := st.savedNew ++ st.savedTried

theorem Checked.savedNew_length (h : Checked st) : (st.savedNew.length : Int) = st.nNew := by
  rw [← h.nNew, length_counted_new (fun _ _ => mem_infosById) st.infosById_keys_nodup]
  rfl

theorem Checked.savedTried_length (h : Checked st) : (st.savedTried.length : Int) = st.nTried := by
  rw [← h.nTried, card_counted_tried (fun _ _ => mem_infosById) st.infosById_keys_nodup]
  rfl

/-- New entries are those with a reference count. -/
theorem Checked.refs_iff (h : Checked st) {n : Nat} {info : CAddrInfo} (hfound : st.mapInfo.lookup n = some info) :
    info.nRefCount ≠ 0 ↔ info.fInTried = false := by
  have hentry := h.entry n info hfound
  cases hin : info.fInTried with
  | true => simp [(hentry.tried hin).2]
  | false => simp [(hentry.new hin).1.ne']

/-- The numbers of entries that were met before stay. -/
theorem writeNew_lookup_of_notMem (nNew : Int) {l : List (Nat × CAddrInfo)} {n : Nat} (hn : n ∉ l.map Prod.fst)
    (nIds : Int) (mapUnkIds : AList fun _ : Nat => Int) :
    (writeNew nNew l nIds mapUnkIds).2.lookup n = mapUnkIds.lookup n := by
  induction l generalizing nIds mapUnkIds with
  | nil => rfl
  | cons e l ih =>
    obtain ⟨k, info⟩ := e
    rw [List.map_cons, List.mem_cons, not_or] at hn
    have hkept : (mapUnkIds.insert k nIds).lookup n = mapUnkIds.lookup n := AList.lookup_insert_ne hn.1
    rw [writeNew]
    split
    · rfl
    · split
      · exact (ih hn.2 _ _).trans hkept
      · exact (ih hn.2 _ _).trans hkept

/-- The loop over the new entries writes them all, and numbers them in their order. -/
theorem writeNew_spec {nNew : Int} {l : List (Nat × CAddrInfo)}
    (hrefs : ∀ e ∈ l, e.2.nRefCount ≠ 0 ↔ e.2.fInTried = false) (hnodup : (l.map Prod.fst).Nodup) {nIds : Int}
    (hcount : nIds + (l.filter fun e => !e.2.fInTried).length = nNew) (mapUnkIds : AList fun _ : Nat => Int) :
    (writeNew nNew l nIds mapUnkIds).1 = (l.filter fun e => !e.2.fInTried).flatMap (fun e => e.2.diskBytes) ∧
      ∀ (i : Nat) e, (l.filter fun e => !e.2.fInTried)[i]? = some e →
        (writeNew nNew l nIds mapUnkIds).2.lookup e.1 = some (nIds + i) := by
  induction l generalizing nIds mapUnkIds with
  | nil => exact ⟨rfl, fun i e he => nomatch he⟩
  | cons e l ih =>
    obtain ⟨n, info⟩ := e
    rw [List.forall_mem_cons] at hrefs
    rw [List.map_cons, List.nodup_cons] at hnodup
    rw [writeNew]
    by_cases hin : info.fInTried = true
    · -- a tried entry is passed over
      rw [List.filter_cons_of_neg (by simp [hin])] at hcount ⊢
      have hzero : ¬ info.nRefCount ≠ 0 := fun hne => by
        rw [hrefs.1.mp hne] at hin
        cases hin
      by_cases hdone : nIds = nNew
      · have hnone : (l.filter fun e => !e.2.fInTried) = [] := List.length_eq_zero_iff.mp (by omega)
        rw [if_pos hdone, hnone]
        exact ⟨rfl, fun i e he => nomatch he⟩
      · rw [if_neg hdone, if_neg hzero]
        exact ih hrefs.2 hnodup.2 hcount _
    · rw [List.filter_cons_of_pos (by simp [hin])] at hcount ⊢
      rw [List.length_cons] at hcount
      obtain ⟨hbytes, hids⟩ := ih hrefs.2 hnodup.2 (show nIds + 1 + _ = nNew by omega) (mapUnkIds.insert n nIds)
      rw [if_neg (by omega), if_pos (hrefs.1.mpr (Bool.eq_false_iff.mpr hin))]
      constructor
      · rw [List.flatMap_cons, ← hbytes]
      · intro i e he
        cases i with
        | zero =>
          obtain rfl : (n, info) = e := Option.some.inj he
          rw [Int.natCast_zero, Int.add_zero]
          exact (writeNew_lookup_of_notMem nNew hnodup.1 _ _).trans (AList.lookup_insert _)
        | succ i =>
          have hlookup := hids i e he
          rw [hlookup, Nat.cast_succ]
          congr 1
          omega

theorem writeTried_spec {nTried : Int} {l : List (Nat × CAddrInfo)} {nIds : Int}
    (hcount : nIds + (l.filter fun e => e.2.fInTried).length = nTried) :
    writeTried nTried l nIds = (l.filter fun e => e.2.fInTried).flatMap fun e => e.2.diskBytes := by
  induction l generalizing nIds with
  | nil => rfl
  | cons e l ih =>
    obtain ⟨n, info⟩ := e
    rw [writeTried]
    by_cases hin : info.fInTried = true
    · have hfilter : ((n, info) :: l).filter (fun e => e.2.fInTried) = (n, info) :: l.filter fun e => e.2.fInTried :=
        List.filter_cons_of_pos hin
      rw [hfilter, List.length_cons] at hcount
      rw [hfilter, List.flatMap_cons, if_neg (by omega), if_pos hin, ih (show nIds + 1 + _ = nTried by omega)]
    · have hfilter : ((n, info) :: l).filter (fun e => e.2.fInTried) = l.filter fun e => e.2.fInTried :=
        List.filter_cons_of_neg hin
      rw [hfilter] at hcount
      rw [hfilter, if_neg hin]
      by_cases hdone : nIds = nTried
      · have hnone : (l.filter fun e => e.2.fInTried) = [] := List.length_eq_zero_iff.mp (by omega)
        rw [if_pos hdone, hnone]
        rfl
      · rw [if_neg hdone, ih hcount]

/-- The number of a new entry that is written for its id. -/
def savedIndex (st : CAddrMan) (n : Nat) : Nat := (((writeNew st.nNew st.infosById 0 ∅).2.lookup n).getD 0).toNat

theorem Checked.writeNew_eq (h : Checked st) :
    (writeNew st.nNew st.infosById 0 ∅).1 = st.savedNew.flatMap (fun e => e.2.diskBytes) ∧
      ∀ (i : Nat) e, st.savedNew[i]? = some e → (writeNew st.nNew st.infosById 0 ∅).2.lookup e.1 = some (i : Int) := by
  have hcount := h.savedNew_length
  obtain ⟨hbytes, hids⟩ := writeNew_spec (fun e he => h.refs_iff (mem_infosById.mp he)) st.infosById_keys_nodup
    (show 0 + _ = st.nNew by rw [Int.zero_add]; exact hcount) ∅
  refine ⟨hbytes, fun i e he => ?_⟩
  rw [hids i e he, Int.zero_add]

theorem Checked.writeTried_eq (h : Checked st) :
    writeTried st.nTried st.infosById 0 = st.savedTried.flatMap fun e => e.2.diskBytes :=
  writeTried_spec (show 0 + _ = st.nTried by rw [Int.zero_add]; exact h.savedTried_length)

/-- What the new buckets hold are new entries. -/
theorem Checked.of_mem_new (h : Checked st) {b : NewBucket} {n : Nat} (hn : n ∈ st.vvNew b) :
    ∃ info, st.mapInfo.lookup n = some info ∧ info.fInTried = false ∧
      info.nRefCount = ((holders st.vvNew n).card : Int) := by
  have hpos : 0 < (holders st.vvNew n).card := Finset.card_pos.mpr ⟨b, mem_holders.mpr hn⟩
  have hcount := h.inNew n
  cases hc : st.counted.2.lookup n with
  | none =>
    rw [hc, Option.getD_none] at hcount
    omega
  | some c =>
    rw [hc, Option.getD_some] at hcount
    obtain ⟨info, hfound, hin, hrefs⟩ := (lookup_counted st n c).mp hc
    exact ⟨info, hfound, hin, hrefs.trans hcount⟩

/-- An id of a new bucket is written as the place of its entry. -/
theorem Checked.savedIndex_spec (h : Checked st) {b : NewBucket} {n : Nat} (hn : n ∈ st.vvNew b) :
    ∃ info, st.savedNew[st.savedIndex n]? = some (n, info) ∧
      ((writeNew st.nNew st.infosById 0 ∅).2.lookup n).getD 0 = st.savedIndex n := by
  obtain ⟨info, hfound, hin, -⟩ := h.of_mem_new hn
  have hmem : (n, info) ∈ st.savedNew := List.mem_filter.mpr ⟨mem_infosById.mpr hfound, by simp [hin]⟩
  obtain ⟨i, hi⟩ := List.mem_iff_getElem?.mp hmem
  have hlookup := h.writeNew_eq.2 i (n, info) hi
  have hindex : st.savedIndex n = i := by rw [savedIndex, hlookup, Option.getD_some, Int.toNat_natCast]
  refine ⟨info, ?_, ?_⟩
  · rw [hindex]
    exact hi
  · rw [hindex, hlookup]
    rfl

end Written

end CAddrMan

end AliasWallet
