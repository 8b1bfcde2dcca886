import AliasWallet.Net.AddrManSpec

/-!
# The steps of the address manager

Each operation keeps the index structures together and meets its assertions: swaps in the random order,
deletion, shrinking a full bucket, promotion to a tried bucket and eviction from it.
-/

namespace AliasWallet
open Lib

namespace CAddrMan

section Swap

variable {hash : HashFn} {timely : Prop} {st : CAddrMan} {p : Pending}

/-- Entries that differ in their positions only. -/
def SameEntries (m m' : AList fun _ : Nat => CAddrInfo) : Prop :=
  ∀ n, (m'.lookup n).map clearPos = (m.lookup n).map clearPos

theorem SameEntries.get {m m' : AList fun _ : Nat => CAddrInfo} (h : SameEntries m m') {n : Nat} {info : CAddrInfo}
    (hn : m.lookup n = some info) : ∃ info', m'.lookup n = some info' ∧ clearPos info' = clearPos info := by
  have hn' := h n
  rw [hn, Option.map_some] at hn'
  exact Option.map_eq_some_iff.mp hn'

theorem SameEntries.symm {m m' : AList fun _ : Nat => CAddrInfo} (h : SameEntries m m') : SameEntries m' m :=
  fun n => (h n).symm

theorem SameEntries.addr {m m' : AList fun _ : Nat => CAddrInfo} (h : SameEntries m m') (a : CNetAddr) (n : Nat) :
    (∃ info, m.lookup n = some info ∧ info.toCNetAddr = a) ↔
      ∃ info, m'.lookup n = some info ∧ info.toCNetAddr = a := by
  constructor
  · rintro ⟨info, hn, rfl⟩
    obtain ⟨info', hn', heq⟩ := h.get hn
    exact ⟨info', hn', congrArg CService.toCNetAddr (eq_of_clearPos heq).1⟩
  · rintro ⟨info, hn, rfl⟩
    obtain ⟨info', hn', heq⟩ := h.symm.get hn
    exact ⟨info', hn', congrArg CService.toCNetAddr (eq_of_clearPos heq).1⟩

theorem positions_move (m : AList fun _ : Nat => CAddrInfo) {n i : Nat} (hn : n ∈ m) :
    positions (modifyAt m n (CAddrInfo.moveTo i)) =
      Function.update (positions m) n (some i) := by
  funext k
  rw [positions, lookup_modifyAt]
  by_cases hk : k = n
  · subst hk
    obtain ⟨info, hfound⟩ := Option.isSome_iff_exists.mp (AList.lookup_isSome.mpr hn)
    rw [if_pos rfl, Function.update_self, hfound]
    rfl
  · rw [if_neg hk, Function.update_of_ne hk, positions]

theorem sameEntries_move (m : AList fun _ : Nat => CAddrInfo) (n i : Nat) :
    SameEntries m (modifyAt m n (CAddrInfo.moveTo i)) := by
  intro k
  rw [lookup_modifyAt]
  split
  · rw [Option.map_map]
    rfl
  · rfl

theorem mem_of_positions {m : AList fun _ : Nat => CAddrInfo} {n i : Nat} (h : positions m n = some i) : n ∈ m := by
  obtain ⟨info, hn, -⟩ := Option.map_eq_some_iff.mp h
  exact AList.lookup_isSome.mp (by rw [hn]; rfl)

/-- Both positions are in range and have entries, so the swap goes through. -/
theorem swapRandom_spec (hplaced : Placed st.vRandom (positions st.mapInfo)) (nRndPos1 nRndPos2 : Nat)
    (h1 : nRndPos1 < st.vRandom.length) (h2 : nRndPos2 < st.vRandom.length) :
    ∃ m v, st.swapRandom nRndPos1 nRndPos2 = some { st with mapInfo := m, vRandom := v } ∧
      v.length = st.vRandom.length ∧ v[nRndPos2]? = st.vRandom[nRndPos1]? ∧ Placed v (positions m) ∧
      SameEntries st.mapInfo m := by
  rw [swapRandom]
  by_cases heq : nRndPos1 = nRndPos2
  · rw [if_pos heq]
    exact ⟨st.mapInfo, st.vRandom, rfl, rfl, by rw [heq], hplaced, fun n => rfl⟩
  have hget1 := List.getElem?_eq_getElem h1
  have hget2 := List.getElem?_eq_getElem h2
  have hmem1 := mem_of_positions ((hplaced _ _).mpr hget1)
  have hmem2 := mem_of_positions ((hplaced _ _).mpr hget2)
  rw [if_neg heq, hget1, hget2, Option.bind_eq_bind, Option.bind_some, Option.bind_some, if_pos ⟨hmem1, hmem2⟩]
  have hmem2' : st.vRandom[nRndPos2] ∈ modifyAt st.mapInfo st.vRandom[nRndPos1] (CAddrInfo.moveTo nRndPos2) := by
    rw [← AList.lookup_isSome, lookup_modifyAt]
    split
    · rw [Option.isSome_map]
      exact AList.lookup_isSome.mpr hmem2
    · exact AList.lookup_isSome.mpr hmem2
  refine ⟨modifyAt (modifyAt st.mapInfo st.vRandom[nRndPos1] (CAddrInfo.moveTo nRndPos2)) st.vRandom[nRndPos2]
    (CAddrInfo.moveTo nRndPos1), (st.vRandom.set nRndPos1 st.vRandom[nRndPos2]).set nRndPos2 st.vRandom[nRndPos1], rfl,
    ?_, ?_, ?_, ?_⟩
  · rw [List.length_set, List.length_set]
  · rw [List.getElem?_set_self (by rw [List.length_set]; exact h2)]
  · rw [positions_move _ hmem2', positions_move _ hmem1]
    exact hplaced.swap hget1 hget2 heq
  · intro n
    exact (sameEntries_move _ _ _ n).trans (sameEntries_move _ _ _ n)

/-- A swap alone changes nothing but the order. -/
theorem Consistent.swapRandom (h : Consistent hash timely p st) (nRndPos1 nRndPos2 : Nat)
    (h1 : nRndPos1 < st.vRandom.length) (h2 : nRndPos2 < st.vRandom.length) :
    ∃ st', st.swapRandom nRndPos1 nRndPos2 = some st' ∧ Consistent hash timely p st' ∧
      st'.vRandom.length = st.vRandom.length := by
  obtain ⟨m, v, hswap, hlen, -, hplaced, hsame⟩ := swapRandom_spec h.placed nRndPos1 nRndPos2 h1 h2
  refine ⟨_, hswap, ?_, hlen⟩
  exact {
    placed := hplaced
    addr := fun a n => (h.addr a n).trans (hsame.addr a n)
    fits := fun n => (h.fits n).frame rfl le_rfl (fun _ => Iff.rfl) rfl rfl Iff.rfl Iff.rfl (hsame n)
    total := by
      rw [← h.total]
      exact congrArg Nat.cast hlen
    nTried := h.nTried
    triedNodup := h.triedNodup
    triedSize := h.triedSize
    newSize := h.newSize }

end Swap

section Drop

variable {hash : HashFn} {timely : Prop} {st : CAddrMan} {p : Pending}

/-- The entry at the end of the random order is forgotten with its address. -/
theorem forget_spec (hplaced : Placed st.vRandom (positions st.mapInfo)) {nId : Nat} {info : CAddrInfo}
    (hn : st.mapInfo.lookup nId = some info) :
    ∃ m v, st.forget nId info = some { st with
        mapInfo := m, vRandom := v, mapAddr := st.mapAddr.erase info.toCNetAddr, nNew := st.nNew - 1 } ∧
      v.length + 1 = st.vRandom.length ∧ Placed v (positions m) ∧ m.lookup nId = none ∧
      ∀ k, k ≠ nId → (m.lookup k).map clearPos = (st.mapInfo.lookup k).map clearPos := by
  have hpos : st.vRandom[info.nRandomPos]? = some nId := (hplaced nId _).mp (by rw [positions, hn, Option.map_some])
  obtain ⟨hlt, -⟩ := List.getElem?_eq_some_iff.mp hpos
  obtain ⟨m, v, hswap, hlen, hlast, hplaced', hsame⟩ :=
    swapRandom_spec hplaced info.nRandomPos (st.vRandom.length - 1) hlt (by omega)
  rw [hpos, ← hlen] at hlast
  refine ⟨m.erase nId, v.dropLast, ?_, ?_, ?_, AList.lookup_erase nId m, ?_⟩
  · rw [forget, hswap]
    rfl
  · rw [List.length_dropLast]
    omega
  · have hpositions : positions (m.erase nId) = Function.update (positions m) nId none := by
      funext k
      by_cases hk : k = nId
      · subst hk
        rw [Function.update_self, positions, AList.lookup_erase, Option.map_none]
      · rw [Function.update_of_ne hk, positions, AList.lookup_erase_ne hk, positions]
    rw [hpositions]
    exact hplaced'.pop hlast
  · intro k hk
    rw [AList.lookup_erase_ne hk]
    exact hsame k

/-- An entry leaves one of its new buckets; with the last of them it is forgotten. -/
theorem Consistent.dropFrom (h : Consistent hash timely p st) {nUBucket : NewBucket} {nId : Nat}
    (hn : nId ∈ st.vvNew nUBucket) (hopen : ¬ p.Names nId) :
    ∃ st', st.dropFrom nUBucket nId = some st' ∧ Consistent hash timely p st' ∧ st'.nKey = st.nKey ∧
      st'.vvNew = Function.update st.vvNew nUBucket ((st.vvNew nUBucket).erase nId) := by
  obtain ⟨info, hfound, hin⟩ := h.of_mem_new hn
  obtain ⟨hnone, hcount, hmax, hpos⟩ := (h.entry hfound).new hin
  rw [Pending.owes_of_not_names hopen, Nat.cast_zero, add_zero] at hcount
  have hholds : nUBucket ∈ holders st.vvNew nId := mem_holders.mpr hn
  have hcard := Finset.card_erase_of_mem hholds
  have hcardPos := Finset.card_pos.mpr ⟨nUBucket, hholds⟩
  have hhome : p ≠ .homeless nId := by
    rintro rfl
    exact hopen rfl
  have hother : ∀ k, k ≠ nId →
      holders (Function.update st.vvNew nUBucket ((st.vvNew nUBucket).erase nId)) k = holders st.vvNew k :=
    fun k hk => holders_erase_of_ne hk
  have hsize : ∀ b, (Function.update st.vvNew nUBucket ((st.vvNew nUBucket).erase nId) b).card ≤
      ADDRMAN_NEW_BUCKET_SIZE := by
    intro b
    by_cases hb : b = nUBucket
    · rw [hb, Function.update_self]
      exact (Finset.card_erase_le).trans (h.newSize nUBucket)
    · rw [Function.update_of_ne hb]
      exact h.newSize b
  rw [CAddrMan.dropFrom, hfound, Option.bind_eq_bind, Option.bind_some]
  by_cases hlast : (info.addRef (-1)).nRefCount = 0
  · -- no bucket holds the entry any more
    have hplaced : Placed (st.modify nId (CAddrInfo.addRef (-1))).vRandom
        (positions (st.modify nId (CAddrInfo.addRef (-1))).mapInfo) := by
      rw [positions_modify (f := CAddrInfo.addRef (-1)) fun _ => rfl]
      exact h.placed
    obtain ⟨m, v, hforget, hlen, hplaced', hgone, hsame⟩ :=
      forget_spec hplaced (lookup_modify_self hfound (CAddrInfo.addRef (-1)))
    have hsame' : ∀ k, k ≠ nId → (m.lookup k).map clearPos = (st.mapInfo.lookup k).map clearPos := by
      intro k hk
      rw [hsame k hk, lookup_modify_of_ne hk]
    rw [if_pos hlast, hforget]
    refine ⟨{ st with
      mapInfo := m
      vRandom := v
      mapAddr := st.mapAddr.erase info.toCNetAddr
      nNew := st.nNew - 1
      vvNew := Function.update st.vvNew nUBucket ((st.vvNew nUBucket).erase nId) }, rfl, ?_, rfl, rfl⟩
    exact {
      placed := hplaced'
      addr := by
        intro a k
        have haddr := h.addr a
        by_cases ha : a = info.toCNetAddr
        · subst ha
          have hkey := (haddr nId).mpr ⟨info, hfound, rfl⟩
          rw [AList.lookup_erase]
          refine iff_of_false (by simp) ?_
          rintro ⟨info', hk, hsameAddr⟩
          by_cases hkn : k = nId
          · rw [hkn, hgone] at hk
            exact absurd hk (by simp)
          · have hold := hsame' k hkn
            rw [hk, Option.map_some] at hold
            obtain ⟨info'', hk'', heq⟩ := Option.map_eq_some_iff.mp hold.symm
            have hkey' := (haddr k).mpr ⟨info'', hk'', by rw [← hsameAddr, (eq_of_clearPos heq).1]⟩
            rw [hkey, Option.some.injEq] at hkey'
            exact hkn hkey'.symm
        · rw [AList.lookup_erase_ne ha]
          refine (haddr k).trans ?_
          by_cases hkn : k = nId
          · subst hkn
            rw [hgone, hfound]
            refine iff_of_false ?_ (by simp)
            rintro ⟨info', hinfo, haddr'⟩
            obtain rfl := Option.some.inj hinfo
            exact ha haddr'.symm
          · have hold := hsame' k hkn
            constructor
            · rintro ⟨info', hk, rfl⟩
              rw [hk, Option.map_some] at hold
              obtain ⟨info'', hk'', heq⟩ := Option.map_eq_some_iff.mp hold
              exact ⟨info'', hk'', by rw [(eq_of_clearPos heq).1]⟩
            · rintro ⟨info', hk, rfl⟩
              rw [hk, Option.map_some] at hold
              obtain ⟨info'', hk'', heq⟩ := Option.map_eq_some_iff.mp hold.symm
              exact ⟨info'', hk'', by rw [(eq_of_clearPos heq).1]⟩
      fits := by
        intro k
        by_cases hk : k = nId
        · subst hk
          dsimp only
          rw [hgone]
          refine ⟨hnone, ?_, hopen⟩
          dsimp only
          rw [holders_erase_self]
          apply Finset.card_eq_zero.mp
          have hone : info.nRefCount + -1 = 0 := hlast
          omega
        · exact (h.fits k).frame rfl le_rfl (fun _ => Iff.rfl) (hother k hk) rfl Iff.rfl Iff.rfl (hsame' k hk)
      total := by
        have htotal := h.total
        have hlen' : v.length + 1 = st.vRandom.length := hlen
        dsimp only
        rw [← hlen'] at htotal
        push_cast at htotal
        omega
      nTried := h.nTried
      triedNodup := h.triedNodup
      triedSize := h.triedSize
      newSize := hsize }
  · rw [if_neg hlast]
    refine ⟨{ st.modify nId (CAddrInfo.addRef (-1)) with
      vvNew := Function.update st.vvNew nUBucket ((st.vvNew nUBucket).erase nId) }, rfl, ?_, rfl, rfl⟩
    exact {
      placed := by
        rw [positions_modify (f := CAddrInfo.addRef (-1)) fun _ => rfl]
        exact h.placed
      addr := h.addr_modify (f := CAddrInfo.addRef (-1)) fun _ => rfl
      fits := by
        intro k
        by_cases hk : k = nId
        · subst hk
          have hmore : info.nRefCount + -1 ≠ 0 := hlast
          have hentry := h.entry hfound
          dsimp only
          rw [lookup_modify_self hfound]
          refine ⟨hentry.id, hentry.lastTry, hentry.lastSuccess, fun hwas => ?_, fun _ => ⟨hnone, ?_, ?_, fun _ => ?_⟩⟩
          · exact absurd (hin.symm.trans hwas) (by simp)
          · rw [holders_erase_self, Pending.owes_of_not_names hopen, CAddrInfo.addRef]
            dsimp only
            omega
          · rw [CAddrInfo.addRef]
            dsimp only
            omega
          · rw [CAddrInfo.addRef]
            dsimp only
            omega
        · dsimp only
          rw [lookup_modify_of_ne hk]
          exact (h.fits k).frame rfl le_rfl (fun _ => Iff.rfl) (hother k hk) rfl Iff.rfl Iff.rfl rfl
      total := h.total
      nTried := h.nTried
      triedNodup := h.triedNodup
      triedSize := h.triedSize
      newSize := hsize }

end Drop

section Add

variable {hash : HashFn} {timely : Prop} {st : CAddrMan} {p : Pending}

theorem findTerrible_spec (clock : Nat → Int64) (ids : List Nat) (hids : ∀ n ∈ ids, n ∈ st.mapInfo) (k : Nat) :
    ∃ nTerrible, st.findTerrible clock ids k = some nTerrible ∧ ∀ n ∈ nTerrible, n ∈ ids := by
  induction ids generalizing k with
  | nil => exact ⟨none, rfl, by simp⟩
  | cons nId ids ih =>
    obtain ⟨info, hfound⟩ := Option.isSome_iff_exists.mp (AList.lookup_isSome.mpr (hids nId List.mem_cons_self))
    rw [findTerrible, hfound, Option.bind_eq_bind, Option.bind_some]
    split
    · exact ⟨some nId, rfl, by simp⟩
    · obtain ⟨nTerrible, hrun, hmem⟩ := ih (fun n hn => hids n (List.mem_cons_of_mem _ hn)) (k + 1)
      exact ⟨nTerrible, hrun, fun n hn => List.mem_cons_of_mem _ (hmem n hn)⟩

/-- Where a position is drawn, an entry is found. -/
theorem findOldest_spec (draw : Nat → Bool) (ids : List Nat) (hids : ∀ n ∈ ids, n ∈ st.mapInfo) (nI : Nat)
    (nOldest : Option Nat) (hold : ∀ n ∈ nOldest, n ∈ st.mapInfo)
    (hdraw : nOldest.isSome ∨ ∃ i, i < ids.length ∧ draw (nI + i) = true) :
    ∃ nId, st.findOldest draw ids nI nOldest = some (some nId) ∧ (nId ∈ ids ∨ nOldest = some nId) := by
  induction ids generalizing nI nOldest with
  | nil =>
    obtain ⟨nId, rfl⟩ := Option.isSome_iff_exists.mp (hdraw.resolve_right (by simp))
    exact ⟨nId, rfl, Or.inr rfl⟩
  | cons nId ids ih =>
    have hids' : ∀ n ∈ ids, n ∈ st.mapInfo := fun n hn => hids n (List.mem_cons_of_mem _ hn)
    rw [findOldest.eq_def]
    dsimp only
    by_cases hnow : draw nI = true
    · rw [if_pos hnow]
      -- the entry is the first one drawn, or it is compared with the oldest one so far
      have hnext : ∀ nNew, (nNew = nId ∨ nOldest = some nNew) → nNew ∈ st.mapInfo →
          ∃ n, st.findOldest draw ids (nI + 1) (some nNew) = some (some n) ∧
            (n ∈ nId :: ids ∨ nOldest = some n) := by
        intro nNew hnew hin
        obtain ⟨n, hrun, hmem⟩ := ih hids' (nI + 1) (some nNew) (by simpa using hin) (Or.inl rfl)
        refine ⟨n, hrun, ?_⟩
        rcases hmem with hmem | hsame
        · exact Or.inl (List.mem_cons_of_mem _ hmem)
        · obtain rfl := Option.some.inj hsame
          rcases hnew with rfl | hnew
          · exact Or.inl List.mem_cons_self
          · exact Or.inr hnew
      have hhere : nId ∈ st.mapInfo := hids nId List.mem_cons_self
      cases nOldest with
      | none => exact hnext nId (Or.inl rfl) hhere
      | some nOld =>
        have hin := hold nOld rfl
        obtain ⟨info, hfound⟩ := Option.isSome_iff_exists.mp (AList.lookup_isSome.mpr hhere)
        obtain ⟨infoOld, hfoundOld⟩ := Option.isSome_iff_exists.mp (AList.lookup_isSome.mpr hin)
        dsimp only
        rw [hfound, hfoundOld, Option.bind_eq_bind, Option.bind_some, Option.bind_some]
        split
        · exact hnext nId (Or.inl rfl) hhere
        · exact hnext nOld (Or.inr rfl) hin
    · rw [if_neg hnow]
      obtain ⟨n, hrun, hmem⟩ := ih hids' (nI + 1) nOldest hold (by
        refine hdraw.imp id ?_
        rintro ⟨i, hi, hdrawn⟩
        cases i with
        | zero => exact absurd hdrawn hnow
        | succ i => exact ⟨i, by simpa using hi, by rwa [Nat.add_assoc, Nat.add_comm 1 i]⟩)
      exact ⟨n, hrun, hmem.imp (List.mem_cons_of_mem _) id⟩

theorem getRandInt_lt (r nMax : Nat) (h : 0 < nMax) : getRandInt r nMax < nMax := by
  rw [getRandInt, if_neg h.ne']
  exact Nat.mod_lt r h

/-- A bucket that is not empty loses one of its entries. -/
theorem Consistent.shrinkNew (h : Consistent hash timely p st) (nUBucket : NewBucket)
    (hne : 0 < (st.vvNew nUBucket).card)
    (hopen : ∀ n ∈ st.vvNew nUBucket, ¬ p.Names n) (clock : Nat → Int64) (r : Nat → Nat) :
    ∃ st' nOut, st.shrinkNew nUBucket clock r = some st' ∧ Consistent hash timely p st' ∧ st'.nKey = st.nKey ∧
      nOut ∈ st.vvNew nUBucket ∧
      st'.vvNew = Function.update st.vvNew nUBucket ((st.vvNew nUBucket).erase nOut) := by
  have hids : ∀ n ∈ (st.vvNew nUBucket).sort (· ≤ ·), n ∈ st.mapInfo := by
    intro n hn
    obtain ⟨info, hfound, -⟩ := h.of_mem_new ((Finset.mem_sort _).mp hn)
    exact AList.lookup_isSome.mp (by rw [hfound]; rfl)
  have hdrop : ∀ n ∈ st.vvNew nUBucket, ∃ st', st.dropFrom nUBucket n = some st' ∧ Consistent hash timely p st' ∧
      st'.nKey = st.nKey ∧ st'.vvNew = Function.update st.vvNew nUBucket ((st.vvNew nUBucket).erase n) :=
    fun n hn => h.dropFrom hn (hopen n hn)
  obtain ⟨nTerrible, hterrible, hmem⟩ := findTerrible_spec clock _ hids 0
  rw [CAddrMan.shrinkNew]
  dsimp only
  rw [hterrible, Option.bind_eq_bind, Option.bind_some]
  cases nTerrible with
  | some nId =>
    have hin := (Finset.mem_sort _).mp (hmem nId rfl)
    obtain ⟨st', hrun, hst', hkey, hnew⟩ := hdrop nId hin
    exact ⟨st', nId, hrun, hst', hkey, hin, hnew⟩
  | none =>
    have hlen : 0 < ((st.vvNew nUBucket).sort (· ≤ ·)).length := by rwa [Finset.length_sort]
    have hdrawn : getRandInt (r 0) ((st.vvNew nUBucket).sort (· ≤ ·)).length ∈
        (List.range 4).map fun k => getRandInt (r k) ((st.vvNew nUBucket).sort (· ≤ ·)).length :=
      List.mem_map.mpr ⟨0, by decide, rfl⟩
    obtain ⟨nId, holdest, hwhere⟩ := findOldest_spec
      (fun nI => decide (nI ∈ (List.range 4).map fun k =>
        getRandInt (r k) ((st.vvNew nUBucket).sort (· ≤ ·)).length)) _ hids 0 none (by simp)
      (Or.inr ⟨_, getRandInt_lt (r 0) _ hlen, by rw [Nat.zero_add]; exact decide_eq_true hdrawn⟩)
    have hin := (Finset.mem_sort _).mp (hwhere.resolve_right (by simp))
    obtain ⟨st', hrun, hst', hkey, hnew⟩ := hdrop nId hin
    dsimp only
    rw [holdest]
    exact ⟨st', nId, hrun, hst', hkey, hin, hnew⟩

/-- The open place of an entry is filled. -/
theorem Consistent.insertNew {nId : Nat} (h : Consistent hash timely (.owed nId) st) {nUBucket : NewBucket}
    (hout : nId ∉ st.vvNew nUBucket) (hroom : (st.vvNew nUBucket).card < ADDRMAN_NEW_BUCKET_SIZE) :
    Consistent hash timely .settled
      { st with vvNew := Function.update st.vvNew nUBucket (insert nId (st.vvNew nUBucket)) } where
  placed := h.placed
  addr := h.addr
  fits := by
    intro k
    by_cases hk : k = nId
    · subst hk
      obtain ⟨info, hfound, hin⟩ := h.of_names (n := k) rfl
      have hentry := h.entry hfound
      obtain ⟨hnone, hcount, hmax, hpos⟩ := hentry.new hin
      dsimp only
      rw [hfound]
      refine ⟨hentry.id, hentry.lastTry, hentry.lastSuccess, fun hwas => ?_, fun _ => ⟨hnone, ?_, hmax, fun _ => ?_⟩⟩
      · exact absurd (hin.symm.trans hwas) (by simp)
      · rw [holders_insert_self, Finset.card_insert_of_notMem fun hb => hout (mem_holders.mp hb), hcount,
          Pending.owes_owed_self]
        rfl
      · exact hpos (by simp)
    · have howes : (Pending.owed nId).owes k = 0 := if_neg hk
      refine (h.fits k).frame rfl le_rfl (fun _ => Iff.rfl) (holders_insert_of_ne hk) howes.symm ?_ ?_ rfl
      · exact iff_of_false id hk
      · exact iff_of_false (by simp) (by simp)
  total := h.total
  nTried := h.nTried
  triedNodup := h.triedNodup
  triedSize := h.triedSize
  newSize := by
    intro b
    by_cases hb : b = nUBucket
    · subst hb
      dsimp only
      rw [Function.update_self, Finset.card_insert_of_notMem hout]
      exact hroom
    · dsimp only
      rw [Function.update_of_ne hb]
      exact h.newSize b

/-- The end of `Add_`: what is open is settled, in a bucket that has been shrunk where it was full. -/
theorem addToNew_spec (st : CAddrMan) {nId : Nat} (source : CNetAddr) {info : CAddrInfo}
    (hfound : st.mapInfo.lookup nId = some info)
    (hin : nId ∈ st.vvNew (info.getNewBucket hash st.nKey source) → Consistent hash timely .settled st)
    (hout : nId ∉ st.vvNew (info.getNewBucket hash st.nKey source) →
      Consistent hash timely (.owed nId) (st.modify nId (CAddrInfo.addRef 1))) (clock : Nat → Int64) (r : Nat → Nat) :
    ∃ st', st.addToNew hash nId source clock r = some st' ∧ Consistent hash timely .settled st' := by
  rw [addToNew, hfound, Option.bind_eq_bind, Option.bind_some]
  dsimp only
  generalize info.getNewBucket hash st.nKey source = nUBucket at hin hout ⊢
  by_cases hmem : nId ∈ st.vvNew nUBucket
  · rw [if_pos hmem]
    exact ⟨st, rfl, hin hmem⟩
  rw [if_neg hmem]
  have hopen := hout hmem
  have hkept : (st.modify nId (CAddrInfo.addRef 1)).vvNew = st.vvNew := rfl
  rw [hkept]
  by_cases hfull : (st.vvNew nUBucket).card = ADDRMAN_NEW_BUCKET_SIZE
  · rw [if_pos hfull]
    obtain ⟨st', nOut, hrun, hst', -, hnOut, hnew⟩ := hopen.shrinkNew nUBucket
      (by rw [hkept, hfull]; decide) (fun n hn hname => hmem (hname ▸ hn)) clock r
    rw [hrun]
    refine ⟨_, rfl, hst'.insertNew ?_ ?_⟩
    · rw [hnew, Function.update_self, Finset.mem_erase]
      exact fun hboth => hmem hboth.2
    · rw [hnew, Function.update_self, Finset.card_erase_of_mem hnOut, hkept, hfull]
      decide
  · rw [if_neg hfull]
    refine ⟨_, rfl, hopen.insertNew hmem ?_⟩
    exact lt_of_le_of_ne (hopen.newSize nUBucket) hfull

end Add

end CAddrMan

end AliasWallet
