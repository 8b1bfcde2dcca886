import AliasWallet.Net.AddrManSteps

/-!
# Promotion to a tried bucket (`MakeTried`)

The entry leaves all its new buckets and takes a place in its tried bucket. Where that bucket is full, one of its
entries goes back to a new bucket, for which there is room in the one that the entry came from.
-/

namespace AliasWallet
open Lib

namespace CAddrMan

section Leave

variable {hash : HashFn} {timely : Prop} {st : CAddrMan}

/-- An entry that leaves all new buckets counts none. -/
theorem Consistent.leaveNew (h : Consistent hash timely .settled st) {nId : Nat} {info : CAddrInfo}
    (hfound : st.mapInfo.lookup nId = some info) (hin : info.fInTried = false) :
    Consistent hash timely (.homeless nId) (st.leaveNew nId) ∧
      (st.leaveNew nId).mapInfo.lookup nId = some (info.addRef (-(holders st.vvNew nId).card)) ∧
      (info.addRef (-(holders st.vvNew nId).card)).nRefCount = 0 := by
  have hentry := h.entry hfound
  obtain ⟨hnone, hcount, hmax, hpos⟩ := hentry.new hin
  have hself := lookup_modify_self hfound (CAddrInfo.addRef (-(holders st.vvNew nId).card))
  have hzero : (info.addRef (-(holders st.vvNew nId).card)).nRefCount = 0 := by
    rw [Pending.owes_settled] at hcount
    rw [CAddrInfo.addRef]
    dsimp only
    omega
  refine ⟨?_, hself, hzero⟩
  exact {
    placed := by
      rw [CAddrMan.leaveNew, positions_modify (f := CAddrInfo.addRef (-(holders st.vvNew nId).card)) fun _ => rfl]
      exact h.placed
    addr := h.addr_modify (f := CAddrInfo.addRef (-(holders st.vvNew nId).card)) fun _ => rfl
    fits := by
      intro k
      by_cases hk : k = nId
      · subst hk
        have hself' : (st.leaveNew k).mapInfo.lookup k = some (info.addRef (-(holders st.vvNew k).card)) := hself
        rw [hself']
        refine ⟨hentry.id, hentry.lastTry, hentry.lastSuccess, fun hwas => ?_, fun _ => ⟨hnone, ?_, ?_, ?_⟩⟩
        · exact absurd (hin.symm.trans hwas) (by simp)
        · rw [hzero, CAddrMan.leaveNew, holders_eraseAll_self]
          rfl
        · rw [hzero]
          decide
        · exact fun hne => absurd rfl hne
      · have hother : (st.leaveNew nId).mapInfo.lookup k = st.mapInfo.lookup k := lookup_modify_of_ne hk _
        rw [hother]
        refine (h.fits k).frame rfl le_rfl (fun _ => Iff.rfl) (holders_eraseAll_of_ne hk) rfl ?_ ?_ rfl
        · exact iff_of_false hk id
        · exact iff_of_false (fun heq => hk (Pending.homeless.inj heq).symm) (by simp)
    total := by
      have htotal := h.total
      rw [Pending.missing_settled] at htotal
      rw [leaveNew_vRandom, leaveNew_nTried, leaveNew_nNew, Pending.missing_homeless]
      omega
    nTried := h.nTried
    triedNodup := h.triedNodup
    triedSize := h.triedSize
    newSize := fun b => Finset.card_erase_le.trans (h.newSize b) }

/-- There is room in the bucket that the entry came from. -/
theorem Consistent.leaveNew_room (h : Consistent hash timely .settled st) {nId : Nat} {nOrigin : NewBucket}
    (horigin : nId ∈ st.vvNew nOrigin) : ((st.leaveNew nId).vvNew nOrigin).card < ADDRMAN_NEW_BUCKET_SIZE := by
  have hpos := Finset.card_pos.mpr ⟨nId, horigin⟩
  have hle := h.newSize nOrigin
  have hcard := Finset.card_erase_of_mem horigin
  rw [leaveNew_vvNew, hcard]
  omega

end Leave

section Push

variable {hash : HashFn} {timely : Prop} {st : CAddrMan} {nId : Nat} {info : CAddrInfo}

/-- An entry without buckets lies nowhere. -/
theorem Consistent.homeless_nowhere (h : Consistent hash timely (.homeless nId) st)
    (hfound : st.mapInfo.lookup nId = some info) (hzero : info.nRefCount = 0) :
    info.fInTried = false ∧ (∀ b, nId ∉ st.vvTried b) ∧ holders st.vvNew nId = ∅ := by
  obtain ⟨info', hfound', hin⟩ := h.of_names (n := nId) rfl
  obtain rfl : info = info' := Option.some.inj (hfound.symm.trans hfound')
  obtain ⟨hnone, hcount, -, -⟩ := (h.entry hfound).new hin
  rw [hzero, Pending.owes_homeless] at hcount
  exact ⟨hin, hnone, Finset.card_eq_zero.mp (by omega)⟩

/-- The entry takes a free place of its tried bucket. -/
theorem Consistent.pushTried (h : Consistent hash timely (.homeless nId) st)
    (hfound : st.mapInfo.lookup nId = some info) (hzero : info.nRefCount = 0) (hsuccess : info.nLastSuccess ≠ 0)
    (hroom : (st.vvTried (info.getTriedBucket hash st.nKey)).length < ADDRMAN_TRIED_BUCKET_SIZE) :
    Consistent hash timely .settled (st.pushTried nId (info.getTriedBucket hash st.nKey)) := by
  obtain ⟨hin, hnowhere, hempty⟩ := h.homeless_nowhere hfound hzero
  have hentry := h.entry hfound
  generalize hbucket : info.getTriedBucket hash st.nKey = nKBucket at hroom ⊢
  have hmem : ∀ k b, k ∈ Function.update st.vvTried nKBucket (st.vvTried nKBucket ++ [nId]) b ↔
      k ∈ st.vvTried b ∨ k = nId ∧ b = nKBucket := by
    intro k b
    by_cases hb : b = nKBucket
    · subst hb
      rw [Function.update_self, List.mem_append, List.mem_singleton, and_iff_left rfl]
    · rw [Function.update_of_ne hb, or_iff_left fun hboth => hb hboth.2]
  exact {
    placed := by
      rw [CAddrMan.pushTried, positions_modify (f := CAddrInfo.promoted) fun _ => rfl]
      exact h.placed
    addr := h.addr_modify (f := CAddrInfo.promoted) fun _ => rfl
    fits := by
      intro k
      by_cases hk : k = nId
      · subst hk
        have hself : (st.pushTried k nKBucket).mapInfo.lookup k = some info.promoted := lookup_modify_self hfound _
        rw [hself]
        refine ⟨hentry.id, hentry.lastTry, hentry.lastSuccess, fun _ => ⟨hzero, hsuccess, hempty, fun b => ?_, id⟩,
          fun hwas => ?_⟩
        · refine (hmem k b).trans ?_
          rw [or_iff_right (hnowhere b), and_iff_right rfl, ← hbucket]
          rfl
        · exact absurd hwas (by simp [CAddrInfo.promoted])
      · have hother : (st.pushTried nId nKBucket).mapInfo.lookup k = st.mapInfo.lookup k :=
          lookup_modify_of_ne hk _
        rw [hother]
        refine (h.fits k).frame rfl le_rfl (fun b => ?_) rfl rfl ?_ ?_ rfl
        · exact (hmem k b).trans (or_iff_left fun hboth => hk hboth.1)
        · exact iff_of_false id hk
        · exact iff_of_false (by simp) fun heq => hk (Pending.homeless.inj heq).symm
    total := by
      have htotal := h.total
      rw [Pending.missing_homeless] at htotal
      rw [pushTried_vRandom, pushTried_nTried, pushTried_nNew, Pending.missing_settled]
      omega
    nTried := by
      have htotal := totalLength_update st.vvTried nKBucket (st.vvTried nKBucket ++ [nId])
      rw [List.length_append, List.length_singleton] at htotal
      have hold := h.nTried
      rw [pushTried_nTried, pushTried_vvTried]
      omega
    triedNodup := by
      intro b
      rw [pushTried_vvTried]
      by_cases hb : b = nKBucket
      · subst hb
        rw [Function.update_self]
        exact List.nodup_append.mpr ⟨h.triedNodup b, List.nodup_singleton nId, by
          intro x hx y hy heq
          rw [heq, List.mem_singleton.mp hy] at hx
          exact hnowhere b hx⟩
      · rw [Function.update_of_ne hb]
        exact h.triedNodup b
    triedSize := by
      intro b
      rw [pushTried_vvTried]
      by_cases hb : b = nKBucket
      · subst hb
        rw [Function.update_self, List.length_append, List.length_singleton]
        exact hroom
      · rw [Function.update_of_ne hb]
        exact h.triedSize b
    newSize := h.newSize }

end Push

section Select

variable {st : CAddrMan}

/-- What the rounds of `SelectTried` keep. -/
structure Selecting (st : CAddrMan) (ids : List Nat) (s : List Nat × Option Nat × Option Nat) : Prop where
  perm : s.1.Perm ids
  oldest : ∀ n ∈ s.2.1, n ∈ st.mapInfo
  position : s.2.1.isSome → ∃ nPos, s.2.2 = some nPos ∧ nPos < ids.length

theorem Selecting.round {ids : List Nat} (hids : ∀ n ∈ ids, n ∈ st.mapInfo) (r : Nat → Nat)
    {s : List Nat × Option Nat × Option Nat} (hs : Selecting st ids s) {i : Nat} (hi : i < ids.length) :
    ∃ s', st.selectRound r s i = some s' ∧ Selecting st ids s' ∧ s'.2.1.isSome := by
  obtain ⟨vTried, nOldest, nOldestPos⟩ := s
  have hlen : vTried.length = ids.length := hs.perm.length_eq
  rw [selectRound]
  dsimp only
  generalize hnPos : getRandInt (r i) (vTried.length - i) + i = nPos
  have hlt : nPos < vTried.length := by
    have hrand := getRandInt_lt (r i) (vTried.length - i) (by omega)
    omega
  have hget := List.getElem?_eq_getElem hlt
  have hiLt : i < vTried.length := by omega
  have hget' := List.getElem?_eq_getElem hiLt
  have hperm : ((vTried.set nPos vTried[i]).set i vTried[nPos]).Perm ids :=
    (List.set_set_perm hlt hiLt).trans hs.perm
  have hmem : vTried[nPos] ∈ st.mapInfo := hids _ (hs.perm.mem_iff.mp (List.getElem_mem hlt))
  rw [hget, hget', Option.bind_eq_bind, Option.bind_some, Option.bind_some]
  have hnow : Selecting st ids
      ((vTried.set nPos vTried[i]).set i vTried[nPos], some vTried[nPos], some nPos) := by
    refine ⟨hperm, fun n hn => ?_, fun _ => ⟨nPos, rfl, hlen ▸ hlt⟩⟩
    obtain rfl := Option.some.inj hn
    exact hmem
  cases nOldest with
  | none => exact ⟨_, rfl, hnow, rfl⟩
  | some nOld =>
    have hold := hs.oldest nOld rfl
    obtain ⟨info, hfound⟩ := Option.isSome_iff_exists.mp (AList.lookup_isSome.mpr hmem)
    obtain ⟨infoOld, hfoundOld⟩ := Option.isSome_iff_exists.mp (AList.lookup_isSome.mpr hold)
    simp only [hfound, hfoundOld, Option.bind_eq_bind, Option.bind_some]
    split
    · exact ⟨_, rfl, hnow, rfl⟩
    · exact ⟨_, rfl, ⟨hperm, hs.oldest, hs.position⟩, rfl⟩

theorem Selecting.rounds {ids : List Nat} (hids : ∀ n ∈ ids, n ∈ st.mapInfo) (r : Nat → Nat) (l : List Nat)
    (hl : ∀ i ∈ l, i < ids.length) {s : List Nat × Option Nat × Option Nat} (hs : Selecting st ids s)
    (hsome : l ≠ [] ∨ s.2.1.isSome) :
    ∃ s', l.foldlM (st.selectRound r) s = some s' ∧ Selecting st ids s' ∧ s'.2.1.isSome := by
  induction l generalizing s with
  | nil => exact ⟨s, rfl, hs, hsome.resolve_left (by simp)⟩
  | cons i l ih =>
    obtain ⟨s₁, hround, hs₁, hsome₁⟩ := hs.round hids r (hl i List.mem_cons_self)
    obtain ⟨s', hrun, hs', hsome'⟩ := ih (fun j hj => hl j (List.mem_cons_of_mem _ hj)) hs₁ (Or.inr hsome₁)
    exact ⟨s', by rw [List.foldlM_cons, hround, Option.bind_eq_bind, Option.bind_some, hrun], hs', hsome'⟩

/-- `SelectTried` shuffles a bucket and gives one of its positions. -/
theorem selectTried_spec {nKBucket : TriedBucket} (hids : ∀ n ∈ st.vvTried nKBucket, n ∈ st.mapInfo)
    (hne : 0 < (st.vvTried nKBucket).length) (r : Nat → Nat) :
    ∃ vTried nPos, st.selectTried nKBucket r = some (vTried, nPos) ∧ vTried.Perm (st.vvTried nKBucket) ∧
      nPos < vTried.length := by
  have hstart : Selecting st (st.vvTried nKBucket) (st.vvTried nKBucket, none, none) :=
    ⟨List.Perm.refl _, by simp, by simp⟩
  obtain ⟨⟨vTried, nOldest, nOldestPos⟩, hrun, hs, hsome⟩ := hstart.rounds hids r
    (List.range (min ADDRMAN_TRIED_ENTRIES_INSPECT_ON_EVICT (st.vvTried nKBucket).length))
    (fun i hi => lt_of_lt_of_le (List.mem_range.mp hi) (min_le_right _ _)) (Or.inl (by
      rw [Ne, List.range_eq_nil]
      exact (lt_min (by decide) hne).ne'))
  obtain ⟨nPos, rfl, hlt⟩ := hs.position hsome
  refine ⟨vTried, nPos, ?_, hs.perm, ?_⟩
  · rw [selectTried]
    dsimp only
    rw [hrun]
    rfl
  · rw [hs.perm.length_eq]
    exact hlt

end Select

section Replace

variable {hash : HashFn} {timely : Prop} {st : CAddrMan} {nId : Nat} {info : CAddrInfo}

/-- A tried entry goes back to a new bucket, and the entry takes its place. -/
theorem Consistent.replaceTried (h : Consistent hash timely (.homeless nId) st)
    (hfound : st.mapInfo.lookup nId = some info) (hzero : info.nRefCount = 0) (hsuccess : info.nLastSuccess ≠ 0)
    {nOrigin : NewBucket}
    (hroom : (st.vvNew nOrigin).card < ADDRMAN_NEW_BUCKET_SIZE) {vTried : List Nat} {nPos : Nat}
    (hperm : vTried.Perm (st.vvTried (info.getTriedBucket hash st.nKey))) (hpos : nPos < vTried.length) :
    ∃ st', st.replaceTried hash nId nOrigin (info.getTriedBucket hash st.nKey) vTried nPos = some st' ∧
      Consistent hash timely .settled st' := by
  obtain ⟨hin, hnowhere, hempty⟩ := h.homeless_nowhere hfound hzero
  have hentry := h.entry hfound
  generalize hbucket : info.getTriedBucket hash st.nKey = nKBucket at hperm ⊢
  have hget := List.getElem?_eq_getElem hpos
  generalize vTried[nPos] = nOld at hget
  have holdMem : nOld ∈ st.vvTried nKBucket := hperm.mem_iff.mp (List.mem_of_getElem? hget)
  obtain ⟨infoOld, hfoundOld, hinOld, hbucketOld⟩ := h.of_mem_tried holdMem
  have hentryOld := h.entry hfoundOld
  obtain ⟨-, -, hemptyOld, hbucketsOld, -⟩ := hentryOld.tried hinOld
  have hne : nOld ≠ nId := by
    rintro rfl
    exact hnowhere nKBucket holdMem
  have hnodup : vTried.Nodup := hperm.nodup_iff.mpr (h.triedNodup nKBucket)
  generalize hnTo : (if (st.vvNew (infoOld.getNewBucket hash st.nKey infoOld.source)).card <
      ADDRMAN_NEW_BUCKET_SIZE then infoOld.getNewBucket hash st.nKey infoOld.source else nOrigin) = nTo
  have hplace : (st.vvNew nTo).card < ADDRMAN_NEW_BUCKET_SIZE := by
    rw [← hnTo]
    split
    · assumption
    · exact hroom
  have holdOut : nOld ∉ st.vvNew nTo := by
    intro hmem
    have hb := mem_holders.mpr hmem
    rw [hemptyOld] at hb
    exact absurd hb (Finset.notMem_empty nTo)
  -- who is in the tried buckets afterwards
  have hset : ∀ k, k ∈ vTried.set nPos nId ↔ k = nId ∨ k ∈ st.vvTried nKBucket ∧ k ≠ nOld := by
    intro k
    rw [mem_set_of_nodup hnodup hget, hperm.mem_iff]
  have hmem : ∀ k b, k ∈ Function.update st.vvTried nKBucket (vTried.set nPos nId) b ↔
      (k = nId ∧ b = nKBucket) ∨ (k ∈ st.vvTried b ∧ k ≠ nOld) := by
    intro k b
    by_cases hb : b = nKBucket
    · subst hb
      rw [Function.update_self, hset, and_iff_left rfl]
    · rw [Function.update_of_ne hb, or_iff_right fun hboth => hb hboth.2]
      refine (and_iff_left_of_imp fun hk heq => ?_).symm
      subst heq
      exact hb (((hbucketsOld b).mp hk).trans hbucketOld)
  have hlookup : ∀ k, ((st.modify nOld CAddrInfo.demoted).modify nId CAddrInfo.promoted).mapInfo.lookup k =
      if k = nId then some info.promoted else if k = nOld then some infoOld.demoted else st.mapInfo.lookup k := by
    intro k
    by_cases hk : k = nId
    · subst hk
      rw [if_pos rfl, lookup_modify_self]
      rw [lookup_modify_of_ne hne.symm, hfound]
    · rw [if_neg hk, lookup_modify_of_ne hk]
      by_cases hkOld : k = nOld
      · subst hkOld
        rw [if_pos rfl, lookup_modify_self hfoundOld]
      · rw [if_neg hkOld, lookup_modify_of_ne hkOld]
  refine ⟨{ (st.modify nOld CAddrInfo.demoted).modify nId CAddrInfo.promoted with
    vvNew := Function.update st.vvNew nTo (insert nOld (st.vvNew nTo))
    nNew := st.nNew + 1
    vvTried := Function.update st.vvTried nKBucket (vTried.set nPos nId) }, ?_, ?_⟩
  · rw [CAddrMan.replaceTried]
    simp only [hget, hfoundOld, Option.bind_eq_bind, Option.bind_some]
    rw [hnTo]
    rfl
  exact {
    placed := by
      dsimp only
      rw [positions_modify (f := CAddrInfo.promoted) fun _ => rfl,
        positions_modify (f := CAddrInfo.demoted) fun _ => rfl]
      exact h.placed
    addr := by
      intro a k
      exact (h.addr a k).trans ((modify_addr_iff (f := CAddrInfo.demoted) (fun _ => rfl) a k).symm.trans
        (modify_addr_iff (f := CAddrInfo.promoted) (fun _ => rfl) a k).symm)
    fits := by
      intro k
      dsimp only
      rw [hlookup]
      by_cases hk : k = nId
      · subst hk
        rw [if_pos rfl]
        refine ⟨hentry.id, hentry.lastTry, hentry.lastSuccess, fun _ => ⟨hzero, hsuccess, ?_, fun b => ?_, id⟩,
          fun hwas => absurd hwas (by simp [CAddrInfo.promoted])⟩
        · exact (holders_insert_of_ne hne.symm).trans hempty
        · refine (hmem k b).trans ?_
          rw [and_iff_right rfl, or_iff_left fun hboth => hnowhere b hboth.1, ← hbucket]
          rfl
      rw [if_neg hk]
      by_cases hkOld : k = nOld
      · subst hkOld
        rw [if_pos rfl]
        refine ⟨hentryOld.id, hentryOld.lastTry, hentryOld.lastSuccess,
          fun hwas => absurd hwas (by simp [CAddrInfo.demoted]), fun _ => ⟨fun b hb => ?_, ?_, ?_, fun _ => ?_⟩⟩
        · rcases (hmem k b).mp hb with hboth | hboth
          · exact hk hboth.1
          · exact hboth.2 rfl
        · dsimp only
          rw [holders_insert_self, hemptyOld]
          rfl
        · exact (by decide : (1 : Int) ≤ ADDRMAN_NEW_BUCKETS_PER_ADDRESS)
        · exact (by decide : (0 : Int) < 1)
      · rw [if_neg hkOld]
        refine (h.fits k).frame rfl le_rfl (fun b => ?_) (holders_insert_of_ne hkOld) rfl ?_ ?_ rfl
        · refine (hmem k b).trans ?_
          rw [or_iff_right fun hboth => hk hboth.1, and_iff_left hkOld]
        · exact iff_of_false id hk
        · exact iff_of_false (by simp) fun heq => hk (Pending.homeless.inj heq).symm
    total := by
      have htotal := h.total
      rw [Pending.missing_homeless] at htotal
      dsimp only
      rw [modify_vRandom, modify_vRandom, modify_nTried, modify_nTried, Pending.missing_settled]
      omega
    nTried := by
      have htotal := totalLength_update st.vvTried nKBucket (vTried.set nPos nId)
      rw [List.length_set, hperm.length_eq] at htotal
      have hold := h.nTried
      dsimp only
      rw [modify_nTried, modify_nTried]
      omega
    triedNodup := by
      intro b
      by_cases hb : b = nKBucket
      · subst hb
        dsimp only
        rw [Function.update_self]
        exact hnodup.set fun hmem => hnowhere b (hperm.mem_iff.mp hmem)
      · dsimp only
        rw [Function.update_of_ne hb]
        exact h.triedNodup b
    triedSize := by
      intro b
      by_cases hb : b = nKBucket
      · subst hb
        dsimp only
        rw [Function.update_self, List.length_set, hperm.length_eq]
        exact h.triedSize b
      · dsimp only
        rw [Function.update_of_ne hb]
        exact h.triedSize b
    newSize := by
      intro b
      by_cases hb : b = nTo
      · subst hb
        dsimp only
        rw [Function.update_self, Finset.card_insert_of_notMem holdOut]
        exact hplace
      · dsimp only
        rw [Function.update_of_ne hb]
        exact h.newSize b }

end Replace

end CAddrMan

end AliasWallet
