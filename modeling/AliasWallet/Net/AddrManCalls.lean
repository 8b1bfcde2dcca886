import AliasWallet.Lib.Fold
import AliasWallet.Net.AddrManTried

/-!
# The calls to the address manager

`Good_`, `Add_`, `Attempt_`, `Connected_`, `Select_` and `GetAddr_`: from a settled state each of them goes through
all its assertions and leaves the state settled.
-/

namespace AliasWallet
open Lib

namespace CAddrMan

section Good

variable {hash : HashFn} {timely : Prop} {st : CAddrMan} {nId : Nat} {info : CAddrInfo}

theorem Consistent.makeTried (h : Consistent hash timely .settled st) (hfound : st.mapInfo.lookup nId = some info)
    (hsuccess : info.nLastSuccess ≠ 0) {nOrigin : NewBucket} (horigin : nId ∈ st.vvNew nOrigin) (r : Nat → Nat) :
    ∃ st', st.makeTried hash nId nOrigin r = some st' ∧ Consistent hash timely .settled st' := by
  obtain ⟨info', hfound', hin⟩ := h.of_mem_new horigin
  obtain rfl : info = info' := Option.some.inj (hfound.symm.trans hfound')
  obtain ⟨hleft, hfoundLeft, hzero⟩ := h.leaveNew hfound hin
  have hroom := h.leaveNew_room horigin
  have hsuccessLeft : (info.addRef (-(holders st.vvNew nId).card)).nLastSuccess ≠ 0 := hsuccess
  generalize info.addRef (-(holders st.vvNew nId).card) = infoLeft at hfoundLeft hzero hsuccessLeft
  rw [CAddrMan.makeTried, if_pos horigin]
  generalize st.leaveNew nId = stLeft at hleft hfoundLeft hroom ⊢
  dsimp only
  rw [hfoundLeft, Option.bind_eq_bind, Option.bind_some, if_pos hzero]
  by_cases hplace : (stLeft.vvTried (infoLeft.getTriedBucket hash stLeft.nKey)).length < ADDRMAN_TRIED_BUCKET_SIZE
  · rw [if_pos hplace]
    exact ⟨_, rfl, hleft.pushTried hfoundLeft hzero hsuccessLeft hplace⟩
  · rw [if_neg hplace]
    have hids : ∀ n ∈ stLeft.vvTried (infoLeft.getTriedBucket hash stLeft.nKey), n ∈ stLeft.mapInfo := by
      intro n hn
      obtain ⟨info', hfound', -⟩ := hleft.of_mem_tried hn
      exact AList.lookup_isSome.mp (by rw [hfound']; rfl)
    have hfull : 0 < (stLeft.vvTried (infoLeft.getTriedBucket hash stLeft.nKey)).length :=
      lt_of_lt_of_le (by decide) (not_lt.mp hplace)
    obtain ⟨vTried, nPos, hselect, hperm, hpos⟩ := selectTried_spec hids hfull r
    rw [hselect, Option.bind_eq_bind, Option.bind_some]
    exact hleft.replaceTried hfoundLeft hzero hsuccessLeft hroom hperm hpos

theorem find_eq_some {addr : CNetAddr} (h : st.find addr = some (nId, info)) :
    st.mapAddr.lookup addr = some nId ∧ st.mapInfo.lookup nId = some info := by
  rw [find, Option.bind_eq_bind, Option.bind_eq_some_iff] at h
  obtain ⟨n, hn, h⟩ := h
  rw [Option.bind_eq_bind, Option.bind_eq_some_iff] at h
  obtain ⟨i, hi, h⟩ := h
  obtain ⟨rfl, rfl⟩ := Prod.mk.inj (Option.some.inj h)
  exact ⟨hn, hi⟩

/-- An address that `Find` does not know has no id. -/
theorem Consistent.find_eq_none {p : Pending} (h : Consistent hash timely p st) {addr : CNetAddr}
    (hnone : st.find addr = none) : st.mapAddr.lookup addr = none := by
  cases hid : st.mapAddr.lookup addr with
  | none => rfl
  | some n =>
    obtain ⟨info, hfound, -⟩ := (h.addr addr n).mp hid
    rw [find, hid, Option.bind_eq_bind, Option.bind_some, hfound] at hnone
    exact absurd hnone (by simp)

theorem Consistent.good_ (h : Consistent hash timely .settled st) (addr : CService) {nTime : Int64}
    (hnonzero : nTime ≠ 0) (htime : timely → 0 ≤ nTime) (nRnd : Nat) (r : Nat → Nat) :
    ∃ st', st.good_ hash addr nTime nRnd r = some st' ∧ Consistent hash timely .settled st' := by
  rw [CAddrMan.good_]
  cases hfind : st.find addr.toCNetAddr with
  | none => exact ⟨st, rfl, h⟩
  | some found =>
    obtain ⟨nId, info⟩ := found
    obtain ⟨-, hfound⟩ := find_eq_some hfind
    dsimp only
    by_cases hsame : info.toCService ≠ addr
    · rw [if_pos hsame]
      exact ⟨st, rfl, h⟩
    rw [if_neg hsame]
    have htouched := h.touch nId
      (fun info => { info with nLastSuccess := nTime, nLastTry := nTime, nTime := time32 nTime, nAttempts := 0 })
      (fun _ => rfl) (fun _ => rfl) (fun _ => rfl) (fun _ => rfl) (fun ht _ _ => htime ht) (fun ht _ _ => htime ht)
      (fun _ _ => hnonzero)
    have hfound' := lookup_modify_self hfound
      (fun info => { info with nLastSuccess := nTime, nLastTry := nTime, nTime := time32 nTime, nAttempts := 0 })
    generalize st.modify nId
      (fun info => { info with nLastSuccess := nTime, nLastTry := nTime, nTime := time32 nTime, nAttempts := 0 }) =
      st₁ at htouched hfound' ⊢
    split
    · exact ⟨st₁, rfl, htouched⟩
    · cases hbucket : (List.range ADDRMAN_NEW_BUCKET_COUNT).find? fun n =>
          decide (nId ∈ st₁.vvNew (newBucket (n + getRandInt nRnd ADDRMAN_NEW_BUCKET_COUNT))) with
      | none => exact ⟨st₁, rfl, htouched⟩
      | some n =>
        have hmem := List.find?_some hbucket
        rw [decide_eq_true_iff] at hmem
        exact htouched.makeTried hfound' hnonzero hmem r

end Good

section Add

variable {hash : HashFn} {timely : Prop} {st : CAddrMan} {nId : Nat} {info : CAddrInfo}

/-- A counter that goes up leaves a bucket to go to. -/
theorem Consistent.owe (h : Consistent hash timely .settled st) (hfound : st.mapInfo.lookup nId = some info)
    (hin : info.fInTried = false) (hmore : info.nRefCount ≠ ADDRMAN_NEW_BUCKETS_PER_ADDRESS) :
    Consistent hash timely (.owed nId) (st.modify nId (CAddrInfo.addRef 1)) where
  placed := by
    rw [positions_modify (f := CAddrInfo.addRef 1) fun _ => rfl]
    exact h.placed
  addr := h.addr_modify (f := CAddrInfo.addRef 1) fun _ => rfl
  fits := by
    intro k
    by_cases hk : k = nId
    · subst hk
      have hentry := h.entry hfound
      obtain ⟨hnone, hcount, hmax, hpos⟩ := hentry.new hin
      rw [lookup_modify_self hfound]
      refine ⟨hentry.id, hentry.lastTry, hentry.lastSuccess, fun hwas => absurd (hin.symm.trans hwas) (by simp),
        fun _ => ⟨hnone, ?_, ?_, fun _ => ?_⟩⟩
      · have hrefs : (info.addRef 1).nRefCount = info.nRefCount + 1 := rfl
        rw [hrefs, modify_vvNew, Pending.owes_owed_self, hcount, Pending.owes_settled]
        omega
      · have hrefs : (info.addRef 1).nRefCount = info.nRefCount + 1 := rfl
        rw [hrefs]
        omega
      · have hrefs : (info.addRef 1).nRefCount = info.nRefCount + 1 := rfl
        have hnow := hpos (by simp)
        rw [hrefs]
        omega
    · have howes : (Pending.owed nId).owes k = 0 := if_neg hk
      rw [lookup_modify_of_ne hk]
      refine (h.fits k).frame rfl le_rfl (fun _ => Iff.rfl) rfl howes ?_ ?_ rfl
      · exact iff_of_false hk id
      · exact iff_of_false (by simp) (by simp)
  total := h.total
  nTried := h.nTried
  triedNodup := h.triedNodup
  triedSize := h.triedSize
  newSize := h.newSize

/-- The id that `Create` takes is in no structure. -/
theorem Consistent.nIdCount_fresh {p : Pending} (h : Consistent hash timely p st) :
    st.mapInfo.lookup st.nIdCount = none := by
  cases hfound : st.mapInfo.lookup st.nIdCount with
  | none => rfl
  | some info => exact absurd (h.entry hfound).id (lt_irrefl _)

theorem Consistent.nIdCount_notMem {p : Pending} (h : Consistent hash timely p st) (b : NewBucket) :
    st.nIdCount ∉ st.vvNew b := by
  intro hmem
  obtain ⟨info, hfound, -⟩ := h.of_mem_new hmem
  rw [h.nIdCount_fresh] at hfound
  exact absurd hfound (by simp)

/-- A new entry counts the bucket that it will go to. -/
theorem Consistent.insertEntry (h : Consistent hash timely .settled st) (info : CAddrInfo)
    (haddr : st.mapAddr.lookup info.toCNetAddr = none) (hpos : info.nRandomPos = st.vRandom.length)
    (hrefs : info.nRefCount = 1) (hin : info.fInTried = false) (htry : info.nLastTry = 0)
    (hsuccess : info.nLastSuccess = 0) {m : AList fun _ : Nat => CAddrInfo}
    (hm : ∀ k, m.lookup k = if k = st.nIdCount then some info else st.mapInfo.lookup k) :
    Consistent hash timely (.owed st.nIdCount) { st with
      nIdCount := st.nIdCount + 1
      mapInfo := m
      mapAddr := st.mapAddr.insert info.toCNetAddr st.nIdCount
      vRandom := st.vRandom ++ [st.nIdCount]
      nNew := st.nNew + 1 } where
  placed := by
    have hpositions : positions m = Function.update (positions st.mapInfo) st.nIdCount (some st.vRandom.length) := by
      funext k
      rw [positions, hm]
      by_cases hk : k = st.nIdCount
      · subst hk
        rw [if_pos rfl, Function.update_self, Option.map_some, hpos]
      · rw [if_neg hk, Function.update_of_ne hk, positions]
    rw [hpositions]
    exact h.placed.push (by rw [positions, h.nIdCount_fresh, Option.map_none])
  addr := by
    intro a k
    dsimp only
    rw [hm]
    by_cases ha : a = info.toCNetAddr
    · subst ha
      rw [AList.lookup_insert, Option.some.injEq]
      by_cases hk : k = st.nIdCount
      · subst hk
        rw [if_pos rfl]
        exact iff_of_true rfl ⟨info, rfl, rfl⟩
      · rw [if_neg hk]
        refine iff_of_false (Ne.symm hk) fun hother => ?_
        have hid := (h.addr _ k).mpr hother
        rw [haddr] at hid
        exact absurd hid (by simp)
    · rw [AList.lookup_insert_ne ha, h.addr a k]
      by_cases hk : k = st.nIdCount
      · subst hk
        rw [if_pos rfl, h.nIdCount_fresh]
        refine iff_of_false (by simp) ?_
        rintro ⟨info', hinfo', rfl⟩
        exact ha (congrArg (fun i : CAddrInfo => i.toCNetAddr) (Option.some.inj hinfo').symm)
      · rw [if_neg hk]
  fits := by
    intro k
    dsimp only
    rw [hm]
    by_cases hk : k = st.nIdCount
    · subst hk
      rw [if_pos rfl]
      have hfits := h.fits st.nIdCount
      rw [h.nIdCount_fresh] at hfits
      refine ⟨Nat.lt_succ_self _, fun _ => ?_, fun _ => ?_, fun hwas => absurd (hin.symm.trans hwas) (by simp),
        fun _ => ⟨hfits.1, ?_, ?_, fun _ => ?_⟩⟩
      · rw [htry]
        exact Int64.le_refl 0
      · rw [hsuccess]
        exact Int64.le_refl 0
      · dsimp only
        rw [hrefs, hfits.2.1, Pending.owes_owed_self]
        rfl
      · rw [hrefs]
        decide
      · rw [hrefs]
        decide
    · rw [if_neg hk]
      have howes : (Pending.owed st.nIdCount).owes k = 0 := if_neg hk
      refine (h.fits k).frame rfl (Nat.le_succ _) (fun _ => Iff.rfl) rfl howes ?_ ?_ rfl
      · exact iff_of_false hk id
      · exact iff_of_false (by simp) (by simp)
  total := by
    have htotal := h.total
    rw [Pending.missing_settled] at htotal
    dsimp only
    rw [List.length_append, List.length_singleton, Pending.missing_owed]
    push_cast
    omega
  nTried := h.nTried
  triedNodup := h.triedNodup
  triedSize := h.triedSize
  newSize := h.newSize

/-- The entry that `Create` makes. -/
def created (st : CAddrMan) (addr : CAddress) (addrSource : CNetAddr) : CAddrInfo :=
  { addr with
    nLastTry := 0
    source := addrSource
    nLastSuccess := 0
    nAttempts := 0
    nRefCount := 0
    fInTried := false
    nRandomPos := st.vRandom.length }

theorem lookup_create (st : CAddrMan) (addr : CAddress) (addrSource : CNetAddr) (k : Nat) :
    (st.create addr addrSource).mapInfo.lookup k =
      if k = st.nIdCount then some (st.created addr addrSource) else st.mapInfo.lookup k := by
  by_cases hk : k = st.nIdCount
  · subst hk
    rw [if_pos rfl]
    exact AList.lookup_insert st.mapInfo
  · rw [if_neg hk]
    exact AList.lookup_insert_ne hk

theorem Consistent.add_ (h : Consistent hash timely .settled st) (addr : CAddress) (source : CNetAddr)
    (nTimePenalty nNow : Int64) (rFactor : Nat) (clock : Nat → Int64) (r : Nat → Nat) :
    ∃ st' fNew, st.add_ hash addr source nTimePenalty nNow rFactor clock r = some (st', fNew) ∧
      Consistent hash timely .settled st' := by
  rw [CAddrMan.add_]
  by_cases hroutable : addr.isRoutable = true
  swap
  · rw [if_pos hroutable]
    exact ⟨st, false, rfl, h⟩
  rw [if_neg (not_not.mpr hroutable)]
  cases hfind : st.find addr.toCNetAddr with
  | some found =>
    obtain ⟨nId, info⟩ := found
    obtain ⟨-, hfound⟩ := find_eq_some hfind
    dsimp only
    generalize (if addr.nTime ≠ 0 ∧ (info.nTime = 0 ∨ time64 info.nTime < time64 addr.nTime -
      (if nNow - time64 addr.nTime < 24 * 60 * 60 then 60 * 60 else 24 * 60 * 60) - nTimePenalty)
      then time32 (max 0 (time64 addr.nTime - nTimePenalty)) else info.nTime) = nTime
    have htouched := h.touch nId
      (fun info => { info with nTime := nTime, nServices := info.nServices ||| addr.nServices })
      (fun _ => rfl) (fun _ => rfl) (fun _ => rfl) (fun _ => rfl) (fun _ _ htry => htry)
      (fun _ _ hsuccess => hsuccess) (fun _ hsuccess => hsuccess)
    have hfound' := lookup_modify_self hfound
      (fun info => { info with nTime := nTime, nServices := info.nServices ||| addr.nServices })
    generalize st.modify nId
      (fun info => { info with nTime := nTime, nServices := info.nServices ||| addr.nServices }) = st₁
      at htouched hfound' ⊢
    split
    · exact ⟨st₁, false, rfl, htouched⟩
    split
    · exact ⟨st₁, false, rfl, htouched⟩
    split
    · exact ⟨st₁, false, rfl, htouched⟩
    split
    · exact ⟨st₁, false, rfl, htouched⟩
    · obtain ⟨st', hrun, hst'⟩ := addToNew_spec st₁ source hfound' (fun _ => htouched)
        (fun _ => htouched.owe hfound' (Bool.eq_false_of_not_eq_true ‹_›) ‹_›) clock r
      exact ⟨st', false, by rw [hrun, Option.map_some], hst'⟩
  | none =>
    have haddr := h.find_eq_none hfind
    dsimp only
    have hcreated := lookup_create st addr source
    have hfound := lookup_modify_self ((hcreated st.nIdCount).trans (if_pos rfl)) fun info =>
      { info with nTime := time32 (max 0 (time64 info.nTime - nTimePenalty)) }
    have hout := h.insertEntry (CAddrInfo.addRef 1 { created st addr source with
      nTime := time32 (max 0 (time64 addr.nTime - nTimePenalty)) }) haddr rfl rfl rfl rfl rfl
      (m := modifyAt (modifyAt (st.create addr source).mapInfo st.nIdCount fun info =>
        { info with nTime := time32 (max 0 (time64 info.nTime - nTimePenalty)) }) st.nIdCount (CAddrInfo.addRef 1))
      (by
        intro k
        rw [lookup_modifyAt, lookup_modifyAt, hcreated]
        split
        · subst k
          rfl
        · rfl)
    obtain ⟨st', hrun, hst'⟩ := addToNew_spec { (st.create addr source).modify st.nIdCount fun info =>
      { info with nTime := time32 (max 0 (time64 info.nTime - nTimePenalty)) } with nNew := st.nNew + 1 } source
      hfound (fun hmem => absurd hmem (h.nIdCount_notMem _)) (fun _ => hout) clock r
    exact ⟨st', true, congrArg (Option.map fun st => (st, true)) hrun, hst'⟩

end Add

section Touch

variable {hash : HashFn} {timely : Prop} {st : CAddrMan}

theorem Consistent.attempt_ (h : Consistent hash timely .settled st) (addr : CService) {nTime : Int64}
    (htime : timely → 0 ≤ nTime) : Consistent hash timely .settled (st.attempt_ addr nTime) := by
  rw [CAddrMan.attempt_]
  cases st.find addr.toCNetAddr with
  | none => exact h
  | some found =>
    obtain ⟨nId, info⟩ := found
    dsimp only
    split
    · exact h
    · exact h.touch nId _ (fun _ => rfl) (fun _ => rfl) (fun _ => rfl) (fun _ => rfl) (fun ht _ _ => htime ht)
        (fun _ _ hsuccess => hsuccess) (fun _ hsuccess => hsuccess)

theorem Consistent.connected_ (h : Consistent hash timely .settled st) (addr : CService) (nTime : Int64) :
    Consistent hash timely .settled (st.connected_ addr nTime) := by
  rw [CAddrMan.connected_]
  cases st.find addr.toCNetAddr with
  | none => exact h
  | some found =>
    obtain ⟨nId, info⟩ := found
    dsimp only
    split
    · exact h
    · split
      · exact h.touch nId _ (fun _ => rfl) (fun _ => rfl) (fun _ => rfl) (fun _ => rfl) (fun _ _ htry => htry)
          (fun _ _ hsuccess => hsuccess) (fun _ hsuccess => hsuccess)
      · exact h

end Touch

section Draw

variable {hash : HashFn} {timely : Prop} {p : Pending} {st : CAddrMan}

/-- All ids of the buckets have entries, so the tries meet no missing one. -/
theorem selectTries_spec {bucket : Nat → List Nat} (hids : ∀ r, ∀ n ∈ bucket r, n ∈ st.mapInfo)
    (draw : Nat → Nat × Nat × Bool) (nTries i : Nat) : ∃ found, st.selectTries bucket draw nTries i = some found := by
  induction nTries generalizing i with
  | zero => exact ⟨none, rfl⟩
  | succ nTries ih =>
    rw [selectTries]
    by_cases hempty : (bucket (draw i).1).length = 0
    · rw [if_pos hempty]
      exact ih (i + 1)
    · rw [if_neg hempty]
      have hlt := getRandInt_lt (draw i).2.1 _ (Nat.pos_of_ne_zero hempty)
      obtain ⟨info, hfound⟩ := Option.isSome_iff_exists.mp
        (AList.lookup_isSome.mpr (hids _ _ (List.getElem_mem hlt)))
      rw [List.getElem?_eq_getElem hlt, Option.bind_eq_bind, Option.bind_some, hfound, Option.bind_eq_bind,
        Option.bind_some]
      split
      · exact ⟨some info, rfl⟩
      · exact ih (i + 1)

theorem Consistent.select_ (h : Consistent hash timely p st) (fTestNet fTried : Bool)
    (draw : Nat → Nat × Nat × Bool) : ∃ found, st.select_ fTestNet fTried draw = some found := by
  rw [CAddrMan.select_]
  split
  · exact ⟨none, rfl⟩
  generalize (if fTestNet = true then 100 else 100000) = nTries
  dsimp only
  split
  · apply selectTries_spec
    intro r n hn
    obtain ⟨info, hfound, -⟩ := h.of_mem_tried hn
    exact AList.lookup_isSome.mp (by rw [hfound]; rfl)
  · apply selectTries_spec
    intro r n hn
    obtain ⟨info, hfound, -⟩ := h.of_mem_new ((Finset.mem_sort _).mp hn)
    exact AList.lookup_isSome.mp (by rw [hfound]; rfl)

theorem Consistent.getAddr_ (h : Consistent hash timely p st) (r : Nat → Nat) :
    ∃ st' vAddr, st.getAddr_ r = some (st', vAddr) ∧ Consistent hash timely p st' := by
  rw [CAddrMan.getAddr_]
  generalize hnodes : min ADDRMAN_GETADDR_MAX (ADDRMAN_GETADDR_MAX_PCT * st.vRandom.length / 100) = nNodes
  have hmax : nNodes ≤ st.vRandom.length := by
    have hpct : ADDRMAN_GETADDR_MAX_PCT = 23 := rfl
    rw [hpct] at hnodes
    omega
  obtain ⟨⟨st', vAddr⟩, hrun, hst', -⟩ := foldlM_total
    (fun _ (s : CAddrMan × List CAddress) => Consistent hash timely p s.1 ∧ s.1.vRandom.length = st.vRandom.length)
    (List.range nNodes) (st, []) ⟨h, rfl⟩ (f := getAddrRound r) (by
      rintro done n rest hsplit ⟨st₁, vAddr⟩ ⟨hst₁, hlen⟩
      have hn : n < nNodes := List.mem_range.mp (hsplit ▸ by simp)
      dsimp only at hst₁ hlen
      have hpos : getRandInt (r n) (st₁.vRandom.length - n) + n < st₁.vRandom.length := by
        have hrand := getRandInt_lt (r n) (st₁.vRandom.length - n) (by omega)
        omega
      obtain ⟨st₂, hswap, hst₂, hlen₂⟩ := hst₁.swapRandom n _ (by omega) hpos
      have hget := List.getElem?_eq_getElem (l := st₂.vRandom) (i := n) (by omega)
      obtain ⟨info, hfound, -⟩ := Option.map_eq_some_iff.mp ((hst₂.placed _ n).mpr hget)
      refine ⟨(st₂, vAddr ++ [info.toCAddress]), ?_, hst₂, hlen₂.trans hlen⟩
      rw [getAddrRound]
      rw [hswap, Option.bind_eq_bind, Option.bind_some, hget, Option.bind_eq_bind, Option.bind_some, hfound]
      rfl)
  exact ⟨st', vAddr, hrun, hst'⟩

end Draw

section Calls

/-- A call with its clock values and its random choices. -/
inductive Call
  | add (addr : CAddress) (source : CNetAddr) (nTimePenalty nNow : Int64) (rFactor : Nat) (clock : Nat → Int64)
    (r : Nat → Nat)
  | good (addr : CService) (nTime : Int64) (nRnd : Nat) (r : Nat → Nat)
  | attempt (addr : CService) (nTime : Int64)
  | connected (addr : CService) (nTime : Int64)
  | select (fTestNet fTried : Bool) (draw : Nat → Nat × Nat × Bool)
  | getAddr (r : Nat → Nat)

namespace Call

/-- The time of a success is not zero. -/
def Timed : Call → Prop
  | .good _ nTime _ _ => nTime ≠ 0
  | _ => True

/-- The times of tries and successes are not negative. -/
def Timely : Call → Prop
  | .good _ nTime _ _ => 0 ≤ nTime
  | .attempt _ nTime => 0 ≤ nTime
  | _ => True

def run (hash : HashFn) (st : CAddrMan) : Call → Option CAddrMan
  | .add addr source nTimePenalty nNow rFactor clock r =>
    (st.add_ hash addr source nTimePenalty nNow rFactor clock r).map Prod.fst
  | .good addr nTime nRnd r => st.good_ hash addr nTime nRnd r
  | .attempt addr nTime => some (st.attempt_ addr nTime)
  | .connected addr nTime => some (st.connected_ addr nTime)
  | .select fTestNet fTried draw => (st.select_ fTestNet fTried draw).map fun _ => st
  | .getAddr r => (st.getAddr_ r).map Prod.fst

end Call

variable {hash : HashFn} {timely : Prop} {st : CAddrMan}

theorem Consistent.call (h : Consistent hash timely .settled st) (c : Call) (htimed : c.Timed)
    (htimely : timely → c.Timely) : ∃ st', c.run hash st = some st' ∧ Consistent hash timely .settled st' := by
  cases c with
  | add addr source nTimePenalty nNow rFactor clock r =>
    obtain ⟨st', fNew, hrun, hst'⟩ := h.add_ addr source nTimePenalty nNow rFactor clock r
    exact ⟨st', by rw [Call.run, hrun, Option.map_some], hst'⟩
  | good addr nTime nRnd r => exact h.good_ addr htimed htimely nRnd r
  | attempt addr nTime => exact ⟨_, rfl, h.attempt_ addr htimely⟩
  | connected addr nTime => exact ⟨_, rfl, h.connected_ addr nTime⟩
  | select fTestNet fTried draw =>
    obtain ⟨found, hrun⟩ := h.select_ fTestNet fTried draw
    exact ⟨st, by rw [Call.run, hrun, Option.map_some], h⟩
  | getAddr r =>
    obtain ⟨st', vAddr, hrun, hst'⟩ := h.getAddr_ r
    exact ⟨st', by rw [Call.run, hrun, Option.map_some], hst'⟩

def runCalls (hash : HashFn) (nKey : Bytes) (calls : List Call) : Option CAddrMan :=
  calls.foldlM (fun st c => c.run hash st) (empty nKey)

theorem runCalls_consistent (hash : HashFn) (timely : Prop) (nKey : Bytes) (calls : List Call)
    (htimed : ∀ c ∈ calls, c.Timed)
    (htimely : timely → ∀ c ∈ calls, c.Timely) :
    ∃ st, runCalls hash nKey calls = some st ∧ Consistent hash timely .settled st := by
  apply foldlM_total (fun _ st => Consistent hash timely .settled st) calls (empty nKey) (consistent_empty nKey)
  intro done c rest hsplit st hst
  have hc : c ∈ calls := hsplit ▸ by simp
  exact hst.call c (htimed c hc) fun ht => htimely ht c hc

end Calls

end CAddrMan

end AliasWallet
