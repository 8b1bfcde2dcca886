import AliasWallet.Lib.FrontShuffle
import AliasWallet.Net.AddrManCalls

/-!
# Which entry a tried bucket gives up (`SelectTried`)

Some entries are drawn to the front of the bucket, and the one whose last success is the oldest is looked for among
them. The position that is recorded is the one the entry was drawn from, where another entry lies after the exchange.
-/

namespace AliasWallet
open Lib

namespace CAddrMan

section Select

variable (st : CAddrMan) (vTried : List Nat) (r : Nat → Nat)

/-- `mapInfo[n].nLastSuccess`. -/
def lastSuccess (n : Nat) : Int := ((st.mapInfo.lookup n).map fun info => info.nLastSuccess.toInt).getD 0

/-- The position that round `i` draws. -/
def drawnPos (nSize : Nat) (i : Nat) : Nat := getRandInt (r i) (nSize - i) + i

/-- The entries that are inspected, in the order in which they are drawn. -/
def inspected : List Nat :=
  drawn (drawnPos r vTried.length) vTried (min ADDRMAN_TRIED_ENTRIES_INSPECT_ON_EVICT vTried.length)

/-- An inspected entry that no other inspected entry is older than. -/
def OldestInspected (n : Nat) : Prop :=
  n ∈ inspected vTried r ∧ ∀ m ∈ inspected vTried r, st.lastSuccess n ≤ st.lastSuccess m

/-- The round of the oldest inspected entry has drawn the place of an entry that is inspected as well and as old; that
is so where it has drawn its own place at the front. -/
def DrawnInPlace : Prop :=
  ∃ w n m, FirstLeast st.lastSuccess (inspected vTried r) w n ∧
    (inspected vTried r)[drawnPos r vTried.length w]? = some m ∧ st.lastSuccess m = st.lastSuccess n

variable {st vTried r} {k : Nat}

theorem drawsFrom_drawnPos (r : Nat → Nat) {k n : Nat} (h : k ≤ n) : DrawsFrom (drawnPos r n) k n := by
  intro i hi
  have hlt := getRandInt_lt (r i) (n - i) (by omega)
  rw [drawnPos]
  omega

/-- What the rounds have recorded. -/
structure Recorded (st : CAddrMan) (vTried : List Nat) (r : Nat → Nat) (k : Nat)
    (s : List Nat × Option Nat × Option Nat) : Prop where
  bucket : s.1 = frontShuffle (drawnPos r vTried.length) vTried k
  start : k = 0 → s.2 = (none, none)
  oldest : 0 < k → ∃ w n, FirstLeast st.lastSuccess (drawn (drawnPos r vTried.length) vTried k) w n ∧
    s.2 = (some n, some (drawnPos r vTried.length w))

theorem Recorded.round (hids : ∀ n ∈ vTried, n ∈ st.mapInfo) (hk : k < vTried.length)
    {s : List Nat × Option Nat × Option Nat} (h : Recorded st vTried r k s) :
    ∃ s', st.selectRound r s k = some s' ∧ Recorded st vTried r (k + 1) s' := by
  obtain ⟨bucket, nOldest, nOldestPos⟩ := s
  have hbucket : bucket = frontShuffle (drawnPos r vTried.length) vTried k := h.bucket
  have hperm := frontShuffle_perm (drawnPos r vTried.length) vTried k
  have hlen : bucket.length = vTried.length := by rw [hbucket, hperm.length_eq]
  have hdraws := drawsFrom_drawnPos r (k := k + 1) hk
  have hpos : drawnPos r vTried.length k < bucket.length := by
    rw [hlen]
    exact (hdraws k (Nat.lt_succ_self k)).2
  have hget := List.getElem?_eq_getElem hpos
  have hkLt : k < bucket.length := by omega
  have hnext : (bucket.set (drawnPos r vTried.length k) bucket[k]).set k bucket[drawnPos r vTried.length k] =
      frontShuffle (drawnPos r vTried.length) vTried (k + 1) := by
    rw [← swapAt_eq hkLt hpos, frontShuffle, hbucket]
  have hdrawn := drawn_succ hdraws hk (x := bucket[drawnPos r vTried.length k]) (by rw [← hbucket, hget])
  have hmem : bucket[drawnPos r vTried.length k] ∈ st.mapInfo :=
    hids _ (hperm.mem_iff.mp (hbucket ▸ List.getElem_mem hpos))
  have hposEq : getRandInt (r k) (bucket.length - k) + k = drawnPos r vTried.length k := by rw [drawnPos, hlen]
  rw [selectRound]
  dsimp only
  rw [hposEq, hget, List.getElem?_eq_getElem hkLt, Option.bind_eq_bind, Option.bind_some, Option.bind_some, hnext]
  generalize bucket[drawnPos r vTried.length k] = nTemp at hdrawn hmem
  by_cases hzero : k = 0
  · obtain ⟨rfl, -⟩ := Prod.mk.inj (h.start hzero)
    refine ⟨_, rfl, rfl, fun hfalse => absurd hfalse k.succ_ne_zero, fun _ => ⟨0, nTemp, ?_, ?_⟩⟩
    · rw [hdrawn, hzero]
      exact firstLeast_singleton st.lastSuccess nTemp
    · rw [hzero]
  · obtain ⟨w, n, hleast, hrecord⟩ := h.oldest (Nat.pos_of_ne_zero hzero)
    obtain ⟨rfl, rfl⟩ := Prod.mk.inj hrecord
    have hn : n ∈ st.mapInfo := by
      have hnDrawn := List.mem_of_mem_take (List.mem_of_getElem? hleast.place)
      exact hids n (hperm.mem_iff.mp hnDrawn)
    obtain ⟨info, hfound⟩ := Option.isSome_iff_exists.mp (AList.lookup_isSome.mpr hmem)
    obtain ⟨infoOld, hfoundOld⟩ := Option.isSome_iff_exists.mp (AList.lookup_isSome.mpr hn)
    have hless : info.nLastSuccess < infoOld.nLastSuccess ↔ st.lastSuccess nTemp < st.lastSuccess n := by
      rw [lastSuccess, lastSuccess, hfound, hfoundOld, Int64.lt_iff_toInt_lt]
      rfl
    have hsize : (drawn (drawnPos r vTried.length) vTried k).length = k := drawn_length hk.le
    simp only [hfound, hfoundOld, Option.bind_eq_bind, Option.bind_some]
    by_cases hlt : info.nLastSuccess < infoOld.nLastSuccess
    · rw [if_pos hlt]
      refine ⟨_, rfl, rfl, fun hfalse => absurd hfalse k.succ_ne_zero, fun _ => ⟨k, nTemp, ?_, rfl⟩⟩
      have hnew := hleast.replaced (hless.mp hlt)
      rw [hsize] at hnew
      rw [hdrawn]
      exact hnew
    · rw [if_neg hlt]
      refine ⟨_, rfl, rfl, fun hfalse => absurd hfalse k.succ_ne_zero, fun _ => ⟨w, n, ?_, rfl⟩⟩
      rw [hdrawn]
      exact hleast.kept fun hlt' => hlt (hless.mpr hlt')

theorem Recorded.rounds (hids : ∀ n ∈ vTried, n ∈ st.mapInfo) (r : Nat → Nat) (k : Nat) (hk : k ≤ vTried.length) :
    ∃ s, (List.range k).foldlM (st.selectRound r) (vTried, none, none) = some s ∧ Recorded st vTried r k s := by
  induction k with
  | zero => exact ⟨_, rfl, rfl, fun _ => rfl, fun hfalse => absurd hfalse (Nat.lt_irrefl 0)⟩
  | succ k ih =>
    obtain ⟨s, hrun, hs⟩ := ih (Nat.le_of_succ_le hk)
    obtain ⟨s', hround, hs'⟩ := hs.round hids hk
    refine ⟨s', ?_, hs'⟩
    rw [List.range_succ, List.foldlM_append, hrun, Option.bind_eq_bind, Option.bind_some, List.foldlM_cons, hround]
    rfl

/-- `SelectTried` gives the position that was drawn in the round of the oldest inspected entry. -/
theorem selectTried_eq {nKBucket : TriedBucket} (hids : ∀ n ∈ st.vvTried nKBucket, n ∈ st.mapInfo)
    (hne : 0 < (st.vvTried nKBucket).length) (r : Nat → Nat) :
    ∃ w n, FirstLeast st.lastSuccess (inspected (st.vvTried nKBucket) r) w n ∧
      st.selectTried nKBucket r = some
        (frontShuffle (drawnPos r (st.vvTried nKBucket).length) (st.vvTried nKBucket)
          (min ADDRMAN_TRIED_ENTRIES_INSPECT_ON_EVICT (st.vvTried nKBucket).length),
          drawnPos r (st.vvTried nKBucket).length w) := by
  obtain ⟨⟨bucket, nOldest, nOldestPos⟩, hrun, hs⟩ := Recorded.rounds hids r
    (min ADDRMAN_TRIED_ENTRIES_INSPECT_ON_EVICT (st.vvTried nKBucket).length) (min_le_right _ _)
  obtain ⟨w, n, hleast, hrecord⟩ := hs.oldest (lt_min (by decide) hne)
  refine ⟨w, n, hleast, ?_⟩
  rw [selectTried]
  dsimp only
  rw [hrun, Option.bind_eq_bind, Option.bind_some]
  dsimp only
  rw [(Prod.mk.inj hrecord).2, ← hs.bucket]
  rfl

/-- The entry at the position that is given. -/
theorem oldestInspected_iff (hnodup : vTried.Nodup) {w n nOld : Nat}
    (hleast : FirstLeast st.lastSuccess (inspected vTried r) w n)
    (hat : (frontShuffle (drawnPos r vTried.length) vTried
      (min ADDRMAN_TRIED_ENTRIES_INSPECT_ON_EVICT vTried.length))[drawnPos r vTried.length w]? = some nOld) :
    st.OldestInspected vTried r nOld ↔ st.DrawnInPlace vTried r := by
  have hnodup' : (frontShuffle (drawnPos r vTried.length) vTried
      (min ADDRMAN_TRIED_ENTRIES_INSPECT_ON_EVICT vTried.length)).Nodup :=
    (frontShuffle_perm _ _ _).nodup_iff.mpr hnodup
  have hlen : (inspected vTried r).length = min ADDRMAN_TRIED_ENTRIES_INSPECT_ON_EVICT vTried.length :=
    drawn_length (min_le_right _ _)
  constructor
  · intro hold
    obtain ⟨i, hi⟩ := List.mem_iff_getElem?.mp hold.1
    have hiLt := (List.getElem?_eq_some_iff.mp hi).1
    rw [hlen] at hiLt
    have hi' := hi
    rw [inspected, drawn_getElem? hiLt] at hi'
    -- the bucket holds the entry only once
    have hsame : i = drawnPos r vTried.length w := by
      obtain ⟨hiLt', hiEq⟩ := List.getElem?_eq_some_iff.mp hi'
      obtain ⟨hwLt, hwEq⟩ := List.getElem?_eq_some_iff.mp hat
      exact (List.Nodup.getElem_inj_iff hnodup').mp (hiEq.trans hwEq.symm)
    rw [hsame] at hi
    refine ⟨w, n, nOld, hleast, hi, le_antisymm ?_ (hleast.least nOld hold.1)⟩
    exact hold.2 n (List.mem_of_getElem? hleast.place)
  · intro hplace
    obtain ⟨w', n', m, hleast', hm, hequal⟩ := hplace
    obtain ⟨rfl, rfl⟩ := hleast.unique hleast'
    have hlt := (List.getElem?_eq_some_iff.mp hm).1
    rw [hlen] at hlt
    have hm' := hm
    rw [inspected, drawn_getElem? hlt, hat] at hm'
    obtain rfl := Option.some.inj hm'
    refine ⟨List.mem_of_getElem? hm, fun m' hm' => ?_⟩
    rw [hequal]
    exact hleast.least m' hm'

end Select

section Evict

variable {hash : HashFn} {st : CAddrMan} {nKBucket : TriedBucket} {nId : Nat} {info : CAddrInfo}

/-- The position that `SelectTried` gives, and the entry there. -/
theorem selectTried_oldest (hids : ∀ n ∈ st.vvTried nKBucket, n ∈ st.mapInfo) (hnodup : (st.vvTried nKBucket).Nodup)
    (hne : st.vvTried nKBucket ≠ []) (r : Nat → Nat) :
    ∃ vTried nPos nOld, st.selectTried nKBucket r = some (vTried, nPos) ∧ vTried.Perm (st.vvTried nKBucket) ∧
      vTried[nPos]? = some nOld ∧
      (st.OldestInspected (st.vvTried nKBucket) r nOld ↔ st.DrawnInPlace (st.vvTried nKBucket) r) := by
  obtain ⟨w, n, hleast, hselect⟩ := selectTried_eq hids (List.length_pos_of_ne_nil hne) r
  have hperm := frontShuffle_perm (drawnPos r (st.vvTried nKBucket).length) (st.vvTried nKBucket)
    (min ADDRMAN_TRIED_ENTRIES_INSPECT_ON_EVICT (st.vvTried nKBucket).length)
  have hwLt := (List.getElem?_eq_some_iff.mp hleast.place).1
  rw [inspected, drawn_length (min_le_right _ _)] at hwLt
  have hdraws := drawsFrom_drawnPos r (min_le_right ADDRMAN_TRIED_ENTRIES_INSPECT_ON_EVICT
    (st.vvTried nKBucket).length)
  have hat := List.getElem?_eq_getElem (l := frontShuffle (drawnPos r (st.vvTried nKBucket).length)
    (st.vvTried nKBucket) (min ADDRMAN_TRIED_ENTRIES_INSPECT_ON_EVICT (st.vvTried nKBucket).length))
    (i := drawnPos r (st.vvTried nKBucket).length w) (by rw [hperm.length_eq]; exact (hdraws w hwLt).2)
  exact ⟨_, _, _, hselect, hperm, hat, oldestInspected_iff hnodup hleast hat⟩

theorem lookup_leaveNew (st : CAddrMan) (nId n : Nat) : (st.leaveNew nId).mapInfo.lookup n =
    (st.modify nId (CAddrInfo.addRef (-(holders st.vvNew nId).card))).mapInfo.lookup n := rfl

theorem lastSuccess_leaveNew (st : CAddrMan) (nId : Nat) : (st.leaveNew nId).lastSuccess = st.lastSuccess := by
  funext n
  rw [lastSuccess, lastSuccess, lookup_leaveNew, lookup_modify]
  split
  · cases st.mapInfo.lookup n with
    | none => rfl
    | some info => rfl
  · rfl

theorem mem_leaveNew_mapInfo {n : Nat} (h : n ∈ st.mapInfo) (nId : Nat) : n ∈ (st.leaveNew nId).mapInfo := by
  rw [← AList.lookup_isSome] at h ⊢
  rw [lookup_leaveNew, lookup_modify]
  split
  · rw [Option.isSome_map]
    exact h
  · exact h

/-- The entry at the position leaves the bucket. -/
theorem replaceTried_perm {nOrigin : NewBucket} {vTried : List Nat} {nPos nOld : Nat}
    (hat : vTried[nPos]? = some nOld) (hold : nOld ∈ st.mapInfo) :
    ∃ st', st.replaceTried hash nId nOrigin nKBucket vTried nPos = some st' ∧
      (nOld :: st'.vvTried nKBucket).Perm (nId :: vTried) := by
  obtain ⟨infoOld, hfound⟩ := Option.isSome_iff_exists.mp (AList.lookup_isSome.mpr hold)
  refine ⟨_, by rw [replaceTried, hat, Option.bind_eq_bind, Option.bind_some, hfound]; rfl, ?_⟩
  obtain ⟨hlt, rfl⟩ := List.getElem?_eq_some_iff.mp hat
  have hbucket : Function.update st.vvTried nKBucket (vTried.set nPos nId) nKBucket = vTried.set nPos nId :=
    Function.update_self _ _ _
  show (vTried[nPos] :: Function.update st.vvTried nKBucket (vTried.set nPos nId) nKBucket).Perm (nId :: vTried)
  rw [hbucket]
  calc (vTried[nPos] :: vTried.set nPos nId).Perm (vTried[nPos] :: nId :: vTried.eraseIdx nPos) :=
        (List.set_perm_cons_eraseIdx hlt nId).cons _
    _ |>.Perm (nId :: vTried[nPos] :: vTried.eraseIdx nPos) := List.Perm.swap _ _ _
    _ |>.Perm (nId :: vTried) := (List.getElem_cons_eraseIdx_perm hlt).cons _

/-- `MakeTried` takes out of a full bucket the entry that `SelectTried` points to. -/
theorem makeTried_evicts (hfound : st.mapInfo.lookup nId = some info)
    (hrefs : info.nRefCount = (holders st.vvNew nId).card) {nOrigin : NewBucket} (horigin : nId ∈ st.vvNew nOrigin)
    (hbucket : info.getTriedBucket hash st.nKey = nKBucket) (hids : ∀ n ∈ st.vvTried nKBucket, n ∈ st.mapInfo)
    (hnodup : (st.vvTried nKBucket).Nodup) (hfull : ADDRMAN_TRIED_BUCKET_SIZE ≤ (st.vvTried nKBucket).length)
    (r : Nat → Nat) :
    ∃ st' nOld, st.makeTried hash nId nOrigin r = some st' ∧
      (nOld :: st'.vvTried nKBucket).Perm (nId :: st.vvTried nKBucket) ∧
      (st.OldestInspected (st.vvTried nKBucket) r nOld ↔ st.DrawnInPlace (st.vvTried nKBucket) r) := by
  have hne : st.vvTried nKBucket ≠ [] := List.ne_nil_of_length_pos (lt_of_lt_of_le (by decide) hfull)
  have hidsLeft : ∀ n ∈ (st.leaveNew nId).vvTried nKBucket, n ∈ (st.leaveNew nId).mapInfo := fun n hn =>
    mem_leaveNew_mapInfo (hids n hn) nId
  obtain ⟨vTried, nPos, nOld, hselect, hperm, hat, hiff⟩ := selectTried_oldest hidsLeft hnodup hne r
  have hold := hidsLeft nOld (hperm.mem_iff.mp (List.mem_of_getElem? hat))
  obtain ⟨st', hreplace, hgone⟩ : ∃ st', (st.leaveNew nId).replaceTried hash nId nOrigin nKBucket vTried nPos =
      some st' ∧ (nOld :: st'.vvTried nKBucket).Perm (nId :: vTried) := replaceTried_perm hat hold
  rw [OldestInspected, DrawnInPlace, lastSuccess_leaveNew] at hiff
  refine ⟨st', nOld, ?_, hgone.trans (hperm.cons nId), hiff⟩
  have hfoundLeft : (st.leaveNew nId).mapInfo.lookup nId = some (info.addRef (-(holders st.vvNew nId).card)) :=
    lookup_modify_self hfound _
  have hzero : (info.addRef (-(holders st.vvNew nId).card)).nRefCount = 0 := by
    rw [CAddrInfo.addRef, hrefs]
    exact Int.add_right_neg _
  have hbucketLeft : (info.addRef (-(holders st.vvNew nId).card)).getTriedBucket hash (st.leaveNew nId).nKey =
      nKBucket := hbucket
  have htried : (st.leaveNew nId).vvTried = st.vvTried := rfl
  rw [makeTried, if_pos horigin]
  dsimp only
  rw [hfoundLeft, Option.bind_eq_bind, Option.bind_some, if_pos hzero, hbucketLeft, htried, if_neg (not_lt.mpr hfull),
    hselect, Option.bind_eq_bind, Option.bind_some]
  exact hreplace

/-- `SelectTried` shuffles the bucket, and `MakeTried` gives up the entry at its position. That is an oldest inspected
entry exactly where it was drawn in place. -/
theorem eviction_oldest_iff (hash : HashFn) :
    (∀ (st : CAddrMan) (nKBucket : TriedBucket) (r : Nat → Nat), (∀ n ∈ st.vvTried nKBucket, n ∈ st.mapInfo) →
      (st.vvTried nKBucket).Nodup → st.vvTried nKBucket ≠ [] →
      ∃ vTried nPos nOld, st.selectTried nKBucket r = some (vTried, nPos) ∧ vTried.Perm (st.vvTried nKBucket) ∧
        vTried[nPos]? = some nOld ∧
        (st.OldestInspected (st.vvTried nKBucket) r nOld ↔ st.DrawnInPlace (st.vvTried nKBucket) r)) ∧
    ∀ (st : CAddrMan) (nId : Nat) (info : CAddrInfo) (nOrigin : NewBucket) (nKBucket : TriedBucket) (r : Nat → Nat),
      st.mapInfo.lookup nId = some info → info.nRefCount = (holders st.vvNew nId).card → nId ∈ st.vvNew nOrigin →
      info.getTriedBucket hash st.nKey = nKBucket → (∀ n ∈ st.vvTried nKBucket, n ∈ st.mapInfo) →
      (st.vvTried nKBucket).Nodup → ADDRMAN_TRIED_BUCKET_SIZE ≤ (st.vvTried nKBucket).length →
      ∃ st' nOld, st.makeTried hash nId nOrigin r = some st' ∧
        (nOld :: st'.vvTried nKBucket).Perm (nId :: st.vvTried nKBucket) ∧
        (st.OldestInspected (st.vvTried nKBucket) r nOld ↔ st.DrawnInPlace (st.vvTried nKBucket) r) := by
  constructor
  · intro st nKBucket r hids hnodup hne
    exact selectTried_oldest hids hnodup hne r
  · intro st nId info nOrigin nKBucket r hfound hrefs horigin hbucket hids hnodup hfull
    exact makeTried_evicts hfound hrefs horigin hbucket hids hnodup hfull r

/-- An IPv4 address; the later ones are tried entries whose success is longer ago. -/
def fullInfo (n : Nat) : CAddrInfo where
  ip := pchIPv4 ++ [1, 2, 3, UInt8.ofNat n]
  torV3 := none
  ip_length := rfl
  torV3_length := fun _ h => nomatch h
  port := 37347
  nServices := 1
  nTime := 1600000000
  nLastTry := 1600000000
  source := ⟨pchIPv4 ++ [1, 2, 3, 4], none, rfl, fun _ h => nomatch h⟩
  nLastSuccess := Int64.ofNat (1600000000 - n)
  nAttempts := 0
  nRefCount := if n = 64 then 1 else 0
  fInTried := decide (n ≠ 64)
  nRandomPos := n

/-- A full tried bucket, and one new entry that belongs there too. -/
def fullState : CAddrMan where
  nKey := []
  nIdCount := 65
  mapInfo := (List.range 65).foldl (fun mapInfo n => mapInfo.insert n (fullInfo n)) ∅
  mapAddr := (List.range 65).foldl (fun mapAddr n => mapAddr.insert (fullInfo n).toCNetAddr n) ∅
  vRandom := List.range 65
  nTried := 64
  vvTried := fun b => if b = triedBucket 0 then List.range 64 else []
  nNew := 1
  vvNew := fun b => if b = newBucket 0 then {64} else ∅

/-- The first round draws the last entry of the bucket. -/
def fullDraws (i : Nat) : Nat := if i = 0 then 63 else 0

theorem eviction_oldest_iff_sample :
    ∃ vTried nPos nOld, fullState.selectTried (triedBucket 0) fullDraws = some (vTried, nPos) ∧
      vTried.Perm (fullState.vvTried (triedBucket 0)) ∧ vTried[nPos]? = some nOld ∧
      (fullState.OldestInspected (fullState.vvTried (triedBucket 0)) fullDraws nOld ↔
        fullState.DrawnInPlace (fullState.vvTried (triedBucket 0)) fullDraws) :=
  (eviction_oldest_iff fun _ => 0).1 fullState (triedBucket 0) fullDraws (by decide +kernel) (by decide +kernel)
    (by decide +kernel)

/-- The entry with the latest success is given up, and it was not even inspected. -/
theorem eviction_newest :
    inspected (fullState.vvTried (triedBucket 0)) fullDraws = [63, 1, 2, 3] ∧
      fullState.lastSuccess 63 < fullState.lastSuccess 0 ∧
      (fullState.selectTried (triedBucket 0) fullDraws).bind (fun s => s.1[s.2]?) = some 0 ∧
      ∃ st', fullState.makeTried (fun _ => 0) 64 (newBucket 0) fullDraws = some st' ∧
        63 ∈ st'.vvTried (triedBucket 0) ∧ 0 ∉ st'.vvTried (triedBucket 0) := by
  have hrun : (fullState.makeTried (fun _ => 0) 64 (newBucket 0) fullDraws).map
      (fun st' => st'.vvTried (triedBucket 0)) = some (63 :: (List.range' 1 62 ++ [64])) := by decide +kernel
  obtain ⟨st', hst, htried⟩ := Option.map_eq_some_iff.mp hrun
  refine ⟨by decide +kernel, by decide +kernel, by decide +kernel, st', hst, ?_, ?_⟩
  · rw [htried]
    decide
  · rw [htried]
    decide

end Evict

end CAddrMan

end AliasWallet
