import AliasWallet.Lib.Placement
import AliasWallet.Net.Address
import Mathlib.Data.Finset.Sort

/-!
# The address manager (`addrman.h`, `addrman.cpp`)

Known addresses lie in buckets of new ones, up to four times each, or in one bucket of tried ones. An assertion
that fails ends an operation without a result. Random numbers and clock values are arguments, and so are the
outcomes of the floating-point comparisons by which `Select_` chooses.
-/

namespace AliasWallet
open Lib

def ADDRMAN_TRIED_BUCKET_COUNT : Nat := 64

def ADDRMAN_TRIED_BUCKET_SIZE : Nat := 64

def ADDRMAN_NEW_BUCKET_COUNT : Nat := 256

def ADDRMAN_NEW_BUCKET_SIZE : Nat := 64

def ADDRMAN_TRIED_BUCKETS_PER_GROUP : Nat := 4

def ADDRMAN_NEW_BUCKETS_PER_SOURCE_GROUP : Nat := 32

def ADDRMAN_NEW_BUCKETS_PER_ADDRESS : Int := 4

def ADDRMAN_TRIED_ENTRIES_INSPECT_ON_EVICT : Nat := 4

def ADDRMAN_HORIZON_DAYS : Int64 := 30

def ADDRMAN_RETRIES : Int := 3

def ADDRMAN_MAX_FAILURES : Int := 10

def ADDRMAN_MIN_FAIL_DAYS : Int64 := 7

def ADDRMAN_GETADDR_MAX_PCT : Nat := 23

def ADDRMAN_GETADDR_MAX : Nat := 2500

structure CAddrInfo extends CAddress where
  source : CNetAddr
  nLastSuccess : Int64
  nAttempts : Int
  nRefCount : Int
  fInTried : Bool
  nRandomPos : Nat
  deriving DecidableEq

abbrev TriedBucket := Fin ADDRMAN_TRIED_BUCKET_COUNT

abbrev NewBucket := Fin ADDRMAN_NEW_BUCKET_COUNT

def triedBucket (n : Nat) : TriedBucket := ⟨n % ADDRMAN_TRIED_BUCKET_COUNT, Nat.mod_lt n (by decide)⟩

def newBucket (n : Nat) : NewBucket := ⟨n % ADDRMAN_NEW_BUCKET_COUNT, Nat.mod_lt n (by decide)⟩

/-- `CAddrMan`; ids are counted up from zero. -/
structure CAddrMan where
  nKey : Bytes
  nIdCount : Nat
  mapInfo : AList fun _ : Nat => CAddrInfo
  mapAddr : AList fun _ : CNetAddr => Nat
  vRandom : List Nat
  nTried : Int
  vvTried : TriedBucket → List Nat
  nNew : Int
  vvNew : NewBucket → Finset Nat

/-- `GetRandInt` of a random number. -/
def getRandInt (r nMax : Nat) : Nat := if nMax = 0 then 0 else r % nMax

def time64 (nTime : UInt32) : Int64 := Int64.ofNat nTime.toNat

def time32 (nTime : Int64) : UInt32 := UInt32.ofNat nTime.toBitVec.toNat

def get64 (h : UInt256) : Nat := h.toNat % 2 ^ 64

namespace CAddrInfo

variable (hash : HashFn) (nKey : Bytes) (info : CAddrInfo)

def getTriedBucket : TriedBucket :=
  let hash1 := get64 (hash (scriptBytes nKey ++ scriptBytes info.getKey))
  let hash2 := get64 (hash (scriptBytes nKey ++ scriptBytes info.getGroup ++
    leBytes 8 (hash1 % ADDRMAN_TRIED_BUCKETS_PER_GROUP)))
  triedBucket hash2

def getNewBucket (src : CNetAddr) : NewBucket :=
  let hash1 := get64 (hash (scriptBytes nKey ++ scriptBytes info.getGroup ++ scriptBytes src.getGroup))
  let hash2 := get64 (hash (scriptBytes nKey ++ scriptBytes src.getGroup ++
    leBytes 8 (hash1 % ADDRMAN_NEW_BUCKETS_PER_SOURCE_GROUP)))
  newBucket hash2

def isTerrible (nNow : Int64) : Bool :=
  if info.nLastTry ≠ 0 ∧ info.nLastTry ≥ nNow - 60 then false
  else if time64 info.nTime > nNow + 10 * 60 then true
  else if info.nTime = 0 ∨ nNow - time64 info.nTime > ADDRMAN_HORIZON_DAYS * 86400 then true
  else if info.nLastSuccess = 0 ∧ info.nAttempts ≥ ADDRMAN_RETRIES then true
  else decide (nNow - info.nLastSuccess > ADDRMAN_MIN_FAIL_DAYS * 86400 ∧ info.nAttempts ≥ ADDRMAN_MAX_FAILURES)

/-- `nRefCount` goes up or down. -/
def addRef (n : Int) (info : CAddrInfo) : CAddrInfo := { info with nRefCount := info.nRefCount + n }

def moveTo (nRandomPos : Nat) (info : CAddrInfo) : CAddrInfo := { info with nRandomPos }

def promoted (info : CAddrInfo) : CAddrInfo := { info with fInTried := true }

def demoted (info : CAddrInfo) : CAddrInfo := { info with fInTried := false, nRefCount := 1 }

end CAddrInfo

namespace CAddrMan

def modify (st : CAddrMan) (nId : Nat) (f : CAddrInfo → CAddrInfo) : CAddrMan :=
  { st with mapInfo := modifyAt st.mapInfo nId f }

@[simp] theorem modify_vRandom (st : CAddrMan) (nId : Nat) (f : CAddrInfo → CAddrInfo) :
    (st.modify nId f).vRandom = st.vRandom := rfl
@[simp] theorem modify_nTried (st : CAddrMan) (nId : Nat) (f : CAddrInfo → CAddrInfo) :
    (st.modify nId f).nTried = st.nTried := rfl
@[simp] theorem modify_vvNew (st : CAddrMan) (nId : Nat) (f : CAddrInfo → CAddrInfo) :
    (st.modify nId f).vvNew = st.vvNew := rfl

/-- `Find` with the id. -/
def find (st : CAddrMan) (addr : CNetAddr) : Option (Nat × CAddrInfo) := do
  let nId ← st.mapAddr.lookup addr
  let info ← st.mapInfo.lookup nId
  return (nId, info)

def create (st : CAddrMan) (addr : CAddress) (addrSource : CNetAddr) : CAddrMan :=
  let nId := st.nIdCount
  { st with
    nIdCount := nId + 1
    mapInfo := st.mapInfo.insert nId { addr with
      nLastTry := 0
      source := addrSource
      nLastSuccess := 0
      nAttempts := 0
      nRefCount := 0
      fInTried := false
      nRandomPos := st.vRandom.length }
    mapAddr := st.mapAddr.insert addr.toCNetAddr nId
    vRandom := st.vRandom ++ [nId] }

def swapRandom (st : CAddrMan) (nRndPos1 nRndPos2 : Nat) : Option CAddrMan :=
  if nRndPos1 = nRndPos2 then some st
  else do
    let nId1 ← st.vRandom[nRndPos1]?
    let nId2 ← st.vRandom[nRndPos2]?
    if nId1 ∈ st.mapInfo ∧ nId2 ∈ st.mapInfo then
      let st := st.modify nId1 (CAddrInfo.moveTo nRndPos2)
      let st := st.modify nId2 (CAddrInfo.moveTo nRndPos1)
      some { st with vRandom := (st.vRandom.set nRndPos1 nId2).set nRndPos2 nId1 }
    else none

/-- An entry that no bucket holds any more is forgotten. -/
def forget (st : CAddrMan) (nId : Nat) (info : CAddrInfo) : Option CAddrMan := do
  let st ← st.swapRandom info.nRandomPos (st.vRandom.length - 1)
  return { st with
    vRandom := st.vRandom.dropLast
    mapAddr := st.mapAddr.erase info.toCNetAddr
    mapInfo := st.mapInfo.erase nId
    nNew := st.nNew - 1 }

/-- An entry leaves a new bucket. -/
def dropFrom (st : CAddrMan) (nUBucket : NewBucket) (nId : Nat) : Option CAddrMan := do
  let info ← st.mapInfo.lookup nId
  let st := st.modify nId (CAddrInfo.addRef (-1))
  let info := info.addRef (-1)
  let st ← if info.nRefCount = 0 then st.forget nId info else some st
  return { st with vvNew := Function.update st.vvNew nUBucket ((st.vvNew nUBucket).erase nId) }

/-- The first loop of `ShrinkNew`: an entry that may be deleted. -/
def findTerrible (st : CAddrMan) (clock : Nat → Int64) : List Nat → Nat → Option (Option Nat)
  | [], _ => some none
  | nId :: ids, k => do
    let info ← st.mapInfo.lookup nId
    if info.isTerrible (clock k) then some (some nId) else findTerrible st clock ids (k + 1)

/-- The second loop: the oldest of the entries at the drawn positions. -/
def findOldest (st : CAddrMan) (draw : Nat → Bool) : List Nat → Nat → Option Nat → Option (Option Nat)
  | [], _, nOldest => some nOldest
  | nId :: ids, nI, nOldest =>
    if draw nI then
      match nOldest with
      | none => findOldest st draw ids (nI + 1) (some nId)
      | some nOld => do
        let info ← st.mapInfo.lookup nId
        let infoOld ← st.mapInfo.lookup nOld
        findOldest st draw ids (nI + 1) (if info.nTime < infoOld.nTime then some nId else some nOld)
    else findOldest st draw ids (nI + 1) nOldest

def shrinkNew (st : CAddrMan) (nUBucket : NewBucket) (clock : Nat → Int64) (r : Nat → Nat) : Option CAddrMan := do
  let vNew := (st.vvNew nUBucket).sort (· ≤ ·)
  let nTerrible ← st.findTerrible clock vNew 0
  match nTerrible with
  | some nId => st.dropFrom nUBucket nId
  | none =>
    let n := (List.range 4).map fun k => getRandInt (r k) vNew.length
    let nOldest ← st.findOldest (fun nI => decide (nI ∈ n)) vNew 0 none
    let nId ← nOldest
    st.dropFrom nUBucket nId

/-- One round of `SelectTried`: the bucket, `nOldest` and `nOldestPos`. -/
def selectRound (st : CAddrMan) (r : Nat → Nat) (s : List Nat × Option Nat × Option Nat) (i : Nat) :
    Option (List Nat × Option Nat × Option Nat) := do
  let (vTried, nOldest, nOldestPos) := s
  let nPos := getRandInt (r i) (vTried.length - i) + i
  let nTemp ← vTried[nPos]?
  let nFirst ← vTried[i]?
  let vTried := (vTried.set nPos nFirst).set i nTemp
  match nOldest with
  | none => some (vTried, some nTemp, some nPos)
  | some nOld =>
    let info ← st.mapInfo.lookup nTemp
    let infoOld ← st.mapInfo.lookup nOld
    if info.nLastSuccess < infoOld.nLastSuccess then some (vTried, some nTemp, some nPos)
    else some (vTried, some nOld, nOldestPos)

/-- `SelectTried`: the bucket afterwards and the position. -/
def selectTried (st : CAddrMan) (nKBucket : TriedBucket) (r : Nat → Nat) : Option (List Nat × Nat) := do
  let vTried := st.vvTried nKBucket
  let (vTried, _, nOldestPos) ←
    (List.range (min ADDRMAN_TRIED_ENTRIES_INSPECT_ON_EVICT vTried.length)).foldlM (st.selectRound r)
      (vTried, none, none)
  let nPos ← nOldestPos
  return (vTried, nPos)

variable (hash : HashFn)

/-- The start of `MakeTried`: the entry leaves all new buckets. -/
def leaveNew (st : CAddrMan) (nId : Nat) : CAddrMan :=
  let nHeld := (holders st.vvNew nId).card
  { st.modify nId (CAddrInfo.addRef (-nHeld)) with
    vvNew := fun b => (st.vvNew b).erase nId
    nNew := st.nNew - 1 }

/-- There is place in the tried bucket. -/
def pushTried (st : CAddrMan) (nId : Nat) (nKBucket : TriedBucket) : CAddrMan :=
  { st.modify nId CAddrInfo.promoted with
    vvTried := Function.update st.vvTried nKBucket (st.vvTried nKBucket ++ [nId])
    nTried := st.nTried + 1 }

section Fields

variable (st : CAddrMan) (nId : Nat) (nKBucket : TriedBucket)

@[simp] theorem leaveNew_vRandom : (st.leaveNew nId).vRandom = st.vRandom := rfl
@[simp] theorem leaveNew_nTried : (st.leaveNew nId).nTried = st.nTried := rfl
@[simp] theorem leaveNew_nNew : (st.leaveNew nId).nNew = st.nNew - 1 := rfl
@[simp] theorem leaveNew_vvNew (b : NewBucket) : (st.leaveNew nId).vvNew b = (st.vvNew b).erase nId := rfl
@[simp] theorem pushTried_vRandom : (st.pushTried nId nKBucket).vRandom = st.vRandom := rfl
@[simp] theorem pushTried_nTried : (st.pushTried nId nKBucket).nTried = st.nTried + 1 := rfl
@[simp] theorem pushTried_nNew : (st.pushTried nId nKBucket).nNew = st.nNew := rfl
@[simp] theorem pushTried_vvTried : (st.pushTried nId nKBucket).vvTried =
    Function.update st.vvTried nKBucket (st.vvTried nKBucket ++ [nId]) := rfl

end Fields

/-- The tried entry at a position goes back to a new bucket, and `nId` takes its place. -/
def replaceTried (st : CAddrMan) (nId : Nat) (nOrigin : NewBucket) (nKBucket : TriedBucket) (vTried : List Nat)
    (nPos : Nat) : Option CAddrMan := do
  let nOld ← vTried[nPos]?
  let infoOld ← st.mapInfo.lookup nOld
  let nUBucket := infoOld.getNewBucket hash st.nKey infoOld.source
  let nTo := if (st.vvNew nUBucket).card < ADDRMAN_NEW_BUCKET_SIZE then nUBucket else nOrigin
  let st := (st.modify nOld CAddrInfo.demoted).modify nId CAddrInfo.promoted
  return { st with
    vvNew := Function.update st.vvNew nTo (insert nOld (st.vvNew nTo))
    nNew := st.nNew + 1
    vvTried := Function.update st.vvTried nKBucket (vTried.set nPos nId) }

def makeTried (st : CAddrMan) (nId : Nat) (nOrigin : NewBucket) (r : Nat → Nat) : Option CAddrMan :=
  if nId ∈ st.vvNew nOrigin then do
    let st := st.leaveNew nId
    let info ← st.mapInfo.lookup nId
    if info.nRefCount = 0 then
      let nKBucket := info.getTriedBucket hash st.nKey
      if (st.vvTried nKBucket).length < ADDRMAN_TRIED_BUCKET_SIZE then some (st.pushTried nId nKBucket)
      else do
        let (vTried, nPos) ← st.selectTried nKBucket r
        st.replaceTried hash nId nOrigin nKBucket vTried nPos
    else none
  else none

def good_ (st : CAddrMan) (addr : CService) (nTime : Int64) (nRnd : Nat) (r : Nat → Nat) : Option CAddrMan :=
  match st.find addr.toCNetAddr with
  | none => some st
  | some (nId, info) =>
    if info.toCService ≠ addr then some st
    else
      let st := st.modify nId fun info =>
        { info with nLastSuccess := nTime, nLastTry := nTime, nTime := time32 nTime, nAttempts := 0 }
      if info.fInTried then some st
      else
        let nRnd := getRandInt nRnd ADDRMAN_NEW_BUCKET_COUNT
        match (List.range ADDRMAN_NEW_BUCKET_COUNT).find? fun n =>
          decide (nId ∈ st.vvNew (newBucket (n + nRnd))) with
        | none => some st
        | some n => st.makeTried hash nId (newBucket (n + nRnd)) r

/-- The end of `Add_`: the entry goes to the bucket that its source leads to. -/
def addToNew (st : CAddrMan) (nId : Nat) (source : CNetAddr) (clock : Nat → Int64) (r : Nat → Nat) :
    Option CAddrMan := do
  let info ← st.mapInfo.lookup nId
  let nUBucket := info.getNewBucket hash st.nKey source
  if nId ∈ st.vvNew nUBucket then some st
  else
    let st := st.modify nId (CAddrInfo.addRef 1)
    let st ← if (st.vvNew nUBucket).card = ADDRMAN_NEW_BUCKET_SIZE then st.shrinkNew nUBucket clock r
      else some st
    return { st with vvNew := Function.update st.vvNew nUBucket (insert nId (st.vvNew nUBucket)) }

def add_ (st : CAddrMan) (addr : CAddress) (source : CNetAddr) (nTimePenalty nNow : Int64) (rFactor : Nat)
    (clock : Nat → Int64) (r : Nat → Nat) : Option (CAddrMan × Bool) :=
  if ¬ addr.isRoutable then some (st, false)
  else
    match st.find addr.toCNetAddr with
    | some (nId, info) =>
      let fCurrentlyOnline := nNow - time64 addr.nTime < 24 * 60 * 60
      let nUpdateInterval : Int64 := if fCurrentlyOnline then 60 * 60 else 24 * 60 * 60
      let nTime :=
        if addr.nTime ≠ 0 ∧ (info.nTime = 0 ∨
            time64 info.nTime < time64 addr.nTime - nUpdateInterval - nTimePenalty) then
          time32 (max 0 (time64 addr.nTime - nTimePenalty))
        else info.nTime
      let st := st.modify nId fun info => { info with nTime, nServices := info.nServices ||| addr.nServices }
      let nFactor := 2 ^ info.nRefCount.toNat
      if addr.nTime = 0 ∨ (nTime ≠ 0 ∧ addr.nTime ≤ nTime) then some (st, false)
      else if info.fInTried then some (st, false)
      else if info.nRefCount = ADDRMAN_NEW_BUCKETS_PER_ADDRESS then some (st, false)
      else if nFactor > 1 ∧ getRandInt rFactor nFactor ≠ 0 then some (st, false)
      else (st.addToNew hash nId source clock r).map fun st => (st, false)
    | none =>
      let nId := st.nIdCount
      let st := (st.create addr source).modify nId fun info =>
        { info with nTime := time32 (max 0 (time64 info.nTime - nTimePenalty)) }
      let st := { st with nNew := st.nNew + 1 }
      (st.addToNew hash nId source clock r).map fun st => (st, true)

def attempt_ (st : CAddrMan) (addr : CService) (nTime : Int64) : CAddrMan :=
  match st.find addr.toCNetAddr with
  | none => st
  | some (nId, info) =>
    if info.toCService ≠ addr then st
    else st.modify nId fun info => { info with nLastTry := nTime, nAttempts := info.nAttempts + 1 }

def connected_ (st : CAddrMan) (addr : CService) (nTime : Int64) : CAddrMan :=
  match st.find addr.toCNetAddr with
  | none => st
  | some (nId, info) =>
    if info.toCService ≠ addr then st
    else if nTime - time64 info.nTime > 20 * 60 then st.modify nId fun info => { info with nTime := time32 nTime }
    else st

/-- The tries of `Select_`: two random numbers and the outcome of the comparison each. -/
def selectTries (st : CAddrMan) (bucket : Nat → List Nat) (draw : Nat → Nat × Nat × Bool) :
    Nat → Nat → Option (Option CAddrInfo)
  | 0, _ => some none
  | nTries + 1, i =>
    let ids := bucket (draw i).1
    if ids.length = 0 then selectTries st bucket draw nTries (i + 1)
    else do
      let nId ← ids[getRandInt (draw i).2.1 ids.length]?
      let info ← st.mapInfo.lookup nId
      if (draw i).2.2 then some (some info) else selectTries st bucket draw nTries (i + 1)

/-- `Select_`; `fTried` is the outcome of its first comparison, and null stands for `CAddress()`. -/
def select_ (st : CAddrMan) (fTestNet fTried : Bool) (draw : Nat → Nat × Nat × Bool) :
    Option (Option CAddrInfo) :=
  if st.vRandom.length = 0 then some none
  else
    let nTries := if fTestNet then 100 else 100000
    if fTried then
      st.selectTries (fun r => st.vvTried (triedBucket r)) draw nTries 0
    else
      st.selectTries (fun r => (st.vvNew (newBucket r)).sort (· ≤ ·)) draw nTries 0

def getAddrRound (r : Nat → Nat) (s : CAddrMan × List CAddress) (n : Nat) : Option (CAddrMan × List CAddress) := do
  let (st, vAddr) := s
  let nRndPos := getRandInt (r n) (st.vRandom.length - n) + n
  let st ← st.swapRandom n nRndPos
  let nId ← st.vRandom[n]?
  let info ← st.mapInfo.lookup nId
  return (st, vAddr ++ [info.toCAddress])

def getAddr_ (st : CAddrMan) (r : Nat → Nat) : Option (CAddrMan × List CAddress) :=
  let nNodes := min ADDRMAN_GETADDR_MAX (ADDRMAN_GETADDR_MAX_PCT * st.vRandom.length / 100)
  (List.range nNodes).foldlM (getAddrRound r) (st, [])

/-- `CAddrMan()` with its random key. -/
def empty (nKey : Bytes) : CAddrMan where
  nKey := nKey
  nIdCount := 0
  mapInfo := ∅
  mapAddr := ∅
  vRandom := []
  nTried := 0
  vvTried := fun _ => []
  nNew := 0
  vvNew := fun _ => ∅

section Check

/-- A round of the first loop of `Check_`. -/
def checkInfo (st : CAddrMan) (s : Finset Nat × AList fun _ : Nat => Int) (e : Sigma fun _ : Nat => CAddrInfo) :
    Except Int (Finset Nat × AList fun _ : Nat => Int) := do
  let (setTried, mapNew) := s
  let ⟨n, info⟩ := e
  let s ←
    if info.fInTried then
      if info.nLastSuccess = 0 then .error (-1)
      else if info.nRefCount ≠ 0 then .error (-2)
      else .ok (insert n setTried, mapNew)
    else if info.nRefCount < 0 ∨ info.nRefCount > ADDRMAN_NEW_BUCKETS_PER_ADDRESS then .error (-3)
    else if info.nRefCount = 0 then .error (-4)
    else .ok (setTried, mapNew.insert n info.nRefCount)
  if (st.mapAddr.lookup info.toCNetAddr).getD 0 ≠ n then .error (-5)
  else if st.vRandom[info.nRandomPos]? ≠ some n then .error (-14)
  else if info.nLastTry < 0 then .error (-6)
  else if info.nLastSuccess < 0 then .error (-8)
  else .ok s

def checkTried (setTried : Finset Nat) (n : Nat) : Except Int (Finset Nat) :=
  if n ∈ setTried then .ok (setTried.erase n) else .error (-11)

def checkNew (mapNew : AList fun _ : Nat => Int) (n : Nat) : Except Int (AList fun _ : Nat => Int) :=
  match mapNew.lookup n with
  | none => .error (-12)
  | some c => .ok (if c - 1 = 0 then mapNew.erase n else mapNew.insert n (c - 1))

/-- `Check_`; the error is the number that it returns. -/
def check_ (st : CAddrMan) : Except Int Unit := do
  if (st.vRandom.length : Int) ≠ st.nTried + st.nNew then .error (-7)
  else
    let (setTried, mapNew) ← st.mapInfo.entries.foldlM st.checkInfo (∅, ∅)
    if (setTried.card : Int) ≠ st.nTried then .error (-9)
    else if (mapNew.keys.length : Int) ≠ st.nNew then .error (-10)
    else
      let setTried ← ((List.finRange ADDRMAN_TRIED_BUCKET_COUNT).flatMap st.vvTried).foldlM checkTried setTried
      let mapNew ← ((List.finRange ADDRMAN_NEW_BUCKET_COUNT).flatMap fun b =>
        (st.vvNew b).sort (· ≤ ·)).foldlM checkNew mapNew
      if setTried.card ≠ 0 then .error (-13)
      else if mapNew.keys.length ≠ 0 then .error (-15)
      else .ok ()

end Check

end CAddrMan

end AliasWallet
