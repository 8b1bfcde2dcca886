import AliasWallet.Core.Unserialize
import AliasWallet.Net.AddrMan

/-!
# The address manager on disk (`IMPLEMENT_SERIALIZE` of `addrman.h`, `protocol.h` and `netbase.h`)

New entries are written first and get numbers in the order in which the map files them, tried entries come behind. A
bucket of new entries is a list of such numbers, and the tried buckets are computed again. Ids are natural numbers here:
a negative number of entries, and a negative index, end the reading.
-/

namespace AliasWallet
open Lib

section Addresses

def intBytes (n : Int) : Bytes := int32Bytes (Int32.ofInt n)

/-- `htons`. -/
def portBytes (port : UInt16) : Bytes := beBytes 2 port.toNat

def uint64Bytes (n : UInt64) : Bytes := leBytes 8 n.toNat

def ADDR_LEGACY : Int32 := 0

def ADDR_TORV3 : Int32 := 1

/-- `CNetAddr` with `SER_DISK`; `ip_tor` starts with `ip`. -/
def CNetAddr.diskBytes (a : CNetAddr) : Bytes :=
  match a.torV3 with
  | some rest => int32Bytes ADDR_TORV3 ++ (a.ip ++ rest)
  | none => int32Bytes ADDR_LEGACY ++ a.ip

def CService.diskBytes (s : CService) : Bytes := s.toCNetAddr.diskBytes ++ portBytes s.port

/-- `CAddress` with `SER_DISK`; the version is the one of the manager's own format. -/
def CAddress.diskBytes (addr : CAddress) : Bytes :=
  int32Bytes 0 ++ uint32Bytes addr.nTime ++ uint64Bytes addr.nServices ++ addr.toCService.diskBytes

def CAddrInfo.diskBytes (info : CAddrInfo) : Bytes :=
  info.toCAddress.diskBytes ++ info.source.diskBytes ++ int64Bytes info.nLastSuccess ++ intBytes info.nAttempts

/-- An address whose `ip` was read. -/
def CNetAddr.ofIp (ip : Bytes) : Option CNetAddr :=
  if h : ip.length = 16 then some ⟨ip, none, h, fun _ hrest => nomatch hrest⟩ else none

/-- An address whose `ip_tor` was read. It is no onion address of version 3 unless its start says so. -/
def CNetAddr.ofIpTor (ip_tor : Bytes) : Option CNetAddr :=
  if h : ip_tor.length = 41 then
    if hcat : ip_tor.take 6 = pchOnionCat then
      some ⟨ip_tor.take 16, some (ip_tor.drop 16), by rw [List.length_take, h]; rfl, fun rest hrest => by
        rw [← Option.some.inj hrest, List.length_drop, h, List.take_take]
        exact ⟨rfl, hcat⟩⟩
    else CNetAddr.ofIp (ip_tor.take 16)
  else none

def readUInt16BE : Reader UInt16 := do
  let bs ← readBytes 2
  return UInt16.ofNat (beNat bs)

def readUInt64 : Reader UInt64 := readFixed 8 UInt64.ofNat

def readInt : Reader Int := do
  let n ← readInt32
  return n.toInt

def CNetAddr.unserialize : Reader CNetAddr := do
  let fTorV3 ← readInt32
  if fTorV3 = ADDR_TORV3 then
    let ip_tor ← readBytes 41
    StateT.lift (CNetAddr.ofIpTor ip_tor)
  else
    let ip ← readBytes 16
    StateT.lift (CNetAddr.ofIp ip)

def CService.unserialize : Reader CService := do
  let a ← CNetAddr.unserialize
  let port ← readUInt16BE
  return { a with port }

/-- The version that is read only matters for other formats. -/
def CAddress.unserialize : Reader CAddress := do
  let _ ← readInt32
  let nTime ← readUInt32
  let nServices ← readUInt64
  let s ← CService.unserialize
  return { s with nTime, nServices, nLastTry := 0 }

/-- The serialised fields, with those of `CAddrInfo()` that are only in memory. -/
def CAddrInfo.unserialize : Reader CAddrInfo := do
  let addr ← CAddress.unserialize
  let source ← CNetAddr.unserialize
  let nLastSuccess ← readInt64
  let nAttempts ← readInt
  return { addr with source, nLastSuccess, nAttempts, nRefCount := 0, fInTried := false, nRandomPos := 0 }

def CNetAddr.zero : CNetAddr := ⟨List.replicate 16 0, none, rfl, fun _ h => nomatch h⟩

/-- `CAddrInfo()`. -/
def CAddrInfo.zero : CAddrInfo :=
  { CNetAddr.zero with
    port := 0
    nServices := 1
    nTime := 100000000
    nLastTry := 0
    source := CNetAddr.zero
    nLastSuccess := 0
    nAttempts := 0
    nRefCount := 0
    fInTried := false
    nRandomPos := 0 }

end Addresses

namespace CAddrMan

section Write

/-- `mapInfo` in the order of the ids. -/
def infosById (st : CAddrMan) : List (Nat × CAddrInfo) :=
  (st.mapInfo.keys.toFinset.sort (· ≤ ·)).filterMap fun n => (st.mapInfo.lookup n).map fun info => (n, info)

/-- The loop over the new entries, with `mapUnkIds`. -/
def writeNew (nNew : Int) : List (Nat × CAddrInfo) → Int → (AList fun _ : Nat => Int) →
    Bytes × AList fun _ : Nat => Int
  | [], _, mapUnkIds => ([], mapUnkIds)
  | (n, info) :: it, nIds, mapUnkIds =>
    if nIds = nNew then ([], mapUnkIds)
    else if info.nRefCount ≠ 0 then
      let written := writeNew nNew it (nIds + 1) (mapUnkIds.insert n nIds)
      (info.diskBytes ++ written.1, written.2)
    else writeNew nNew it nIds (mapUnkIds.insert n nIds)

/-- The loop over the tried entries. -/
def writeTried (nTried : Int) : List (Nat × CAddrInfo) → Int → Bytes
  | [], _ => []
  | (_, info) :: it, nIds =>
    if nIds = nTried then []
    else if info.fInTried then info.diskBytes ++ writeTried nTried it (nIds + 1)
    else writeTried nTried it nIds

def writeBucket (mapUnkIds : AList fun _ : Nat => Int) (vNew : Finset Nat) : Bytes :=
  intBytes vNew.card ++ (vNew.sort (· ≤ ·)).flatMap fun n => intBytes ((mapUnkIds.lookup n).getD 0)

/-- The manager is written. -/
def diskBytes (st : CAddrMan) : Bytes :=
  let written := writeNew st.nNew st.infosById 0 ∅
  [0] ++ scriptBytes st.nKey ++ intBytes st.nNew ++ intBytes st.nTried ++ intBytes ADDRMAN_NEW_BUCKET_COUNT ++
    written.1 ++ writeTried st.nTried st.infosById 0 ++
    (List.finRange ADDRMAN_NEW_BUCKET_COUNT).flatMap fun b => writeBucket written.2 (st.vvNew b)

end Write

section Read

variable (hash : HashFn) (nUBuckets : Int)

/-- A new entry gets the next id. -/
def fileNew (st : CAddrMan) (n : Nat) (info : CAddrInfo) : CAddrMan :=
  let info := { info with nRandomPos := st.vRandom.length }
  let st := { st with
    mapInfo := st.mapInfo.insert n info
    mapAddr := st.mapAddr.insert info.toCNetAddr n
    vRandom := st.vRandom ++ [n] }
  if nUBuckets ≠ ADDRMAN_NEW_BUCKET_COUNT then
    let nUBucket := info.getNewBucket hash st.nKey info.source
    { st.modify n (CAddrInfo.addRef 1) with
      vvNew := Function.update st.vvNew nUBucket (insert n (st.vvNew nUBucket)) }
  else st

def readNew (st : CAddrMan) (n : Nat) : Reader CAddrMan := do
  let info ← CAddrInfo.unserialize
  return fileNew hash nUBuckets st n info

/-- A tried entry gets the next id where its bucket has place, and is lost otherwise. -/
def fileTried (s : CAddrMan × Int) (info : CAddrInfo) : CAddrMan × Int :=
  let (st, nLost) := s
  let nKBucket := info.getTriedBucket hash st.nKey
  if (st.vvTried nKBucket).length < ADDRMAN_TRIED_BUCKET_SIZE then
    let info := { info with nRandomPos := st.vRandom.length, fInTried := true }
    ({ st with
      vRandom := st.vRandom ++ [st.nIdCount]
      mapInfo := st.mapInfo.insert st.nIdCount info
      mapAddr := st.mapAddr.insert info.toCNetAddr st.nIdCount
      vvTried := Function.update st.vvTried nKBucket (st.vvTried nKBucket ++ [st.nIdCount])
      nIdCount := st.nIdCount + 1 }, nLost)
  else (st, nLost + 1)

def readTried (s : CAddrMan × Int) (_ : Nat) : Reader (CAddrMan × Int) := do
  let info ← CAddrInfo.unserialize
  return fileTried hash s info

/-- An index of a bucket; `mapInfo[nIndex]` makes an entry where there is none. -/
def fileIndex (b : NewBucket) (st : CAddrMan) (n : Nat) : CAddrMan :=
  let info := (st.mapInfo.lookup n).getD CAddrInfo.zero
  let st := { st with mapInfo := st.mapInfo.insert n info }
  if nUBuckets = ADDRMAN_NEW_BUCKET_COUNT ∧ info.nRefCount < ADDRMAN_NEW_BUCKETS_PER_ADDRESS then
    { st.modify n (CAddrInfo.addRef 1) with vvNew := Function.update st.vvNew b (insert n (st.vvNew b)) }
  else st

def readIndex (b : NewBucket) (st : CAddrMan) (_ : Nat) : Reader CAddrMan := do
  let nIndex ← readInt
  if nIndex < 0 then failure else pure (fileIndex nUBuckets b st nIndex.toNat)

/-- A bucket behind the last one is out of range. -/
def readBucket (st : CAddrMan) (b : Nat) : Reader CAddrMan := do
  if h : b < ADDRMAN_NEW_BUCKET_COUNT then
    let nSize ← readInt
    (List.range nSize.toNat).foldlM (readIndex nUBuckets ⟨b, h⟩) st
  else failure

/-- The manager is read over another one. -/
def unserialize (am : CAddrMan) : Reader CAddrMan := do
  let _ ← readByte
  let nKey ← readScript
  let nNew ← readInt
  let nTried ← readInt
  let nUBuckets ← readInt
  if nNew < 0 then failure
  else
    let st := { am with
      nKey, nNew, nTried
      nIdCount := 0
      mapInfo := ∅
      mapAddr := ∅
      vRandom := []
      vvTried := fun _ => []
      vvNew := fun _ => ∅ }
    let st ← (List.range nNew.toNat).foldlM (readNew hash nUBuckets) st
    let st := { st with nIdCount := nNew.toNat }
    let (st, nLost) ← (List.range nTried.toNat).foldlM (readTried hash) (st, 0)
    let st := { st with nTried := st.nTried - nLost }
    (List.range nUBuckets.toNat).foldlM (readBucket nUBuckets) st

end Read

end CAddrMan

end AliasWallet
