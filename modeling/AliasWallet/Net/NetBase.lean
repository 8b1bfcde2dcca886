import AliasWallet.Core.BaseText
import AliasWallet.Lib.Decimal
import AliasWallet.Net.AddrFile

/-!
# Addresses with both arrays (`netbase.h`, `netbase.cpp`)

An address has an array of 16 bytes and one of 41 for onion addresses of version 3. Each operation looks at both of them
to find out which one counts. What only looks at the array of 16 bytes is taken from the addresses of `Net.Address`.
-/

namespace AliasWallet
open Lib

namespace NetBase

/-- `CNetAddr` as it is in memory. -/
@[ext] structure CNetAddr where
  ip : Bytes
  ip_tor : Bytes
  ip_length : ip.length = 16
  ip_tor_length : ip_tor.length = 41

instance : DecidableEq CNetAddr := fun _ _ => decidable_of_iff _ CNetAddr.ext_iff.symm

structure CService extends CNetAddr where
  port : UInt16
  deriving DecidableEq

/-- What `GetSockAddr` fills in. -/
inductive SockAddr
  | inet (sin_addr : Bytes) (sin_port : UInt16)
  | inet6 (sin6_addr : Bytes) (sin6_port : UInt16)
  deriving DecidableEq

/-- The data that `SetRaw` takes without a failed assertion. -/
inductive RawData
  | ipv4 (ip_in : Bytes) (h : ip_in.length = 4)
  | ipv6 (ip_in : Bytes) (h : ip_in.length = 16)

/-- The characters `.onion`. -/
def onionSuffix : Bytes := [0x2e, 0x6f, 0x6e, 0x69, 0x6f, 0x6e]

/-- The characters `.oc.b32.i2p`. -/
def i2pSuffix : Bytes := [0x2e, 0x6f, 0x63, 0x2e, 0x62, 0x33, 0x32, 0x2e, 0x69, 0x32, 0x70]

def SER_NETWORK : Int := 1

def INIT_PROTO_VERSION : Int := 209

/-- `%x`. -/
def hexText (n : Nat) : Bytes := (Nat.toDigits 16 n).map fun c => UInt8.ofNat c.toNat

namespace CNetAddr

section Set

theorem ipZeros_length : (List.replicate 16 (0 : UInt8)).length = 16 := rfl

theorem torZeros_length : (List.replicate 41 (0 : UInt8)).length = 41 := rfl

/-- `Init`. -/
def init : CNetAddr := ⟨List.replicate 16 0, List.replicate 41 0, ipZeros_length, torZeros_length⟩

/-- `SetRaw`. -/
def setRaw : RawData → CNetAddr
  | .ipv4 ip_in h => ⟨pchIPv4 ++ ip_in, List.replicate 41 0, by rw [List.length_append, h]; rfl, torZeros_length⟩
  | .ipv6 ip_in h => ⟨ip_in, List.replicate 41 0, h, torZeros_length⟩

/-- `strName.substr(strName.size() - n, n) == suffix`, with the text in front of it. -/
def splitSuffix (strName suffix : Bytes) : Option Bytes :=
  if strName.length > suffix.length ∧ strName.drop (strName.length - suffix.length) = suffix then
    some (strName.take (strName.length - suffix.length))
  else none

/-- The decoded name as the end of an onion address. -/
def setOnion (a : CNetAddr) (vchAddr : Bytes) : Bool × CNetAddr :=
  if h : vchAddr.length ≠ 10 then
    if h' : vchAddr.length = 35 then
      (true, ⟨pchOnionCat ++ vchAddr.take 10, pchOnionCat ++ vchAddr,
        by rw [List.length_append, List.length_take, h']; rfl, by rw [List.length_append, h']; rfl⟩)
    else (false, a)
  else
    (true, ⟨pchOnionCat ++ vchAddr, List.replicate 41 0,
      by rw [List.length_append, not_not.mp h]; rfl, torZeros_length⟩)

/-- The decoded name as the end of an I2P address. -/
def setI2P (a : CNetAddr) (vchAddr : Bytes) : Bool × CNetAddr :=
  if h : vchAddr.length ≠ 10 then (false, a)
  else
    -- the source copies `pchOnionCat` here too
    (true, ⟨pchOnionCat ++ vchAddr, a.ip_tor, by rw [List.length_append, not_not.mp h]; rfl, a.ip_tor_length⟩)

/-- `SetSpecial`. -/
def setSpecial (a : CNetAddr) (strName : Bytes) : Except PastEnd (Bool × CNetAddr) :=
  match splitSuffix strName onionSuffix with
  | some name => do
    let (vchAddr, _) ← decodeBase32 (cString name) none
    return a.setOnion vchAddr
  | none =>
    match splitSuffix strName i2pSuffix with
    | some name => do
      let (vchAddr, _) ← decodeBase32 (cString name) none
      return a.setI2P vchAddr
    | none => return (false, a)

end Set

section Forms

variable (a b : CNetAddr)

/-- The address that `ip` alone gives. -/
def addr16 : AliasWallet.CNetAddr := ⟨a.ip, none, a.ip_length, fun _ hrest => nomatch hrest⟩

def isTor : Bool := a.ip.take 6 == pchOnionCat

def isTorV3 : Bool := a.isTor && a.ip_tor.take 6 == pchOnionCat

def isI2P : Bool := a.ip.take 6 == pchGarliCat

def isIPv4 : Bool := a.addr16.isIPv4

def isIPv6 : Bool := !a.isIPv4 && !a.isTor && !a.isI2P

/-- The array that counts. -/
def form : Bytes := if a.isTorV3 then a.ip_tor else a.ip

/-- `operator==`. -/
def eqv : Bool :=
  if a.isTorV3 == b.isTorV3 then if b.isTorV3 then a.ip_tor == b.ip_tor else a.ip == b.ip
  else false

/-- `operator!=`. -/
def ne : Bool :=
  if a.isTorV3 == b.isTorV3 then if b.isTorV3 then a.ip_tor != b.ip_tor else a.ip != b.ip
  else true

/-- `operator<`. -/
def lt : Bool :=
  if a.isTorV3 == b.isTorV3 then if b.isTorV3 then decide (a.ip_tor < b.ip_tor) else decide (a.ip < b.ip)
  else if a.ip = b.ip then b.isTorV3
  else decide (a.ip < b.ip)

/-- `GetGroup`. -/
def getGroup : Bytes :=
  if a.addr16.isRoutable && !(a.isIPv4 || a.addr16.isRFC6145 || a.addr16.isRFC6052) && !a.addr16.isRFC3964 &&
      a.addr16.isRFC4380 then
    [NET_IPV4, a.addr16.getByte 3 ^^^ 0xFF, a.addr16.getByte 2 ^^^ 0xFF]
  else
    let (nClass, nStartByte, nBits) := a.addr16.groupRange
    nClass :: (slice a.form nStartByte (nBits / 8) ++
      if nBits % 8 > 0 then
        [a.form.getD (nStartByte + nBits / 8) 0 ||| UInt8.ofNat (2 ^ (nBits % 8) - 1)]
      else [])

/-- `GetHash`. -/
def getHash (hash : HashFn) : UInt64 := UInt64.ofNat (leNat ((uint256Bytes (hash a.form)).take 8))

end Forms

section Text

variable (a : CNetAddr) (getnameinfo : SockAddr → Option Bytes)

/-- `GetSockAddr` of the address with a port. -/
def getSockAddr (port : UInt16) : Option SockAddr :=
  if a.isIPv4 then some (.inet (a.ip.drop 12) port)
  else if a.isIPv6 then some (.inet6 a.ip port)
  else none

/-- The bytes `2 * k` and `2 * k + 1` as a group of an IPv6 address. -/
def hexGroup (k : Nat) : Bytes := hexText ((a.ip.getD (2 * k) 0).toNat * 256 + (a.ip.getD (2 * k + 1) 0).toNat)

/-- `ToStringIP`; `getnameinfo` gives the numeric name of the host, where it does not fail. -/
def toStringIP : Bytes :=
  if a.isTorV3 then encodeBase32 (slice a.ip_tor 6 35) ++ onionSuffix
  else if a.isTor then encodeBase32 (slice a.ip 6 10) ++ onionSuffix
  else if a.isI2P then encodeBase32 (slice a.ip 6 10) ++ i2pSuffix
  else match (a.getSockAddr 0).bind getnameinfo with
    | some name => name
    | none =>
      if a.isIPv4 then
        [0x2e].intercalate ([12, 13, 14, 15].map fun k => decimalText (a.ip.getD k 0).toNat)
      else [0x3a].intercalate ((List.range 8).map a.hexGroup)

end Text

section Serialize

/-- The format without a type in front. -/
def legacyFormat (nType nVersion : Int) : Bool :=
  nType == SER_NETWORK && decide (nVersion ≥ INIT_PROTO_VERSION) && decide (nVersion < 60042)

/-- `Serialize`. -/
def serialize (nType nVersion : Int) (a : CNetAddr) : Bytes :=
  if legacyFormat nType nVersion then a.ip
  else if a.isTorV3 then int32Bytes ADDR_TORV3 ++ a.ip_tor
  else int32Bytes ADDR_LEGACY ++ a.ip

/-- `ip` was read behind `Init`. -/
def ofIp (ip : Bytes) : Option CNetAddr :=
  if h : ip.length = 16 then some ⟨ip, List.replicate 41 0, h, torZeros_length⟩ else none

theorem torStart_length {ip_tor : Bytes} (h : ip_tor.length = 41) : (ip_tor.take 16).length = 16 := by
  rw [List.length_take, h]
  rfl

/-- `ip_tor` was read and its start copied to `ip`. -/
def ofIpTor (ip_tor : Bytes) : Option CNetAddr :=
  if h : ip_tor.length = 41 then some ⟨ip_tor.take 16, ip_tor, torStart_length h, h⟩ else none

/-- `Unserialize`. -/
def unserialize (nType nVersion : Int) : Reader CNetAddr :=
  if legacyFormat nType nVersion then do
    let ip ← readBytes 16
    StateT.lift (ofIp ip)
  else do
    let fTorV3 ← readInt32
    if fTorV3 = ADDR_TORV3 then
      let ip_tor ← readBytes 41
      StateT.lift (ofIpTor ip_tor)
    else
      let ip ← readBytes 16
      StateT.lift (ofIp ip)

end Serialize

end CNetAddr

namespace CService

variable (s t : CService)

/-- `operator==`. -/
def eqv : Bool := s.toCNetAddr.eqv t.toCNetAddr && s.port == t.port

/-- `operator!=`. -/
def ne : Bool := s.toCNetAddr.ne t.toCNetAddr || s.port != t.port

/-- `operator<`. -/
def lt : Bool := s.toCNetAddr.lt t.toCNetAddr || (s.toCNetAddr.eqv t.toCNetAddr && decide (s.port < t.port))

/-- `GetKey`. -/
def getKey : Bytes := s.form ++ [UInt8.ofNat (s.port.toNat / 0x100), UInt8.ofNat (s.port.toNat &&& 0x0FF)]

/-- `Serialize`. -/
def serialize (nType nVersion : Int) : Bytes := s.toCNetAddr.serialize nType nVersion ++ portBytes s.port

/-- `Unserialize`. -/
def unserialize (nType nVersion : Int) : Reader CService := do
  let a ← CNetAddr.unserialize nType nVersion
  let port ← readUInt16BE
  return { a with port }

end CService

/-- The addresses that are made by `SetRaw`, by `SetSpecial` on a fresh object, or by `Unserialize`. -/
inductive CNetAddr.Built : CNetAddr → Prop
  | setRaw (d : RawData) : Built (setRaw d)
  | setSpecial {strName : Bytes} {fRet : Bool} {a : CNetAddr} (h : init.setSpecial strName = .ok (fRet, a)) : Built a
  | unserialize {nType nVersion : Int} {bs rest : Bytes} {a : CNetAddr}
      (h : (unserialize nType nVersion).run bs = some (a, rest)) : Built a

/-- The services that are made of such an address and a port, or by `Unserialize`. -/
inductive CService.Built : CService → Prop
  | ofAddr {a : CNetAddr} (h : a.Built) (port : UInt16) : Built { a with port }
  | unserialize {nType nVersion : Int} {bs rest : Bytes} {s : CService}
      (h : (unserialize nType nVersion).run bs = some (s, rest)) : Built s

end NetBase

end AliasWallet
