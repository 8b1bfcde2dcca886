import AliasWallet.Lib.KeyOrder
import AliasWallet.Net.AddrFileSpec
import AliasWallet.Net.NetBase

/-!
# The two arrays of an address agree

However an address was made, `ip` is the start of `ip_tor` where this counts. So an address with both arrays stands for
one with a single sequence of bytes, and the operators compare these sequences.
-/

namespace AliasWallet
open Lib

namespace NetBase

namespace CNetAddr

variable {a b : CNetAddr}

/-- Where `ip_tor` counts, `ip` is its start. -/
def Coherent (a : CNetAddr) : Prop := a.isTorV3 = true → a.ip = a.ip_tor.take 16

section Made

theorem isTorV3_of_zero (h : a.ip_tor = List.replicate 41 0) : a.isTorV3 = false := by
  rw [isTorV3, h, Bool.and_eq_false_iff]
  exact .inr rfl

theorem coherent_of_zero (h : a.ip_tor = List.replicate 41 0) : a.Coherent := by
  intro htor
  rw [isTorV3_of_zero h] at htor
  cases htor

theorem setOnion_coherent (vch : Bytes) : (init.setOnion vch).2.Coherent := by
  rw [setOnion]
  split
  · split
    · intro _
      show pchOnionCat ++ vch.take 10 = (pchOnionCat ++ vch).take 16
      rw [List.take_append]
      rfl
    · exact coherent_of_zero rfl
  · exact coherent_of_zero rfl

theorem setI2P_coherent (vch : Bytes) : (init.setI2P vch).2.Coherent := by
  rw [setI2P]
  split
  · exact coherent_of_zero rfl
  · exact coherent_of_zero rfl

theorem decoded_coherent {name : Bytes} {set : Bytes → Bool × CNetAddr} {fRet : Bool}
    (hset : ∀ vch, (set vch).2.Coherent)
    (h : (do let (vchAddr, _) ← decodeBase32 (cString name) none; return set vchAddr :
      Except PastEnd (Bool × CNetAddr)) = .ok (fRet, a)) : a.Coherent := by
  cases hdecode : decodeBase32 (cString name) none with
  | error e =>
    rw [hdecode] at h
    cases h
  | ok read =>
    rw [hdecode] at h
    have hread : set read.1 = (fRet, a) := Except.ok.inj h
    have hcoherent := hset read.1
    rwa [hread] at hcoherent

theorem setSpecial_coherent {strName : Bytes} {fRet : Bool} (h : init.setSpecial strName = .ok (fRet, a)) :
    a.Coherent := by
  rw [setSpecial] at h
  split at h
  · exact decoded_coherent setOnion_coherent h
  · split at h
    · exact decoded_coherent setI2P_coherent h
    · obtain ⟨-, rfl⟩ := Prod.mk.inj (Except.ok.inj h)
      exact coherent_of_zero rfl

theorem ofIp_eq_some {ip : Bytes} (h : ofIp ip = some a) : a.ip = ip ∧ a.ip_tor = List.replicate 41 0 := by
  rw [ofIp] at h
  split at h
  · obtain rfl := Option.some.inj h
    exact ⟨rfl, rfl⟩
  · cases h

theorem ofIpTor_eq_some {ip_tor : Bytes} (h : ofIpTor ip_tor = some a) : a.ip = ip_tor.take 16 ∧ a.ip_tor = ip_tor := by
  rw [ofIpTor] at h
  split at h
  · obtain rfl := Option.some.inj h
    exact ⟨rfl, rfl⟩
  · cases h

theorem run_lift_eq_some {o : Option CNetAddr} {bs rest : Bytes} :
    (StateT.lift o : Reader CNetAddr).run bs = some (a, rest) ↔ o = some a ∧ bs = rest := by
  cases o with
  | none => exact ⟨fun h => (nomatch h), fun h => (nomatch h.1)⟩
  | some a' =>
    show some (a', bs) = some (a, rest) ↔ _
    rw [Option.some.injEq, Prod.mk.injEq, Option.some.injEq]

theorem unserialize_coherent {nType nVersion : Int} {bs rest : Bytes}
    (h : (unserialize nType nVersion).run bs = some (a, rest)) : a.Coherent := by
  have hplain : ∀ {bs : Bytes}, (do let ip ← readBytes 16; StateT.lift (ofIp ip) : Reader CNetAddr).run bs =
      some (a, rest) → a.Coherent := by
    intro bs h
    obtain ⟨ip, left, -, hlift⟩ := run_bind_eq_some.mp h
    exact coherent_of_zero (ofIp_eq_some (run_lift_eq_some.mp hlift).1).2
  rw [unserialize] at h
  split at h
  · exact hplain h
  · obtain ⟨fTorV3, left, -, h⟩ := run_bind_eq_some.mp h
    by_cases htor : fTorV3 = ADDR_TORV3
    · rw [if_pos htor] at h
      obtain ⟨ip_tor, left', -, hlift⟩ := run_bind_eq_some.mp h
      obtain ⟨hip, hiptor⟩ := ofIpTor_eq_some (run_lift_eq_some.mp hlift).1
      intro _
      rw [hip, hiptor]
    · rw [if_neg htor] at h
      exact hplain h

theorem Built.coherent (h : a.Built) : a.Coherent := by
  cases h with
  | setRaw d => cases d <;> exact coherent_of_zero rfl
  | setSpecial h => exact setSpecial_coherent h
  | unserialize h => exact unserialize_coherent h

end Made

section Single

/-- The address with one sequence of bytes. -/
def toAddr (a : CNetAddr) : AliasWallet.CNetAddr where
  ip := a.ip
  torV3 := if a.isTorV3 then some (a.ip_tor.drop 16) else none
  ip_length := a.ip_length
  torV3_length := by
    intro rest hrest
    split at hrest
    case isTrue htor =>
      rw [← Option.some.inj hrest, List.length_drop, a.ip_tor_length]
      exact ⟨rfl, beq_iff_eq.mp (Bool.and_eq_true_iff.mp htor).1⟩
    case isFalse => cases hrest

@[simp] theorem toAddr_ip : a.toAddr.ip = a.ip := rfl

theorem toAddr_torV3 : a.toAddr.torV3 = if a.isTorV3 then some (a.ip_tor.drop 16) else none := rfl

@[simp] theorem toAddr_isTorV3 : a.toAddr.isTorV3 = a.isTorV3 := by
  rw [AliasWallet.CNetAddr.isTorV3, toAddr_torV3]
  cases a.isTorV3 <;> rfl

theorem Coherent.bytes_toAddr (h : a.Coherent) : a.toAddr.bytes = a.form := by
  rw [AliasWallet.CNetAddr.bytes, form, toAddr_ip, toAddr_torV3]
  cases htor : a.isTorV3 with
  | true =>
    rw [if_pos rfl, if_pos rfl, h htor]
    exact List.take_append_drop 16 a.ip_tor
  | false => exact List.append_nil _

theorem Coherent.lt_toAddr (ha : a.Coherent) (hb : b.Coherent) : a.lt b = a.toAddr.lt b.toAddr := by
  rw [lt, AliasWallet.CNetAddr.lt, ha.bytes_toAddr, hb.bytes_toAddr, toAddr_isTorV3, toAddr_isTorV3, form, form]
  cases a.isTorV3 <;> cases b.isTorV3 <;> rfl

theorem Coherent.eqv_toAddr (ha : a.Coherent) (hb : b.Coherent) : a.eqv b = a.toAddr.eqv b.toAddr := by
  rw [eqv, AliasWallet.CNetAddr.eqv, ha.bytes_toAddr, hb.bytes_toAddr, toAddr_isTorV3, toAddr_isTorV3, form, form]
  cases a.isTorV3 <;> cases b.isTorV3 <;> rfl

theorem Coherent.getGroup_toAddr (h : a.Coherent) : a.getGroup = a.toAddr.getGroup := by
  rw [getGroup, AliasWallet.CNetAddr.getGroup, h.bytes_toAddr]
  rfl

theorem Coherent.eqv_iff_toAddr (ha : a.Coherent) (hb : b.Coherent) : a.eqv b = true ↔ a.toAddr = b.toAddr := by
  rw [ha.eqv_toAddr hb, AliasWallet.CNetAddr.eqv_iff]

theorem Coherent.eqv_iff (ha : a.Coherent) (hb : b.Coherent) : a.eqv b = true ↔ a.form = b.form := by
  rw [ha.eqv_iff_toAddr hb, ← ha.bytes_toAddr, ← hb.bytes_toAddr]
  exact ⟨fun h => congrArg _ h, AliasWallet.CNetAddr.eq_of_bytes⟩

theorem map_toNat_lt_iff {l l' : Bytes} : l.map UInt8.toNat < l'.map UInt8.toNat ↔ l < l' := by
  induction l generalizing l' with
  | nil => cases l' <;> simp
  | cons x l ih =>
    cases l' with
    | nil => simp
    | cons y l' =>
      rw [List.map_cons, List.map_cons, List.cons_lt_cons_iff, List.cons_lt_cons_iff, ih, UInt8.lt_iff_toNat_lt,
        UInt8.toNat_inj]

/-- The operators compare the arrays that count. -/
theorem comparesKeys : ComparesKeys Coherent (fun a => a.form.map UInt8.toNat) lt eqv where
  lt_iff := by
    intro a b ha hb
    rw [ha.lt_toAddr hb, AliasWallet.CNetAddr.lt_iff, ha.bytes_toAddr, hb.bytes_toAddr]
    exact map_toNat_lt_iff.symm
  eqv_iff := by
    intro a b ha hb
    rw [ha.eqv_iff hb]
    exact (List.map_inj_right fun _ _ h => UInt8.toNat_inj.mp h).symm

/-- The address file reads the single sequence of what `Unserialize` reads. -/
theorem unserialize_toAddr {nType nVersion : Int} {bs rest : Bytes} (hformat : legacyFormat nType nVersion = false)
    (h : (unserialize nType nVersion).run bs = some (a, rest)) :
    AliasWallet.CNetAddr.unserialize.run bs = some (a.toAddr, rest) := by
  have hplain : ∀ {ip : Bytes}, ofIp ip = some a → AliasWallet.CNetAddr.ofIp ip = some a.toAddr := by
    intro ip hip
    obtain ⟨rfl, hzero⟩ := ofIp_eq_some hip
    rw [AliasWallet.CNetAddr.ofIp, dif_pos a.ip_length]
    simp [toAddr, isTorV3_of_zero hzero]
  rw [unserialize, hformat, if_neg Bool.false_ne_true] at h
  obtain ⟨fTorV3, left, hfirst, h⟩ := run_bind_eq_some.mp h
  rw [AliasWallet.CNetAddr.unserialize, run_bind_of_some hfirst]
  by_cases htor : fTorV3 = ADDR_TORV3
  · rw [if_pos htor] at h ⊢
    obtain ⟨ip_tor, left', hread, hlift⟩ := run_bind_eq_some.mp h
    obtain ⟨hmade, rfl⟩ := run_lift_eq_some.mp hlift
    obtain ⟨hip, rfl⟩ := ofIpTor_eq_some hmade
    rw [run_bind_of_some hread, AliasWallet.CNetAddr.ofIpTor, dif_pos a.ip_tor_length]
    by_cases hcat : a.ip_tor.take 6 = pchOnionCat
    · have htorV3 : a.isTorV3 = true := by
        rw [isTorV3, isTor, hip, List.take_take, Bool.and_eq_true_iff]
        exact ⟨beq_iff_eq.mpr hcat, beq_iff_eq.mpr hcat⟩
      rw [dif_pos hcat]
      simp [toAddr, htorV3, hip]
    · have htorV3 : a.isTorV3 = false := by
        rw [isTorV3, Bool.and_eq_false_iff]
        exact .inr (beq_eq_false_iff_ne.mpr hcat)
      rw [dif_neg hcat, AliasWallet.CNetAddr.ofIp, dif_pos (by simp [a.ip_tor_length])]
      simp [toAddr, htorV3, hip]
  · rw [if_neg htor] at h ⊢
    obtain ⟨ip, left', hread, hlift⟩ := run_bind_eq_some.mp h
    obtain ⟨hmade, rfl⟩ := run_lift_eq_some.mp hlift
    rw [run_bind_of_some hread, hplain hmade]
    rfl

theorem ne_eq_not_eqv (a b : CNetAddr) : a.ne b = !a.eqv b := by
  rw [ne, eqv]
  cases a.isTorV3 <;> cases b.isTorV3 <;> rfl

end Single

section Observed

variable {getnameinfo : SockAddr → Option Bytes}

theorem Coherent.ip_eq (ha : a.Coherent) (hb : b.Coherent) (h : a.eqv b = true) : a.ip = b.ip :=
  congrArg AliasWallet.CNetAddr.ip ((ha.eqv_iff_toAddr hb).mp h)

theorem Coherent.isTorV3_eq (ha : a.Coherent) (hb : b.Coherent) (h : a.eqv b = true) : a.isTorV3 = b.isTorV3 := by
  rw [← toAddr_isTorV3, ← toAddr_isTorV3, (ha.eqv_iff_toAddr hb).mp h]

theorem toStringIP_congr (htor : a.isTorV3 = b.isTorV3) (hform : a.form = b.form) (hip : a.ip = b.ip) :
    a.toStringIP getnameinfo = b.toStringIP getnameinfo := by
  have hplain : a.addr16 = b.addr16 := by
    rw [addr16, addr16]
    congr 1
  have hsock : a.getSockAddr 0 = b.getSockAddr 0 := by
    rw [getSockAddr, getSockAddr, isIPv6, isIPv6, isIPv4, isIPv4, isTor, isTor, isI2P, isI2P, hplain, hip]
  have hgroup : a.hexGroup = b.hexGroup := by
    funext k
    rw [hexGroup, hexGroup, hip]
  have hname : a.isTorV3 = true → a.ip_tor = b.ip_tor := by
    intro h
    rw [form, form, ← htor, h] at hform
    exact hform
  rw [toStringIP, toStringIP, isTor, isTor, isI2P, isI2P, isIPv4, isIPv4, hsock, hgroup, hplain, hip, ← htor]
  cases h : a.isTorV3 with
  | true => rw [hname h]
  | false => rfl

theorem eqv_of_forms (htor : a.isTorV3 = b.isTorV3) (hform : a.form = b.form) : a.eqv b = true := by
  rw [form, form, ← htor] at hform
  rw [eqv, ← htor]
  cases h : a.isTorV3 with
  | true =>
    rw [h] at hform
    simpa using hform
  | false =>
    rw [h] at hform
    simpa using hform

theorem eqv_of_ip_tor (hip : a.ip = b.ip_tor.take 16) (hiptor : a.ip_tor = b.ip_tor) (htor : b.isTorV3 = true) :
    a.eqv b = true := by
  have hcat := (Bool.and_eq_true_iff.mp htor).2
  have htor' : a.isTorV3 = true := by
    rw [isTorV3, isTor, hip, hiptor, List.take_take, Bool.and_eq_true_iff]
    exact ⟨hcat, hcat⟩
  apply eqv_of_forms (htor'.trans htor.symm)
  rw [form, form, htor', htor, if_pos rfl, if_pos rfl, hiptor]

theorem eqv_of_ip (hip : a.ip = b.ip) (hzero : a.ip_tor = List.replicate 41 0) (htor : b.isTorV3 = false) :
    a.eqv b = true := by
  have htor' := isTorV3_of_zero hzero
  apply eqv_of_forms (htor'.trans htor.symm)
  rw [form, form, htor', htor, if_neg Bool.false_ne_true, if_neg Bool.false_ne_true, hip]

/-- What is written with types is read as an equal address. -/
theorem unserialize_serialize {nType nVersion nType' nVersion' : Int} (h : 60042 ≤ nVersion) (h' : 60042 ≤ nVersion')
    (a : CNetAddr) (rest : Bytes) :
    ∃ a', (unserialize nType' nVersion').run (a.serialize nType nVersion ++ rest) = some (a', rest) ∧
      a'.eqv a = true := by
  have hlegacy : ∀ {nType nVersion : Int}, 60042 ≤ nVersion → legacyFormat nType nVersion = false := by
    intro nType nVersion h
    rw [legacyFormat, Bool.and_eq_false_iff]
    exact .inr (decide_eq_false (by omega))
  rw [serialize, unserialize, hlegacy h, hlegacy h', if_neg Bool.false_ne_true, if_neg Bool.false_ne_true]
  cases htor : a.isTorV3 with
  | true =>
    obtain ⟨a', hread⟩ : ∃ a', ofIpTor a.ip_tor = some a' := ⟨_, dif_pos a.ip_tor_length⟩
    obtain ⟨hip, hiptor⟩ := ofIpTor_eq_some hread
    refine ⟨a', ?_, eqv_of_ip_tor hip hiptor htor⟩
    rw [if_pos rfl, List.append_assoc, run_bind_of_some (readInt32_exact.read_write ADDR_TORV3 trivial _), if_pos rfl,
      run_bind_of_some ((readBytes_exact 41).read_write a.ip_tor a.ip_tor_length rest), hread]
    rfl
  | false =>
    obtain ⟨a', hread⟩ : ∃ a', ofIp a.ip = some a' := ⟨_, dif_pos a.ip_length⟩
    obtain ⟨hip, hzero⟩ := ofIp_eq_some hread
    refine ⟨a', ?_, eqv_of_ip hip hzero htor⟩
    rw [if_neg Bool.false_ne_true, List.append_assoc,
      run_bind_of_some (readInt32_exact.read_write ADDR_LEGACY trivial _), if_neg (by decide),
      run_bind_of_some ((readBytes_exact 16).read_write a.ip a.ip_length rest), hread]
    rfl

end Observed

end CNetAddr

namespace CService

variable {s t : CService}

theorem Built.coherent (h : s.Built) : s.toCNetAddr.Coherent := by
  cases h with
  | ofAddr h port => exact h.coherent
  | unserialize h =>
    obtain ⟨a, left, ha, h⟩ := run_bind_eq_some.mp h
    obtain ⟨port, left', -, h⟩ := run_bind_eq_some.mp h
    obtain ⟨rfl, -⟩ := run_pure_eq_some.mp h
    exact CNetAddr.unserialize_coherent ha

theorem ports_compareKeys :
    ComparesKeys (fun _ : UInt16 => True) UInt16.toNat (fun p q => decide (p < q)) (fun p q => p == q) where
  lt_iff _ _ := decide_eq_true_iff.trans UInt16.lt_iff_toNat_lt
  eqv_iff _ _ := beq_iff_eq.trans UInt16.toNat_inj.symm

/-- Services are compared by the address and then by the port. -/
theorem comparesKeys : ComparesKeys Built
    (fun s => toLex (s.form.map UInt8.toNat, s.port.toNat)) lt eqv :=
  (CNetAddr.comparesKeys.lex ports_compareKeys toCNetAddr port).mono fun _ h => ⟨h.coherent, trivial⟩

theorem ne_eq_not_eqv (s t : CService) : s.ne t = !s.eqv t := by
  rw [ne, eqv, CNetAddr.ne_eq_not_eqv, Bool.not_and]
  rfl

theorem portBytes_inj {p q : UInt16}
    (h : [UInt8.ofNat (p.toNat / 0x100), UInt8.ofNat (p.toNat &&& 0x0FF)] =
      [UInt8.ofNat (q.toNat / 0x100), UInt8.ofNat (q.toNat &&& 0x0FF)]) : p = q := by
  have hmask : ∀ n : Nat, n &&& 0x0FF = n % 0x100 := fun n => Nat.and_two_pow_sub_one_eq_mod n 8
  have hp := p.toNat_lt
  have hq := q.toNat_lt
  obtain ⟨hhigh, hrest⟩ := List.cons.inj h
  have hlow := (List.cons.inj hrest).1
  have hhigh' := congrArg UInt8.toNat hhigh
  have hlow' := congrArg UInt8.toNat hlow
  rw [hmask, hmask] at hlow'
  simp only [UInt8.toNat_ofNat'] at hhigh' hlow'
  apply UInt16.toNat_inj.mp
  omega

/-- The key tells the address and the port. -/
theorem getKey_inj (h : s.getKey = t.getKey) : s.form = t.form ∧ s.port = t.port := by
  have hlen : s.form.length = t.form.length := by
    have hsame := congrArg List.length h
    rw [getKey, getKey, List.length_append, List.length_append] at hsame
    exact Nat.add_right_cancel hsame
  obtain ⟨hform, hport⟩ := List.append_inj h hlen
  exact ⟨hform, portBytes_inj hport⟩

theorem eqv_iff_getKey (hs : s.Built) (ht : t.Built) : s.eqv t = true ↔ s.getKey = t.getKey := by
  rw [eqv, Bool.and_eq_true, hs.coherent.eqv_iff ht.coherent, beq_iff_eq]
  constructor
  · rintro ⟨hform, hport⟩
    rw [getKey, getKey, hform, hport]
  · exact getKey_inj

theorem unserialize_serialize {nType nVersion nType' nVersion' : Int} (h : 60042 ≤ nVersion) (h' : 60042 ≤ nVersion')
    (s : CService) (rest : Bytes) :
    ∃ s', (unserialize nType' nVersion').run (s.serialize nType nVersion ++ rest) = some (s', rest) ∧
      s'.eqv s = true := by
  obtain ⟨a, hread, heqv⟩ := @CNetAddr.unserialize_serialize nType nVersion nType' nVersion' h h' s.toCNetAddr
    (portBytes s.port ++ rest)
  refine ⟨{ a with port := s.port }, ?_, ?_⟩
  · rw [serialize, List.append_assoc, unserialize, run_bind_of_some hread,
      run_bind_of_some (readUInt16BE_portBytes s.port rest)]
    rfl
  · rw [eqv, Bool.and_eq_true]
    exact ⟨heqv, beq_self_eq_true _⟩

end CService

/-- However addresses and services were made, the operators order and identify them without contradiction. -/
theorem netAddr_consistent (hash : HashFn) (getnameinfo : SockAddr → Option Bytes) :
    StrictTotal CNetAddr.Built CNetAddr.lt CNetAddr.eqv ∧ StrictTotal CService.Built CService.lt CService.eqv ∧
    (∀ a b : CNetAddr, a.ne b = !a.eqv b) ∧ (∀ s t : CService, s.ne t = !s.eqv t) ∧
    (∀ s t : CService, s.Built → t.Built → (s.eqv t = true ↔ s.getKey = t.getKey)) ∧
    (∀ a b : CNetAddr, (a.Built ∨ ∃ s : CService, s.Built ∧ s.toCNetAddr = a) →
      (b.Built ∨ ∃ s : CService, s.Built ∧ s.toCNetAddr = b) → a.eqv b = true →
      a.getHash hash = b.getHash hash ∧ a.getGroup = b.getGroup ∧
        a.toStringIP getnameinfo = b.toStringIP getnameinfo) ∧
    ∀ nType nVersion nType' nVersion' : Int, 60042 ≤ nVersion → 60042 ≤ nVersion' → ∀ rest : Bytes,
      (∀ a : CNetAddr, a.Built → ∃ a', (CNetAddr.unserialize nType' nVersion').run
        (a.serialize nType nVersion ++ rest) = some (a', rest) ∧ a'.eqv a = true) ∧
      ∀ s : CService, s.Built → ∃ s', (CService.unserialize nType' nVersion').run
        (s.serialize nType nVersion ++ rest) = some (s', rest) ∧ s'.eqv s = true := by
  have hmade : ∀ {a : CNetAddr}, (a.Built ∨ ∃ s : CService, s.Built ∧ s.toCNetAddr = a) → a.Coherent := by
    intro a ha
    cases ha with
    | inl ha => exact ha.coherent
    | inr ha =>
      obtain ⟨s, hs, rfl⟩ := ha
      exact hs.coherent
  refine ⟨(CNetAddr.comparesKeys.mono fun _ h => h.coherent).strictTotal, CService.comparesKeys.strictTotal,
    CNetAddr.ne_eq_not_eqv, CService.ne_eq_not_eqv, fun s t => CService.eqv_iff_getKey, ?_, ?_⟩
  · intro a b ha hb heqv
    have hform := ((hmade ha).eqv_iff (hmade hb)).mp heqv
    refine ⟨by rw [CNetAddr.getHash, CNetAddr.getHash, hform], ?_, ?_⟩
    · rw [(hmade ha).getGroup_toAddr, (hmade hb).getGroup_toAddr, ((hmade ha).eqv_iff_toAddr (hmade hb)).mp heqv]
    · exact CNetAddr.toStringIP_congr ((hmade ha).isTorV3_eq (hmade hb) heqv) hform ((hmade ha).ip_eq (hmade hb) heqv)
  · intro nType nVersion nType' nVersion' h h' rest
    exact ⟨fun a _ => CNetAddr.unserialize_serialize h h' a rest, fun s _ => CService.unserialize_serialize h h' s rest⟩

/-- The address 1.2.3.4 and the same one in the range of mapped addresses. -/
theorem netAddr_consistent_mapped :
    (CNetAddr.setRaw (.ipv4 [1, 2, 3, 4] rfl)).getGroup =
      (CNetAddr.setRaw (.ipv6 (pchIPv4 ++ [1, 2, 3, 4]) rfl)).getGroup ∧
    ∃ a', (CNetAddr.unserialize 1 60042).run ((CNetAddr.setRaw (.ipv4 [1, 2, 3, 4] rfl)).serialize 1 60042 ++ []) =
      some (a', []) ∧ a'.eqv (CNetAddr.setRaw (.ipv4 [1, 2, 3, 4] rfl)) = true :=
  ⟨((netAddr_consistent (fun _ => 0) fun _ => none).2.2.2.2.2.1 _ _ (.inl (.setRaw _)) (.inl (.setRaw _)) rfl).2.1,
    ((netAddr_consistent (fun _ => 0) fun _ => none).2.2.2.2.2.2 1 60042 1 60042 (by decide) (by decide) []).1 _
      (.setRaw _)⟩

end NetBase

end AliasWallet
