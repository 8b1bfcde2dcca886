import AliasWallet.Core.BaseTextRoundTrip
import AliasWallet.Net.NetBase

/-!
# Names of overlay networks

A name in base 32 goes into one or both arrays of an address behind a prefix, and comes out of them as text again. The
prefix alone says which network it is of.
-/

namespace AliasWallet
open Lib

namespace NetBase

/-- A name in lower case of an onion address of version 2 or 3, or of an I2P address. -/
inductive CanonicalName : Bytes → Prop
  | onion {chars : Bytes} (hchars : ∀ c ∈ chars, c ∈ pbase32) (hlen : chars.length = 16 ∨ chars.length = 56) :
      CanonicalName (chars ++ onionSuffix)
  | i2p {chars : Bytes} (hchars : ∀ c ∈ chars, c ∈ pbase32) (hlen : chars.length = 16) :
      CanonicalName (chars ++ i2pSuffix)

/-- The address is of the network that the suffix names. -/
structure Classified (strName : Bytes) (a : CNetAddr) : Prop where
  onion : onionSuffix <:+ strName → a.isTor = true ∧ a.isI2P = false ∧ (a.isTorV3 = true ↔ strName.length = 62)
  i2p : i2pSuffix <:+ strName → a.isI2P = true ∧ a.isTor = false ∧ a.isTorV3 = false

/-- The name is accepted, printed as it was and classified by its suffix. -/
def Survives (getnameinfo : SockAddr → Option Bytes) (strName : Bytes) : Prop :=
  ∃ a, CNetAddr.init.setSpecial strName = .ok (true, a) ∧ a.toStringIP getnameinfo = strName ∧ Classified strName a

section Names

variable {chars suffix vch : Bytes}

theorem splitSuffix_append (hchars : chars ≠ []) (suffix : Bytes) :
    CNetAddr.splitSuffix (chars ++ suffix) suffix = some chars := by
  have hpos := List.length_pos_of_ne_nil hchars
  have hlen : (chars ++ suffix).length - suffix.length = chars.length := by
    rw [List.length_append, Nat.add_sub_cancel]
  rw [CNetAddr.splitSuffix, hlen, List.drop_left, List.take_left, if_pos ⟨by rw [List.length_append]; omega, rfl⟩]

/-- The names of the two networks have different ends. -/
theorem onionSuffix_not_i2p : ¬ onionSuffix <:+ chars ++ i2pSuffix := by
  intro h
  have hshort : onionSuffix <:+ i2pSuffix :=
    List.suffix_of_suffix_length_le h (List.suffix_append chars i2pSuffix) (by decide)
  exact absurd hshort (by decide)

theorem i2pSuffix_not_onion : ¬ i2pSuffix <:+ chars ++ onionSuffix := by
  intro h
  have hlast : onionSuffix <:+ i2pSuffix :=
    List.suffix_of_suffix_length_le (List.suffix_append chars onionSuffix) h (by decide)
  exact absurd hlast (by decide)

theorem splitSuffix_i2p : CNetAddr.splitSuffix (chars ++ i2pSuffix) onionSuffix = none := by
  rw [CNetAddr.splitSuffix, if_neg]
  rintro ⟨-, hdrop⟩
  exact onionSuffix_not_i2p (hdrop ▸ List.drop_suffix _ _)

/-- Whole groups of eight characters are decoded to bytes that are encoded as the same characters. -/
theorem decode_name (hchars : ∀ c ∈ chars, c ∈ pbase32) (hlen : chars.length % 8 = 0) :
    ∃ vch, decodeBase32 (cString chars) none = .ok (vch, none) ∧ encodeBase32 vch = chars ∧
      5 * chars.length = 8 * vch.length := by
  have hall : ∀ c ∈ pbase32, c ≠ 0 ∧ tableAt decode32_table c ≠ -1 ∧ toLower c = c := by decide +kernel
  have hnul : (0 : UInt8) ∉ chars := fun hmem => (hall 0 (hchars 0 hmem)).1 rfl
  have hsame : chars.map toLower = chars := by
    rw [List.map_congr_left (g := id), List.map_id]
    exact fun c hc => (hall c (hchars c hc)).2.2
  obtain ⟨vch, hdecode, hencode, hbits⟩ :=
    base32_lawful.decode_chars (fun c hc => (hall c (hchars c hc)).2.1) hlen
  rw [hsame] at hencode
  rw [cString_eq hnul]
  exact ⟨vch, hdecode, hencode, hbits⟩

theorem setSpecial_onion (hchars : chars ≠ []) (hdecode : decodeBase32 (cString chars) none = .ok (vch, none)) :
    CNetAddr.init.setSpecial (chars ++ onionSuffix) = .ok (CNetAddr.init.setOnion vch) := by
  rw [CNetAddr.setSpecial, splitSuffix_append hchars]
  dsimp only
  rw [hdecode]
  rfl

theorem setSpecial_i2p (hchars : chars ≠ []) (hdecode : decodeBase32 (cString chars) none = .ok (vch, none)) :
    CNetAddr.init.setSpecial (chars ++ i2pSuffix) = .ok (CNetAddr.init.setI2P vch) := by
  rw [CNetAddr.setSpecial, splitSuffix_i2p, splitSuffix_append hchars]
  dsimp only
  rw [hdecode]
  rfl

end Names

section Prefixes

variable {a : CNetAddr} {vch : Bytes} {getnameinfo : SockAddr → Option Bytes}

theorem isTor_of_ip (h : a.ip = pchOnionCat ++ vch) : a.isTor = true ∧ a.isI2P = false := by
  rw [CNetAddr.isTor, CNetAddr.isI2P, h]
  exact ⟨rfl, rfl⟩

/-- The text of an onion address of version 2. -/
theorem toStringIP_onion (h : a.ip = pchOnionCat ++ vch) (htor : a.isTorV3 = false) (hlen : vch.length = 10) :
    a.toStringIP getnameinfo = encodeBase32 vch ++ onionSuffix := by
  have hslice : slice a.ip 6 10 = vch := by
    rw [h, ← hlen]
    exact List.take_length
  rw [CNetAddr.toStringIP, htor, (isTor_of_ip h).1, hslice]
  rfl

/-- The text of an onion address of version 3. -/
theorem toStringIP_torV3 (h : a.ip_tor = pchOnionCat ++ vch) (htor : a.isTorV3 = true) (hlen : vch.length = 35) :
    a.toStringIP getnameinfo = encodeBase32 vch ++ onionSuffix := by
  have hslice : slice a.ip_tor 6 35 = vch := by
    rw [h, ← hlen]
    exact List.take_length
  rw [CNetAddr.toStringIP, htor, hslice]
  rfl

/-- Ten bytes make an onion address of version 2. -/
theorem setOnion_ten (hlen : vch.length = 10) : ∃ a, CNetAddr.init.setOnion vch = (true, a) ∧
    a.ip = pchOnionCat ++ vch ∧ a.isTorV3 = false := by
  rw [CNetAddr.setOnion, dif_neg (not_not_intro hlen)]
  refine ⟨_, rfl, rfl, ?_⟩
  rw [CNetAddr.isTorV3, Bool.and_eq_false_iff]
  exact .inr rfl

theorem setOnion_thirtyFive (hlen : vch.length = 35) : ∃ a, CNetAddr.init.setOnion vch = (true, a) ∧
    a.ip = pchOnionCat ++ vch.take 10 ∧ a.ip_tor = pchOnionCat ++ vch ∧ a.isTorV3 = true := by
  rw [CNetAddr.setOnion, dif_pos (by omega), dif_pos hlen]
  exact ⟨_, rfl, rfl, rfl, rfl⟩

/-- An I2P name is filed as an onion address. -/
theorem setI2P_ten (hlen : vch.length = 10) : ∃ a, CNetAddr.init.setI2P vch = (true, a) ∧
    a.ip = pchOnionCat ++ vch ∧ a.isTorV3 = false := by
  rw [CNetAddr.setI2P, dif_neg (not_not_intro hlen)]
  refine ⟨_, rfl, rfl, ?_⟩
  rw [CNetAddr.isTorV3, Bool.and_eq_false_iff]
  exact .inr rfl

end Prefixes

section Survival

variable {chars : Bytes} (getnameinfo : SockAddr → Option Bytes)

theorem onion_survives (hchars : ∀ c ∈ chars, c ∈ pbase32) (hlen : chars.length = 16 ∨ chars.length = 56) :
    Survives getnameinfo (chars ++ onionSuffix) := by
  have hne : chars ≠ [] := by
    rintro rfl
    simp at hlen
  have hname : (chars ++ onionSuffix).length = chars.length + 6 := List.length_append
  obtain ⟨vch, hdecode, hencode, hbits⟩ := decode_name hchars (by omega)
  cases hlen with
  | inl hlen =>
    have hten : vch.length = 10 := by omega
    obtain ⟨a, hset, hip, htor⟩ := setOnion_ten hten
    refine ⟨a, by rw [setSpecial_onion hne hdecode, hset], ?_, fun _ => ?_, fun hi2p => ?_⟩
    · rw [toStringIP_onion hip htor (by omega), hencode]
    · refine ⟨(isTor_of_ip hip).1, (isTor_of_ip hip).2, ?_⟩
      rw [htor, hname]
      exact ⟨fun h => absurd h Bool.false_ne_true, fun h => by omega⟩
    · exact absurd hi2p i2pSuffix_not_onion
  | inr hlen =>
    have hthirtyFive : vch.length = 35 := by omega
    obtain ⟨a, hset, hip, hiptor, htor⟩ := setOnion_thirtyFive hthirtyFive
    refine ⟨a, by rw [setSpecial_onion hne hdecode, hset], ?_, fun _ => ?_, fun hi2p => ?_⟩
    · rw [toStringIP_torV3 hiptor htor (by omega), hencode]
    · refine ⟨(isTor_of_ip hip).1, (isTor_of_ip hip).2, ?_⟩
      rw [htor, hname]
      exact ⟨fun _ => by omega, fun _ => rfl⟩
    · exact absurd hi2p i2pSuffix_not_onion

/-- An I2P name comes back as the onion name of the same characters. -/
theorem i2p_becomes_onion (hchars : ∀ c ∈ chars, c ∈ pbase32) (hlen : chars.length = 16) :
    ∃ a, CNetAddr.init.setSpecial (chars ++ i2pSuffix) = .ok (true, a) ∧
      a.toStringIP getnameinfo = chars ++ onionSuffix ∧ a.isTor = true ∧ a.isI2P = false := by
  have hne : chars ≠ [] := by
    rintro rfl
    simp at hlen
  obtain ⟨vch, hdecode, hencode, hbits⟩ := decode_name hchars (by omega)
  have hten : vch.length = 10 := by omega
  obtain ⟨a, hset, hip, htor⟩ := setI2P_ten hten
  refine ⟨a, by rw [setSpecial_i2p hne hdecode, hset], ?_, isTor_of_ip hip⟩
  rw [toStringIP_onion hip htor (by omega), hencode]

theorem i2p_not_survives (hchars : ∀ c ∈ chars, c ∈ pbase32) (hlen : chars.length = 16) :
    ¬ Survives getnameinfo (chars ++ i2pSuffix) := by
  intro hsurvives
  obtain ⟨a, hset, -, hclass⟩ := hsurvives
  obtain ⟨a', hset', -, -, hi2p⟩ := i2p_becomes_onion getnameinfo hchars hlen
  rw [hset'] at hset
  obtain ⟨-, rfl⟩ := Prod.mk.inj (Except.ok.inj hset)
  rw [(hclass.i2p (List.suffix_append _ _)).1] at hi2p
  cases hi2p

/-- Exactly the onion names survive. -/
theorem overlayName_survives_iff {strName : Bytes} (h : CanonicalName strName) :
    Survives getnameinfo strName ↔ onionSuffix <:+ strName := by
  cases h with
  | onion hchars hlen => exact ⟨fun _ => List.suffix_append _ _, fun _ => onion_survives getnameinfo hchars hlen⟩
  | i2p hchars hlen =>
    exact ⟨fun hsurvives => absurd hsurvives (i2p_not_survives getnameinfo hchars hlen),
      fun honion => absurd honion onionSuffix_not_i2p⟩

/-- The name `5wyqrzbvrdsumnok.onion` of the tests. -/
theorem onioncat_survives : Survives (fun _ => none)
    ([0x35, 0x77, 0x79, 0x71, 0x72, 0x7a, 0x62, 0x76, 0x72, 0x64, 0x73, 0x75, 0x6d, 0x6e, 0x6f, 0x6b] ++ onionSuffix) :=
  (overlayName_survives_iff _ (.onion (by decide +kernel) (.inl rfl))).mpr (List.suffix_append _ _)

/-- The name `aaaaaaaaaaaaaaaa.oc.b32.i2p` comes back as `aaaaaaaaaaaaaaaa.onion`. -/
theorem i2pName_lost : CanonicalName (List.replicate 16 0x61 ++ i2pSuffix) ∧
    ¬ Survives (fun _ => none) (List.replicate 16 0x61 ++ i2pSuffix) ∧ ∃ a,
      CNetAddr.init.setSpecial (List.replicate 16 0x61 ++ i2pSuffix) = .ok (true, a) ∧
      a.toStringIP (fun _ => none) = List.replicate 16 0x61 ++ onionSuffix ∧ a.isTor = true ∧ a.isI2P = false :=
  ⟨.i2p (by decide +kernel) rfl, i2p_not_survives _ (by decide +kernel) rfl,
    i2p_becomes_onion _ (by decide +kernel) rfl⟩

end Survival

end NetBase

end AliasWallet
