import AliasWallet.Crypto.Curve

/-!
# Derivation of extended keys (`key.h`, `key.cpp`, `eckey.cpp`)

Private keys are tweaked modulo the order, public keys by adding points. Both sides derive the same children along
every path of numbers that are not hardened, and they refuse the same ones.
-/

namespace AliasWallet
open Lib

/-- `HMAC_SHA512` of its key and its data. -/
abbrev HmacFn := Bytes → Bytes → Bytes

/-- A failed assertion, or the return value `false`. -/
inductive DeriveFailure
  | assertFailed
  | refused
  deriving DecidableEq

/-- The length of a public key with a given first byte. -/
def getLen (chHeader : UInt8) : Nat :=
  if chHeader = 2 ∨ chHeader = 3 then 33
  else if chHeader = 4 ∨ chHeader = 6 ∨ chHeader = 7 then 65
  else 0

/-- `CPubKey`: the `size()` bytes of its data, none where it is invalid. -/
structure CPubKey where
  vch : Bytes
  length_eq : vch ≠ [] → vch.length = getLen (vch.headD 0)
  deriving DecidableEq

namespace CPubKey

def invalid : CPubKey := ⟨[], fun h => absurd rfl h⟩

def set (bs : Bytes) : CPubKey :=
  if h : bs ≠ [] ∧ bs.length = getLen (bs.headD 0) then ⟨bs, fun _ => h.2⟩ else invalid

end CPubKey

structure CKey where
  vch : Bytes
  fValid : Bool
  fCompressed : Bool
  deriving DecidableEq

structure CExtPubKey where
  nDepth : UInt8
  vchFingerprint : Bytes
  nChild : UInt32
  vchChainCode : Bytes
  pubkey : CPubKey
  deriving DecidableEq

structure CExtKey where
  nDepth : UInt8
  vchFingerprint : Bytes
  nChild : UInt32
  vchChainCode : Bytes
  key : CKey
  deriving DecidableEq

/-- `CExtKeyPair` with all its fields. -/
structure ExtKeyPair where
  nDepth : UInt8
  vchFingerprint : Bytes
  nChild : UInt32
  vchChainCode : Bytes
  key : CKey
  pubkey : CPubKey
  deriving DecidableEq

section Derive

variable {Pt : Type} (E : Curve Pt) (hmac : HmacFn) (hash160 : Bytes → Bytes)

def bip32Hash (chainCode : Bytes) (nChild : UInt32) (header : UInt8) (data : Bytes) : Bytes :=
  hmac chainCode (header :: data ++ beBytes 4 nChild.toNat)

/-- The return value of `TweakSecret` and its output. -/
def tweakSecret (vchSecretIn vchTweak : Bytes) : Bool × Bytes :=
  let bnTweak := beNat vchTweak
  let bnSecret := (beNat vchSecretIn + bnTweak) % E.order
  (decide (bnTweak < E.order) && decide (bnSecret ≠ 0),
    writeAt (List.replicate 32 0) (32 - numBytes bnSecret) (minBytes bnSecret))

/-- The return value of `TweakPublic` and the point afterwards. -/
def tweakPublic (point : Pt) (vchTweak : Bytes) : Bool × Pt :=
  let bnTweak := beNat vchTweak
  let point := E.add (E.mul E.generator bnTweak) (E.mul point 1)
  (decide (bnTweak < E.order) && !E.isAtInfinity point, point)

namespace CKey

/-- `GetPubKey` in the compressed form. -/
def getPubKey (key : CKey) : Except DeriveFailure CPubKey :=
  if key.fValid then .ok (CPubKey.set (E.point2oct (E.mul E.generator (beNat key.vch)))) else .error .assertFailed

/-- The key and the chain code of the child. -/
def derive (key : CKey) (nChild : UInt32) (cc : Bytes) : Except DeriveFailure (CKey × Bytes) :=
  if ¬ key.fValid then .error .assertFailed
  else if ¬ key.fCompressed then .error .assertFailed
  else do
    let out ←
      if nChild >>> 31 = 0 then do
        let pubkey ← key.getPubKey E
        if pubkey.vch.length ≠ 33 then .error .assertFailed
        else .ok (bip32Hash hmac cc nChild (pubkey.vch.headD 0) pubkey.vch.tail)
      else .ok (bip32Hash hmac cc nChild 0 key.vch)
    let (ret, vch) := tweakSecret E key.vch (slice out 0 32)
    if ret then .ok ({ vch, fValid := ret, fCompressed := true }, slice out 32 32) else .error .refused

end CKey

/-- The public key and the chain code of the child. -/
def CPubKey.derive (pubkey : CPubKey) (nChild : UInt32) (cc : Bytes) : Except DeriveFailure (CPubKey × Bytes) :=
  if pubkey.vch = [] then .error .assertFailed
  else if nChild >>> 31 ≠ 0 then .error .assertFailed
  else if pubkey.vch.length ≠ 33 then .error .assertFailed
  else
    let out := bip32Hash hmac cc nChild (pubkey.vch.headD 0) pubkey.vch.tail
    match E.oct2point pubkey.vch with
    | none => .error .refused
    | some point =>
      let (ret, point) := tweakPublic E point (slice out 0 32)
      if ret then .ok (CPubKey.set (E.point2oct point), slice out 32 32) else .error .refused

namespace CExtKey

def derive (x : CExtKey) (nChild : UInt32) : Except DeriveFailure CExtKey := do
  let pubkey ← x.key.getPubKey E
  let (key, cc) ← x.key.derive E hmac nChild x.vchChainCode
  return {
    nDepth := x.nDepth + 1
    vchFingerprint := (hash160 pubkey.vch).take 4
    nChild := nChild
    vchChainCode := cc
    key := key }

def neutered (x : CExtKey) : Except DeriveFailure CExtPubKey := do
  let pubkey ← x.key.getPubKey E
  return {
    nDepth := x.nDepth
    vchFingerprint := x.vchFingerprint
    nChild := x.nChild
    vchChainCode := x.vchChainCode
    pubkey := pubkey }

/-- A derivation along a path. -/
def derivePath (x : CExtKey) (path : List UInt32) : Except DeriveFailure CExtKey :=
  path.foldlM (fun x nChild => x.derive E hmac hash160 nChild) x

end CExtKey

namespace CExtPubKey

def derive (x : CExtPubKey) (nChild : UInt32) : Except DeriveFailure CExtPubKey := do
  let (pubkey, cc) ← x.pubkey.derive E hmac nChild x.vchChainCode
  return {
    nDepth := x.nDepth + 1
    vchFingerprint := (hash160 x.pubkey.vch).take 4
    nChild := nChild
    vchChainCode := cc
    pubkey := pubkey }

def derivePath (x : CExtPubKey) (path : List UInt32) : Except DeriveFailure CExtPubKey :=
  path.foldlM (fun x nChild => x.derive E hmac hash160 nChild) x

end CExtPubKey

namespace ExtKeyPair

/-- `CExtKeyPair(CExtKey &vk)`. -/
def ofExtKey (vk : CExtKey) : Except DeriveFailure ExtKeyPair := do
  let pubkey ← vk.key.getPubKey E
  return {
    nDepth := vk.nDepth
    vchFingerprint := vk.vchFingerprint
    nChild := vk.nChild
    vchChainCode := vk.vchChainCode
    key := vk.key
    pubkey := pubkey }

def getExtKey (kp : ExtKeyPair) : CExtKey where
  nDepth := kp.nDepth
  vchFingerprint := kp.vchFingerprint
  nChild := kp.nChild
  vchChainCode := kp.vchChainCode
  key := kp.key

def getExtPubKey (kp : ExtKeyPair) : CExtPubKey where
  nDepth := kp.nDepth
  vchFingerprint := kp.vchFingerprint
  nChild := kp.nChild
  vchChainCode := kp.vchChainCode
  pubkey := kp.pubkey

/-- The pair without its private key. -/
def neutered (kp : ExtKeyPair) : ExtKeyPair :=
  { kp with key := { vch := List.replicate 32 0, fValid := false, fCompressed := true } }

/-- `Derive` to a `CExtKey`. -/
def deriveExtKey (kp : ExtKeyPair) (nChild : UInt32) : Except DeriveFailure CExtKey :=
  if ¬ kp.key.fValid then .error .refused
  else do
    let pubkey ← kp.key.getPubKey E
    let (key, cc) ← kp.key.derive E hmac nChild kp.vchChainCode
    return {
      nDepth := kp.nDepth + 1
      vchFingerprint := (hash160 pubkey.vch).take 4
      nChild := nChild
      vchChainCode := cc
      key := key }

/-- `Derive` to a `CExtPubKey`. -/
def deriveExtPubKey (kp : ExtKeyPair) (nChild : UInt32) : Except DeriveFailure CExtPubKey :=
  if nChild >>> 31 = 0 then do
    let (pubkey, cc) ← kp.pubkey.derive E hmac nChild kp.vchChainCode
    return {
      nDepth := kp.nDepth + 1
      vchFingerprint := (hash160 kp.pubkey.vch).take 4
      nChild := nChild
      vchChainCode := cc
      pubkey := pubkey }
  else if ¬ kp.key.fValid then .error .refused
  else do
    let (tkey, cc) ← kp.key.derive E hmac nChild kp.vchChainCode
    let pubkey ← tkey.getPubKey E
    return {
      nDepth := kp.nDepth + 1
      vchFingerprint := (hash160 kp.pubkey.vch).take 4
      nChild := nChild
      vchChainCode := cc
      pubkey := pubkey }

/-- `Derive` to a `CKey`. -/
def deriveKey (kp : ExtKeyPair) (nChild : UInt32) : Except DeriveFailure CKey :=
  if ¬ kp.key.fValid then .error .refused
  else do
    let (key, _) ← kp.key.derive E hmac nChild kp.vchChainCode
    return key

/-- `Derive` to a `CPubKey`. -/
def derivePubKey (kp : ExtKeyPair) (nChild : UInt32) : Except DeriveFailure CPubKey :=
  if nChild >>> 31 = 0 then do
    let (pubkey, _) ← kp.pubkey.derive E hmac nChild kp.vchChainCode
    return pubkey
  else if ¬ kp.key.fValid then .error .refused
  else do
    let (tkey, _) ← kp.key.derive E hmac nChild kp.vchChainCode
    tkey.getPubKey E

end ExtKeyPair

end Derive

section Group

variable {G : Type} [AddCommGroup G] {E : Curve G} (hE : PrimeOrder E) (hmac : HmacFn) (hash160 : Bytes → Bytes)

/-- The keys that `Check` passes and `Set` makes valid. -/
structure CKey.Ok (E : Curve G) (key : CKey) : Prop where
  valid : key.fValid = true
  compressed : key.fCompressed = true
  pos : 0 < beNat key.vch
  lt : beNat key.vch < E.order

/-- Compressed points start with 2 or 3. -/
def CompressedHeader (E : Curve G) : Prop := ∀ P : G, P ≠ 0 → (E.point2oct P).headD 0 = 2 ∨ (E.point2oct P).headD 0 = 3

include hE

/-- The public key of a point that is not at infinity holds its bytes. -/
theorem set_point2oct (hhead : CompressedHeader E) {P : G} (hP : P ≠ 0) :
    (CPubKey.set (E.point2oct P)).vch = E.point2oct P := by
  have hlen := hE.point2oct_length P hP
  have hne : E.point2oct P ≠ [] := by
    intro hnil
    rw [hnil] at hlen
    exact absurd hlen (by decide)
  have hget : getLen ((E.point2oct P).headD 0) = 33 := by
    rcases hhead P hP with h | h <;> rw [h] <;> rfl
  rw [CPubKey.set, dif_pos ⟨hne, hlen.trans hget.symm⟩]

/-- The public key of a valid private key. -/
theorem getPubKey_eq (hG : E.generator ≠ 0) (hhead : CompressedHeader E) {key : CKey} (hkey : key.Ok E) :
    key.getPubKey E = .ok (CPubKey.set (E.point2oct (beNat key.vch • E.generator))) ∧
      beNat key.vch • E.generator ≠ 0 ∧
      (CPubKey.set (E.point2oct (beNat key.vch • E.generator))).vch = E.point2oct (beNat key.vch • E.generator) := by
  have hne : beNat key.vch • E.generator ≠ 0 := by
    rw [Ne, nsmul_eq_zero_iff_mod E.order hE.card hE.prime hG, Nat.mod_eq_of_lt hkey.lt]
    exact hkey.pos.ne'
  refine ⟨?_, hne, set_point2oct hE hhead hne⟩
  rw [CKey.getPubKey, if_pos hkey.valid, hE.mul_eq]

/-- The tweaked secret, where the tweak is in range and the sum is not zero. -/
theorem tweakSecret_spec (vchSecretIn vchTweak : Bytes) :
    ((tweakSecret E vchSecretIn vchTweak).1 = true ↔
      beNat vchTweak < E.order ∧ (beNat vchSecretIn + beNat vchTweak) % E.order ≠ 0) ∧
    beNat (tweakSecret E vchSecretIn vchTweak).2 = (beNat vchSecretIn + beNat vchTweak) % E.order := by
  have hlt : (beNat vchSecretIn + beNat vchTweak) % E.order < 256 ^ 32 :=
    lt_of_lt_of_le (Nat.mod_lt _ hE.prime.pos) hE.order_le
  constructor
  · simp [tweakSecret]
  · exact beNat_writeAt_zeros 32 _ hlt

/-- The tweaked point is that of the tweaked secret, and it is refused where the secret is. -/
theorem tweakPublic_spec (hG : E.generator ≠ 0) (vchSecretIn vchTweak : Bytes) :
    (tweakPublic E (beNat vchSecretIn • E.generator) vchTweak).1 = (tweakSecret E vchSecretIn vchTweak).1 ∧
    (tweakPublic E (beNat vchSecretIn • E.generator) vchTweak).2 =
      beNat (tweakSecret E vchSecretIn vchTweak).2 • E.generator := by
  have hpoint : E.add (E.mul E.generator (beNat vchTweak)) (E.mul (beNat vchSecretIn • E.generator) 1) =
      (beNat vchSecretIn + beNat vchTweak) • E.generator := by
    rw [hE.add_eq, hE.mul_eq, hE.mul_eq, one_nsmul, add_nsmul, add_comm]
  constructor
  · rw [tweakPublic, tweakSecret]
    dsimp only
    rw [hpoint]
    congr 1
    rw [Bool.eq_iff_iff, decide_eq_true_iff, Bool.not_eq_true', ← Bool.not_eq_true, hE.isAtInfinity_iff,
      nsmul_eq_zero_iff_mod E.order hE.card hE.prime hG]
  · rw [(tweakSecret_spec hE vchSecretIn vchTweak).2, mod_nsmul E.order hE.card, tweakPublic]
    exact hpoint

/-- What a derivation from a valid key hashes. -/
def derivationHash (E : Curve G) (key : CKey) (nChild : UInt32) (cc : Bytes) : Bytes :=
  if nChild >>> 31 = 0 then
    bip32Hash hmac cc nChild ((E.point2oct (beNat key.vch • E.generator)).headD 0)
      (E.point2oct (beNat key.vch • E.generator)).tail
  else bip32Hash hmac cc nChild 0 key.vch

theorem derive_key (hG : E.generator ≠ 0) (hhead : CompressedHeader E) {key : CKey} (hkey : key.Ok E)
    (nChild : UInt32) (cc : Bytes) :
    key.derive E hmac nChild cc =
      if (tweakSecret E key.vch (slice (derivationHash hmac E key nChild cc) 0 32)).1 then
        .ok (⟨(tweakSecret E key.vch (slice (derivationHash hmac E key nChild cc) 0 32)).2, true, true⟩,
          slice (derivationHash hmac E key nChild cc) 32 32)
      else .error .refused := by
  obtain ⟨hpub, hne, hvch⟩ := getPubKey_eq hE hG hhead hkey
  rw [CKey.derive, if_neg (not_not.mpr hkey.valid), if_neg (not_not.mpr hkey.compressed), derivationHash]
  by_cases hhard : nChild >>> 31 = 0
  · have hlen : ¬ (E.point2oct (beNat key.vch • E.generator)).length ≠ 33 := not_not.mpr (hE.point2oct_length _ hne)
    rw [if_pos hhard, if_pos hhard, hpub]
    simp only [hvch, hlen, if_false, bind, Except.bind]
    split
    · rename_i hret
      rw [hret]
    · rfl
  · rw [if_neg hhard, if_neg hhard]
    simp only [bind, Except.bind]
    split
    · rename_i hret
      rw [hret]
    · rfl

/-- A derived key is valid again. -/
theorem derive_ok (hG : E.generator ≠ 0) (hhead : CompressedHeader E) {key child : CKey} (hkey : key.Ok E)
    {nChild : UInt32} {cc ccChild : Bytes} (hrun : key.derive E hmac nChild cc = .ok (child, ccChild)) :
    child.Ok E := by
  rw [derive_key hE hmac hG hhead hkey] at hrun
  split at hrun
  · rename_i hret
    obtain ⟨hok, hnat⟩ := tweakSecret_spec hE key.vch (slice (derivationHash hmac E key nChild cc) 0 32)
    obtain ⟨rfl, -⟩ := Prod.mk.inj (Except.ok.inj hrun)
    refine ⟨rfl, rfl, ?_, ?_⟩
    · exact Nat.pos_of_ne_zero (hnat ▸ (hok.mp hret).2)
    · exact hnat ▸ Nat.mod_lt _ hE.prime.pos
  · exact absurd hrun (by simp)

/-- The public key derives the public key of the child, or it is refused with the private one. -/
theorem derive_pubKey (hG : E.generator ≠ 0) (hhead : CompressedHeader E) {key : CKey} (hkey : key.Ok E)
    {nChild : UInt32} (hn : nChild >>> 31 = 0) (cc : Bytes) :
    (CPubKey.set (E.point2oct (beNat key.vch • E.generator))).derive E hmac nChild cc =
      (key.derive E hmac nChild cc >>= fun child => child.1.getPubKey E >>= fun pubkey => .ok (pubkey, child.2)) := by
  obtain ⟨-, hne, hvch⟩ := getPubKey_eq hE hG hhead hkey
  have hlen : (E.point2oct (beNat key.vch • E.generator)).length = 33 := hE.point2oct_length _ hne
  have hnil : E.point2oct (beNat key.vch • E.generator) ≠ [] := by
    intro hnil
    rw [hnil] at hlen
    exact absurd hlen (by decide)
  have hrun := derive_key hE hmac hG hhead hkey nChild cc
  have hchild : ∀ child ccChild, key.derive E hmac nChild cc = .ok (child, ccChild) → child.Ok E :=
    fun child ccChild => derive_ok hE hmac hG hhead hkey
  obtain ⟨hret, hpoint⟩ := tweakPublic_spec hE hG key.vch (slice (derivationHash hmac E key nChild cc) 0 32)
  have hhash : derivationHash hmac E key nChild cc = bip32Hash hmac cc nChild
      ((E.point2oct (beNat key.vch • E.generator)).headD 0) (E.point2oct (beNat key.vch • E.generator)).tail :=
    if_pos hn
  rw [CPubKey.derive, hvch, if_neg hnil, if_neg (not_not.mpr hn), if_neg (not_not.mpr hlen),
    hE.oct2point_point2oct _ hne, ← hhash]
  dsimp only
  rw [hret, hpoint]
  by_cases htweak : (tweakSecret E key.vch (slice (derivationHash hmac E key nChild cc) 0 32)).1 = true
  · rw [if_pos htweak] at hrun ⊢
    rw [hrun]
    have hpub := (getPubKey_eq hE hG hhead (hchild _ _ hrun)).1
    simp only [bind, Except.bind] at hpub ⊢
    rw [hpub]
  · rw [if_neg htweak] at hrun ⊢
    rw [hrun]
    rfl

theorem neutered_eq (hG : E.generator ≠ 0) (hhead : CompressedHeader E) {x : CExtKey} (hx : x.key.Ok E) :
    x.neutered E = .ok {
      nDepth := x.nDepth
      vchFingerprint := x.vchFingerprint
      nChild := x.nChild
      vchChainCode := x.vchChainCode
      pubkey := CPubKey.set (E.point2oct (beNat x.key.vch • E.generator)) } := by
  rw [CExtKey.neutered, (getPubKey_eq hE hG hhead hx).1]
  rfl

/-- The child of a valid extended key. -/
theorem derive_extKey (hG : E.generator ≠ 0) (hhead : CompressedHeader E) {x : CExtKey} (hx : x.key.Ok E)
    (nChild : UInt32) :
    x.derive E hmac hash160 nChild = (x.key.derive E hmac nChild x.vchChainCode).map fun child => {
      nDepth := x.nDepth + 1
      vchFingerprint := (hash160 (E.point2oct (beNat x.key.vch • E.generator))).take 4
      nChild := nChild
      vchChainCode := child.2
      key := child.1 } := by
  obtain ⟨hpub, -, hvch⟩ := getPubKey_eq hE hG hhead hx
  rw [CExtKey.derive, hpub]
  simp only [bind, Except.bind, hvch]
  cases x.key.derive E hmac nChild x.vchChainCode with
  | error e => rfl
  | ok child => rfl

theorem derive_extKey_ok (hG : E.generator ≠ 0) (hhead : CompressedHeader E) {x child : CExtKey} (hx : x.key.Ok E)
    {nChild : UInt32} (hrun : x.derive E hmac hash160 nChild = .ok child) : child.key.Ok E := by
  rw [derive_extKey hE hmac hash160 hG hhead hx] at hrun
  cases hkey : x.key.derive E hmac nChild x.vchChainCode with
  | error e =>
    rw [hkey] at hrun
    exact absurd hrun (by simp [Except.map])
  | ok child' =>
    rw [hkey] at hrun
    rw [← Except.ok.inj hrun]
    exact derive_ok hE hmac hG hhead hx hkey

/-- One step: neutering the child, or deriving from the neutered key. -/
theorem derive_neutered (hG : E.generator ≠ 0) (hhead : CompressedHeader E) {x : CExtKey} (hx : x.key.Ok E)
    {nChild : UInt32} (hn : nChild >>> 31 = 0) :
    (x.derive E hmac hash160 nChild >>= fun child => child.neutered E) =
      (x.neutered E >>= fun p => p.derive E hmac hash160 nChild) := by
  obtain ⟨-, -, hvch⟩ := getPubKey_eq hE hG hhead hx
  rw [neutered_eq hE hG hhead hx, derive_extKey hE hmac hash160 hG hhead hx]
  simp only [bind, Except.bind, CExtPubKey.derive, derive_pubKey hE hmac hG hhead hx hn, hvch]
  cases x.key.derive E hmac nChild x.vchChainCode with
  | error e => rfl
  | ok child =>
    simp only [Except.map, CExtKey.neutered, bind, Except.bind]
    cases child.1.getPubKey E with
    | error e => rfl
    | ok pubkey => rfl

/-- No assertion fails on the way. -/
theorem derive_extKey_refused (hG : E.generator ≠ 0) (hhead : CompressedHeader E) {x : CExtKey} (hx : x.key.Ok E)
    {nChild : UInt32} {e : DeriveFailure} (hrun : x.derive E hmac hash160 nChild = .error e) : e = .refused := by
  rw [derive_extKey hE hmac hash160 hG hhead hx, derive_key hE hmac hG hhead hx] at hrun
  split at hrun
  · exact absurd hrun (by simp [Except.map])
  · exact (Except.error.inj hrun).symm

theorem derivePath_neutered_eq (hG : E.generator ≠ 0) (hhead : CompressedHeader E) (path : List UInt32)
    (hpath : ∀ nChild ∈ path, nChild >>> 31 = 0) {x : CExtKey} (hx : x.key.Ok E) :
    (x.derivePath E hmac hash160 path >>= fun child => child.neutered E) =
      (x.neutered E >>= fun p => p.derivePath E hmac hash160 path) := by
  induction path generalizing x with
  | nil =>
    simp only [CExtKey.derivePath, CExtPubKey.derivePath, List.foldlM_nil]
    rw [neutered_eq hE hG hhead hx]
    exact neutered_eq hE hG hhead hx
  | cons nChild path ih =>
    have hstep := derive_neutered hE hmac hash160 hG hhead hx (hpath nChild List.mem_cons_self)
    have hneutered := neutered_eq hE hG hhead hx
    simp only [CExtKey.derivePath, CExtPubKey.derivePath, List.foldlM_cons]
    rw [hneutered] at hstep ⊢
    simp only [bind, Except.bind] at hstep ⊢
    cases hchild : x.derive E hmac hash160 nChild with
    | error e =>
      rw [hchild] at hstep
      simp only at hstep
      rw [← hstep]
    | ok child =>
      have hok := derive_extKey_ok hE hmac hash160 hG hhead hx hchild
      have hrest := ih (fun n hn => hpath n (List.mem_cons_of_mem _ hn)) hok
      rw [hchild] at hstep
      simp only at hstep
      rw [← hstep]
      simp only [CExtKey.derivePath, CExtPubKey.derivePath, bind, Except.bind] at hrest
      exact hrest

theorem derivePath_refused (hG : E.generator ≠ 0) (hhead : CompressedHeader E) (path : List UInt32) {x : CExtKey}
    (hx : x.key.Ok E) {e : DeriveFailure} (hrun : x.derivePath E hmac hash160 path = .error e) : e = .refused := by
  induction path generalizing x with
  | nil => exact absurd hrun (by simp [CExtKey.derivePath, pure, Except.pure])
  | cons nChild path ih =>
    simp only [CExtKey.derivePath, List.foldlM_cons, bind, Except.bind] at hrun
    cases hchild : x.derive E hmac hash160 nChild with
    | error e' =>
      rw [hchild] at hrun
      obtain rfl := Except.error.inj hrun
      exact derive_extKey_refused hE hmac hash160 hG hhead hx hchild
    | ok child =>
      rw [hchild] at hrun
      exact ih (derive_extKey_ok hE hmac hash160 hG hhead hx hchild) hrun

/-- The pair of an extended key. -/
def pairOf (E : Curve G) (x : CExtKey) : ExtKeyPair where
  nDepth := x.nDepth
  vchFingerprint := x.vchFingerprint
  nChild := x.nChild
  vchChainCode := x.vchChainCode
  key := x.key
  pubkey := CPubKey.set (E.point2oct (beNat x.key.vch • E.generator))

theorem ofExtKey_eq (hG : E.generator ≠ 0) (hhead : CompressedHeader E) {x : CExtKey} (hx : x.key.Ok E) :
    ExtKeyPair.ofExtKey E x = .ok (pairOf E x) := by
  rw [ExtKeyPair.ofExtKey, (getPubKey_eq hE hG hhead hx).1]
  rfl

omit hE in
theorem pair_deriveExtKey {x : CExtKey} (hx : x.key.Ok E) (nChild : UInt32) :
    (pairOf E x).deriveExtKey E hmac hash160 nChild = x.derive E hmac hash160 nChild := by
  have hvalid : ¬ ¬ (pairOf E x).key.fValid = true := not_not.mpr hx.valid
  rw [ExtKeyPair.deriveExtKey, if_neg hvalid]
  rfl

theorem pair_deriveKey (hG : E.generator ≠ 0) (hhead : CompressedHeader E) {x : CExtKey} (hx : x.key.Ok E)
    (nChild : UInt32) :
    (pairOf E x).deriveKey E hmac nChild = (x.derive E hmac hash160 nChild).map CExtKey.key := by
  have hvalid : ¬ ¬ (pairOf E x).key.fValid = true := not_not.mpr hx.valid
  rw [ExtKeyPair.deriveKey, if_neg hvalid, derive_extKey hE hmac hash160 hG hhead hx]
  simp only [pairOf, bind, Except.bind]
  cases x.key.derive E hmac nChild x.vchChainCode with
  | error e => rfl
  | ok child => rfl

theorem pair_deriveExtPubKey (hG : E.generator ≠ 0) (hhead : CompressedHeader E) {x : CExtKey} (hx : x.key.Ok E)
    (nChild : UInt32) :
    (pairOf E x).deriveExtPubKey E hmac hash160 nChild =
      (x.derive E hmac hash160 nChild >>= fun child => child.neutered E) := by
  rw [ExtKeyPair.deriveExtPubKey]
  by_cases hn : nChild >>> 31 = 0
  · rw [if_pos hn, derive_neutered hE hmac hash160 hG hhead hx hn, neutered_eq hE hG hhead hx]
    rfl
  · have hvch := (getPubKey_eq hE hG hhead hx).2.2
    have hvalid : ¬ ¬ (pairOf E x).key.fValid = true := not_not.mpr hx.valid
    rw [if_neg hn, if_neg hvalid, derive_extKey hE hmac hash160 hG hhead hx]
    simp only [pairOf, bind, Except.bind, hvch]
    cases x.key.derive E hmac nChild x.vchChainCode with
    | error e => rfl
    | ok child => simp only [Except.map, CExtKey.neutered, bind, Except.bind]

omit hE [AddCommGroup G] in
theorem pair_derivePubKey (kp : ExtKeyPair) (nChild : UInt32) :
    kp.derivePubKey E hmac nChild = (kp.deriveExtPubKey E hmac hash160 nChild).map CExtPubKey.pubkey := by
  rw [ExtKeyPair.derivePubKey, ExtKeyPair.deriveExtPubKey]
  split
  · simp only [bind, Except.bind]
    cases kp.pubkey.derive E hmac nChild kp.vchChainCode with
    | error e => rfl
    | ok child => rfl
  · split
    · rfl
    · simp only [bind, Except.bind]
      cases kp.key.derive E hmac nChild kp.vchChainCode with
      | error e => rfl
      | ok child =>
        simp only
        cases child.1.getPubKey E with
        | error e => rfl
        | ok pubkey => rfl

/-- Private and public derivation commute along every path that is not hardened and refuse the same paths; the pairs
derive what the extended keys derive, with the private key and without it. -/
theorem hierarchicalDerivation (hG : E.generator ≠ 0) (hhead : CompressedHeader E) {x : CExtKey} (hx : x.key.Ok E) :
    (∀ path : List UInt32, (∀ nChild ∈ path, nChild >>> 31 = 0) →
      (x.derivePath E hmac hash160 path >>= fun child => child.neutered E) =
        (x.neutered E >>= fun p => p.derivePath E hmac hash160 path) ∧
      x.derivePath E hmac hash160 path ≠ .error .assertFailed) ∧
    ∃ kp p, ExtKeyPair.ofExtKey E x = .ok kp ∧ x.neutered E = .ok p ∧ ∀ nChild,
      kp.deriveExtKey E hmac hash160 nChild = x.derive E hmac hash160 nChild ∧
      kp.deriveKey E hmac nChild = (x.derive E hmac hash160 nChild).map CExtKey.key ∧
      kp.deriveExtPubKey E hmac hash160 nChild =
        (x.derive E hmac hash160 nChild >>= fun child => child.neutered E) ∧
      kp.derivePubKey E hmac nChild =
        (x.derive E hmac hash160 nChild >>= fun child => child.neutered E).map CExtPubKey.pubkey ∧
      kp.neutered.deriveExtKey E hmac hash160 nChild = .error .refused ∧
      kp.neutered.deriveKey E hmac nChild = .error .refused ∧
      kp.neutered.deriveExtPubKey E hmac hash160 nChild =
        (if nChild >>> 31 = 0 then p.derive E hmac hash160 nChild else .error .refused) ∧
      kp.neutered.derivePubKey E hmac nChild =
        (if nChild >>> 31 = 0 then p.derive E hmac hash160 nChild else .error .refused).map CExtPubKey.pubkey := by
  constructor
  · intro path hpath
    refine ⟨derivePath_neutered_eq hE hmac hash160 hG hhead path hpath hx, fun hrun => ?_⟩
    exact absurd (derivePath_refused hE hmac hash160 hG hhead path hx hrun) (by decide)
  · refine ⟨_, _, ofExtKey_eq hE hG hhead hx, neutered_eq hE hG hhead hx, fun nChild => ?_⟩
    have hpub := pair_deriveExtPubKey hE hmac hash160 hG hhead hx nChild
    have hless : (pairOf E x).neutered.deriveExtPubKey E hmac hash160 nChild =
        if nChild >>> 31 = 0 then CExtPubKey.derive E hmac hash160 {
          nDepth := x.nDepth
          vchFingerprint := x.vchFingerprint
          nChild := x.nChild
          vchChainCode := x.vchChainCode
          pubkey := CPubKey.set (E.point2oct (beNat x.key.vch • E.generator)) } nChild
        else .error .refused := rfl
    refine ⟨pair_deriveExtKey hmac hash160 hx nChild, pair_deriveKey hE hmac hash160 hG hhead hx nChild, hpub, ?_, rfl,
      rfl, hless, ?_⟩
    · rw [pair_derivePubKey hmac hash160, hpub]
    · rw [pair_derivePubKey hmac hash160, hless]

end Group

section Residues

/-- The key of the residue 2. -/
def secondKey : CExtKey where
  nDepth := 0
  vchFingerprint := [0, 0, 0, 0]
  nChild := 0
  vchChainCode := List.replicate 32 7
  key := { vch := List.replicate 31 0 ++ [2], fValid := true, fCompressed := true }

/-- The number of the child is its tweak. -/
def countingHmac : HmacFn := fun _ data => List.replicate 28 0 ++ data.drop 33 ++ List.replicate 32 9

/-- Two children, and a third one that both sides refuse: its secret would be zero. -/
theorem hierarchicalDerivation_residues :
    (secondKey.derivePath (residueCurve 7) countingHmac id [1, 3] >>= fun child => child.neutered (residueCurve 7)) =
      (secondKey.neutered (residueCurve 7) >>= fun p => p.derivePath (residueCurve 7) countingHmac id [1, 3]) ∧
    (secondKey.derivePath (residueCurve 7) countingHmac id [5] >>= fun child => child.neutered (residueCurve 7)) =
      (secondKey.neutered (residueCurve 7) >>= fun p => p.derivePath (residueCurve 7) countingHmac id [5]) := by
  have : Fact (Nat.Prime 7) := ⟨by decide⟩
  have hhead : CompressedHeader (residueCurve 7) := by
    intro P hP
    left
    simp [residueCurve, hP]
  have hkey : secondKey.key.Ok (residueCurve 7) := ⟨rfl, rfl, by decide +kernel, by decide +kernel⟩
  have hall := (hierarchicalDerivation (residueCurve_primeOrder 7 (by norm_num [EC_SECRET_SIZE])) countingHmac id
    one_ne_zero hhead hkey).1
  have hpair : ∀ nChild ∈ ([1, 3] : List UInt32), nChild >>> 31 = 0 :=
    List.forall_mem_cons.mpr ⟨by decide, List.forall_mem_singleton.mpr (by decide)⟩
  have hsingle : ∀ nChild ∈ ([5] : List UInt32), nChild >>> 31 = 0 := List.forall_mem_singleton.mpr (by decide)
  exact ⟨(hall [1, 3] hpair).1, (hall [5] hsingle).1⟩

end Residues

end AliasWallet
