import AliasWallet.Net.Bloom

/-!
# Bloom filters have no false negatives

A key is in a filter when the bits of all its positions are on. Bits are never turned off, and the flags for the full
and the empty filter only say what the bits say.
-/

namespace AliasWallet
open Lib

namespace CBloomFilter

section Bits

variable {f f' f'' : CBloomFilter} {vKey : Bytes}

/-- The bits that stand for a key. -/
def positions (f : CBloomFilter) (vKey : Bytes) : Set Nat :=
  {n | ∃ i < f.nHashFuncs.toNat, ∃ nIndex, f.hash (UInt32.ofNat i) vKey = some nIndex ∧ nIndex.toNat = n}

/-- The bits of the key are on. -/
def Has (f : CBloomFilter) (vKey : Bytes) : Prop := f.positions vKey ⊆ onBits f.vData

/-- The flags agree with the bytes, and a filter without bytes is full. -/
structure Sound (f : CBloomFilter) : Prop where
  hashed : f.nHashFuncs ≠ 0
  degenerate : f.vData = [] → f.isFull = true
  full : f.isFull = true → ∀ b ∈ f.vData, b = 0xff
  empty : f.isEmpty = true → ∀ b ∈ f.vData, b = 0

/-- The parameters that the peer chose are the same. -/
structure SameShape (f f' : CBloomFilter) : Prop where
  size : f'.vData.length = f.vData.length
  nHashFuncs : f'.nHashFuncs = f.nHashFuncs
  nTweak : f'.nTweak = f.nTweak

/-- A sound filter with more bits. -/
structure Grows (f f' : CBloomFilter) : Prop where
  sound : Sound f'
  shape : SameShape f f'
  bits : onBits f.vData ⊆ onBits f'.vData

theorem SameShape.refl (f : CBloomFilter) : SameShape f f := ⟨rfl, rfl, rfl⟩

theorem SameShape.trans (h : SameShape f f') (h' : SameShape f' f'') : SameShape f f'' :=
  ⟨h'.size.trans h.size, h'.nHashFuncs.trans h.nHashFuncs, h'.nTweak.trans h.nTweak⟩

theorem SameShape.hash_eq (h : SameShape f f') (i : UInt32) (vKey : Bytes) : f'.hash i vKey = f.hash i vKey := by
  rw [hash, hash, h.size, h.nTweak]

theorem SameShape.positions_eq (h : SameShape f f') (vKey : Bytes) : f'.positions vKey = f.positions vKey := by
  ext n
  simp only [positions, h.nHashFuncs, h.hash_eq]

theorem Grows.refl (h : Sound f) : Grows f f := ⟨h, .refl f, Set.Subset.rfl⟩

theorem Grows.trans (h : Grows f f') (h' : Grows f' f'') : Grows f f'' :=
  ⟨h'.sound, h.shape.trans h'.shape, h.bits.trans h'.bits⟩

/-- A key stays in the filter. -/
theorem Grows.has (h : Grows f f') (hkey : f.Has vKey) : f'.Has vKey := by
  rw [Has, h.shape.positions_eq]
  exact hkey.trans h.bits

theorem hash_spec (hne : f.vData ≠ []) (i : UInt32) (vKey : Bytes) :
    ∃ nIndex, f.hash i vKey = some nIndex ∧ nIndex.toNat < 8 * f.vData.length := by
  have hpos : 0 < f.vData.length := List.length_pos_of_ne_nil hne
  have hmod : (murmurHash3 (i * 0xFBA4C795 + f.nTweak) vKey).toNat % (f.vData.length * 8) < f.vData.length * 8 :=
    Nat.mod_lt _ (by omega)
  have hle : (murmurHash3 (i * 0xFBA4C795 + f.nTweak) vKey).toNat % (f.vData.length * 8) < UInt32.size :=
    Nat.lt_of_le_of_lt (Nat.mod_le _ _) (UInt32.toNat_lt _)
  refine ⟨_, by rw [hash, if_neg (by omega)], ?_⟩
  rw [UInt32.toNat_ofNat_of_lt' hle]
  omega

/-- A filter without bytes has no positions. -/
theorem positions_nil (h : f.vData = []) (vKey : Bytes) : f.positions vKey = ∅ := by
  ext n
  simp [positions, hash, h]

theorem positions_lt {n : Nat} (h : n ∈ f.positions vKey) : n < 8 * f.vData.length := by
  by_cases hne : f.vData = []
  · rw [positions_nil hne] at h
    cases h
  · obtain ⟨i, -, nIndex, hhash, rfl⟩ := h
    obtain ⟨nIndex', hhash', hlt⟩ := hash_spec hne (UInt32.ofNat i) vKey
    rw [hhash] at hhash'
    rw [Option.some.inj hhash']
    exact hlt

theorem Sound.has_of_full (h : Sound f) (hfull : f.isFull = true) (vKey : Bytes) : f.Has vKey := by
  intro n hn
  exact mem_onBits_of_full (h.full hfull) (positions_lt hn)

/-- With at least one hash function a filter without bits has no key. -/
theorem Sound.not_has_of_empty (h : Sound f) (hfull : f.isFull = false) (hempty : f.isEmpty = true) (vKey : Bytes) :
    ¬f.Has vKey := by
  have hne : f.vData ≠ [] := by
    intro hnil
    rw [h.degenerate hnil] at hfull
    cases hfull
  have hpos : 0 < f.nHashFuncs.toNat := by
    rw [Nat.pos_iff_ne_zero]
    intro hzero
    exact h.hashed (UInt32.toNat_inj.mp hzero)
  obtain ⟨nIndex, hhash, -⟩ := hash_spec hne (UInt32.ofNat 0) vKey
  intro hhas
  exact notMem_onBits_of_zero (h.empty hempty) (hhas ⟨0, hpos, nIndex, hhash, rfl⟩)

end Bits

section Operations

variable {f f' : CBloomFilter} {vKey : Bytes}

/-- One round turns on one bit. -/
theorem insertBit_spec (hne : f.vData ≠ []) (vKey : Bytes) (i : Nat) :
    ∃ f', insertBit vKey f i = some f' ∧ SameShape f f' ∧ onBits f.vData ⊆ onBits f'.vData ∧
      (∀ nIndex, f.hash (UInt32.ofNat i) vKey = some nIndex → nIndex.toNat ∈ onBits f'.vData) ∧
      f'.isFull = f.isFull := by
  obtain ⟨nIndex, hhash, hlt⟩ := hash_spec hne (UInt32.ofNat i) vKey
  obtain ⟨vData, hset, hsize, hbits⟩ := setBit_eq hlt
  refine ⟨{ f with vData }, by rw [insertBit, hhash, Option.bind_eq_bind, Option.bind_some, hset]; rfl,
    ⟨hsize, rfl, rfl⟩, ?_, ?_, rfl⟩
  · rw [hbits]
    exact Set.subset_insert _ _
  · intro nIndex' hhash'
    rw [hhash] at hhash'
    rw [← Option.some.inj hhash', hbits]
    exact Set.mem_insert _ _

theorem insertLoop_spec (hne : f.vData ≠ []) (vKey : Bytes) (is : List Nat) :
    ∃ f', is.foldlM (insertBit vKey) f = some f' ∧ SameShape f f' ∧ onBits f.vData ⊆ onBits f'.vData ∧
      (∀ i ∈ is, ∀ nIndex, f.hash (UInt32.ofNat i) vKey = some nIndex → nIndex.toNat ∈ onBits f'.vData) ∧
      f'.isFull = f.isFull := by
  induction is generalizing f with
  | nil => exact ⟨f, rfl, .refl f, Set.Subset.rfl, fun i hi => absurd hi List.not_mem_nil, rfl⟩
  | cons i is ih =>
    obtain ⟨f₁, hround, hshape, hbits, hset, hfull⟩ := insertBit_spec hne vKey i
    have hne₁ : f₁.vData ≠ [] := by
      rw [← List.length_pos_iff, hshape.size]
      exact List.length_pos_of_ne_nil hne
    obtain ⟨f', hrun, hshape', hbits', hset', hfull'⟩ := ih hne₁
    refine ⟨f', by rw [List.foldlM_cons, hround]; exact hrun, hshape.trans hshape', hbits.trans hbits', ?_,
      hfull'.trans hfull⟩
    intro k hk nIndex hhash
    cases List.mem_cons.mp hk with
    | inl hk =>
      rw [hk] at hhash
      exact hbits' (hset nIndex hhash)
    | inr hk =>
      rw [← hshape.hash_eq] at hhash
      exact hset' k hk nIndex hhash

/-- After `insert` the key is in the filter. -/
theorem Sound.insert_spec (h : Sound f) (vKey : Bytes) :
    ∃ f', f.insert vKey = some f' ∧ Grows f f' ∧ f'.Has vKey := by
  cases hfull : f.isFull with
  | true => exact ⟨f, by rw [insert, hfull, if_pos rfl], .refl h, h.has_of_full hfull vKey⟩
  | false =>
    have hne : f.vData ≠ [] := by
      intro hnil
      rw [h.degenerate hnil] at hfull
      cases hfull
    obtain ⟨f', hrun, hshape, hbits, hset, hfull'⟩ := insertLoop_spec hne vKey (List.range f.nHashFuncs.toNat)
    rw [hfull] at hfull'
    have hne' : f'.vData ≠ [] := by
      rw [← List.length_pos_iff, hshape.size]
      exact List.length_pos_of_ne_nil hne
    have hshape' : SameShape f { f' with isEmpty := false } := ⟨hshape.size, hshape.nHashFuncs, hshape.nTweak⟩
    refine ⟨{ f' with isEmpty := false }, by rw [insert, hfull, if_neg Bool.false_ne_true, hrun]; rfl,
      ⟨⟨?_, fun hnil => absurd hnil hne', fun hyes => ?_, fun hyes => ?_⟩, hshape', hbits⟩, ?_⟩
    · rw [hshape'.nHashFuncs]
      exact h.hashed
    · rw [hfull'] at hyes
      cases hyes
    · cases hyes
    · rw [Has, hshape'.positions_eq]
      intro n hn
      obtain ⟨i, hi, nIndex, hhash, rfl⟩ := hn
      exact hset i (List.mem_range.mpr hi) nIndex hhash

theorem containsLoop_spec (hne : f.vData ≠ []) (vKey : Bytes) (is : List Nat) :
    ∃ found, f.containsLoop vKey is = some found ∧ (found = true ↔
      ∀ i ∈ is, ∀ nIndex, f.hash (UInt32.ofNat i) vKey = some nIndex → nIndex.toNat ∈ onBits f.vData) := by
  induction is with
  | nil => exact ⟨true, rfl, by simp⟩
  | cons i is ih =>
    obtain ⟨nIndex, hhash, hlt⟩ := hash_spec hne (UInt32.ofNat i) vKey
    obtain ⟨on, htest, hon⟩ := testBit_eq hlt
    obtain ⟨found, hrun, hfound⟩ := ih
    cases on with
    | true =>
      refine ⟨found, by rw [containsLoop, hhash, Option.bind_eq_bind, Option.bind_some, htest]; exact hrun, ?_⟩
      rw [hfound, List.forall_mem_cons, hhash]
      simp [hon.mp rfl]
    | false =>
      refine ⟨false, by rw [containsLoop, hhash, Option.bind_eq_bind, Option.bind_some, htest]; rfl, ?_⟩
      rw [List.forall_mem_cons, hhash]
      constructor
      · intro hfalse
        cases hfalse
      · intro hall
        exact hon.mpr (hall.1 nIndex rfl)

/-- `contains` says whether the bits of the key are on. -/
theorem Sound.contains_spec (h : Sound f) (vKey : Bytes) :
    ∃ found, f.contains vKey = some found ∧ (found = true ↔ f.Has vKey) := by
  cases hfull : f.isFull with
  | true => exact ⟨true, by rw [contains, hfull, if_pos rfl], by simp [h.has_of_full hfull vKey]⟩
  | false =>
    cases hempty : f.isEmpty with
    | true =>
      exact ⟨false, by rw [contains, hfull, if_neg Bool.false_ne_true, hempty, if_pos rfl],
        by simp [h.not_has_of_empty hfull hempty vKey]⟩
    | false =>
      have hne : f.vData ≠ [] := by
        intro hnil
        rw [h.degenerate hnil] at hfull
        cases hfull
      obtain ⟨found, hrun, hfound⟩ := containsLoop_spec hne vKey (List.range f.nHashFuncs.toNat)
      refine ⟨found, by rw [contains, hfull, if_neg Bool.false_ne_true, hempty, if_neg Bool.false_ne_true, hrun], ?_⟩
      rw [hfound]
      constructor
      · intro hall n hn
        obtain ⟨i, hi, nIndex, hhash, rfl⟩ := hn
        exact hall i (List.mem_range.mpr hi) nIndex hhash
      · intro hhas i hi nIndex hhash
        exact hhas ⟨i, List.mem_range.mp hi, nIndex, hhash, rfl⟩

theorem Sound.contains_of_has (h : Sound f) (hhas : f.Has vKey) : f.contains vKey = some true := by
  obtain ⟨found, hcontains, hfound⟩ := h.contains_spec vKey
  rw [hcontains, hfound.mpr hhas]

/-- `UpdateEmptyFull` makes every filter with a hash function sound. -/
theorem updateEmptyFull_sound (h : f.nHashFuncs ≠ 0) : Sound f.updateEmptyFull := by
  refine ⟨h, fun hnil => ?_, fun hfull => ?_, fun hempty => ?_⟩
  · show f.vData.all (· == 0xff) = true
    have hdata : f.vData = [] := hnil
    rw [hdata]
    rfl
  · simpa [updateEmptyFull] using hfull
  · simpa [updateEmptyFull] using hempty

theorem Sound.updateEmptyFull_grows (h : Sound f) : Grows f f.updateEmptyFull :=
  ⟨updateEmptyFull_sound h.hashed, ⟨rfl, rfl, rfl⟩, Set.Subset.rfl⟩

end Operations

section Relevance

variable {f f' : CBloomFilter} {scan : Scan} (hash160 : Bytes → Bytes) (txHash : HashFn)

/-- A scan goes on: the filter grows, a match stays a match, and what was inserted is in the filter. -/
structure Extends (scan scan' : Scan) : Prop where
  grows : Grows scan.filter scan'.filter
  found : scan.fFound = true → scan'.fFound = true
  inserted : (∀ o ∈ scan.inserted, scan.filter.Has o.bytes) → ∀ o ∈ scan'.inserted, scan'.filter.Has o.bytes

theorem Extends.refl (h : Sound scan.filter) : Extends scan scan := ⟨.refl h, id, id⟩

theorem Extends.trans {scan scan' scan'' : Scan} (h : Extends scan scan') (h' : Extends scan' scan'') :
    Extends scan scan'' :=
  ⟨h.grows.trans h'.grows, fun hfound => h'.found (h.found hfound), fun hins => h'.inserted (h.inserted hins)⟩

/-- An outpoint is inserted. -/
theorem extends_insert (h : Sound scan.filter) (outpoint : COutPoint) :
    ∃ f', scan.filter.insert outpoint.bytes = some f' ∧
      Extends scan ⟨scan.fFound, f', scan.inserted ++ [outpoint]⟩ := by
  obtain ⟨f', hinsert, hgrows, hhas⟩ := h.insert_spec outpoint.bytes
  refine ⟨f', hinsert, hgrows, id, fun hins o ho => ?_⟩
  cases List.mem_append.mp ho with
  | inl ho => exact hgrows.has (hins o ho)
  | inr ho =>
    rw [List.mem_singleton.mp ho]
    exact hhas

theorem updateFound_spec (h : Sound scan.filter) (scriptPubKey : CScript) (outpoint : COutPoint) :
    ∃ scan', updateFound scriptPubKey outpoint scan = some scan' ∧ Extends scan scan' := by
  obtain ⟨f', hinsert, hextends⟩ := extends_insert h outpoint
  rw [updateFound]
  dsimp only
  rw [hinsert]
  split
  · exact ⟨_, rfl, hextends⟩
  · split
    · split
      · exact ⟨_, rfl, hextends⟩
      · exact ⟨_, rfl, .refl h⟩
    · exact ⟨_, rfl, .refl h⟩

theorem foundHash160_spec (h : Sound f) (data : Bytes) (fFound : Bool) :
    ∃ found, foundHash160 hash160 f data fFound = some found ∧ (fFound = true → found = true) := by
  obtain ⟨foundHash, hhash, -⟩ := h.contains_spec (hash160 data)
  rw [foundHash160]
  split
  · dsimp only
    split
    · rw [hhash]
      refine ⟨foundHash || fFound, rfl, fun hyes => ?_⟩
      rw [hyes, Bool.or_true]
    · exact ⟨fFound, rfl, id⟩
  · exact ⟨fFound, rfl, id⟩

theorem foundIn_spec (h : Sound f) (data : Bytes) (fFound : Bool) :
    ∃ found, foundIn hash160 f data fFound = some found ∧ (fFound = true → found = true) ∧
      (data ≠ [] → f.Has data → found = true) := by
  obtain ⟨foundData, hdata, hfoundData⟩ := h.contains_spec data
  obtain ⟨fFound', hfirst, hkept⟩ := foundHash160_spec hash160 h data fFound
  rw [foundIn, hfirst, Option.bind_eq_bind, Option.bind_some]
  cases fFound' with
  | true => exact ⟨true, rfl, fun _ => rfl, fun _ _ => rfl⟩
  | false =>
    by_cases hne : data = []
    · rw [hne]
      exact ⟨false, rfl, hkept, fun hyes => absurd rfl hyes⟩
    · refine ⟨foundData, ?_, fun hyes => ?_, fun _ hhas => hfoundData.mpr hhas⟩
      · simp [hne, hdata]
      · have hno := hkept hyes
        cases hno

theorem scanOutput_spec (scriptPubKey : CScript) (outpoint : COutPoint) (ops : List ScriptOp) (scan : Scan)
    (h : Sound scan.filter) :
    ∃ scan', scanOutput hash160 scriptPubKey outpoint ops scan = some scan' ∧ Extends scan scan' ∧
      ∀ op ∈ ops, op.vch ≠ [] → scan.filter.Has op.vch → scan'.fFound = true := by
  induction ops generalizing scan with
  | nil => exact ⟨scan, rfl, .refl h, fun op hop => absurd hop List.not_mem_nil⟩
  | cons op ops ih =>
    obtain ⟨found, hfound, hkept, hmatch⟩ := foundIn_spec hash160 h op.vch scan.fFound
    rw [scanOutput, hfound, Option.bind_eq_bind, Option.bind_some]
    have hnext : Extends scan { scan with fFound := found } := ⟨.refl h, hkept, id⟩
    cases found with
    | true =>
      have hsound : Sound { scan with fFound := true }.filter := h
      obtain ⟨scan', hupdate, hextends⟩ := updateFound_spec hsound scriptPubKey outpoint
      exact ⟨scan', hupdate, hnext.trans hextends, fun _ _ _ _ => hextends.found rfl⟩
    | false =>
      obtain ⟨scan', hrun, hextends, hrest⟩ := ih { scan with fFound := false } h
      refine ⟨scan', hrun, hnext.trans hextends, ?_⟩
      intro op' hop hne hhas
      cases List.mem_cons.mp hop with
      | inl hop =>
        rw [hop] at hne hhas
        have hno := hmatch hne hhas
        cases hno
      | inr hop => exact hrest op' hop hne hhas

theorem scanOutputs_spec (hash : UInt256) (vout : List (CTxOut × Nat)) (scan : Scan) (h : Sound scan.filter) :
    ∃ scan', scanOutputs hash160 hash vout scan = some scan' ∧ Extends scan scan' ∧
      ∀ txout ∈ vout, ∀ op ∈ (CScript.ops txout.1.scriptPubKey).1, op.vch ≠ [] → scan.filter.Has op.vch →
        scan'.fFound = true := by
  induction vout generalizing scan with
  | nil => exact ⟨scan, rfl, .refl h, fun txout htxout => absurd htxout List.not_mem_nil⟩
  | cons txout vout ih =>
    obtain ⟨scan₁, hone, hextends, hmatch⟩ := scanOutput_spec hash160 txout.1.scriptPubKey
      ⟨hash, UInt32.ofNat txout.2⟩ (CScript.ops txout.1.scriptPubKey).1 scan h
    obtain ⟨scan', hrun, hextends', hrest⟩ := ih scan₁ hextends.grows.sound
    refine ⟨scan', by rw [scanOutputs, hone]; exact hrun, hextends.trans hextends', ?_⟩
    intro txout' htxout op hop hne hhas
    cases List.mem_cons.mp htxout with
    | inl htxout =>
      rw [htxout] at hop
      exact hextends'.found (hmatch op hop hne hhas)
    | inr htxout => exact hrest txout' htxout op hop hne (hextends.grows.has hhas)

theorem scanInputOps_spec (h : Sound f) (ops : List ScriptOp) :
    ∃ found, scanInputOps f ops = some found ∧ ∀ op ∈ ops, op.vch ≠ [] → f.Has op.vch → found = true := by
  induction ops with
  | nil => exact ⟨false, rfl, fun op hop => absurd hop List.not_mem_nil⟩
  | cons op ops ih =>
    obtain ⟨rest, hrun, hrest⟩ := ih
    obtain ⟨found, hcontains, hfound⟩ := h.contains_spec op.vch
    by_cases hne : op.vch = []
    · refine ⟨rest, by rw [scanInputOps, if_neg (by simp [hne]), hrun], ?_⟩
      rw [List.forall_mem_cons]
      exact ⟨fun hyes => absurd hne hyes, hrest⟩
    · cases found with
      | true => exact ⟨true, by rw [scanInputOps, if_pos (by simp [hne]), hcontains]; rfl, fun _ _ _ _ => rfl⟩
      | false =>
        refine ⟨rest, by rw [scanInputOps, if_pos (by simp [hne]), hcontains]; exact hrun, ?_⟩
        rw [List.forall_mem_cons]
        refine ⟨fun _ hhas => ?_, hrest⟩
        have hno := hfound.mpr hhas
        cases hno

theorem scanInputs_spec (h : Sound f) (vin : List CTxIn) :
    ∃ found, scanInputs f vin = some found ∧ ∀ txin ∈ vin,
      (f.Has txin.prevout.bytes ∨ ∃ op ∈ (CScript.ops txin.scriptSig).1, op.vch ≠ [] ∧ f.Has op.vch) →
        found = true := by
  induction vin with
  | nil => exact ⟨false, rfl, fun txin htxin => absurd htxin List.not_mem_nil⟩
  | cons txin vin ih =>
    obtain ⟨rest, hrun, hrest⟩ := ih
    obtain ⟨spent, hspent, hspentIff⟩ := h.contains_spec txin.prevout.bytes
    obtain ⟨item, hitem, hitemFound⟩ := scanInputOps_spec h (CScript.ops txin.scriptSig).1
    rw [scanInputs, hspent, Option.bind_eq_bind, Option.bind_some]
    cases spent with
    | true => exact ⟨true, rfl, fun _ _ _ => rfl⟩
    | false =>
      rw [if_neg Bool.false_ne_true, hitem, Option.bind_some]
      cases item with
      | true => exact ⟨true, rfl, fun _ _ _ => rfl⟩
      | false =>
        rw [if_neg Bool.false_ne_true]
        refine ⟨rest, hrun, ?_⟩
        rw [List.forall_mem_cons]
        refine ⟨fun hyes => ?_, hrest⟩
        cases hyes with
        | inl hyes =>
          have hno := hspentIff.mpr hyes
          cases hno
        | inr hyes =>
          obtain ⟨op, hop, hne, hhas⟩ := hyes
          have hno := hitemFound op hop hne hhas
          cases hno

end Relevance

end CBloomFilter

/-- The transaction has one of the keys: as its id, as an item of an output, as an outpoint that it spends, or as an
item of an input. The items are those in front of a malformed operation. -/
def CTransaction.Mentions (txHash : HashFn) (tx : CTransaction) (key : Bytes → Prop) : Prop :=
  key (uint256Bytes (tx.getHash txHash)) ∨
    (∃ txout ∈ tx.vout, ∃ op ∈ (CScript.ops txout.scriptPubKey).1, op.vch ≠ [] ∧ key op.vch) ∨
    ∃ txin ∈ tx.vin, key txin.prevout.bytes ∨ ∃ op ∈ (CScript.ops txin.scriptSig).1, op.vch ≠ [] ∧ key op.vch

namespace CBloomFilter

section Runs

variable {f : CBloomFilter} (hash160 : Bytes → Bytes) (txHash : HashFn)

/-- A transaction with a key of the filter is relevant. -/
theorem Sound.isRelevantAndUpdate_spec (h : Sound f) (tx : CTransaction) :
    ∃ scan, f.isRelevantAndUpdate hash160 txHash tx = some scan ∧ Grows f scan.filter ∧
      (∀ o ∈ scan.inserted, scan.filter.Has o.bytes) ∧ (tx.Mentions txHash f.Has → scan.fFound = true) := by
  cases hfull : f.isFull with
  | true =>
    refine ⟨⟨true, f, []⟩, by rw [isRelevantAndUpdate, hfull, if_pos rfl], .refl h, ?_, fun _ => rfl⟩
    exact fun o ho => absurd ho List.not_mem_nil
  | false =>
    cases hempty : f.isEmpty with
    | true =>
      have hrun : f.isRelevantAndUpdate hash160 txHash tx = some ⟨false, f, []⟩ := by
        rw [isRelevantAndUpdate, hfull, if_neg Bool.false_ne_true, hempty, if_pos rfl]
      refine ⟨_, hrun, .refl h, fun o ho => absurd ho List.not_mem_nil, fun hmentions => ?_⟩
      -- an empty filter has no key
      have hnone := h.not_has_of_empty hfull hempty
      rcases hmentions with hid | ⟨txout, -, op, -, -, hhas⟩ | ⟨txin, -, hspent | ⟨op, -, -, hhas⟩⟩
      · exact absurd hid (hnone _)
      · exact absurd hhas (hnone _)
      · exact absurd hspent (hnone _)
      · exact absurd hhas (hnone _)
    | false =>
      obtain ⟨fFound, hfirst, hid⟩ : ∃ fFound, foundTx txHash f tx = some fFound ∧
          (f.Has (uint256Bytes (tx.getHash txHash)) → fFound = true) := by
        obtain ⟨found, hcontains, hfound⟩ := h.contains_spec (uint256Bytes (tx.getHash txHash))
        rw [foundTx]
        split
        · exact ⟨true, rfl, fun _ => rfl⟩
        · exact ⟨found, hcontains, hfound.mpr⟩
      obtain ⟨scan, hscan, hextends, hmatch⟩ := scanOutputs_spec hash160 (tx.getHash txHash) tx.vout.zipIdx
        ⟨fFound, f, []⟩ h
      obtain ⟨spent, hinputs, hspent⟩ := scanInputs_spec hextends.grows.sound tx.vin
      have hinserted := hextends.inserted fun o ho => absurd ho List.not_mem_nil
      rw [isRelevantAndUpdate, hfull, if_neg Bool.false_ne_true, hempty, if_neg Bool.false_ne_true, hfirst,
        Option.bind_eq_bind, Option.bind_some, hscan, Option.bind_eq_bind, Option.bind_some]
      by_cases hyes : scan.fFound = true
      · rw [if_pos hyes]
        exact ⟨scan, rfl, hextends.grows, hinserted, fun _ => hyes⟩
      · rw [if_neg hyes, hinputs]
        refine ⟨_, rfl, hextends.grows, hinserted, fun hmentions => ?_⟩
        rcases hmentions with hkey | ⟨txout, htxout, op, hop, hne, hhas⟩ | ⟨txin, htxin, hkey⟩
        · exact absurd (hextends.found (hid hkey)) hyes
        · rw [← List.zipIdx_map_fst 0 tx.vout] at htxout
          obtain ⟨txout', htxout', rfl⟩ := List.mem_map.mp htxout
          exact absurd (hmatch txout' htxout' op hop hne hhas) hyes
        · apply hspent txin htxin
          apply hkey.imp hextends.grows.has
          intro hitem
          obtain ⟨op, hop, hne, hhas⟩ := hitem
          exact ⟨op, hop, hne, hextends.grows.has hhas⟩

theorem Sound.filterAdd_spec (h : Sound f) (vData : Bytes) :
    ∃ f', filterAdd f vData = some f' ∧ Grows f f' ∧ (vData.length ≤ MAX_SCRIPT_ELEMENT_SIZE → f'.Has vData) := by
  rw [filterAdd]
  by_cases hsize : vData.length > MAX_SCRIPT_ELEMENT_SIZE
  · rw [if_pos hsize]
    exact ⟨f, rfl, .refl h, fun hsmall => absurd hsmall (Nat.not_le.mpr hsize)⟩
  · rw [if_neg hsize]
    obtain ⟨found, hcontains, hfound⟩ := h.contains_spec vData
    rw [hcontains]
    cases found with
    | true => exact ⟨f, rfl, .refl h, fun _ => hfound.mp rfl⟩
    | false =>
      obtain ⟨f', hinsert, hgrows, hhas⟩ := h.insert_spec vData
      have hupdate := hgrows.sound.updateEmptyFull_grows
      refine ⟨f'.updateEmptyFull, ?_, hgrows.trans hupdate, fun _ => hupdate.has hhas⟩
      rw [Option.bind_eq_bind, Option.bind_some, if_neg Bool.false_ne_true, hinsert]
      rfl

/-- What happens to a filter that is loaded. -/
inductive Call
  | insert (vKey : Bytes)
  | updateEmptyFull
  | isRelevantAndUpdate (tx : CTransaction)
  | filterAdd (vData : Bytes)

/-- A filter with the keys that were inserted. -/
def Call.run (state : CBloomFilter × List Bytes) : Call → Option (CBloomFilter × List Bytes)
  | .insert vKey => do return (← state.1.insert vKey, vKey :: state.2)
  | .updateEmptyFull => some (state.1.updateEmptyFull, state.2)
  | .isRelevantAndUpdate tx => do
    let scan ← state.1.isRelevantAndUpdate hash160 txHash tx
    return (scan.filter, scan.inserted.map COutPoint.bytes ++ state.2)
  | .filterAdd vData => do
    return (← AliasWallet.filterAdd state.1 vData,
      if vData.length ≤ MAX_SCRIPT_ELEMENT_SIZE then vData :: state.2 else state.2)

/-- One call keeps every key. -/
theorem Call.run_spec (call : Call) {f : CBloomFilter} {keys : List Bytes} (h : Sound f)
    (hkeys : ∀ key ∈ keys, f.Has key) :
    ∃ f' keys', call.run hash160 txHash (f, keys) = some (f', keys') ∧ Sound f' ∧ ∀ key ∈ keys', f'.Has key := by
  cases call with
  | insert vKey =>
    obtain ⟨f', hinsert, hgrows, hhas⟩ := h.insert_spec vKey
    refine ⟨f', vKey :: keys, by rw [Call.run, hinsert]; rfl, hgrows.sound, ?_⟩
    rw [List.forall_mem_cons]
    exact ⟨hhas, fun key hkey => hgrows.has (hkeys key hkey)⟩
  | updateEmptyFull =>
    exact ⟨f.updateEmptyFull, keys, rfl, h.updateEmptyFull_grows.sound, fun key hkey =>
      h.updateEmptyFull_grows.has (hkeys key hkey)⟩
  | isRelevantAndUpdate tx =>
    obtain ⟨scan, hscan, hgrows, hinserted, -⟩ := h.isRelevantAndUpdate_spec hash160 txHash tx
    refine ⟨scan.filter, _, by rw [Call.run, hscan]; rfl, hgrows.sound, ?_⟩
    rw [List.forall_mem_append, List.forall_mem_map]
    exact ⟨hinserted, fun key hkey => hgrows.has (hkeys key hkey)⟩
  | filterAdd vData =>
    obtain ⟨f', hadd, hgrows, hhas⟩ := h.filterAdd_spec vData
    refine ⟨f', _, by rw [Call.run, hadd]; rfl, hgrows.sound, ?_⟩
    split
    · rename_i hsize
      rw [List.forall_mem_cons]
      exact ⟨hhas hsize, fun key hkey => hgrows.has (hkeys key hkey)⟩
    · exact fun key hkey => hgrows.has (hkeys key hkey)

def runCalls (f : CBloomFilter) (calls : List Call) : Option (CBloomFilter × List Bytes) :=
  calls.foldlM (Call.run hash160 txHash) (f, [])

theorem foldlM_run_spec (calls : List Call) {f : CBloomFilter} {keys : List Bytes} (h : Sound f)
    (hkeys : ∀ key ∈ keys, f.Has key) :
    ∃ f' keys', calls.foldlM (Call.run hash160 txHash) (f, keys) = some (f', keys') ∧ Sound f' ∧
      ∀ key ∈ keys', f'.Has key := by
  induction calls generalizing f keys with
  | nil => exact ⟨f, keys, rfl, h, hkeys⟩
  | cons call calls ih =>
    obtain ⟨f₁, keys₁, hcall, hsound, hhas⟩ := call.run_spec hash160 txHash h hkeys
    obtain ⟨f', keys', hrun, hrest⟩ := ih hsound hhas
    exact ⟨f', keys', by rw [List.foldlM_cons, hcall]; exact hrun, hrest⟩

end Runs

section NoFalseNegatives

/-- A filter that a peer loads with at least one hash function never fails, has every key that was inserted, and finds
every transaction with one of them. -/
theorem noFalseNegatives (hash160 : Bytes → Bytes) (txHash : HashFn) (thinStealth : Bool) (filter : CBloomFilter)
    (h : filter.nHashFuncs ≠ 0) (calls : List Call) :
    ∃ f keys, runCalls hash160 txHash (filterLoad thinStealth filter) calls = some (f, keys) ∧
      (∀ key, (f.contains key).isSome) ∧ (∀ key ∈ keys, f.contains key = some true) ∧
      ∀ tx : CTransaction, ∃ scan, f.isRelevantAndUpdate hash160 txHash tx = some scan ∧
        (tx.Mentions txHash (· ∈ keys) → scan.fFound = true) := by
  have hloaded : Sound (filterLoad thinStealth filter) := by
    rw [filterLoad]
    apply updateEmptyFull_sound
    split
    · exact h
    · split
      · exact h
      · exact h
  obtain ⟨f, keys, hrun, hsound, hkeys⟩ := foldlM_run_spec hash160 txHash calls hloaded
    fun key hkey => absurd hkey List.not_mem_nil
  refine ⟨f, keys, hrun, fun key => ?_, fun key hkey => hsound.contains_of_has (hkeys key hkey), fun tx => ?_⟩
  · obtain ⟨found, hcontains, -⟩ := hsound.contains_spec key
    rw [hcontains]
    rfl
  · obtain ⟨scan, hscan, -, -, hmentions⟩ := hsound.isRelevantAndUpdate_spec hash160 txHash tx
    refine ⟨scan, hscan, fun hkey => hmentions ?_⟩
    rcases hkey with hid | ⟨txout, htxout, op, hop, hne, hmem⟩ | ⟨txin, htxin, hmem⟩
    · exact .inl (hkeys _ hid)
    · exact .inr (.inl ⟨txout, htxout, op, hop, hne, hkeys _ hmem⟩)
    · refine .inr (.inr ⟨txin, htxin, hmem.imp (hkeys _) fun hitem => ?_⟩)
      obtain ⟨op, hop, hne, hop'⟩ := hitem
      exact ⟨op, hop, hne, hkeys _ hop'⟩

theorem noFalseNegatives_sample :
    ∃ f keys, runCalls (fun data => data.take 20) (fun _ => 7) (filterLoad false ⟨[0, 0], true, false, 3, 5, 1⟩)
        [.insert [1, 2], .filterAdd [3]] = some (f, keys) ∧
      (∀ key, (f.contains key).isSome) ∧ (∀ key ∈ keys, f.contains key = some true) ∧
      ∀ tx : CTransaction, ∃ scan, f.isRelevantAndUpdate (fun data => data.take 20) (fun _ => 7) tx = some scan ∧
        (tx.Mentions (fun _ => 7) (· ∈ keys) → scan.fFound = true) :=
  noFalseNegatives (fun data => data.take 20) (fun _ => 7) false ⟨[0, 0], true, false, 3, 5, 1⟩ (by decide)
    [.insert [1, 2], .filterAdd [3]]

end NoFalseNegatives

end CBloomFilter

end AliasWallet
