import AliasWallet.Chain.PartialMerkleTree

/-!
# What a merkle root proves

A partial tree that gives the root of a block reports only txids of the block, whatever it holds; and the
root of a block without repeated transactions tells them all. Collisions are excluded on the pairs that
are really hashed.
-/

namespace AliasWallet
open Lib

section Soundness

variable (hash : HashFn) (t : CPartialMerkleTree)

/-- Every read is guarded. -/
theorem traverseAndExtract_isSome (height pos : Nat) (s : ExtractState) :
    ∃ r s', traverseAndExtract hash t height pos s = some (r, s') ∧
      (s.fBad = true → s'.fBad = true) := by
  have htake : ∀ (fMatched : Bool) (s : ExtractState), ∃ r s', takeHash t fMatched s = some (r, s') ∧
      (s.fBad = true → s'.fBad = true) := by
    intro fMatched s
    rw [takeHash]
    by_cases hend : s.nHashUsed ≥ t.vHash.length
    · rw [if_pos hend]
      exact ⟨_, _, rfl, fun _ => rfl⟩
    · rw [if_neg hend, List.getElem?_eq_getElem (by omega)]
      exact ⟨_, _, rfl, id⟩
  have hbit : ∀ (s : ExtractState) (next : Bool → ExtractState → Option (UInt256 × ExtractState)),
      (∀ b s, ∃ r s', next b s = some (r, s') ∧ (s.fBad = true → s'.fBad = true)) →
      ∃ r s', takeBit t s next = some (r, s') ∧ (s.fBad = true → s'.fBad = true) := by
    intro s next hnext
    rw [takeBit]
    by_cases hend : s.nBitsUsed ≥ t.vBits.length
    · rw [if_pos hend]
      exact ⟨_, _, rfl, fun _ => rfl⟩
    · rw [if_neg hend, List.getElem?_eq_getElem (by omega)]
      exact hnext _ { s with nBitsUsed := s.nBitsUsed + 1 }
  induction height generalizing pos s with
  | zero =>
    rw [traverseAndExtract]
    exact hbit s _ htake
  | succ height ih =>
    rw [traverseAndExtract]
    apply hbit s
    intro b s
    cases b with
    | false => exact htake false s
    | true =>
      obtain ⟨left, s₁, hleft, hbad₁⟩ := ih (pos * 2) s
      simp only [Bool.not_true, Bool.false_eq_true, if_false, hleft, Option.bind_some]
      by_cases hright : pos * 2 + 1 < calcTreeWidth t.nTransactions height
      · obtain ⟨right, s₂, hright₂, hbad₂⟩ := ih (pos * 2 + 1) s₁
        rw [if_pos hright, hright₂]
        exact ⟨_, _, rfl, fun h => hbad₂ (hbad₁ h)⟩
      · rw [if_neg hright]
        exact ⟨_, _, rfl, hbad₁⟩

/-- The pairs that the traversal hashes. -/
def extractPairs : Nat → Nat → ExtractState → List (UInt256 × UInt256)
  | 0, _, _ => []
  | height + 1, pos, s =>
    if t.vBits[s.nBitsUsed]? = some true then
      let s := { s with nBitsUsed := s.nBitsUsed + 1 }
      match traverseAndExtract hash t height (pos * 2) s with
      | none => []
      | some (left, s₁) =>
        if pos * 2 + 1 < calcTreeWidth t.nTransactions height then
          match traverseAndExtract hash t height (pos * 2 + 1) s₁ with
          | none => []
          | some (right, _) =>
            (left, right) :: (extractPairs height (pos * 2) s ++ extractPairs height (pos * 2 + 1) s₁)
        else (left, left) :: extractPairs height (pos * 2) s
    else []

/-- The pairs that `ExtractMatches` hashes. -/
def CPartialMerkleTree.extractedPairs : List (UInt256 × UInt256) :=
  match treeHeight t.nTransactions with
  | none => []
  | some nHeight => extractPairs hash t nHeight 0 ⟨0, 0, [], t.fBad⟩

/-- The pairs that `BuildMerkleTree` hashes. -/
def merklePairs (vTxid : List UInt256) : List (UInt256 × UInt256) :=
  match treeHeight vTxid.length with
  | none => []
  | some nHeight => Merkle.hashedPairs (merkleNode hash) nHeight vTxid

/-- No pair of the one list has the hash of a different pair of the other. -/
def PairsDiffer (l l' : List (UInt256 × UInt256)) : Prop :=
  ∀ x ∈ l, ∀ y ∈ l', merkleNode hash x.1 x.2 = merkleNode hash y.1 y.2 → x = y

instance (l l' : List (UInt256 × UInt256)) : Decidable (PairsDiffer hash l l') :=
  -- the lists are searched, not the type of all pairs
  haveI (x : UInt256 × UInt256) :
      Decidable (∀ y ∈ l', merkleNode hash x.1 x.2 = merkleNode hash y.1 y.2 → x = y) :=
    @List.decidableBAll _ _ (fun _ => instDecidableForall) l'
  List.decidableBAll _ l

variable {hash t}

theorem takeHash_good {fMatched : Bool} {s s' : ExtractState} {r : UInt256}
    (h : takeHash t fMatched s = some (r, s')) (hgood : s'.fBad = false) :
    s'.vMatch = if fMatched then s.vMatch ++ [r] else s.vMatch := by
  rw [takeHash] at h
  split at h
  · rw [Option.some.injEq, Prod.mk.injEq] at h
    rw [← h.2] at hgood
    cases hgood
  · simp only [Option.bind_eq_bind, Option.bind_eq_some_iff, Option.pure_def, Option.some.injEq,
      Prod.mk.injEq] at h
    obtain ⟨x, -, rfl, rfl⟩ := h
    rfl

theorem takeBit_good {next : Bool → ExtractState → Option (UInt256 × ExtractState)}
    {s s' : ExtractState} {r : UInt256} (h : takeBit t s next = some (r, s'))
    (hgood : s'.fBad = false) :
    ∃ b, t.vBits[s.nBitsUsed]? = some b ∧
      next b { s with nBitsUsed := s.nBitsUsed + 1 } = some (r, s') := by
  rw [takeBit] at h
  split at h
  · rw [Option.some.injEq, Prod.mk.injEq] at h
    rw [← h.2] at hgood
    cases hgood
  · exact Option.bind_eq_some_iff.mp h

/-- A good traversal below leaves a good state. -/
theorem traverseAndExtract_good {height pos : Nat} {s s' : ExtractState} {r : UInt256}
    (h : traverseAndExtract hash t height pos s = some (r, s')) (hgood : s'.fBad = false) :
    s.fBad = false := by
  obtain ⟨r', s'', h', hbad⟩ := traverseAndExtract_isSome hash t height pos s
  rw [h, Option.some.injEq, Prod.mk.injEq] at h'
  rw [← h'.2, hgood] at hbad
  simpa using hbad

variable (hash) in
/-- The pair below an inner node of the block. -/
theorem calcHash_succ (vTxid : List UInt256) (k height pos : Nat) (hk : height < k)
    (hpos : pos < Merkle.width vTxid.length (height + 1)) :
    ∃ right, calcHash hash vTxid (height + 1) pos =
        merkleNode hash (calcHash hash vTxid height (pos * 2)) right ∧
      (calcHash hash vTxid height (pos * 2), right) ∈
        Merkle.hashedPairs (merkleNode hash) k vTxid ∧
      (pos * 2 + 1 < Merkle.width vTxid.length height →
        right = calcHash hash vTxid height (pos * 2 + 1)) := by
  rw [Merkle.width_succ] at hpos
  have hleft := calcHash_eq hash vTxid height (pos * 2) (by omega)
  rw [Nat.mul_comm] at hleft
  have hpair := Merkle.levelPairs_getElem? _ pos _ hleft
  rw [Nat.mul_comm 2 pos] at hpair
  refine ⟨_, ?_, Merkle.mem_hashedPairs _ hk (List.mem_of_getElem? hpair), ?_⟩
  · have hpos' : pos < Merkle.width vTxid.length (height + 1) := by
      rw [Merkle.width_succ]
      omega
    have hnode := calcHash_eq hash vTxid (height + 1) pos hpos'
    rw [Merkle.levels_succ_getElem? _ _ _ _ _ hleft, Option.some.injEq] at hnode
    rw [← hnode, Nat.mul_comm 2 pos]
  · intro hright
    rw [calcHash_eq hash vTxid height _ hright, Option.getD_some]

/-- A traversal that ends in a node of the block reports txids of the block. -/
theorem traverseAndExtract_sound (vTxid : List UInt256) (hn : t.nTransactions = vTxid.length)
    (k height pos : Nat) (hk : height ≤ k) (hpos : pos < Merkle.width vTxid.length height)
    (s s' : ExtractState) (r : UInt256)
    (hextract : traverseAndExtract hash t height pos s = some (r, s')) (hgood : s'.fBad = false)
    (hr : r = calcHash hash vTxid height pos)
    (hdiffer : PairsDiffer hash (Merkle.hashedPairs (merkleNode hash) k vTxid)
      (extractPairs hash t height pos s)) :
    ∃ found, s'.vMatch = s.vMatch ++ found ∧ ∀ txid ∈ found, txid ∈ vTxid := by
  induction height generalizing pos s s' r with
  | zero =>
    rw [Merkle.width_zero] at hpos
    rw [traverseAndExtract] at hextract
    obtain ⟨b, -, h⟩ := takeBit_good hextract hgood
    have hmatch := takeHash_good h hgood
    have hleaf : r ∈ vTxid := by
      rw [hr, calcHash, List.getD_eq_getElem?_getD, List.getElem?_eq_getElem hpos, Option.getD_some]
      exact List.getElem_mem hpos
    cases b with
    | false => exact ⟨[], by simpa using hmatch, by simp⟩
    | true => exact ⟨[r], hmatch, by simpa using hleaf⟩
  | succ height ih =>
    rw [traverseAndExtract] at hextract
    obtain ⟨b, hb, h⟩ := takeBit_good hextract hgood
    cases b with
    | false =>
      have hmatch := takeHash_good h hgood
      exact ⟨[], by simpa using hmatch, by simp⟩
    | true =>
      simp only [Bool.not_true, Bool.false_eq_true, if_false] at h
      obtain ⟨⟨left, s₁⟩, hleft, h⟩ := Option.bind_eq_some_iff.mp h
      obtain ⟨⟨right, s₂⟩, hright, h⟩ := Option.bind_eq_some_iff.mp h
      rw [Option.some.injEq, Prod.mk.injEq] at h
      obtain ⟨rfl, rfl⟩ := h
      obtain ⟨right', hnode, hmem, hsecond⟩ := calcHash_succ hash vTxid k height pos hk hpos
      rw [hnode] at hr
      rw [Merkle.width_succ] at hpos
      have hpos₁ : pos * 2 < Merkle.width vTxid.length height := by omega
      rw [extractPairs, if_pos hb] at hdiffer
      simp only [hleft] at hdiffer
      rw [hn, calcTreeWidth_eq] at hright hdiffer
      by_cases htwo : pos * 2 + 1 < Merkle.width vTxid.length height
      · rw [if_pos htwo] at hright hdiffer
        simp only [hright] at hdiffer
        -- the pair is that of the block, and both halves are nodes of it
        have hpair := hdiffer _ hmem _ List.mem_cons_self hr.symm
        rw [Prod.mk.injEq] at hpair
        have hgood₁ := traverseAndExtract_good hright hgood
        obtain ⟨found₁, hfound₁, hin₁⟩ := ih (pos * 2) (by omega) hpos₁ _ _ _ hleft hgood₁
          hpair.1.symm fun x hx y hy => hdiffer x hx y (by simp [hy])
        obtain ⟨found₂, hfound₂, hin₂⟩ := ih (pos * 2 + 1) (by omega) htwo _ _ _ hright hgood
          (hpair.2.symm.trans (hsecond htwo)) fun x hx y hy => hdiffer x hx y (by simp [hy])
        refine ⟨found₁ ++ found₂, by rw [hfound₂, hfound₁, List.append_assoc], ?_⟩
        intro txid htxid
        rcases List.mem_append.mp htxid with hfound | hfound
        · exact hin₁ txid hfound
        · exact hin₂ txid hfound
      · rw [if_neg htwo] at hright hdiffer
        rw [Option.some.injEq, Prod.mk.injEq] at hright
        obtain ⟨rfl, rfl⟩ := hright
        have hpair := hdiffer _ hmem _ List.mem_cons_self hr.symm
        rw [Prod.mk.injEq] at hpair
        exact ih (pos * 2) (by omega) hpos₁ { s with nBitsUsed := s.nBitsUsed + 1 } s₁ _ hleft hgood
          hpair.1.symm fun x hx y hy => hdiffer x hx y (List.mem_cons_of_mem _ hy)

/-- Whatever bits and hashes a tree for the transactions of the block holds, its extraction ends without
a read outside them, and a root of the block, other than the value for a failure, comes with txids of the
block only. -/
theorem extractMatches_sound (hash : HashFn) (vTxid : List UInt256) (t : CPartialMerkleTree)
    (hn : t.nTransactions = vTxid.length)
    (hdiffer : PairsDiffer hash (merklePairs hash vTxid) (t.extractedPairs hash)) :
    ∃ root vMatch, extractMatches hash t = some (root, vMatch) ∧
      (root = CBlock.merkleRootFrom hash vTxid.length vTxid → root ≠ 0 →
        ∀ txid ∈ vMatch, txid ∈ vTxid) := by
  obtain ⟨k, hk, htop, hbelow⟩ := treeHeight_spec vTxid.length
  rw [← hn] at hk
  by_cases hsome : t.nTransactions = 0
  · exact ⟨0, [], by rw [extractMatches, if_pos hsome], by simp⟩
  by_cases hlimit : t.nTransactions > MAX_BLOCK_SIZE / 60
  · exact ⟨0, [], by rw [extractMatches, if_neg hsome, if_pos hlimit], by simp⟩
  by_cases hhash : t.vHash.length > t.nTransactions
  · exact ⟨0, [], by rw [extractMatches, if_neg hsome, if_neg hlimit, if_pos hhash], by simp⟩
  by_cases hbits : t.vBits.length < t.vHash.length
  · exact ⟨0, [], by rw [extractMatches, if_neg hsome, if_neg hlimit, if_neg hhash, if_pos hbits],
      by simp⟩
  obtain ⟨r, s, hextract, -⟩ := traverseAndExtract_isSome hash t k 0 ⟨0, 0, [], t.fBad⟩
  have hmatches := extractMatches_eq k r s hsome (by omega) (by omega) (by omega) hk hextract
  refine ⟨_, _, hmatches, ?_⟩
  intro hroot hzero
  rw [ite_ne_left_iff] at hzero
  rw [if_neg hzero.1] at hroot
  have hne : vTxid ≠ [] := by
    rintro rfl
    exact hsome hn
  rw [merklePairs, ← hn, hk, CPartialMerkleTree.extractedPairs, hk] at hdiffer
  have hpos : 0 < Merkle.width vTxid.length k := by
    rw [Merkle.lt_width_iff, Nat.zero_mul]
    exact List.length_pos_iff.mpr hne
  have hgood : s.fBad = false := by
    simpa using fun hbad => hzero.1 (Or.inl hbad)
  obtain ⟨found, hfound, hin⟩ := traverseAndExtract_sound vTxid hn k k 0 le_rfl hpos _ _ _ hextract
    hgood (hroot.trans (calcHash_root hash vTxid hne k htop hbelow).symm) hdiffer
  intro txid htxid
  rw [hfound, List.nil_append] at htxid
  exact hin txid htxid

/-- The tree for the first and the last of three transactions. -/
def firstAndLast : CPartialMerkleTree :=
  ⟨3, [true, true, true, false, true, true], [1, 2, 3], false⟩

theorem firstAndLast_sound :
    ∃ root vMatch, extractMatches sha256d firstAndLast = some (root, vMatch) ∧
      (root = CBlock.merkleRootFrom sha256d 3 [1, 2, 3] → root ≠ 0 →
        ∀ txid ∈ vMatch, txid ∈ [1, 2, 3]) :=
  extractMatches_sound sha256d [1, 2, 3] firstAndLast rfl (by rw [sha256d_eq_eval]; decide +kernel)

/-- A failure is reported as the root 0, with the txids found so far. -/
theorem nineBits_unsound :
    ¬ ∀ (vTxid : List UInt256) (t : CPartialMerkleTree), vTxid.Nodup →
      t.nTransactions = vTxid.length →
      PairsDiffer sha256d (merklePairs sha256d vTxid) (t.extractedPairs sha256d) →
      (∀ x ∈ merklePairs sha256d vTxid, merkleNode sha256d x.1 x.2 ∉ vTxid) →
      ∃ root vMatch, extractMatches sha256d t = some (root, vMatch) ∧
        (root = CBlock.merkleRootFrom sha256d vTxid.length vTxid → ∀ txid ∈ vMatch, txid ∈ vTxid) := by
  intro hall
  obtain ⟨root, vMatch, hextract, hsound⟩ := hall [0] ⟨1, List.replicate 9 true, [1], false⟩
    (by decide) rfl (by decide) (fun _ hx => absurd hx List.not_mem_nil)
  have hfound : extractMatches sha256d ⟨1, List.replicate 9 true, [1], false⟩ = some (0, [1]) := by
    decide
  rw [hfound, Option.some.injEq, Prod.mk.injEq] at hextract
  have hmem := hsound hextract.1.symm 1 (by rw [← hextract.2]; exact List.mem_singleton_self 1)
  exact absurd hmem (by decide)

end Soundness

section Root

/-- Two blocks without repeated transactions that have the same root have the same transactions, as far
as the hashed pairs of the two do not collide and are not taken for txids. -/
theorem buildMerkleTree_inj (hash : HashFn) (b b' : CBlock) (hne : b.vtx ≠ []) (hne' : b'.vtx ≠ [])
    (hunique : (b.vtx.map (CTransaction.getHash hash)).Nodup)
    (hunique' : (b'.vtx.map (CTransaction.getHash hash)).Nodup)
    (hdiffer :
      let pairs := merklePairs hash (b.vtx.map (CTransaction.getHash hash)) ++
        merklePairs hash (b'.vtx.map (CTransaction.getHash hash))
      PairsDiffer hash pairs pairs ∧ ∀ x ∈ pairs,
        merkleNode hash x.1 x.2 ∉ b.vtx.map (CTransaction.getHash hash) ∧
          merkleNode hash x.1 x.2 ∉ b'.vtx.map (CTransaction.getHash hash))
    (hroot : b.buildMerkleTree hash = b'.buildMerkleTree hash) :
    b.vtx.map (CTransaction.getHash hash) = b'.vtx.map (CTransaction.getHash hash) := by
  obtain ⟨k, hk, htop, hbelow⟩ := treeHeight_spec (b.vtx.map (CTransaction.getHash hash)).length
  obtain ⟨k', hk', htop', hbelow'⟩ := treeHeight_spec (b'.vtx.map (CTransaction.getHash hash)).length
  have hnil : b.vtx.map (CTransaction.getHash hash) ≠ [] := by simpa using hne
  have hnil' : b'.vtx.map (CTransaction.getHash hash) ≠ [] := by simpa using hne'
  have hlevel := levels_eq_root hash k b.vtx.length _ hnil (by simp) htop hbelow
  have hlevel' := levels_eq_root hash k' b'.vtx.length _ hnil' (by simp) htop' hbelow'
  simp only [merklePairs, hk, hk'] at hdiffer
  refine Merkle.leaves_inj (S := {x | x ∈ Merkle.hashedPairs (merkleNode hash) k _ ++
      Merkle.hashedPairs (merkleNode hash) k' _}) ?_ _ _ hunique hunique' hnil hnil' k k'
    (fun x hx => List.mem_append_left _ hx) (fun x hx => List.mem_append_right _ hx)
    hdiffer.2 ?_
  · intro x hx y hy hxy
    exact hdiffer.1 x hx y hy hxy
  · rw [hlevel, hlevel']
    exact congrArg (fun root => [root]) hroot

/-- A block of three small transactions. -/
def smallBlock : CBlock where
  nVersion := 7
  hashPrevBlock := 0
  hashMerkleRoot := 0
  nTime := 0
  nBits := 0
  nNonce := 0
  vtx := [⟨1, 1, [], [], 0⟩, ⟨1, 2, [], [], 0⟩, ⟨1, 3, [], [], 0⟩]
  vchBlockSig := []

theorem smallBlock_inj :
    smallBlock.vtx.map (CTransaction.getHash sha256d) =
      smallBlock.vtx.map (CTransaction.getHash sha256d) := by
  apply buildMerkleTree_inj sha256d smallBlock smallBlock (by decide) (by decide) ?_ ?_ ⟨?_, ?_⟩ rfl
  · rw [sha256d_eq_eval]
    decide +kernel
  · rw [sha256d_eq_eval]
    decide +kernel
  · rw [sha256d_eq_eval]
    decide +kernel
  · rw [sha256d_eq_eval]
    exact List.forall_iff_forall_mem.mp (by decide +kernel)

end Root

end AliasWallet
