import AliasWallet.Chain.ChainRecords

/-!
# The records over a chain switch

The loops of `Reorganize` and of the postponed blocks move the records from one chain to another one,
as long as the blocks of the new branch do not share an image and the wallet takes all of them.
-/

namespace AliasWallet
open Lib

section Loop

variable {Pt L : Type} (env : NodeEnv Pt L) (f : Session L → CBlock → CBlockIndex → Session L × Bool)

theorem forEachBlock_cons_eq_true (pindex : CBlockIndex) (rest : List CBlockIndex) (s s' : Session L)
    (h : forEachBlock env f (pindex :: rest) s = (s', true)) :
    ∃ block s₁, env.readFromDisk pindex = some block ∧ f s block pindex = (s₁, true) ∧
      forEachBlock env f rest s₁ = (s', true) := by
  rw [forEachBlock] at h
  cases hread : env.readFromDisk pindex with
  | none => simp [hread] at h
  | some block =>
    simp only [hread] at h
    cases hround : f s block pindex with
    | mk s₁ fOk =>
      cases fOk with
      | false => simp [hround] at h
      | true =>
        simp only [hround] at h
        exact ⟨block, s₁, rfl, hround, h⟩

theorem forEachBlock_append_eq_true (l l' : List CBlockIndex) (s s' : Session L)
    (h : forEachBlock env f (l ++ l') s = (s', true)) :
    ∃ s₁, forEachBlock env f l s = (s₁, true) ∧ forEachBlock env f l' s₁ = (s', true) := by
  induction l generalizing s with
  | nil => exact ⟨s, rfl, h⟩
  | cons pindex rest ih =>
    rw [List.cons_append] at h
    obtain ⟨block, s₁, hread, hround, hrest⟩ := forEachBlock_cons_eq_true env f pindex _ s s' h
    obtain ⟨s₂, hfirst, hlast⟩ := ih s₁ hrest
    refine ⟨s₂, ?_, hlast⟩
    simp only [forEachBlock, hread, hround, hfirst]

end Loop

section Disconnect

variable {Pt L : Type} (env : NodeEnv Pt L) (pool : CTxMemPool)

/-- The records of the fork, once the blocks above it are disconnected. -/
theorem disconnectBranch_records (chain pfork : CBlockIndex) (hfork : pfork <:+ chain)
    (s s' : Session L) (hrec : ChainRecorded env s.disk.keyImages s.readTxIndex chain)
    (h : forEachBlock env (disconnectBlock env pool) (branchAbove chain pfork) s = (s', true)) :
    ChainRecorded env s'.disk.keyImages s'.readTxIndex pfork := by
  induction chain generalizing s with
  | nil =>
    obtain rfl := List.suffix_nil.mp hfork
    rw [branchAbove_self, forEachBlock, Prod.mk.injEq] at h
    rwa [← h.1]
  | cons b pprev ih =>
    cases List.suffix_cons_iff.mp hfork with
    | inl heq =>
      subst heq
      rw [branchAbove_self, forEachBlock, Prod.mk.injEq] at h
      rwa [← h.1]
    | inr htail =>
      rw [branchAbove_cons b pprev pfork htail] at h
      obtain ⟨block, s₁, hread, hround, hrest⟩ := forEachBlock_cons_eq_true env _ _ _ s s' h
      exact ih htail s₁ (disconnectBlock_records env pool s s₁ block b pprev hrec hread hround) hrest

end Disconnect

section Connect

variable {Pt L : Type} (env : NodeEnv Pt L) (c : ChainState) (pool : CTxMemPool)

/-- What `ConnectBlock` does not check of a branch: its transactions share no image, and no hash of a
transaction with images comes back. -/
structure BranchSound (pindex pfork : CBlockIndex) : Prop where
  images : ∀ tx ∈ branchTxs env pindex pfork, ∀ tx' ∈ branchTxs env pindex pfork,
    ∀ k ∈ tx.spentImages, k ∈ tx'.spentImages → tx = tx'
  once : SpendsOnce env (chainTxs env pindex)

theorem BranchSound.suffix {pindex pfork q : CBlockIndex} (h : BranchSound env pindex pfork)
    (hfork : pfork <:+ q) (hq : q <:+ pindex) : BranchSound env q pfork := by
  have hsub : ∀ tx ∈ branchTxs env q pfork, tx ∈ branchTxs env pindex pfork := by
    intro tx htx
    simp only [branchTxs, List.mem_flatMap] at htx ⊢
    obtain ⟨r, hr, htx⟩ := htx
    rw [mem_branchAbove q pfork r hfork] at hr
    exact ⟨r, (mem_branchAbove pindex pfork r (hfork.trans hq)).mpr ⟨hr.1.trans hq, hr.2⟩, htx⟩
  constructor
  · intro tx htx tx' htx'
    exact h.images tx (hsub tx htx) tx' (hsub tx' htx')
  · have honce := h.once
    rw [chainTxs_eq env pindex q hq] at honce
    exact honce.right

/-- The checks of `ConnectBlock` on a block of the branch give the rest, if the chain below the fork
counts as main chain. -/
theorem BranchSound.blockSound {b : BlockNode} {pprev pfork : CBlockIndex}
    (h : BranchSound env (b :: pprev) pfork) (hfork : pfork <:+ pprev) (hmain : InMain c pfork)
    (s s' : Session L) (hrec : ChainRecorded env s.disk.keyImages s.readTxIndex pprev) (block : CBlock)
    (hread : env.readFromDisk (b :: pprev) = some block)
    (hrecorded : blockRecorded env c pool s block (b :: pprev))
    (hconnect : connectBlock env c pool false s block (b :: pprev) = (s', true)) :
    BlockSound env c pool s block (b :: pprev) := by
  have htxs : blockTxs env (b :: pprev) = block.vtx := by simp [blockTxs, hread]
  have hbranch : branchTxs env (b :: pprev) pfork = block.vtx ++ branchTxs env pprev pfork := by
    rw [branchTxs, branchAbove_cons b pprev pfork hfork, List.flatMap_cons, htxs, branchTxs]
  have honce := h.once
  rw [chainTxs, htxs] at honce
  refine ⟨hrecorded, ?_, ?_, h.once⟩
  · intro tx htx tx' htx'
    apply h.images
    · rw [hbranch]
      exact List.mem_append_left _ htx
    · rw [hbranch]
      exact List.mem_append_left _ htx'
  · intro tx htx tx' htx' k hk hk'
    have hne := honce.ne htx htx' (Or.inl (List.ne_nil_of_mem hk))
    rw [List.tail_cons, chainTxs_eq env pprev pfork hfork, List.mem_append] at htx'
    cases htx' with
    | inl hnew =>
      have hsame : tx = tx' := by
        apply h.images tx _ tx' _ k hk hk'
        · rw [hbranch]
          exact List.mem_append_left _ htx
        · rw [hbranch]
          exact List.mem_append_right _ hnew
      rw [hsame] at hne
      exact hne rfl
    | inr hold =>
      -- the image of a block below the fork is on record, and the record counts
      refine hne (txid_eq_of_accepted env c pool s pfork pprev hrec hfork hmain tx' tx hold k hk' hk
        fun hversion => ?_).symm
      exact connectBlock_anonChecked env c pool s s' block (b :: pprev) hrecorded hconnect tx htx
        hversion (List.ne_nil_of_mem hk)

/-- The wallet takes all that the loop over the new branch hands it. -/
def branchRecorded : List CBlockIndex → Session L → Bool
  | [], _ => true
  | pindex :: rest, s =>
    match env.readFromDisk pindex with
    | none => true
    | some block =>
      blockRecorded env c pool s block pindex &&
        branchRecorded rest (connectBlock env c pool false s block pindex).1

theorem branchRecorded_append (l l' : List CBlockIndex) (s s₁ : Session L)
    (h : branchRecorded env c pool (l ++ l') s)
    (hloop : forEachBlock env (connectBlock env c pool false) l s = (s₁, true)) :
    branchRecorded env c pool l s ∧ branchRecorded env c pool l' s₁ := by
  induction l generalizing s with
  | nil =>
    rw [forEachBlock, Prod.mk.injEq] at hloop
    rw [← hloop.1]
    exact ⟨rfl, h⟩
  | cons pindex rest ih =>
    obtain ⟨block, s₂, hread, hround, hrest⟩ := forEachBlock_cons_eq_true env _ _ _ s s₁ hloop
    simp only [List.cons_append, branchRecorded, hread, hround, Bool.and_eq_true] at h ⊢
    obtain ⟨hfirst, hlast⟩ := ih s₂ h.2 hrest
    exact ⟨⟨h.1, hfirst⟩, hlast⟩

/-- The records of the new branch, once its blocks are connected. -/
theorem connectBranch_records (pindex pfork : CBlockIndex) (hfork : pfork <:+ pindex)
    (hmain : InMain c pfork) (hsound : BranchSound env pindex pfork) (s s' : Session L)
    (hrec : ChainRecorded env s.disk.keyImages s.readTxIndex pfork)
    (hrecorded : branchRecorded env c pool (branchAbove pindex pfork).reverse s)
    (h : forEachBlock env (connectBlock env c pool false) (branchAbove pindex pfork).reverse s =
      (s', true)) :
    ChainRecorded env s'.disk.keyImages s'.readTxIndex pindex := by
  induction pindex generalizing s' with
  | nil =>
    obtain rfl := List.suffix_nil.mp hfork
    rw [branchAbove_self, List.reverse_nil, forEachBlock, Prod.mk.injEq] at h
    rwa [← h.1]
  | cons b pprev ih =>
    cases List.suffix_cons_iff.mp hfork with
    | inl heq =>
      subst heq
      rw [branchAbove_self, List.reverse_nil, forEachBlock, Prod.mk.injEq] at h
      rwa [← h.1]
    | inr htail =>
      rw [branchAbove_cons b pprev pfork htail, List.reverse_cons] at h hrecorded
      obtain ⟨s₁, hbelow, htop⟩ := forEachBlock_append_eq_true env _ _ _ s s' h
      obtain ⟨hrecorded₁, hrecorded₂⟩ := branchRecorded_append env c pool _ _ s s₁ hrecorded hbelow
      have hprev := ih htail (hsound.suffix env htail (List.suffix_cons b pprev)) s₁ hrecorded₁ hbelow
      obtain ⟨block, s₂, hread, hround, hdone⟩ := forEachBlock_cons_eq_true env _ _ _ s₁ s' htop
      rw [forEachBlock, Prod.mk.injEq] at hdone
      obtain ⟨rfl, -⟩ := hdone
      simp only [branchRecorded, hread, Bool.and_eq_true] at hrecorded₂
      exact connectBlock_records env c pool s₁ s₂ block b pprev hprev hread
        (hsound.blockSound env c pool htail hmain s₁ s₂ hprev block hread hrecorded₂.1 hround) hround

end Connect

end AliasWallet
