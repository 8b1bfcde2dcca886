import AliasWallet.Chain.BestChainSpec
import AliasWallet.Chain.ChainRecords

/-!
# Runs of the node

A run files blocks and calls `SetBestChain`; between two blocks the rest of the node may change what
does not belong to the chain. A block may be filed without a call: one that trusts less than the best
block, or one after which the node stopped.
-/

namespace AliasWallet
open Lib

section Run

variable {Pt L : Type} (env : NodeEnv Pt L)

/-- A node without blocks. -/
def freshNode (pool : CTxMemPool) (loc : L) (supply : UInt256 → Supply) (nAdjustedTime : Int) :
    Node L where
  disk := ⟨fun _ => none, fun _ => none, fun _ => none, none⟩
  pool
  chain := ⟨[], [], fun _ => none, fun _ => none, nAdjustedTime⟩
  loc
  supply

/-- What `LoadBlockIndex` and `AcceptBlock` ask of a block before it is filed: the genesis block is the
first one, and any other has its predecessor in the index. -/
structure Acceptable (n : Node L) (block : CBlock) (nFile nBlockPos : UInt32) : Prop where
  stored : env.readBlock nFile nBlockPos = some block
  new : n.chain.mapBlockIndex (block.getHash env.H) = none
  nonzero : block.getHash env.H ≠ 0
  follows : (n.chain.mapBlockIndex = fun _ => none) ∧ block.getHash env.H = env.p.hashGenesisBlock ∧
      block.hashPrevBlock = 0 ∨
    (n.chain.mapBlockIndex block.hashPrevBlock).isSome

/-- What the rest of the node may change between two blocks: the pool, the wallet, the clock, the
anonymous outputs. -/
structure SameChain (n n' : Node L) : Prop where
  txIndex : n'.disk.txIndex = n.disk.txIndex
  keyImages : n'.disk.keyImages = n.disk.keyImages
  pindexBest : n'.chain.pindexBest = n.chain.pindexBest
  pindexGenesisBlock : n'.chain.pindexGenesisBlock = n.chain.pindexGenesisBlock
  mapBlockIndex : n'.chain.mapBlockIndex = n.chain.mapBlockIndex
  pnext : n'.chain.pnext = n.chain.pnext

/-- The nodes that a run reaches in which every call of `SetBestChain` meets the condition. -/
inductive Reachable (condition : Node L → CBlock → CBlockIndex → Prop) : Node L → Prop
  | fresh (pool : CTxMemPool) (loc : L) (supply : UInt256 → Supply) (nAdjustedTime : Int) :
    Reachable condition (freshNode pool loc supply nAdjustedTime)
  | other {n n' : Node L} (hn : Reachable condition n) (hsame : SameChain n n') :
    Reachable condition n'
  | file {n : Node L} (hn : Reachable condition n) (block : CBlock) (nFile nBlockPos : UInt32)
    (hok : Acceptable env n block nFile nBlockPos) :
    Reachable condition (insertIndex n (newIndex env n.chain block nFile nBlockPos))
  | setBestChain {n : Node L} (hn : Reachable condition n) (block : CBlock) (pindexNew : CBlockIndex)
    (hfiled : n.chain.mapBlockIndex (CBlockIndex.getBlockHash pindexNew) = some pindexNew)
    (hread : env.readFromDisk pindexNew = some block) (hcondition : condition n block pindexNew) :
    Reachable condition (setBestChain env n block pindexNew).1

end Run

section Index

variable {Pt L : Type} (env : NodeEnv Pt L)

/-- The entries of the index belong to the stored blocks; the genesis block alone has none below. -/
def IndexLinked (m : UInt256 → Option CBlockIndex) : Prop :=
  ∀ h b pprev, m h = some (b :: pprev) →
    (∃ block, env.readBlock b.nFile b.nBlockPos = some block ∧
      block.hashPrevBlock = CBlockIndex.getBlockHash pprev) ∧
    (pprev = [] ↔ b.hash = env.p.hashGenesisBlock)

/-- The genesis block is at the bottom of every filed chain. -/
theorem genesis_isSome (m : UInt256 → Option CBlockIndex) (hm : IndexClosed m)
    (hlinked : IndexLinked env m) (pindex : CBlockIndex) (hne : pindex ≠ []) (hfiled : Filed m pindex) :
    (m env.p.hashGenesisBlock).isSome := by
  induction pindex with
  | nil => exact absurd rfl hne
  | cons b pprev ih =>
    cases pprev with
    | nil =>
      have hfound := hfiled hne
      have hroot := (hlinked _ b [] hfound).2.mp rfl
      rw [← hroot]
      exact Option.isSome_iff_exists.mpr ⟨[b], hfound⟩
    | cons b' pprev' =>
      exact ih (List.cons_ne_nil b' pprev') (hfiled.suffix hm (List.suffix_cons b (b' :: pprev')))

theorem IndexLinked.insert {m : UInt256 → Option CBlockIndex} (h : IndexLinked env m) (b : BlockNode)
    (pprev : CBlockIndex)
    (hblock : ∃ block, env.readBlock b.nFile b.nBlockPos = some block ∧
      block.hashPrevBlock = CBlockIndex.getBlockHash pprev)
    (hroot : pprev = [] ↔ b.hash = env.p.hashGenesisBlock) :
    IndexLinked env (Function.update m b.hash (some (b :: pprev))) := by
  intro hash b' pprev' hfound
  by_cases hsame : hash = b.hash
  · rw [hsame, Function.update_self, Option.some.injEq] at hfound
    obtain ⟨rfl, rfl⟩ := List.cons.inj hfound
    exact ⟨hblock, hroot⟩
  · rw [Function.update_of_ne hsame] at hfound
    exact h hash b' pprev' hfound

/-- What every run keeps of the index and the tip. -/
structure IndexInv (n : Node L) : Prop where
  closed : IndexClosed n.chain.mapBlockIndex
  linked : IndexLinked env n.chain.mapBlockIndex
  filed : Filed n.chain.mapBlockIndex n.chain.pindexBest
  genesis : n.chain.pindexBest = [] → n.chain.pindexGenesisBlock = []

theorem freshNode_index (pool : CTxMemPool) (loc : L) (supply : UInt256 → Supply) (nAdjustedTime : Int) :
    IndexInv env (freshNode pool loc supply nAdjustedTime) where
  closed := ⟨rfl, fun _ _ h => (by cases h), fun _ _ _ h => (by cases h), fun _ _ _ h => (by cases h)⟩
  linked _ _ _ h := by cases h
  filed := Filed.nil
  genesis _ := rfl

theorem SameChain.index {n n' : Node L} (hsame : SameChain n n') (h : IndexInv env n) :
    IndexInv env n' := by
  constructor
  · rw [hsame.mapBlockIndex]
    exact h.closed
  · rw [hsame.mapBlockIndex]
    exact h.linked
  · rw [hsame.mapBlockIndex, hsame.pindexBest]
    exact h.filed
  · rw [hsame.pindexBest, hsame.pindexGenesisBlock]
    exact h.genesis

/-- Filing a block keeps the invariant. -/
theorem Acceptable.index {n : Node L} {block : CBlock} {nFile nBlockPos : UInt32}
    (hok : Acceptable env n block nFile nBlockPos) (h : IndexInv env n) :
    IndexInv env (insertIndex n (newIndex env n.chain block nFile nBlockPos)) := by
  obtain ⟨pprev, hpprev, hprev, hhash, hroot⟩ : ∃ pprev,
      (n.chain.mapBlockIndex block.hashPrevBlock).getD [] = pprev ∧
        Filed n.chain.mapBlockIndex pprev ∧ block.hashPrevBlock = CBlockIndex.getBlockHash pprev ∧
        (pprev = [] ↔ block.getHash env.H = env.p.hashGenesisBlock) := by
    refine ⟨_, rfl, ?_⟩
    rcases hok.follows with ⟨hempty, hgenesis, hzero⟩ | hsome
    · rw [hempty]
      exact ⟨Filed.nil, hzero, fun _ => hgenesis, fun _ => rfl⟩
    · obtain ⟨pprev, hpprev⟩ := Option.isSome_iff_exists.mp hsome
      obtain ⟨hne, hentry⟩ := h.closed.entry _ pprev hpprev
      have hfiled : Filed n.chain.mapBlockIndex pprev := by
        intro _
        rwa [hentry]
      rw [hpprev]
      refine ⟨hfiled, hentry.symm, fun hnil => absurd hnil hne, fun hgenesis => ?_⟩
      have hfound := genesis_isSome env _ h.closed h.linked pprev hne hfiled
      rw [← hgenesis, hok.new] at hfound
      cases hfound
  have hclosed := h.closed.insert ⟨block.getHash env.H, nFile, nBlockPos, block.nTime,
    CBlockIndex.nChainTrust pprev + getBlockTrust block.nBits⟩ pprev hok.nonzero hok.new hprev
    (Nat.le_add_right _ _)
  have hlinked := h.linked.insert env ⟨block.getHash env.H, nFile, nBlockPos, block.nTime,
    CBlockIndex.nChainTrust pprev + getBlockTrust block.nBits⟩ pprev ⟨block, hok.stored, hhash⟩ hroot
  simp only [newIndex, hpprev, insertIndex]
  exact ⟨hclosed, hlinked, h.filed.insert _ _ hok.new, h.genesis⟩

/-- The block below one that extends the best chain is the best block, and it is not missing. -/
theorem IndexInv.extends_best {n : Node L} (h : IndexInv env n) (block : CBlock) (b : BlockNode)
    (pprev : CBlockIndex) (hfiled : n.chain.mapBlockIndex b.hash = some (b :: pprev))
    (hread : env.readFromDisk (b :: pprev) = some block)
    (hgenesis : ¬ (n.chain.pindexGenesisBlock = [] ∧ block.getHash env.H = env.p.hashGenesisBlock))
    (hextends : block.hashPrevBlock = n.chain.hashBestChain) :
    pprev = n.chain.pindexBest ∧ n.chain.pindexBest ≠ [] := by
  obtain ⟨hblock, hhash⟩ := readFromDisk_eq_some env b pprev block hread
  obtain ⟨⟨block', hblock', hprev⟩, hroot⟩ := h.linked _ b pprev hfiled
  obtain rfl : block = block' := Option.some.inj (hblock.symm.trans hblock')
  have hself : Filed n.chain.mapBlockIndex (b :: pprev) := fun _ => hfiled
  have hpprev : Filed n.chain.mapBlockIndex pprev := hself.suffix h.closed (List.suffix_cons b pprev)
  rw [hprev, ChainState.hashBestChain] at hextends
  -- the hash of no block is zero
  have hnull : ∀ q, Filed n.chain.mapBlockIndex q → q ≠ [] → CBlockIndex.getBlockHash q ≠ 0 := by
    intro q hq hne hzero
    have hfound := hq hne
    rw [hzero, h.closed.null] at hfound
    cases hfound
  have hbelow : pprev = n.chain.pindexBest := by
    by_cases hbest : n.chain.pindexBest = []
    · rw [hbest] at hextends ⊢
      by_contra hne
      exact hnull pprev hpprev hne hextends
    · refine Filed.eq_of_hash hpprev h.filed (fun hnil => ?_) hbest hextends
      rw [hnil] at hextends
      exact hnull _ h.filed hbest hextends.symm
  refine ⟨hbelow, fun hnil => hgenesis ⟨h.genesis hnil, hhash.trans (hroot.mp ?_)⟩⟩
  rw [hbelow, hnil]

/-- The index and the tip, which `SetBestChain` moves only at its end. -/
structure SameIndex (c c' : ChainState) : Prop where
  pindexBest : c'.pindexBest = c.pindexBest
  pindexGenesisBlock : c'.pindexGenesisBlock = c.pindexGenesisBlock
  mapBlockIndex : c'.mapBlockIndex = c.mapBlockIndex

theorem SameIndex.refl (c : ChainState) : SameIndex c c := ⟨rfl, rfl, rfl⟩

theorem SameIndex.trans {c c' c'' : ChainState} (h : SameIndex c c') (h' : SameIndex c' c'') :
    SameIndex c c'' :=
  ⟨h'.pindexBest.trans h.pindexBest, h'.pindexGenesisBlock.trans h.pindexGenesisBlock,
    h'.mapBlockIndex.trans h.mapBlockIndex⟩

theorem setBestChainInner_sameIndex (n : Node L) (block : CBlock) (pindexNew : CBlockIndex) :
    SameIndex n.chain (setBestChainInner env n block pindexNew).1.chain := by
  rcases setBestChainInner_cases env n block pindexNew with ⟨s, -, hcall⟩ | ⟨-, loc, hcall⟩
  · rw [hcall]
    obtain ⟨hbest, hgenesis, hmap⟩ := foldl_setNext_frame n.chain
      (fun q => some (CBlockIndex.getBlockHash q)) [pindexNew]
    exact ⟨hbest, hgenesis, hmap⟩
  · rw [hcall]
    exact SameIndex.refl n.chain

theorem reorganize_sameIndex (n : Node L) (pindexNew : CBlockIndex) :
    SameIndex n.chain (reorganize env n pindexNew).1.chain := by
  rcases reorganize_cases env n pindexNew with ⟨pfork, s, -, -, hcall⟩ | ⟨-, s, hcall⟩
  · rw [hcall]
    obtain ⟨hbest, hgenesis, hmap⟩ := reorganizeNext_frame n.chain
      (branchAbove n.chain.pindexBest pfork) (branchAbove pindexNew pfork).reverse
    exact ⟨hbest, hgenesis, hmap⟩
  · rw [hcall]
    exact SameIndex.refl n.chain

theorem connectPostponed_sameIndex (l : List CBlockIndex) (n : Node L) :
    SameIndex n.chain (connectPostponed env l n).chain := by
  induction l generalizing n with
  | nil => exact SameIndex.refl n.chain
  | cons pindex rest ih =>
    rw [connectPostponed.eq_def]
    cases hread : env.readFromDisk pindex with
    | none =>
      simp only [hread]
      exact SameIndex.refl n.chain
    | some block =>
      have hround := setBestChainInner_sameIndex env n block pindex
      cases hcall : setBestChainInner env n block pindex with
      | mk n' fOk =>
        rw [hcall] at hround
        cases fOk with
        | false => simpa only [hread, hcall] using hround
        | true => simpa only [hread, hcall] using hround.trans (ih n')

/-- A call that fails leaves the index and the tip; after one that goes through the new block is the
best. -/
theorem setBestChain_tip (n : Node L) (block : CBlock) (pindexNew : CBlockIndex) :
    ((setBestChain env n block pindexNew).2 = false ∧
        SameIndex n.chain (setBestChain env n block pindexNew).1.chain) ∨
      (setBestChain env n block pindexNew).2 = true ∧
        (setBestChain env n block pindexNew).1.chain.pindexBest = pindexNew ∧
        (setBestChain env n block pindexNew).1.chain.mapBlockIndex = n.chain.mapBlockIndex := by
  simp only [setBestChain]
  split
  · exact Or.inr ⟨rfl, rfl, rfl⟩
  · split
    · have hround := setBestChainInner_sameIndex env n block pindexNew
      cases hcall : setBestChainInner env n block pindexNew with
      | mk n' fOk =>
        rw [hcall] at hround
        cases fOk with
        | false => exact Or.inl ⟨rfl, hround⟩
        | true => exact Or.inr ⟨rfl, rfl, hround.mapBlockIndex⟩
    · have hround := reorganize_sameIndex env n
        (postponed (CBlockIndex.nChainTrust n.chain.pindexBest) pindexNew).1
      cases hcall : reorganize env n
          (postponed (CBlockIndex.nChainTrust n.chain.pindexBest) pindexNew).1 with
      | mk n' fOk =>
        rw [hcall] at hround
        cases fOk with
        | false => exact Or.inl ⟨rfl, hround⟩
        | true =>
          have hrest := connectPostponed_sameIndex env
            (postponed (CBlockIndex.nChainTrust n.chain.pindexBest) pindexNew).2 n'
          exact Or.inr ⟨rfl, rfl, (hround.trans hrest).mapBlockIndex⟩

theorem IndexInv.setBestChain {n : Node L} (h : IndexInv env n) (block : CBlock)
    (pindexNew : CBlockIndex)
    (hfiled : n.chain.mapBlockIndex (CBlockIndex.getBlockHash pindexNew) = some pindexNew) :
    IndexInv env (AliasWallet.setBestChain env n block pindexNew).1 := by
  rcases setBestChain_tip env n block pindexNew with ⟨-, hsame⟩ | ⟨-, hbest, hmap⟩
  · constructor
    · rw [hsame.mapBlockIndex]
      exact h.closed
    · rw [hsame.mapBlockIndex]
      exact h.linked
    · rw [hsame.mapBlockIndex, hsame.pindexBest]
      exact h.filed
    · rw [hsame.pindexBest, hsame.pindexGenesisBlock]
      exact h.genesis
  · constructor
    · rw [hmap]
      exact h.closed
    · rw [hmap]
      exact h.linked
    · rw [hmap, hbest]
      exact fun _ => hfiled
    · rw [hbest]
      exact fun hnil => absurd hnil (h.closed.entry _ pindexNew hfiled).1

/-- The index of every run is closed and linked, whatever the calls were. -/
theorem Reachable.index {condition : Node L → CBlock → CBlockIndex → Prop} {n : Node L}
    (h : Reachable env condition n) : IndexInv env n := by
  induction h with
  | fresh pool loc supply nAdjustedTime => exact freshNode_index env pool loc supply nAdjustedTime
  | other hn hsame ih => exact hsame.index env ih
  | file hn block nFile nBlockPos hok ih => exact hok.index env ih
  | setBestChain hn block pindexNew hfiled hread hcondition ih =>
    exact ih.setBestChain env block pindexNew hfiled

end Index

section Arrivals

variable {Pt L : Type} (env : NodeEnv Pt L) {condition : Node L → CBlock → CBlockIndex → Prop}

/-- `AddToBlockIndex` on an acceptable block is a run of its own. -/
theorem Reachable.addToBlockIndex {n : Node L} (hn : Reachable env condition n) (block : CBlock)
    (nFile nBlockPos : UInt32) (hok : Acceptable env n block nFile nBlockPos)
    (hread : env.readFromDisk (newIndex env n.chain block nFile nBlockPos) = some block)
    (hcondition : condition (insertIndex n (newIndex env n.chain block nFile nBlockPos)) block
      (newIndex env n.chain block nFile nBlockPos)) :
    Reachable env condition (addToBlockIndex env n block nFile nBlockPos).1 := by
  have hfile := hn.file block nFile nBlockPos hok
  simp only [AliasWallet.addToBlockIndex, hok.new, Option.isSome_none, Bool.false_eq_true, if_false]
  split
  · exact hfile.setBestChain block _ (Function.update_self _ _ _) hread hcondition
  · exact hfile

/-- A block without more trust than the best one is only filed. -/
theorem Reachable.addSideBlock {n : Node L} (hn : Reachable env condition n) (block : CBlock)
    (nFile nBlockPos : UInt32) (hok : Acceptable env n block nFile nBlockPos)
    (hside : ¬ CBlockIndex.nChainTrust (newIndex env n.chain block nFile nBlockPos) >
      CBlockIndex.nChainTrust n.chain.pindexBest) :
    Reachable env condition (AliasWallet.addToBlockIndex env n block nFile nBlockPos).1 := by
  have hfile := hn.file block nFile nBlockPos hok
  simp only [AliasWallet.addToBlockIndex, hok.new, Option.isSome_none, Bool.false_eq_true, if_false]
  split
  · exact absurd ‹_› hside
  · exact hfile

/-- The node after the block at a position of the first file, if it can be filed. -/
def receive (n : Node L) (nBlockPos : UInt32) : Option (Node L) := do
  let block ← env.readBlock 1 nBlockPos
  if (n.chain.mapBlockIndex (block.getHash env.H)).isNone && block.getHash env.H != 0 &&
      (n.chain.mapBlockIndex block.hashPrevBlock).isSome &&
      (env.readFromDisk (newIndex env n.chain block 1 nBlockPos)).isSome then
    some (addToBlockIndex env n block 1 nBlockPos).1
  else none

theorem receive_reachable {n n' : Node L} (hn : Reachable env (fun _ _ _ => True) n) (nBlockPos : UInt32)
    (h : receive env n nBlockPos = some n') : Reachable env (fun _ _ _ => True) n' := by
  simp only [receive, Option.bind_eq_bind, Option.bind_eq_some_iff, Option.ite_none_right_eq_some,
    Option.some.injEq, Bool.and_eq_true, Option.isNone_iff_eq_none, bne_iff_ne] at h
  obtain ⟨block, hstored, ⟨⟨⟨hnew, hnonzero⟩, hprev⟩, hsome⟩, rfl⟩ := h
  obtain ⟨block', hread⟩ := Option.isSome_iff_exists.mp hsome
  obtain ⟨hstored', -⟩ := readFromDisk_eq_some env _ _ block' hread
  obtain rfl : block' = block := Option.some.inj (hstored'.symm.trans hstored)
  exact hn.addToBlockIndex env block' 1 nBlockPos ⟨hstored, hnew, hnonzero, Or.inr hprev⟩ hread trivial

theorem receiveAll_reachable {n n' : Node L} (hn : Reachable env (fun _ _ _ => True) n)
    (l : List UInt32) (h : l.foldlM (receive env) n = some n') :
    Reachable env (fun _ _ _ => True) n' :=
  foldlM_preserves (Reachable env fun _ _ _ => True) l n n' hn
    (fun _ nBlockPos _ _ ht hround => receive_reachable env ht nBlockPos hround) h

end Arrivals

end AliasWallet
