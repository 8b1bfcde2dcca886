import AliasWallet.Chain.FailedSwitch
import AliasWallet.Chain.Runs
import AliasWallet.Chain.SwitchRecords

/-!
# Double spends over runs of the node

The images of the active chain stay unique in every run whose calls meet a condition; one block with two
spends of a coin is enough to break it otherwise.
-/

namespace AliasWallet
open Lib

section Invariant

variable {Pt L : Type} (env : NodeEnv Pt L)

structure NodeInv (n : Node L) : Prop where
  closed : IndexClosed n.chain.mapBlockIndex
  linked : IndexLinked env n.chain.mapBlockIndex
  filed : Filed n.chain.mapBlockIndex n.chain.pindexBest
  main : MainNext n.chain n.chain.pindexBest
  genesis : n.chain.pindexBest = [] → n.chain.pindexGenesisBlock = []
  recorded : ChainRecorded env n.disk.keyImages n.disk.txIndex n.chain.pindexBest

theorem ChainRecorded.of_no_images (keyImages : Bytes → Option CKeyImageSpent)
    (readTxIndex : UInt256 → Option CTxIndex) (chain : CBlockIndex)
    (h : ∀ tx ∈ chainTxs env chain, tx.spentImages = []) :
    ChainRecorded env keyImages readTxIndex chain := by
  constructor
  · intro tx htx k hk
    rw [h tx htx] at hk
    cases hk
  · intro b pprev hsuffix tx htx hne
    exact absurd (h tx ((mem_chainTxs env chain tx).mpr ⟨b, pprev, hsuffix, htx⟩)) hne
  · intro tx htx hne
    exact absurd (h tx htx) hne

theorem NodeInv.index {n : Node L} (h : NodeInv env n) : IndexInv env n :=
  ⟨h.closed, h.linked, h.filed, h.genesis⟩

theorem freshNode_inv (pool : CTxMemPool) (loc : L) (supply : UInt256 → Supply) (nAdjustedTime : Int) :
    NodeInv env (freshNode pool loc supply nAdjustedTime) := by
  have hindex := freshNode_index env pool loc supply nAdjustedTime
  refine ⟨hindex.closed, hindex.linked, hindex.filed, ?_, hindex.genesis, ?_⟩
  · intro q hq hne
    exact absurd (List.suffix_nil.mp hq) hne
  · apply ChainRecorded.of_no_images
    intro tx htx
    cases htx

theorem SameChain.inv {n n' : Node L} (hsame : SameChain n n') (h : NodeInv env n) : NodeInv env n' := by
  have hindex := hsame.index env (h.index env)
  refine ⟨hindex.closed, hindex.linked, hindex.filed, ?_, hindex.genesis, ?_⟩
  · intro q
    rw [hsame.pindexBest, hsame.pnext]
    exact h.main q
  · rw [hsame.keyImages, hsame.txIndex, hsame.pindexBest]
    exact h.recorded

/-- Filing a block keeps the invariant. -/
theorem Acceptable.inv {n : Node L} {block : CBlock} {nFile nBlockPos : UInt32}
    (hok : Acceptable env n block nFile nBlockPos) (h : NodeInv env n) :
    NodeInv env (insertIndex n (newIndex env n.chain block nFile nBlockPos)) := by
  have hindex := hok.index env (h.index env)
  exact ⟨hindex.closed, hindex.linked, hindex.filed, h.main, hindex.genesis, h.recorded⟩

end Invariant

section Calls

variable {Pt L : Type} (env : NodeEnv Pt L)

/-- The part of a chain that counts as main chain: all of the active chain, and all but the tip of a
chain that its pointers follow. -/
theorem InMain.of_next {c : ChainState} {chain base : CBlockIndex} (hm : IndexClosed c.mapBlockIndex)
    (hfiled : Filed c.mapBlockIndex chain) (hnext : MainNext c chain) (hbase : base <:+ chain)
    (hlen : base.length ≤ c.pindexBest.length) (htip : chain = c.pindexBest ∨ base ≠ chain) :
    InMain c base := by
  intro q hq hne
  refine ⟨hfiled.suffix hm (hq.trans hbase) hne, ?_, hq.length_le.trans hlen⟩
  rw [ChainState.isInMainChain, Bool.or_eq_true, beq_iff_eq]
  by_cases hproper : q = chain
  · cases htip with
    | inl hbest => exact Or.inr (hproper.trans hbest)
    | inr hbelow =>
      rw [hproper] at hq
      exact absurd (hbase.eq_of_length_le hq.length_le) hbelow
  · exact Or.inl (hnext q (hq.trans hbase) hne hproper)

/-- The records after a block on top of a chain. -/
theorem setBestChainInner_records (n n' : Node L) (block : CBlock) (b : BlockNode)
    (pprev pfork : CBlockIndex) (hfork : pfork <:+ pprev) (hmain : InMain n.chain pfork)
    (hsound : BranchSound env (b :: pprev) pfork)
    (hrec : ChainRecorded env n.disk.keyImages n.disk.txIndex pprev)
    (hread : env.readFromDisk (b :: pprev) = some block)
    (hrecorded : blockRecorded env n.chain n.pool n.txnBegin block (b :: pprev))
    (h : setBestChainInner env n block (b :: pprev) = (n', true)) :
    ChainRecorded env n'.disk.keyImages n'.disk.txIndex (b :: pprev) ∧
      n'.chain = n.chain.setNext pprev (some b.hash) := by
  rcases setBestChainInner_cases env n block (b :: pprev) with ⟨s, hconnect, hcall⟩ | ⟨-, loc, hcall⟩
  · rw [h, Prod.mk.injEq] at hcall
    rw [hcall.1]
    refine ⟨?_, rfl⟩
    exact connectBlock_records env n.chain n.pool n.txnBegin s block b pprev hrec hread
      (hsound.blockSound env n.chain n.pool hfork hmain n.txnBegin s hrec block hread hrecorded
        hconnect) hconnect
  · rw [h] at hcall
    cases hcall

/-- The wallet takes all blocks that `Reorganize` connects. -/
def switchRecorded (n : Node L) (vDisconnect vConnect : List CBlockIndex) : Bool :=
  branchRecorded env n.chain n.pool vConnect
    (forEachBlock env (disconnectBlock env n.pool) vDisconnect n.txnBegin).1

/-- The records after a reorganisation. -/
theorem switchBranch_records (n : Node L) (hinv : NodeInv env n) (pindexNew pfork : CBlockIndex)
    (hfork : findFork n.chain.pindexBest pindexNew = some pfork)
    (hsound : BranchSound env pindexNew pfork)
    (hrecorded : switchRecorded env n (branchAbove n.chain.pindexBest pfork)
      (branchAbove pindexNew pfork).reverse) (s' : Session L)
    (h : switchBranch env n (branchAbove n.chain.pindexBest pfork) (branchAbove pindexNew pfork).reverse =
      (s', true)) :
    ChainRecorded env s'.disk.keyImages s'.readTxIndex pindexNew := by
  obtain ⟨-, hold, hnew⟩ := findFork_suffix _ _ _ hfork
  unfold switchBranch at h
  unfold switchRecorded at hrecorded
  cases hdisconnect : forEachBlock env (disconnectBlock env n.pool)
      (branchAbove n.chain.pindexBest pfork) n.txnBegin with
  | mk s fOk =>
    rw [hdisconnect] at h hrecorded
    cases fOk with
    | false => cases h
    | true =>
      have hbelow := disconnectBranch_records env n.pool n.chain.pindexBest pfork hold n.txnBegin s
        hinv.recorded hdisconnect
      exact connectBranch_records env n.chain n.pool pindexNew pfork hnew
        (InMain.of_next hinv.closed hinv.filed hinv.main hold hold.length_le (Or.inl rfl)) hsound
        s s' hbelow hrecorded h

/-- Every postponed block connects, and the wallet takes it. -/
def postponedConnect : List CBlockIndex → Node L → Bool
  | [], _ => true
  | pindex :: rest, n =>
    match env.readFromDisk pindex with
    | none => false
    | some block =>
      (setBestChainInner env n block pindex).2 &&
        blockRecorded env n.chain n.pool n.txnBegin block pindex &&
        postponedConnect rest (setBestChainInner env n block pindex).1

theorem postponedConnect_cons (pindex : CBlockIndex) (rest : List CBlockIndex) (n : Node L)
    (h : postponedConnect env (pindex :: rest) n) :
    ∃ block n', env.readFromDisk pindex = some block ∧ setBestChainInner env n block pindex = (n', true) ∧
      blockRecorded env n.chain n.pool n.txnBegin block pindex ∧ postponedConnect env rest n' := by
  rw [postponedConnect] at h
  cases hread : env.readFromDisk pindex with
  | none => simp [hread] at h
  | some block =>
    simp only [hread, Bool.and_eq_true] at h
    exact ⟨block, _, rfl, Prod.ext rfl h.1.1, h.1.2, h.2⟩

theorem connectPostponed_cons (pindex : CBlockIndex) (rest : List CBlockIndex) (n n' : Node L)
    (block : CBlock) (hread : env.readFromDisk pindex = some block)
    (hround : setBestChainInner env n block pindex = (n', true)) :
    connectPostponed env (pindex :: rest) n = connectPostponed env rest n' := by
  rw [connectPostponed.eq_def]
  simp only [hread, hround]

theorem connectPostponed_append (l l' : List CBlockIndex) (n : Node L)
    (h : postponedConnect env (l ++ l') n) :
    postponedConnect env l n ∧ postponedConnect env l' (connectPostponed env l n) ∧
      connectPostponed env (l ++ l') n = connectPostponed env l' (connectPostponed env l n) := by
  induction l generalizing n with
  | nil => exact ⟨rfl, h, rfl⟩
  | cons pindex rest ih =>
    rw [List.cons_append] at h ⊢
    obtain ⟨block, n', hread, hround, hrecorded, hrest⟩ := postponedConnect_cons env pindex _ n h
    obtain ⟨hfirst, hlast, happend⟩ := ih n' hrest
    rw [connectPostponed_cons env pindex rest n n' block hread hround,
      connectPostponed_cons env pindex (rest ++ l') n n' block hread hround]
    refine ⟨?_, hlast, happend⟩
    simp [postponedConnect, hread, hround, hrecorded, hfirst]

/-- What the loop over the postponed blocks keeps while it climbs from one block to the next. -/
structure Climbing (c : ChainState) (n : Node L) (pindex : CBlockIndex) : Prop where
  pindexBest : n.chain.pindexBest = c.pindexBest
  pindexGenesisBlock : n.chain.pindexGenesisBlock = c.pindexGenesisBlock
  mapBlockIndex : n.chain.mapBlockIndex = c.mapBlockIndex
  main : MainNext n.chain pindex
  recorded : ChainRecorded env n.disk.keyImages n.disk.txIndex pindex

theorem connectPostponed_records (c : ChainState) (hm : IndexClosed c.mapBlockIndex)
    (pindexNew pindexIntermediate pfork : CBlockIndex) (hnew : Filed c.mapBlockIndex pindexNew)
    (habove : pindexIntermediate <:+ pindexNew) (hfork : pfork <:+ pindexIntermediate)
    (hne : pindexIntermediate ≠ pindexNew → pfork ≠ pindexIntermediate) (hold : pfork <:+ c.pindexBest)
    (hsound : BranchSound env pindexNew pfork) (n : Node L)
    (h : Climbing env c n pindexIntermediate)
    (hconnect : postponedConnect env (branchAbove pindexNew pindexIntermediate).reverse n) :
    Climbing env c (connectPostponed env (branchAbove pindexNew pindexIntermediate).reverse n)
      pindexNew := by
  induction pindexNew with
  | nil =>
    obtain rfl := List.suffix_nil.mp habove
    rw [branchAbove_self]
    exact h
  | cons b pprev ih =>
    cases List.suffix_cons_iff.mp habove with
    | inl heq =>
      subst heq
      rw [branchAbove_self]
      exact h
    | inr htail =>
      have hproper : pindexIntermediate ≠ b :: pprev := by
        intro heq
        have hle := htail.length_le
        rw [heq, List.length_cons] at hle
        omega
      rw [branchAbove_cons b pprev _ htail, List.reverse_cons] at hconnect ⊢
      obtain ⟨hfirst, hlast, happend⟩ := connectPostponed_append env _ _ n hconnect
      rw [happend]
      have hprev := ih (hnew.suffix hm (List.suffix_cons b pprev)) htail (fun _ => hne hproper)
        (hsound.suffix env (hfork.trans htail) (List.suffix_cons b pprev)) hfirst
      obtain ⟨n₁, hn₁⟩ : ∃ n₁,
          connectPostponed env (branchAbove pprev pindexIntermediate).reverse n = n₁ := ⟨_, rfl⟩
      rw [hn₁] at hlast hprev ⊢
      obtain ⟨block, n₂, hread, hround, hrecorded, -⟩ := postponedConnect_cons env _ _ n₁ hlast
      rw [connectPostponed_cons env _ [] n₁ n₂ block hread hround]
      -- the fork is not the tip of what the pointers follow
      have hbelow : pfork ≠ pprev := by
        intro heq
        have hsame := htail.eq_of_length_le (heq ▸ hfork.length_le)
        exact hne hproper (heq.trans hsame.symm)
      have hmain : InMain n₁.chain pfork := by
        refine InMain.of_next ?_ ?_ hprev.main (hfork.trans htail) ?_ (Or.inr hbelow)
        · rw [hprev.mapBlockIndex]
          exact hm
        · rw [hprev.mapBlockIndex]
          exact hnew.suffix hm (List.suffix_cons b pprev)
        · rw [hprev.pindexBest]
          exact hold.length_le
      obtain ⟨hrec, hchain⟩ := setBestChainInner_records env n₁ n₂ block b pprev pfork
        (hfork.trans htail) hmain hsound hprev.recorded hread hrecorded hround
      have hframe := foldl_setNext_frame n₁.chain (fun _ => some b.hash) [b :: pprev]
      simp only [List.foldl_cons, List.foldl_nil, List.tail_cons, ← hchain] at hframe
      refine ⟨hframe.1.trans hprev.pindexBest, hframe.2.1.trans hprev.pindexGenesisBlock,
        hframe.2.2.trans hprev.mapBlockIndex, ?_, hrec⟩
      change MainNext n₂.chain (b :: pprev)
      rw [hchain]
      exact hprev.main.setNext n₁.chain b b.hash

end Calls

section Step

variable {Pt L : Type} (env : NodeEnv Pt L)

/-- The condition on a reorganisation: one that goes through has a sound branch whose blocks are all
connected and taken by the wallet, and one that fails leaves the records of the active images. -/
structure SwitchSound (n : Node L) (pindexNew pindexIntermediate pfork : CBlockIndex)
    (vpindexSecondary : List CBlockIndex) : Prop where
  accepted : (switchBranch env n (branchAbove n.chain.pindexBest pfork)
      (branchAbove pindexIntermediate pfork).reverse).2 = true →
    BranchSound env pindexNew pfork ∧
      switchRecorded env n (branchAbove n.chain.pindexBest pfork)
        (branchAbove pindexIntermediate pfork).reverse ∧
      postponedConnect env vpindexSecondary (reorganize env n pindexIntermediate).1
  rejected : (switchBranch env n (branchAbove n.chain.pindexBest pfork)
      (branchAbove pindexIntermediate pfork).reverse).2 = false →
    ∀ tx ∈ chainTxs env n.chain.pindexBest, ∀ k ∈ tx.spentImages,
      (replay env n (switchCalls env n (branchAbove n.chain.pindexBest pfork)
        (branchAbove pindexIntermediate pfork).reverse)).keyImages k = n.disk.keyImages k

/-- The condition on a call of `SetBestChain`. -/
def CallSound (n : Node L) (block : CBlock) (pindexNew : CBlockIndex) : Prop :=
  if n.chain.pindexGenesisBlock = [] ∧ block.getHash env.H = env.p.hashGenesisBlock then
    ∀ tx ∈ block.vtx, tx.spentImages = []
  else if block.hashPrevBlock = n.chain.hashBestChain then
    (connectBlock env n.chain n.pool false n.txnBegin block pindexNew).2 = true →
      BranchSound env pindexNew n.chain.pindexBest ∧
        blockRecorded env n.chain n.pool n.txnBegin block pindexNew
  else
    ∀ pfork, findFork n.chain.pindexBest
        (postponed (CBlockIndex.nChainTrust n.chain.pindexBest) pindexNew).1 = some pfork →
      SwitchSound env n pindexNew (postponed (CBlockIndex.nChainTrust n.chain.pindexBest) pindexNew).1
        pfork (postponed (CBlockIndex.nChainTrust n.chain.pindexBest) pindexNew).2

/-- A chain switch is possible only to other blocks than those of the active chain. -/
theorem postponed_ne_fork {m : UInt256 → Option CBlockIndex} (hm : IndexClosed m)
    (pindexBest pindexNew pfork : CBlockIndex) (hbest : Filed m pindexBest) (hfork : pfork <:+ pindexBest)
    (hmore : (postponed (CBlockIndex.nChainTrust pindexBest) pindexNew).1 ≠ pindexNew) :
    pfork ≠ (postponed (CBlockIndex.nChainTrust pindexBest) pindexNew).1 := by
  intro heq
  have hle := hbest.trust_le hm hfork
  have hlt : CBlockIndex.nChainTrust pindexBest <
      CBlockIndex.nChainTrust (postponed (CBlockIndex.nChainTrust pindexBest) pindexNew).1 := by
    cases pindexNew with
    | nil => exact absurd rfl hmore
    | cons b pprev =>
      unfold postponed at hmore ⊢
      by_cases hpost : pprev ≠ [] ∧
          CBlockIndex.nChainTrust pprev > CBlockIndex.nChainTrust pindexBest
      · rw [if_pos hpost]
        exact postponed_trust _ pprev hpost.2
      · rw [if_neg hpost] at hmore
        exact absurd rfl hmore
  rw [← heq] at hlt
  omega

/-- What is left of the records of the active chain when a reorganisation fails. -/
theorem ChainRecorded.of_kept {keyImages keyImages' : Bytes → Option CKeyImageSpent}
    {readTxIndex : UInt256 → Option CTxIndex} {chain : CBlockIndex}
    (h : ChainRecorded env keyImages readTxIndex chain)
    (hkept : ∀ tx ∈ chainTxs env chain, ∀ k ∈ tx.spentImages, keyImages' k = keyImages k) :
    ChainRecorded env keyImages' readTxIndex chain := by
  refine ⟨?_, h.located, h.once⟩
  intro tx htx k hk
  rw [hkept tx htx k hk]
  exact h.recorded tx htx k hk

/-- The genesis block becomes the best block. -/
theorem setBestChain_inv_genesis (n : Node L) (hinv : NodeInv env n) (block : CBlock)
    (pindexNew : CBlockIndex)
    (hfiled : n.chain.mapBlockIndex (CBlockIndex.getBlockHash pindexNew) = some pindexNew)
    (hread : env.readFromDisk pindexNew = some block)
    (hgenesis : n.chain.pindexGenesisBlock = [] ∧ block.getHash env.H = env.p.hashGenesisBlock)
    (himages : ∀ tx ∈ block.vtx, tx.spentImages = []) :
    NodeInv env (setBestChain env n block pindexNew).1 := by
  obtain ⟨b, pprev, rfl⟩ := List.exists_cons_of_ne_nil (hinv.closed.entry _ pindexNew hfiled).1
  obtain ⟨-, hhash⟩ := readFromDisk_eq_some env b pprev block hread
  obtain rfl := (hinv.linked _ b pprev hfiled).2.mpr (hhash.symm.trans hgenesis.2)
  simp only [setBestChain, hgenesis, and_self, if_true, newBest]
  refine ⟨hinv.closed, hinv.linked, fun _ => hfiled, ?_, fun hnil => (by cases hnil), ?_⟩
  · intro q hq hne hproper
    cases List.suffix_cons_iff.mp hq with
    | inl heq => exact absurd heq hproper
    | inr htail => exact absurd (List.suffix_nil.mp htail) hne
  · apply ChainRecorded.of_no_images
    intro tx htx
    rw [chainTxs, chainTxs, List.append_nil, blockTxs, hread] at htx
    exact himages tx htx

/-- A block on top of the best block. -/
theorem setBestChain_inv_extend (n : Node L) (hinv : NodeInv env n) (block : CBlock)
    (pindexNew : CBlockIndex)
    (hfiled : n.chain.mapBlockIndex (CBlockIndex.getBlockHash pindexNew) = some pindexNew)
    (hread : env.readFromDisk pindexNew = some block)
    (hgenesis : ¬ (n.chain.pindexGenesisBlock = [] ∧ block.getHash env.H = env.p.hashGenesisBlock))
    (hextends : block.hashPrevBlock = n.chain.hashBestChain)
    (hsound : (connectBlock env n.chain n.pool false n.txnBegin block pindexNew).2 = true →
      BranchSound env pindexNew n.chain.pindexBest ∧
        blockRecorded env n.chain n.pool n.txnBegin block pindexNew) :
    NodeInv env (setBestChain env n block pindexNew).1 := by
  obtain ⟨b, pprev, rfl⟩ := List.exists_cons_of_ne_nil (hinv.closed.entry _ pindexNew hfiled).1
  obtain ⟨rfl, -⟩ := (hinv.index env).extends_best env block b pprev hfiled hread hgenesis hextends
  simp only [setBestChain, hgenesis, hextends, if_true, if_false]
  rcases setBestChainInner_cases env n block (b :: n.chain.pindexBest) with
    ⟨s, hconnect, hcall⟩ | ⟨-, loc, hcall⟩
  · obtain ⟨hbranch, hrecorded⟩ := hsound (by rw [hconnect])
    have hmain : InMain n.chain n.chain.pindexBest :=
      InMain.of_next hinv.closed hinv.filed hinv.main List.suffix_rfl le_rfl (Or.inl rfl)
    obtain ⟨hrec, hchain⟩ := setBestChainInner_records env n _ block b _ _ List.suffix_rfl hmain
      hbranch hinv.recorded hread hrecorded hcall
    have hframe := foldl_setNext_frame n.chain (fun _ => some b.hash) [b :: n.chain.pindexBest]
    simp only [List.foldl_cons, List.foldl_nil, List.tail_cons, ← hchain] at hframe
    simp only [hcall, newBest]
    refine ⟨?_, ?_, ?_, ?_, fun hnil => (by cases hnil), hrec⟩
    · rw [hframe.2.2]
      exact hinv.closed
    · rw [hframe.2.2]
      exact hinv.linked
    · rw [hframe.2.2]
      exact fun _ => hfiled
    · rw [hchain]
      exact hinv.main.setNext n.chain b b.hash
  · simp only [hcall]
    have hsame : SameChain n { n with loc } := ⟨rfl, rfl, rfl, rfl, rfl, rfl⟩
    exact hsame.inv env hinv

/-- A reorganisation. -/
theorem setBestChain_inv_switch (n : Node L) (hinv : NodeInv env n) (block : CBlock)
    (pindexNew : CBlockIndex)
    (hfiled : n.chain.mapBlockIndex (CBlockIndex.getBlockHash pindexNew) = some pindexNew)
    (hgenesis : ¬ (n.chain.pindexGenesisBlock = [] ∧ block.getHash env.H = env.p.hashGenesisBlock))
    (hextends : ¬ block.hashPrevBlock = n.chain.hashBestChain)
    (hsound : ∀ pfork, findFork n.chain.pindexBest
        (postponed (CBlockIndex.nChainTrust n.chain.pindexBest) pindexNew).1 = some pfork →
      SwitchSound env n pindexNew (postponed (CBlockIndex.nChainTrust n.chain.pindexBest) pindexNew).1
        pfork (postponed (CBlockIndex.nChainTrust n.chain.pindexBest) pindexNew).2) :
    NodeInv env (setBestChain env n block pindexNew).1 := by
  have hne := (hinv.closed.entry _ pindexNew hfiled).1
  have hnew : Filed n.chain.mapBlockIndex pindexNew := fun _ => hfiled
  obtain ⟨habove, hsecondary⟩ := postponed_spec (CBlockIndex.nChainTrust n.chain.pindexBest) pindexNew
  have hmore := fun pfork => postponed_ne_fork hinv.closed n.chain.pindexBest pindexNew pfork hinv.filed
  simp only [setBestChain, hgenesis, hextends, if_false]
  generalize (postponed (CBlockIndex.nChainTrust n.chain.pindexBest) pindexNew).1 =
    pindexIntermediate at *
  generalize (postponed (CBlockIndex.nChainTrust n.chain.pindexBest) pindexNew).2 =
    vpindexSecondary at *
  have hinter : Filed n.chain.mapBlockIndex pindexIntermediate := hnew.suffix hinv.closed habove
  rcases reorganize_cases env n pindexIntermediate with
    ⟨pfork, s, hfork, hswitch, hcall⟩ | ⟨hfailed, s, hcall⟩
  · obtain ⟨-, hold, hbelow⟩ := findFork_suffix _ _ _ hfork
    obtain ⟨hbranch, hrecorded, hpostponed⟩ := (hsound pfork hfork).accepted (by rw [hswitch])
    have hrec := switchBranch_records env n hinv pindexIntermediate pfork hfork
      (hbranch.suffix env hbelow habove) hrecorded s hswitch
    have hframe := reorganizeNext_frame n.chain (branchAbove n.chain.pindexBest pfork)
      (branchAbove pindexIntermediate pfork).reverse
    have hclimb : Climbing env n.chain (switched env n s pindexIntermediate pfork) pindexIntermediate :=
      ⟨hframe.1, hframe.2.1, hframe.2.2, reorganizeNext_main n.chain pindexIntermediate pfork
        hinv.closed hinv.filed hinter hold hbelow hinv.main, hrec⟩
    rw [hcall, hsecondary] at hpostponed
    have htop := connectPostponed_records env n.chain hinv.closed pindexNew pindexIntermediate pfork
      hnew habove hbelow (hmore pfork hold) hold hbranch _ hclimb hpostponed
    simp only [hcall, hsecondary, newBest]
    refine ⟨?_, ?_, ?_, htop.main, fun hnil => absurd hnil hne, htop.recorded⟩
    · rw [htop.mapBlockIndex]
      exact hinv.closed
    · rw [htop.mapBlockIndex]
      exact hinv.linked
    · rw [htop.mapBlockIndex]
      exact hnew
  · simp only [hcall]
    refine ⟨hinv.closed, hinv.linked, hinv.filed, hinv.main, hinv.genesis, ?_⟩
    cases hfork : findFork n.chain.pindexBest pindexIntermediate with
    | none =>
      simp only [reorganize, hfork, Prod.mk.injEq, and_true] at hcall
      rw [← hcall]
      exact hinv.recorded
    | some pfork =>
      have hdisk := reorganize_failed_disk env n pindexIntermediate pfork hfork (by rw [hcall])
      rw [hcall] at hdisk
      have hindex := runCalls_txIndex env n.chain n.pool (switchCalls env n
        (branchAbove n.chain.pindexBest pfork) (branchAbove pindexIntermediate pfork).reverse)
        (n.disk, n.loc)
      rw [hdisk, replay, hindex]
      exact hinv.recorded.of_kept env ((hsound pfork hfork).rejected (hfailed pfork hfork))

/-- A call that meets the condition keeps the invariant. -/
theorem setBestChain_inv (n : Node L) (hinv : NodeInv env n) (block : CBlock) (pindexNew : CBlockIndex)
    (hfiled : n.chain.mapBlockIndex (CBlockIndex.getBlockHash pindexNew) = some pindexNew)
    (hread : env.readFromDisk pindexNew = some block) (hsound : CallSound env n block pindexNew) :
    NodeInv env (setBestChain env n block pindexNew).1 := by
  unfold CallSound at hsound
  by_cases hgenesis : n.chain.pindexGenesisBlock = [] ∧ block.getHash env.H = env.p.hashGenesisBlock
  · rw [if_pos hgenesis] at hsound
    exact setBestChain_inv_genesis env n hinv block pindexNew hfiled hread hgenesis hsound
  · rw [if_neg hgenesis] at hsound
    by_cases hextends : block.hashPrevBlock = n.chain.hashBestChain
    · rw [if_pos hextends] at hsound
      exact setBestChain_inv_extend env n hinv block pindexNew hfiled hread hgenesis hextends hsound
    · rw [if_neg hextends] at hsound
      exact setBestChain_inv_switch env n hinv block pindexNew hfiled hgenesis hextends hsound

theorem Reachable.inv {n : Node L} (h : Reachable env (CallSound env) n) : NodeInv env n := by
  induction h with
  | fresh pool loc supply nAdjustedTime => exact freshNode_inv env pool loc supply nAdjustedTime
  | other hn hsame ih => exact hsame.inv env ih
  | file hn block nFile nBlockPos hok ih => exact hok.inv env ih
  | setBestChain hn block pindexNew hfiled hread hsound ih =>
    exact setBestChain_inv env _ ih block pindexNew hfiled hread hsound

/-- No two different transactions of the chain spend the same image. -/
def NoDoubleSpend (chain : CBlockIndex) : Prop :=
  ∀ tx ∈ chainTxs env chain, ∀ tx' ∈ chainTxs env chain, ∀ k ∈ tx.spentImages, k ∈ tx'.spentImages →
    tx = tx'

theorem ChainRecorded.noDoubleSpend {keyImages : Bytes → Option CKeyImageSpent}
    {readTxIndex : UInt256 → Option CTxIndex} {chain : CBlockIndex}
    (h : ChainRecorded env keyImages readTxIndex chain) : NoDoubleSpend env chain := by
  intro tx htx tx' htx' k hk hk'
  obtain ⟨ski, hski, howner⟩ := h.recorded tx htx k hk
  obtain ⟨ski', hski', howner'⟩ := h.recorded tx' htx' k hk'
  obtain rfl : ski = ski' := Option.some.inj (hski.symm.trans hski')
  exact h.once.eq htx htx' (List.ne_nil_of_mem hk) (howner.symm.trans howner')

end Step

section Scene

/-- Block 13 with both spends of the coin. -/
def doubleBlock : CBlock := minedBlock (minedHash 12) 13 0 0 1 [firstSpend, secondSpend]

def doubleIndex : CBlockIndex :=
  minedNode 0x7229811d99c62d61c8365c8286997ca7c0bdf0586877907090de634b6aca23e8 (minedPos 13) 13 ::
    minedIndex 12

def doubleFile : BlockFile := minedFile ++ [(minedPos 13, doubleBlock)]

def emptyNode : Node Unit := freshNode CTxMemPool.empty () (fun _ => ⟨0, 0, 0⟩) 1530002000

def genesisIndex : CBlockIndex :=
  newIndex (testNode doubleFile) emptyNode.chain testGenesis 1 (minedPos 0)

/-- The test node with the genesis block. -/
def genesisNode : Node Unit :=
  (addToBlockIndex (testNode doubleFile) emptyNode testGenesis 1 (minedPos 0)).1

private theorem genesisNode_reachable (condition : Node Unit → CBlock → CBlockIndex → Prop)
    (hcondition : condition (insertIndex emptyNode genesisIndex) testGenesis genesisIndex) :
    Reachable (testNode doubleFile) condition genesisNode := by
  refine Reachable.addToBlockIndex _ (Reachable.fresh _ _ _ _) testGenesis 1 (minedPos 0) ?_ ?_ hcondition
  · exact ⟨by decide +kernel, rfl, by decide +kernel, Or.inl ⟨rfl, by decide +kernel, rfl⟩⟩
  · decide +kernel

/-- The test node with the genesis block and block 1. -/
def firstNode : Node Unit :=
  (addToBlockIndex (testNode doubleFile) genesisNode (minedChainBlock 1) 1 (minedPos 1)).1

end Scene

end AliasWallet
