import AliasWallet.Chain.SwitchRecords
import AliasWallet.Chain.TipAgreement

/-!
# The transaction index over runs

The rule for what a run keeps between the transaction index and the active chain: it is enough to look at
one block that is connected and at one that is disconnected. A call whose postponed blocks fail is left
out, since the active chain then has blocks that were never connected.
-/

namespace AliasWallet
open Lib

section Rule

variable {Pt L : Type} (env : NodeEnv Pt L) (m : UInt256 → Option CBlockIndex)
  (R : (UInt256 → Option CTxIndex) → CBlockIndex → Prop)

/-- The relation follows the chain over each block of the block index. -/
structure FollowsChain : Prop where
  genesis : ∀ txIndex b, R txIndex [] → R txIndex [b]
  connect : ∀ (c : ChainState) (pool : CTxMemPool) (s s' : Session L) (block : CBlock) (b : BlockNode)
    (chain : CBlockIndex), Filed m (b :: chain) → env.readFromDisk (b :: chain) = some block →
    R s.readTxIndex chain → connectBlock env c pool false s block (b :: chain) = (s', true) →
    R s'.readTxIndex (b :: chain)
  disconnect : ∀ (pool : CTxMemPool) (s s' : Session L) (block : CBlock) (b : BlockNode)
    (chain : CBlockIndex), Filed m (b :: chain) → env.readFromDisk (b :: chain) = some block →
    R s.readTxIndex (b :: chain) → disconnectBlock env pool s block (b :: chain) = (s', true) →
    R s'.readTxIndex chain

variable {env m R}

theorem FollowsChain.disconnectBranch (h : FollowsChain env m R) (hm : IndexClosed m) (pool : CTxMemPool)
    (chain pfork : CBlockIndex) (hfork : pfork <:+ chain) (hfiled : Filed m chain) (s s' : Session L)
    (hrec : R s.readTxIndex chain)
    (hloop : forEachBlock env (disconnectBlock env pool) (branchAbove chain pfork) s = (s', true)) :
    R s'.readTxIndex pfork := by
  induction chain generalizing s with
  | nil =>
    obtain rfl := List.suffix_nil.mp hfork
    rw [branchAbove_self, forEachBlock, Prod.mk.injEq] at hloop
    rwa [← hloop.1]
  | cons b pprev ih =>
    cases List.suffix_cons_iff.mp hfork with
    | inl heq =>
      subst heq
      rw [branchAbove_self, forEachBlock, Prod.mk.injEq] at hloop
      rwa [← hloop.1]
    | inr htail =>
      rw [branchAbove_cons b pprev pfork htail] at hloop
      obtain ⟨block, s₁, hread, hround, hrest⟩ := forEachBlock_cons_eq_true env _ _ _ s s' hloop
      have hprev := h.disconnect pool s s₁ block b pprev hfiled hread hrec hround
      exact ih htail (hfiled.suffix hm (List.suffix_cons b pprev)) s₁ hprev hrest

theorem FollowsChain.connectBranch (h : FollowsChain env m R) (hm : IndexClosed m) (c : ChainState)
    (pool : CTxMemPool) (pindex pfork : CBlockIndex) (hfork : pfork <:+ pindex) (hfiled : Filed m pindex)
    (s s' : Session L) (hrec : R s.readTxIndex pfork)
    (hloop : forEachBlock env (connectBlock env c pool false) (branchAbove pindex pfork).reverse s =
      (s', true)) : R s'.readTxIndex pindex := by
  induction pindex generalizing s' with
  | nil =>
    obtain rfl := List.suffix_nil.mp hfork
    rw [branchAbove_self, List.reverse_nil, forEachBlock, Prod.mk.injEq] at hloop
    rwa [← hloop.1]
  | cons b pprev ih =>
    cases List.suffix_cons_iff.mp hfork with
    | inl heq =>
      subst heq
      rw [branchAbove_self, List.reverse_nil, forEachBlock, Prod.mk.injEq] at hloop
      rwa [← hloop.1]
    | inr htail =>
      rw [branchAbove_cons b pprev pfork htail, List.reverse_cons] at hloop
      obtain ⟨s₁, hbelow, htop⟩ := forEachBlock_append_eq_true env _ _ _ s s' hloop
      have hprev := ih htail (hfiled.suffix hm (List.suffix_cons b pprev)) s₁ hbelow
      obtain ⟨block, s₂, hread, hround, hdone⟩ := forEachBlock_cons_eq_true env _ _ _ s₁ s' htop
      rw [forEachBlock, Prod.mk.injEq] at hdone
      obtain ⟨rfl, -⟩ := hdone
      exact h.connect c pool s₁ s₂ block b pprev hfiled hread hprev hround

theorem FollowsChain.setBestChainInner (h : FollowsChain env m R) (n : Node L) (block : CBlock)
    (b : BlockNode) (pprev : CBlockIndex) (hfiled : Filed m (b :: pprev))
    (hread : env.readFromDisk (b :: pprev) = some block) (hrec : R n.disk.txIndex pprev)
    (hok : (AliasWallet.setBestChainInner env n block (b :: pprev)).2 = true) :
    R (AliasWallet.setBestChainInner env n block (b :: pprev)).1.disk.txIndex (b :: pprev) := by
  rcases setBestChainInner_cases env n block (b :: pprev) with ⟨s, hconnect, hcall⟩ | ⟨-, loc, hcall⟩
  · rw [hcall]
    exact h.connect n.chain n.pool n.txnBegin s block b pprev hfiled hread hrec hconnect
  · rw [hcall] at hok
    cases hok

/-- The loop over postponed blocks, cut in two. -/
theorem PostponedPass.append (l l' : List CBlockIndex) (n : Node L) (h : PostponedPass env (l ++ l') n) :
    PostponedPass env l n ∧ PostponedPass env l' (connectPostponed env l n) ∧
      connectPostponed env (l ++ l') n = connectPostponed env l' (connectPostponed env l n) := by
  induction l generalizing n with
  | nil => exact ⟨trivial, h, rfl⟩
  | cons pindex rest ih =>
    obtain ⟨block, hread, hconnect, hrest⟩ := h
    have hround : ∀ l, connectPostponed env (pindex :: l) n =
        connectPostponed env l (setBestChainInner env n block pindex).1 := by
      intro l
      have hpass : (setBestChainInner env n block pindex).2 = true := by
        rw [setBestChainInner_accepts]
        exact hconnect
      rw [connectPostponed.eq_def]
      simp only [hread]
      rw [← Prod.mk.eta (p := setBestChainInner env n block pindex), hpass]
    obtain ⟨hfirst, hlast, happend⟩ := ih _ hrest
    rw [List.cons_append, hround, hround]
    exact ⟨⟨block, hread, hconnect, hfirst⟩, hlast, happend⟩

theorem FollowsChain.connectPostponed (h : FollowsChain env m R) (hm : IndexClosed m)
    (pindexNew pindexIntermediate : CBlockIndex) (habove : pindexIntermediate <:+ pindexNew)
    (hfiled : Filed m pindexNew) (n : Node L) (hrec : R n.disk.txIndex pindexIntermediate)
    (hpass : PostponedPass env (branchAbove pindexNew pindexIntermediate).reverse n) :
    R (AliasWallet.connectPostponed env (branchAbove pindexNew pindexIntermediate).reverse n).disk.txIndex
      pindexNew := by
  induction pindexNew with
  | nil =>
    obtain rfl := List.suffix_nil.mp habove
    rwa [branchAbove_self]
  | cons b pprev ih =>
    cases List.suffix_cons_iff.mp habove with
    | inl heq =>
      subst heq
      rwa [branchAbove_self]
    | inr htail =>
      rw [branchAbove_cons b pprev _ htail, List.reverse_cons] at hpass ⊢
      obtain ⟨hfirst, hlast, happend⟩ := PostponedPass.append _ _ n hpass
      rw [happend]
      have hprev := ih htail (hfiled.suffix hm (List.suffix_cons b pprev)) hfirst
      obtain ⟨block, hread, hconnect, -⟩ := hlast
      rw [← setBestChainInner_accepts] at hconnect
      have htop := h.setBestChainInner _ block b pprev hfiled hread hprev hconnect
      have hround : ∀ n' : Node L, (AliasWallet.setBestChainInner env n' block (b :: pprev)).2 = true →
          AliasWallet.connectPostponed env [b :: pprev] n' =
            (AliasWallet.setBestChainInner env n' block (b :: pprev)).1 := by
        intro n' hok
        rw [connectPostponed.eq_def]
        simp only [hread]
        rw [← Prod.mk.eta (p := AliasWallet.setBestChainInner env n' block (b :: pprev)), hok]
        rfl
      rwa [hround _ hconnect]

/-- A call that fails leaves the transaction index as it was. -/
theorem setBestChain_failed_txIndex (n : Node L) (block : CBlock) (pindexNew : CBlockIndex)
    (hfail : (setBestChain env n block pindexNew).2 = false) :
    (setBestChain env n block pindexNew).1.disk.txIndex = n.disk.txIndex := by
  rw [setBestChain_failed_disk env n block pindexNew hfail, replay]
  exact runCalls_txIndex env n.chain n.pool _ (n.disk, n.loc)

/-- The relation over a call of `SetBestChain`. -/
theorem FollowsChain.setBestChain {n : Node L} (h : FollowsChain env n.chain.mapBlockIndex R)
    (hindex : IndexInv env n) (hroot : n.chain.pindexGenesisBlock = [] → n.chain.pindexBest = [])
    (hrec : R n.disk.txIndex n.chain.pindexBest) (block : CBlock) (pindexNew : CBlockIndex)
    (hfiled : n.chain.mapBlockIndex (CBlockIndex.getBlockHash pindexNew) = some pindexNew)
    (hread : env.readFromDisk pindexNew = some block) (hpass : PostponedBlocksPass env n block pindexNew) :
    R (AliasWallet.setBestChain env n block pindexNew).1.disk.txIndex
      (AliasWallet.setBestChain env n block pindexNew).1.chain.pindexBest := by
  rcases setBestChain_tip env n block pindexNew with ⟨hfail, hsame⟩ | ⟨hok, hbest, -⟩
  · rw [setBestChain_failed_txIndex n block pindexNew hfail, hsame.pindexBest]
    exact hrec
  · rw [hbest]
    have hnew : Filed n.chain.mapBlockIndex pindexNew := fun _ => hfiled
    obtain ⟨b, pprev, rfl⟩ := List.exists_cons_of_ne_nil (hindex.closed.entry _ pindexNew hfiled).1
    obtain ⟨-, hhash⟩ := readFromDisk_eq_some env b pprev block hread
    by_cases hgenesis : n.chain.pindexGenesisBlock = [] ∧ block.getHash env.H = env.p.hashGenesisBlock
    · obtain rfl := (hindex.linked _ b pprev hfiled).2.mpr (hhash.symm.trans hgenesis.2)
      simp only [AliasWallet.setBestChain, hgenesis, and_self, if_true, newBest]
      rw [hroot hgenesis.1] at hrec
      exact h.genesis _ b hrec
    · by_cases hextends : block.hashPrevBlock = n.chain.hashBestChain
      · obtain ⟨rfl, -⟩ := hindex.extends_best env block b pprev hfiled hread hgenesis hextends
        simp only [AliasWallet.setBestChain, hgenesis, hextends, if_true, if_false] at hok ⊢
        have htop := h.setBestChainInner n block b _ hnew hread hrec
        cases hcall : AliasWallet.setBestChainInner env n block (b :: n.chain.pindexBest) with
        | mk n' fOk =>
          rw [hcall] at hok htop
          cases fOk with
          | false => cases hok
          | true => exact htop rfl
      · obtain ⟨habove, hsecondary⟩ :=
          postponed_spec (CBlockIndex.nChainTrust n.chain.pindexBest) (b :: pprev)
        have hpostponed := hpass hgenesis hextends
        simp only [AliasWallet.setBestChain, hgenesis, hextends, if_false] at hok ⊢
        generalize (postponed (CBlockIndex.nChainTrust n.chain.pindexBest) (b :: pprev)).1 =
          pindexIntermediate at *
        generalize (postponed (CBlockIndex.nChainTrust n.chain.pindexBest) (b :: pprev)).2 =
          vpindexSecondary at *
        rcases reorganize_cases env n pindexIntermediate with
          ⟨pfork, s, hfork, hswitch, hcall⟩ | ⟨-, s, hcall⟩
        · obtain ⟨-, hold, hbelow⟩ := findFork_suffix _ _ _ hfork
          rw [hcall] at hpostponed
          simp only [hcall, hsecondary, newBest]
          rw [hsecondary] at hpostponed
          apply h.connectPostponed hindex.closed _ _ habove hnew _ ?_ (hpostponed rfl)
          unfold switchBranch at hswitch
          cases hdisconnect : forEachBlock env (disconnectBlock env n.pool)
              (branchAbove n.chain.pindexBest pfork) n.txnBegin with
          | mk s₁ fOk =>
            rw [hdisconnect] at hswitch
            cases fOk with
            | false => cases hswitch
            | true =>
              have hfork := h.disconnectBranch hindex.closed n.pool _ pfork hold hindex.filed n.txnBegin s₁
                hrec hdisconnect
              exact h.connectBranch hindex.closed n.chain n.pool _ pfork hbelow
                (hnew.suffix hindex.closed habove) s₁ s hfork hswitch
        · rw [hcall] at hok
          cases hok

end Rule

section Stored

variable {Pt L : Type} (env : NodeEnv Pt L)

/-- The block at the position of an entry has the hash of the entry. -/
def IndexStored (m : UInt256 → Option CBlockIndex) : Prop :=
  ∀ h b pprev, m h = some (b :: pprev) →
    ∃ block, env.readBlock b.nFile b.nBlockPos = some block ∧ block.getHash env.H = b.hash

/-- What every run keeps beside `IndexInv`. -/
structure StoredInv (n : Node L) : Prop where
  stored : IndexStored env n.chain.mapBlockIndex
  root : n.chain.pindexGenesisBlock = [] → n.chain.pindexBest = []

theorem StoredInv.setBestChain {n : Node L} (h : StoredInv env n) (hindex : IndexInv env n) (block : CBlock)
    (pindexNew : CBlockIndex)
    (hfiled : n.chain.mapBlockIndex (CBlockIndex.getBlockHash pindexNew) = some pindexNew)
    (hread : env.readFromDisk pindexNew = some block) :
    StoredInv env (AliasWallet.setBestChain env n block pindexNew).1 := by
  have hne := (hindex.closed.entry _ pindexNew hfiled).1
  rcases setBestChain_tip env n block pindexNew with ⟨-, hsame⟩ | ⟨hok, hbest, hmap⟩
  · constructor
    · rw [hsame.mapBlockIndex]
      exact h.stored
    · rw [hsame.pindexGenesisBlock, hsame.pindexBest]
      exact h.root
  · refine ⟨by rw [hmap]; exact h.stored, fun hnil => ?_⟩
    exfalso
    -- a block becomes the best one on top of the first, or as the first
    simp only [AliasWallet.setBestChain] at hok hnil
    by_cases hgenesis : n.chain.pindexGenesisBlock = [] ∧ block.getHash env.H = env.p.hashGenesisBlock
    · rw [if_pos hgenesis] at hnil
      exact hne hnil
    · rw [if_neg hgenesis] at hok hnil
      by_cases hextends : block.hashPrevBlock = n.chain.hashBestChain
      · obtain ⟨b, pprev, rfl⟩ := List.exists_cons_of_ne_nil hne
        obtain ⟨-, hbest⟩ := hindex.extends_best env block b pprev hfiled hread hgenesis hextends
        rw [if_pos hextends] at hok hnil
        have hsame := setBestChainInner_sameIndex env n block (b :: pprev)
        cases hcall : setBestChainInner env n block (b :: pprev) with
        | mk n' fOk =>
          rw [hcall] at hok hnil hsame
          cases fOk with
          | false => cases hok
          | true => exact hbest (h.root (hsame.pindexGenesisBlock ▸ hnil))
      · rw [if_neg hextends] at hok hnil
        rcases reorganize_cases env n
          (postponed (CBlockIndex.nChainTrust n.chain.pindexBest) pindexNew).1 with
          ⟨pfork, s, hfork, -, hcall⟩ | ⟨-, s, hcall⟩
        · obtain ⟨hfork0, hold, -⟩ := findFork_suffix _ _ _ hfork
          have hsame := reorganize_sameIndex env n
            (postponed (CBlockIndex.nChainTrust n.chain.pindexBest) pindexNew).1
          rw [hcall] at hsame
          simp only [hcall] at hnil
          have hrest := connectPostponed_sameIndex env
            (postponed (CBlockIndex.nChainTrust n.chain.pindexBest) pindexNew).2
            (switched env n s (postponed (CBlockIndex.nChainTrust n.chain.pindexBest) pindexNew).1 pfork)
          have hbest := h.root ((hsame.trans hrest).pindexGenesisBlock ▸ hnil)
          rw [hbest] at hold
          exact hfork0 (List.suffix_nil.mp hold)
        · simp only [hcall] at hok
          cases hok

theorem Reachable.storedInv {condition : Node L → CBlock → CBlockIndex → Prop} {n : Node L}
    (h : Reachable env condition n) : StoredInv env n := by
  induction h with
  | fresh pool loc supply nAdjustedTime => exact ⟨fun _ _ _ h => (by cases h), fun _ => rfl⟩
  | other hn hsame ih =>
    constructor
    · rw [hsame.mapBlockIndex]
      exact ih.stored
    · rw [hsame.pindexGenesisBlock, hsame.pindexBest]
      exact ih.root
  | @file n hn block nFile nBlockPos hok ih =>
    refine ⟨?_, ih.root⟩
    intro hash b pprev hfound
    simp only [newIndex, insertIndex, CBlockIndex.getBlockHash, List.head?_cons, Option.map_some,
      Option.getD_some] at hfound
    by_cases hhash : hash = block.getHash env.H
    · rw [hhash, Function.update_self, Option.some.injEq] at hfound
      obtain ⟨rfl, -⟩ := List.cons.inj hfound
      exact ⟨block, hok.stored, rfl⟩
    · rw [Function.update_of_ne hhash] at hfound
      exact ih.stored hash b pprev hfound
  | setBestChain hn block pindexNew hfiled hread hcondition ih =>
    exact ih.setBestChain env (hn.index env) block pindexNew hfiled hread

/-- Blocks of the index at one position are one block. -/
theorem IndexStored.eq_of_pos {m : UInt256 → Option CBlockIndex} (hstored : IndexStored env m)
    {b b' : BlockNode} {pprev pprev' : CBlockIndex} (hb : Filed m (b :: pprev)) (hb' : Filed m (b' :: pprev'))
    (hfile : b.nFile = b'.nFile) (hpos : b.nBlockPos = b'.nBlockPos) : b :: pprev = b' :: pprev' := by
  obtain ⟨block, hread, hhash⟩ := hstored _ b pprev (hb (List.cons_ne_nil _ _))
  obtain ⟨block', hread', hhash'⟩ := hstored _ b' pprev' (hb' (List.cons_ne_nil _ _))
  rw [hfile, hpos, hread', Option.some.injEq] at hread
  rw [hread] at hhash'
  exact hb.eq_of_hash hb' (List.cons_ne_nil _ _) (List.cons_ne_nil _ _) (hhash.symm.trans hhash')

/-- The rule: a relation that follows the chain in every block index holds in every run. -/
theorem Reachable.follows {R : (UInt256 → Option CTxIndex) → CBlockIndex → Prop}
    (hfollows : ∀ m, IndexClosed m → IndexStored env m → FollowsChain env m R)
    (hfresh : R (fun _ => none) []) {n : Node L} (h : Reachable env (PostponedBlocksPass env) n) :
    R n.disk.txIndex n.chain.pindexBest := by
  induction h with
  | fresh pool loc supply nAdjustedTime => exact hfresh
  | other hn hsame ih =>
    rw [hsame.txIndex, hsame.pindexBest]
    exact ih
  | file hn block nFile nBlockPos hok ih => exact ih
  | setBestChain hn block pindexNew hfiled hread hpass ih =>
    have hindex := hn.index env
    have hstored := hn.storedInv env
    exact (hfollows _ hindex.closed hstored.stored).setBestChain hindex hstored.root ih block pindexNew hfiled
      hread hpass

end Stored

end AliasWallet
