import AliasWallet.Chain.BestChain
import AliasWallet.Chain.ConnectSpec

/-!
# What a change of the best chain can do

Each of the three functions either goes through, with a known node afterwards, or fails and leaves the
block index and the pool as they were.
-/

namespace AliasWallet
open Lib

section Cases

variable {Pt L : Type} (env : NodeEnv Pt L) (n : Node L)

/-- The node after a block on top of the best chain. -/
def extended (s : Session L) (block : CBlock) (pindexNew : CBlockIndex) : Node L :=
  { n.txnCommit s (block.getHash env.H) with
    chain := n.chain.setNext pindexNew.tail (some (CBlockIndex.getBlockHash pindexNew))
    pool := block.vtx.foldl (CTxMemPool.remove · env.C.hash) n.pool }

theorem setBestChainInner_cases (block : CBlock) (pindexNew : CBlockIndex) :
    (∃ s, connectBlock env n.chain n.pool false n.txnBegin block pindexNew = (s, true) ∧
      setBestChainInner env n block pindexNew = (extended env n s block pindexNew, true)) ∨
    (connectBlock env n.chain n.pool false n.txnBegin block pindexNew).2 = false ∧
      ∃ loc, setBestChainInner env n block pindexNew = ({ n with loc }, false) := by
  unfold setBestChainInner
  rcases connectBlock_cases env n.chain n.pool n.txnBegin block pindexNew with
    ⟨t, -, hconnect⟩ | ⟨loc, hconnect⟩
  · rw [hconnect]
    exact Or.inl ⟨_, rfl, rfl⟩
  · rw [hconnect]
    exact Or.inr ⟨rfl, _, rfl⟩

/-- The node after a reorganisation. -/
def switched (s : Session L) (pindexNew pfork : CBlockIndex) : Node L :=
  { n.txnCommit s (CBlockIndex.getBlockHash pindexNew) with
    chain := reorganizeNext n.chain (branchAbove n.chain.pindexBest pfork)
      (branchAbove pindexNew pfork).reverse
    pool := reorganizePool env s.loc n.pool (branchAbove n.chain.pindexBest pfork)
      (branchAbove pindexNew pfork).reverse }

theorem reorganize_cases (pindexNew : CBlockIndex) :
    (∃ pfork s, findFork n.chain.pindexBest pindexNew = some pfork ∧
      switchBranch env n (branchAbove n.chain.pindexBest pfork) (branchAbove pindexNew pfork).reverse =
        (s, true) ∧ reorganize env n pindexNew = (switched env n s pindexNew pfork, true)) ∨
    (∀ pfork, findFork n.chain.pindexBest pindexNew = some pfork →
      (switchBranch env n (branchAbove n.chain.pindexBest pfork)
        (branchAbove pindexNew pfork).reverse).2 = false) ∧
      ∃ s, reorganize env n pindexNew = (n.txnAbort env.wallet s, false) := by
  unfold reorganize
  cases hfork : findFork n.chain.pindexBest pindexNew with
  | none => exact Or.inr ⟨fun pfork h => (by cases h), _, rfl⟩
  | some pfork =>
    cases hswitch : switchBranch env n (branchAbove n.chain.pindexBest pfork)
        (branchAbove pindexNew pfork).reverse with
    | mk s fOk =>
      cases fOk with
      | false =>
        refine Or.inr ⟨fun pfork' h => ?_, s, ?_⟩
        · rw [← Option.some.inj h, hswitch]
        · simp only [hswitch]
      | true =>
        refine Or.inl ⟨pfork, s, rfl, hswitch, ?_⟩
        simp only [hswitch]
        rfl

end Cases

end AliasWallet
