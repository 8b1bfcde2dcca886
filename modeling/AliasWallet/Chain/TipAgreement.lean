import AliasWallet.Chain.FailedSwitch
import AliasWallet.Chain.Runs

/-!
# The tip in memory and on disk

A run with a log of the blocks that are connected. `SetBestChain` names the new block as the best one
even where the loop over the postponed blocks stopped before it; the database then names the last block
that was connected.
-/

namespace AliasWallet
open Lib

section Log

variable {Pt L : Type} (env : NodeEnv Pt L)

/-- The postponed blocks that the loop connects. -/
def postponedDone : List CBlockIndex → Node L → List CBlockIndex
  | [], _ => []
  | pindex :: rest, n =>
    match env.readFromDisk pindex with
    | none => []
    | some block =>
      if (setBestChainInner env n block pindex).2 then
        pindex :: postponedDone rest (setBestChainInner env n block pindex).1
      else []

/-- The blocks that a call connects. The genesis block counts as connected when it is set. -/
def connectedBy (n : Node L) (block : CBlock) (pindexNew : CBlockIndex) : List CBlockIndex :=
  if n.chain.pindexGenesisBlock = [] ∧ block.getHash env.H = env.p.hashGenesisBlock then [pindexNew]
  else if block.hashPrevBlock = n.chain.hashBestChain then
    if (setBestChainInner env n block pindexNew).2 then [pindexNew] else []
  else
    let (pindexIntermediate, vpindexSecondary) :=
      postponed (CBlockIndex.nChainTrust n.chain.pindexBest) pindexNew
    match findFork n.chain.pindexBest pindexIntermediate with
    | none => []
    | some pfork =>
      if (reorganize env n pindexIntermediate).2 then
        (branchAbove pindexIntermediate pfork).reverse ++
          postponedDone env vpindexSecondary (reorganize env n pindexIntermediate).1
      else []

/-- The blocks that a call disconnects. -/
def disconnectedBy (n : Node L) (block : CBlock) (pindexNew : CBlockIndex) : List CBlockIndex :=
  if n.chain.pindexGenesisBlock = [] ∧ block.getHash env.H = env.p.hashGenesisBlock then []
  else if block.hashPrevBlock = n.chain.hashBestChain then []
  else
    let (pindexIntermediate, _) := postponed (CBlockIndex.nChainTrust n.chain.pindexBest) pindexNew
    match findFork n.chain.pindexBest pindexIntermediate with
    | none => []
    | some pfork =>
      if (reorganize env n pindexIntermediate).2 then branchAbove n.chain.pindexBest pfork else []

/-- The log after a call. -/
def connectedAfter (n : Node L) (block : CBlock) (pindexNew : CBlockIndex)
    (connected : CBlockIndex → Prop) (q : CBlockIndex) : Prop :=
  q ∈ connectedBy env n block pindexNew ∨
    connected q ∧ q ∉ disconnectedBy env n block pindexNew

/-- The nodes that a run reaches in which every call meets the condition, with the blocks that are
connected there. -/
inductive LoggedRun (condition : Node L → CBlock → CBlockIndex → Prop) :
    Node L → (CBlockIndex → Prop) → Prop
  | fresh (pool : CTxMemPool) (loc : L) (supply : UInt256 → Supply) (nAdjustedTime : Int) :
    LoggedRun condition (freshNode pool loc supply nAdjustedTime) fun _ => False
  | other {n n' : Node L} {connected : CBlockIndex → Prop} (hn : LoggedRun condition n connected)
    (hsame : SameChain n n') (hbest : n'.disk.hashBestChain = n.disk.hashBestChain) :
    LoggedRun condition n' connected
  | file {n : Node L} {connected : CBlockIndex → Prop} (hn : LoggedRun condition n connected)
    (block : CBlock) (nFile nBlockPos : UInt32) (hok : Acceptable env n block nFile nBlockPos) :
    LoggedRun condition (insertIndex n (newIndex env n.chain block nFile nBlockPos)) connected
  | setBestChain {n : Node L} {connected : CBlockIndex → Prop} (hn : LoggedRun condition n connected)
    (block : CBlock) (pindexNew : CBlockIndex)
    (hfiled : n.chain.mapBlockIndex (CBlockIndex.getBlockHash pindexNew) = some pindexNew)
    (hread : env.readFromDisk pindexNew = some block) (hcondition : condition n block pindexNew) :
    LoggedRun condition (setBestChain env n block pindexNew).1
      (connectedAfter env n block pindexNew connected)

theorem LoggedRun.reachable {condition : Node L → CBlock → CBlockIndex → Prop} {n : Node L}
    {connected : CBlockIndex → Prop} (h : LoggedRun env condition n connected) :
    Reachable env condition n := by
  induction h with
  | fresh pool loc supply nAdjustedTime => exact Reachable.fresh pool loc supply nAdjustedTime
  | other hn hsame hbest ih => exact ih.other hsame
  | file hn block nFile nBlockPos hok ih => exact ih.file block nFile nBlockPos hok
  | setBestChain hn block pindexNew hfiled hread hcondition ih =>
    exact ih.setBestChain block pindexNew hfiled hread hcondition

/-- The database names the best block, and it and all blocks below it are connected. -/
structure TipAgrees (n : Node L) (connected : CBlockIndex → Prop) : Prop where
  hashBestChain : n.disk.hashBestChain = some n.chain.hashBestChain
  connected : ∀ q, q <:+ n.chain.pindexBest → q ≠ [] → connected q

/-- Each postponed block is read and passes `ConnectBlock` when its turn comes. -/
def PostponedPass : List CBlockIndex → Node L → Prop
  | [], _ => True
  | pindex :: rest, n =>
    ∃ block, env.readFromDisk pindex = some block ∧
      (connectBlock env n.chain n.pool false n.txnBegin block pindex).2 = true ∧
      PostponedPass rest (setBestChainInner env n block pindex).1

/-- The condition on a call: after a reorganisation the postponed blocks pass as well. -/
def PostponedBlocksPass (n : Node L) (block : CBlock) (pindexNew : CBlockIndex) : Prop :=
  ¬ (n.chain.pindexGenesisBlock = [] ∧ block.getHash env.H = env.p.hashGenesisBlock) →
    block.hashPrevBlock ≠ n.chain.hashBestChain →
    (reorganize env n (postponed (CBlockIndex.nChainTrust n.chain.pindexBest) pindexNew).1).2 = true →
    PostponedPass env (postponed (CBlockIndex.nChainTrust n.chain.pindexBest) pindexNew).2
      (reorganize env n (postponed (CBlockIndex.nChainTrust n.chain.pindexBest) pindexNew).1).1

end Log

section Disk

variable {Pt L : Type} (env : NodeEnv Pt L)

/-- The wallet never writes the best block. -/
theorem syncConnect_hashBestChain (c : ChainState) (pool : CTxMemPool) (nBlockHeight : Int)
    (s : Disk × L) (tx : CTransaction) :
    (syncConnect env c pool nBlockHeight s tx).1.hashBestChain = s.1.hashBestChain := by
  unfold syncConnect
  split
  · cases hprocess : processAnonTransaction env c s.2 true tx nBlockHeight ⟨s.1, pool⟩ with
    | none => rfl
    | some st =>
      exact (processAnonTransaction_records env c s.2 tx nBlockHeight ⟨s.1, pool⟩ st hprocess).hashBestChain
  · rfl

theorem runCall_hashBestChain (c : ChainState) (pool : CTxMemPool) (s : Disk × L) (call : WalletCall) :
    (runCall env c pool s call).1.hashBestChain = s.1.hashBestChain := by
  cases call with
  | disconnect block pindex =>
    refine List.foldlRecOn (motive := fun t : Disk × L => t.1.hashBestChain = s.1.hashBestChain)
      block.vtx _ rfl ?_
    intro t ht tx _
    rw [(syncDisconnect_undone env pool t tx).hashBestChain, ht]
  | connect block pindex =>
    refine List.foldlRecOn (motive := fun t : Disk × L => t.1.hashBestChain = s.1.hashBestChain)
      block.vtx _ rfl ?_
    intro t ht tx _
    rw [syncConnect_hashBestChain, ht]

theorem replay_hashBestChain (n : Node L) (calls : List WalletCall) :
    (replay env n calls).hashBestChain = n.disk.hashBestChain := by
  refine List.foldlRecOn (motive := fun t : Disk × L => t.1.hashBestChain = n.disk.hashBestChain)
    calls _ rfl ?_
  intro t ht call _
  rw [runCall_hashBestChain, ht]

/-- A connected block is the best one on disk. -/
theorem setBestChainInner_hashBestChain (n : Node L) (block : CBlock) (pindexNew : CBlockIndex)
    (hread : env.readFromDisk pindexNew = some block)
    (h : (setBestChainInner env n block pindexNew).2 = true) :
    (setBestChainInner env n block pindexNew).1.disk.hashBestChain =
      some (CBlockIndex.getBlockHash pindexNew) := by
  cases pindexNew with
  | nil => cases hread
  | cons b pprev =>
    obtain ⟨-, hhash⟩ := readFromDisk_eq_some env b pprev block hread
    rcases setBestChainInner_cases env n block (b :: pprev) with ⟨s, -, hcall⟩ | ⟨-, loc, hcall⟩
    · rw [hcall]
      exact congrArg some hhash
    · rw [hcall] at h
      cases h

theorem setBestChainInner_accepts (n : Node L) (block : CBlock) (pindexNew : CBlockIndex) :
    (setBestChainInner env n block pindexNew).2 =
      (connectBlock env n.chain n.pool false n.txnBegin block pindexNew).2 := by
  rcases setBestChainInner_cases env n block pindexNew with ⟨s, hconnect, hcall⟩ | ⟨hfail, loc, hcall⟩
  · rw [hcall, hconnect]
  · rw [hcall, hfail]

/-- When all postponed blocks pass, the loop connects all of them, and the last is the best one. -/
theorem connectPostponed_pass (l : List CBlockIndex) (n : Node L) (h : PostponedPass env l n) :
    postponedDone env l n = l ∧
      (connectPostponed env l n).disk.hashBestChain =
        (l.getLast?.map CBlockIndex.getBlockHash).or n.disk.hashBestChain := by
  induction l generalizing n with
  | nil => exact ⟨rfl, rfl⟩
  | cons pindex rest ih =>
    obtain ⟨block, hread, hconnect, hrest⟩ := h
    have hpass : (setBestChainInner env n block pindex).2 = true := by
      rw [setBestChainInner_accepts]
      exact hconnect
    obtain ⟨hdone, hlast⟩ := ih _ hrest
    constructor
    · rw [postponedDone]
      simp only [hread, hpass, if_true, hdone]
    · have hround : connectPostponed env (pindex :: rest) n =
          connectPostponed env rest (setBestChainInner env n block pindex).1 := by
        rw [connectPostponed.eq_def]
        simp only [hread]
        rw [← Prod.mk.eta (p := setBestChainInner env n block pindex), hpass]
      rw [hround, hlast, setBestChainInner_hashBestChain env n block pindex hread hpass, List.getLast?_cons]
      cases rest.getLast? with
      | none => rfl
      | some q => rfl

end Disk

section Step

variable {Pt L : Type} (env : NodeEnv Pt L)

/-- The last of the blocks above a block is the tip. -/
theorem getLast?_branchAbove (pindex pfork : CBlockIndex) (hfork : pfork <:+ pindex) :
    ((branchAbove pindex pfork).reverse.getLast?.map CBlockIndex.getBlockHash).or
      (some (CBlockIndex.getBlockHash pfork)) = some (CBlockIndex.getBlockHash pindex) := by
  cases pindex with
  | nil =>
    rw [List.suffix_nil.mp hfork, branchAbove_self]
    rfl
  | cons b pprev =>
    cases List.suffix_cons_iff.mp hfork with
    | inl heq =>
      subst heq
      rw [branchAbove_self]
      rfl
    | inr htail =>
      rw [branchAbove_cons b pprev pfork htail]
      simp

/-- The genesis block becomes the best block. -/
theorem setBestChain_agrees_genesis (n : Node L) (connected : CBlockIndex → Prop)
    (hindex : IndexInv env n) (block : CBlock) (pindexNew : CBlockIndex)
    (hfiled : n.chain.mapBlockIndex (CBlockIndex.getBlockHash pindexNew) = some pindexNew)
    (hread : env.readFromDisk pindexNew = some block)
    (hgenesis : n.chain.pindexGenesisBlock = [] ∧ block.getHash env.H = env.p.hashGenesisBlock) :
    TipAgrees (setBestChain env n block pindexNew).1 (connectedAfter env n block pindexNew connected) := by
  obtain ⟨b, pprev, rfl⟩ := List.exists_cons_of_ne_nil (hindex.closed.entry _ pindexNew hfiled).1
  obtain ⟨-, hhash⟩ := readFromDisk_eq_some env b pprev block hread
  obtain rfl := (hindex.linked _ b pprev hfiled).2.mpr (hhash.symm.trans hgenesis.2)
  have hcall : (setBestChain env n block [b]).1.chain.pindexBest = [b] ∧
      (setBestChain env n block [b]).1.disk.hashBestChain = some (block.getHash env.H) := by
    simp only [setBestChain, hgenesis, and_self, if_true, newBest]
  constructor
  · rw [ChainState.hashBestChain, hcall.1, hcall.2, hhash]
    rfl
  · intro q hq hne
    rw [hcall.1] at hq
    refine Or.inl ?_
    rw [connectedBy, if_pos hgenesis, List.mem_singleton]
    cases List.suffix_cons_iff.mp hq with
    | inl heq => exact heq
    | inr htail => exact absurd (List.suffix_nil.mp htail) hne

/-- A block on top of the best block. -/
theorem setBestChain_agrees_extend (n : Node L) (connected : CBlockIndex → Prop)
    (hindex : IndexInv env n) (hall : ∀ q, q <:+ n.chain.pindexBest → q ≠ [] → connected q)
    (block : CBlock) (pindexNew : CBlockIndex)
    (hfiled : n.chain.mapBlockIndex (CBlockIndex.getBlockHash pindexNew) = some pindexNew)
    (hread : env.readFromDisk pindexNew = some block)
    (hgenesis : ¬ (n.chain.pindexGenesisBlock = [] ∧ block.getHash env.H = env.p.hashGenesisBlock))
    (hextends : block.hashPrevBlock = n.chain.hashBestChain)
    (hok : (setBestChain env n block pindexNew).2 = true) :
    TipAgrees (setBestChain env n block pindexNew).1 (connectedAfter env n block pindexNew connected) := by
  obtain ⟨b, pprev, rfl⟩ := List.exists_cons_of_ne_nil (hindex.closed.entry _ pindexNew hfiled).1
  obtain ⟨rfl, -⟩ := hindex.extends_best env block b pprev hfiled hread hgenesis hextends
  have hdisk := setBestChainInner_hashBestChain env n block (b :: n.chain.pindexBest) hread
  simp only [setBestChain, hgenesis, hextends, if_true, if_false] at hok ⊢
  cases hcall : setBestChainInner env n block (b :: n.chain.pindexBest) with
  | mk n' fOk =>
    rw [hcall] at hdisk hok
    cases fOk with
    | false => cases hok
    | true =>
      refine ⟨hdisk rfl, fun q hq hne => ?_⟩
      simp only [connectedAfter, connectedBy, disconnectedBy, hgenesis, hextends, if_true, if_false,
        hcall, List.mem_singleton, List.not_mem_nil, not_false_eq_true, and_true]
      cases List.suffix_cons_iff.mp hq with
      | inl heq => exact Or.inl heq
      | inr htail => exact Or.inr (hall q htail hne)

/-- A reorganisation whose postponed blocks pass. -/
theorem setBestChain_agrees_switch (n : Node L) (connected : CBlockIndex → Prop)
    (hall : ∀ q, q <:+ n.chain.pindexBest → q ≠ [] → connected q) (block : CBlock)
    (pindexNew : CBlockIndex)
    (hgenesis : ¬ (n.chain.pindexGenesisBlock = [] ∧ block.getHash env.H = env.p.hashGenesisBlock))
    (hextends : ¬ block.hashPrevBlock = n.chain.hashBestChain)
    (hpass : PostponedBlocksPass env n block pindexNew)
    (hok : (setBestChain env n block pindexNew).2 = true) :
    TipAgrees (setBestChain env n block pindexNew).1 (connectedAfter env n block pindexNew connected) := by
  obtain ⟨habove, hsecondary⟩ := postponed_spec (CBlockIndex.nChainTrust n.chain.pindexBest) pindexNew
  have hpostponed := hpass hgenesis hextends
  simp only [setBestChain, hgenesis, hextends, if_false] at hok ⊢
  delta connectedAfter
  simp only [connectedBy, disconnectedBy, hgenesis, hextends, if_false]
  generalize (postponed (CBlockIndex.nChainTrust n.chain.pindexBest) pindexNew).1 =
    pindexIntermediate at *
  generalize (postponed (CBlockIndex.nChainTrust n.chain.pindexBest) pindexNew).2 =
    vpindexSecondary at *
  rcases reorganize_cases env n pindexIntermediate with
    ⟨pfork, s, hfork, hswitch, hcall⟩ | ⟨-, s, hcall⟩
  · obtain ⟨-, hold, hbelow⟩ := findFork_suffix _ _ _ hfork
    rw [hcall] at hpostponed
    obtain ⟨hdone, hlast⟩ := connectPostponed_pass env vpindexSecondary _ (hpostponed rfl)
    simp only [hcall, hfork, if_true, hdone]
    constructor
    · have htip := getLast?_branchAbove pindexNew pindexIntermediate habove
      rw [← hsecondary] at htip
      exact hlast.trans htip
    · -- a block of the new chain is postponed, in the branch, or below the fork
      intro q hq hne
      rw [hsecondary, List.mem_append, List.mem_reverse, List.mem_reverse,
        mem_branchAbove _ _ _ habove, mem_branchAbove _ _ _ hbelow, mem_branchAbove _ _ _ hold]
      by_cases hq₁ : q <:+ pindexIntermediate
      · by_cases hq₂ : q <:+ pfork
        · refine Or.inr ⟨hall q (hq₂.trans hold) hne, ?_⟩
          rintro ⟨-, hq₃, hne'⟩
          exact hne' (hq₂.eq_of_length_le hq₃.length_le)
        · have hq₃ := (List.suffix_or_suffix_of_suffix hq₁ hbelow).resolve_left hq₂
          refine Or.inl (Or.inl ⟨hq₁, hq₃, fun heq => hq₂ ?_⟩)
          rw [heq]
      · have hq₃ := (List.suffix_or_suffix_of_suffix hq habove).resolve_left hq₁
        refine Or.inl (Or.inr ⟨hq, hq₃, fun heq => hq₁ ?_⟩)
        rw [heq]
  · rw [hcall] at hok
    cases hok

/-- After a call that goes through and meets the condition, memory and disk agree. -/
theorem setBestChain_agrees (n : Node L) (connected : CBlockIndex → Prop) (hindex : IndexInv env n)
    (hall : ∀ q, q <:+ n.chain.pindexBest → q ≠ [] → connected q) (block : CBlock)
    (pindexNew : CBlockIndex)
    (hfiled : n.chain.mapBlockIndex (CBlockIndex.getBlockHash pindexNew) = some pindexNew)
    (hread : env.readFromDisk pindexNew = some block)
    (hpass : PostponedBlocksPass env n block pindexNew)
    (hok : (setBestChain env n block pindexNew).2 = true) :
    TipAgrees (setBestChain env n block pindexNew).1 (connectedAfter env n block pindexNew connected) := by
  by_cases hgenesis : n.chain.pindexGenesisBlock = [] ∧ block.getHash env.H = env.p.hashGenesisBlock
  · exact setBestChain_agrees_genesis env n connected hindex block pindexNew hfiled hread hgenesis
  · by_cases hextends : block.hashPrevBlock = n.chain.hashBestChain
    · exact setBestChain_agrees_extend env n connected hindex hall block pindexNew hfiled hread hgenesis
        hextends hok
    · exact setBestChain_agrees_switch env n connected hall block pindexNew hgenesis hextends hpass hok

/-- A call that fails changes neither the log nor the best block on disk. -/
theorem setBestChain_failed_log (n : Node L) (connected : CBlockIndex → Prop) (block : CBlock)
    (pindexNew : CBlockIndex) (hfail : (setBestChain env n block pindexNew).2 = false) :
    (setBestChain env n block pindexNew).1.disk.hashBestChain = n.disk.hashBestChain ∧
      ∀ q, connected q → connectedAfter env n block pindexNew connected q := by
  refine ⟨?_, fun q hq => Or.inr ⟨hq, ?_⟩⟩
  · rw [setBestChain_failed_disk env n block pindexNew hfail, replay_hashBestChain]
  · simp only [setBestChain] at hfail
    simp only [disconnectedBy]
    split
    · exact List.not_mem_nil
    · rename_i hgenesis
      rw [if_neg hgenesis] at hfail
      split
      · exact List.not_mem_nil
      · rename_i hextends
        rw [if_neg hextends] at hfail
        have hno : (reorganize env n
            (postponed (CBlockIndex.nChainTrust n.chain.pindexBest) pindexNew).1).2 = false := by
          cases hcall : reorganize env n
              (postponed (CBlockIndex.nChainTrust n.chain.pindexBest) pindexNew).1 with
          | mk n' fOk =>
            rw [hcall] at hfail
            cases fOk with
            | false => rfl
            | true => cases hfail
        split
        · exact List.not_mem_nil
        · rw [hno]
          exact List.not_mem_nil

/-- In a run whose calls all meet the condition the tip in memory is the one on disk, and its chain is
connected. -/
theorem tipAgrees_of_postponedPass (n : Node L) (connected : CBlockIndex → Prop)
    (h : LoggedRun env (PostponedBlocksPass env) n connected) (hne : n.chain.pindexBest ≠ []) :
    TipAgrees n connected := by
  induction h with
  | fresh pool loc supply nAdjustedTime => exact absurd rfl hne
  | other hn hsame hbest ih =>
    rw [hsame.pindexBest] at hne
    have hn' := ih hne
    constructor
    · rw [hbest, ChainState.hashBestChain, hsame.pindexBest]
      exact hn'.hashBestChain
    · rw [hsame.pindexBest]
      exact hn'.connected
  | file hn block nFile nBlockPos hok ih =>
    have hn' := ih hne
    exact ⟨hn'.hashBestChain, hn'.connected⟩
  | @setBestChain n connected hn block pindexNew hfiled hread hpass ih =>
    rcases setBestChain_tip env n block pindexNew with ⟨hfail, hsame⟩ | ⟨hok, -, -⟩
    · obtain ⟨hdisk, hlog⟩ := setBestChain_failed_log env n connected block pindexNew hfail
      rw [hsame.pindexBest] at hne
      have hn' := ih hne
      constructor
      · rw [hdisk, ChainState.hashBestChain, hsame.pindexBest]
        exact hn'.hashBestChain
      · rw [hsame.pindexBest]
        exact fun q hq hq₀ => hlog q (hn'.connected q hq hq₀)
    · refine setBestChain_agrees env n connected ((hn.reachable env).index env) ?_ block pindexNew hfiled
        hread hpass hok
      intro q hq hq₀
      refine (ih fun hnil => hq₀ ?_).connected q hq hq₀
      rw [hnil] at hq
      exact List.suffix_nil.mp hq

end Step

section Scene

theorem insertIndex_filed {L : Type} (n : Node L) (pindex : CBlockIndex) :
    (insertIndex n pindex).chain.mapBlockIndex (CBlockIndex.getBlockHash pindex) = some pindex :=
  Function.update_self _ _ _

/-- Block 2 with a coinbase that pays too much. -/
def overpaidSecond : CBlock := minedBlock (minedHash 1) 2 1 1 0 []

/-- The blocks 0 to 2, and the other block 2. -/
def stoppedFile : BlockFile := minedFile.take 3 ++ [(minedPos 3, overpaidSecond)]

def startNode : Node Unit := freshNode CTxMemPool.empty () (fun _ => ⟨0, 0, 0⟩) 1530002000

def startIndex : CBlockIndex := newIndex (testNode stoppedFile) startNode.chain testGenesis 1 (minedPos 0)

def rootNode : Node Unit :=
  (setBestChain (testNode stoppedFile) (insertIndex startNode startIndex) testGenesis startIndex).1

/-- The node with block 1 filed, when it stops before the call for it. -/
def stoppedNode : Node Unit :=
  insertIndex rootNode (newIndex (testNode stoppedFile) rootNode.chain (minedChainBlock 1) 1 (minedPos 1))

/-- What the tests of `Acceptable` come to for a block of the file on top of another one. -/
def stoppedAcceptable (n : Node Unit) (block : CBlock) (nBlockPos : UInt32) : Bool :=
  stoppedFile.readBlock 1 nBlockPos == some block &&
    (n.chain.mapBlockIndex (block.getHash (testNode stoppedFile).H)).isNone &&
    block.getHash (testNode stoppedFile).H != 0 && (n.chain.mapBlockIndex block.hashPrevBlock).isSome

private theorem acceptable_of_test {n : Node Unit} {block : CBlock} {nBlockPos : UInt32}
    (h : stoppedAcceptable n block nBlockPos) : Acceptable (testNode stoppedFile) n block 1 nBlockPos := by
  simp only [stoppedAcceptable, Bool.and_eq_true, beq_iff_eq, bne_iff_ne,
    Option.isNone_iff_eq_none] at h
  exact ⟨h.1.1.1, h.1.1.2, h.1.2, Or.inr h.2⟩

private theorem stoppedNode_logged (condition : Node Unit → CBlock → CBlockIndex → Prop)
    (hcondition : condition (insertIndex startNode startIndex) testGenesis startIndex) :
    ∃ connected, LoggedRun (testNode stoppedFile) condition stoppedNode connected := by
  have hfresh : LoggedRun (testNode stoppedFile) condition startNode fun _ => False :=
    LoggedRun.fresh _ _ _ _
  have hgenesis : LoggedRun (testNode stoppedFile) condition (insertIndex startNode startIndex) _ :=
    hfresh.file testGenesis 1 (minedPos 0)
      ⟨by decide +kernel, rfl, by decide +kernel, Or.inl ⟨rfl, by decide +kernel, rfl⟩⟩
  have hcall := hgenesis.setBestChain testGenesis startIndex (insertIndex_filed _ _) (by decide +kernel)
    hcondition
  exact ⟨_, hcall.file (minedChainBlock 1) 1 (minedPos 1) (acceptable_of_test (by decide +kernel))⟩

/-- The entry of a block that arrives on top of block 1. -/
def nextIndex (block : CBlock) (nBlockPos : UInt32) : CBlockIndex :=
  newIndex (testNode stoppedFile) stoppedNode.chain block 1 nBlockPos

/-- The node when that block is filed, and after the call for it. -/
def nextNode (block : CBlock) (nBlockPos : UInt32) : Node Unit :=
  insertIndex stoppedNode (nextIndex block nBlockPos)

def finalNode (block : CBlock) (nBlockPos : UInt32) : Node Unit :=
  (setBestChain (testNode stoppedFile) (nextNode block nBlockPos) block (nextIndex block nBlockPos)).1

private theorem finalNode_logged (condition : Node Unit → CBlock → CBlockIndex → Prop)
    (hgenesis : condition (insertIndex startNode startIndex) testGenesis startIndex) (block : CBlock)
    (nBlockPos : UInt32) (haccept : stoppedAcceptable stoppedNode block nBlockPos)
    (hread : (testNode stoppedFile).readFromDisk (nextIndex block nBlockPos) = some block)
    (hcondition : condition (nextNode block nBlockPos) block (nextIndex block nBlockPos)) :
    ∃ connected, LoggedRun (testNode stoppedFile) condition (finalNode block nBlockPos) connected := by
  obtain ⟨connected, hstopped⟩ := stoppedNode_logged condition hgenesis
  have hfile : LoggedRun (testNode stoppedFile) condition (nextNode block nBlockPos) connected :=
    hstopped.file block 1 nBlockPos (acceptable_of_test haccept)
  exact ⟨_, hfile.setBestChain block (nextIndex block nBlockPos) (insertIndex_filed _ _) hread hcondition⟩

/-- Block 2 arrives: block 1 is connected by a reorganisation and block 2 after it. -/
theorem secondBlock_tipAgrees :
    ∃ connected, LoggedRun (testNode stoppedFile) (PostponedBlocksPass (testNode stoppedFile))
        (finalNode (minedChainBlock 2) (minedPos 2)) connected ∧
      TipAgrees (finalNode (minedChainBlock 2) (minedPos 2)) connected := by
  have hpass : (postponed (CBlockIndex.nChainTrust rootNode.chain.pindexBest)
        (nextIndex (minedChainBlock 2) (minedPos 2))).2 = [nextIndex (minedChainBlock 2) (minedPos 2)] ∧
      (testNode stoppedFile).readFromDisk (nextIndex (minedChainBlock 2) (minedPos 2)) =
        some (minedChainBlock 2) ∧
      stoppedAcceptable stoppedNode (minedChainBlock 2) (minedPos 2) ∧
      (finalNode (minedChainBlock 2) (minedPos 2)).chain.pindexBest ≠ [] := by
    simp only [finalNode, nextNode, nextIndex, stoppedAcceptable, stoppedNode, rootNode, startIndex, stoppedFile,
      overpaidSecond, testNode_eq_eval, minedFile_eq_eval, minedChainBlock_eq_eval, minedBlock_eq_eval]
    decide +kernel
  obtain ⟨hsecondary, hread, haccept, hne⟩ := hpass
  have hrun := finalNode_logged (PostponedBlocksPass (testNode stoppedFile))
    (fun hgenesis => absurd ⟨rfl, by decide +kernel⟩ hgenesis) (minedChainBlock 2) (minedPos 2) haccept
    hread (by
      intro _ _ _
      change PostponedPass _ (postponed (CBlockIndex.nChainTrust rootNode.chain.pindexBest)
          (nextIndex (minedChainBlock 2) (minedPos 2))).2 _
      rw [hsecondary]
      refine ⟨minedChainBlock 2, hread, ?_, trivial⟩
      simp only [nextNode, nextIndex, stoppedNode, rootNode, startIndex, stoppedFile, overpaidSecond,
        testNode_eq_eval, minedFile_eq_eval, minedChainBlock_eq_eval, minedBlock_eq_eval]
      decide +kernel)
  obtain ⟨connected, hrun⟩ := hrun
  exact ⟨connected, hrun, tipAgrees_of_postponedPass _ _ _ hrun hne⟩

/-- The other block 2 arrives: it is rejected, and still becomes the best block in memory. -/
theorem overpaidSecond_disagrees :
    ¬ ∀ n connected, LoggedRun (testNode stoppedFile) (fun _ _ _ => True) n connected →
      n.chain.pindexBest ≠ [] → TipAgrees n connected := by
  intro hall
  have hrun : (testNode stoppedFile).readFromDisk (nextIndex overpaidSecond (minedPos 3)) =
        some overpaidSecond ∧
      stoppedAcceptable stoppedNode overpaidSecond (minedPos 3) ∧
      (finalNode overpaidSecond (minedPos 3)).chain.pindexBest ≠ [] ∧
      (finalNode overpaidSecond (minedPos 3)).disk.hashBestChain = some (minedHash 1) ∧
      (finalNode overpaidSecond (minedPos 3)).chain.hashBestChain ≠ minedHash 1 := by
    simp only [finalNode, nextNode, nextIndex, stoppedAcceptable, stoppedNode, rootNode, startIndex, stoppedFile,
      overpaidSecond, testNode_eq_eval, minedFile_eq_eval, minedChainBlock_eq_eval, minedBlock_eq_eval]
    decide +kernel
  obtain ⟨hread, haccept, hne, hdisk, hmemory⟩ := hrun
  obtain ⟨connected, hfinal⟩ := finalNode_logged (fun _ _ _ => True) trivial overpaidSecond (minedPos 3)
    haccept hread trivial
  have hagrees := (hall _ connected hfinal hne).hashBestChain
  rw [hdisk] at hagrees
  exact hmemory (Option.some.inj hagrees).symm

end Scene

end AliasWallet
