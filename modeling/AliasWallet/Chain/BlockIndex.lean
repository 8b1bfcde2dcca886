import AliasWallet.Chain.BestChain

/-!
# The block index

`AddToBlockIndex`, the invariants of the index that it keeps, and what the fork search and the lists
of blocks of a reorganisation are in terms of suffixes.
-/

namespace AliasWallet
open Lib

section Arrival

variable {Pt L : Type} (env : NodeEnv Pt L)

/-- `GetBlockTrust`. -/
def getBlockTrust (nBits : UInt32) : Nat :=
  let bnTarget := setCompact nBits
  if bnTarget ≤ 0 then 0 else 2 ^ 256 / (bnTarget.toNat + 1) % 2 ^ 256

/-- The index entry that `AddToBlockIndex` builds for a block at a position. -/
def newIndex (c : ChainState) (block : CBlock) (nFile nBlockPos : UInt32) : CBlockIndex :=
  let pprev := (c.mapBlockIndex block.hashPrevBlock).getD []
  ⟨block.getHash env.H, nFile, nBlockPos, block.nTime,
    CBlockIndex.nChainTrust pprev + getBlockTrust block.nBits⟩ :: pprev

/-- The node with a block in the index. -/
def insertIndex (n : Node L) (pindexNew : CBlockIndex) : Node L :=
  let mapBlockIndex :=
    Function.update n.chain.mapBlockIndex (CBlockIndex.getBlockHash pindexNew) (some pindexNew)
  { n with chain := { n.chain with mapBlockIndex } }

/-- `AddToBlockIndex`. -/
def addToBlockIndex (n : Node L) (block : CBlock) (nFile nBlockPos : UInt32) : Node L × Bool :=
  if (n.chain.mapBlockIndex (block.getHash env.H)).isSome then (n, false)
  else
    let pindexNew := newIndex env n.chain block nFile nBlockPos
    let n := insertIndex n pindexNew
    if CBlockIndex.nChainTrust pindexNew > CBlockIndex.nChainTrust n.chain.pindexBest then
      setBestChain env n block pindexNew
    else (n, true)

end Arrival

section Index

/-- Entries are filed under their hash, lead to filed entries, and no block trusts less than the one
below it. The hash zero stands for no block. -/
structure IndexClosed (m : UInt256 → Option CBlockIndex) : Prop where
  null : m 0 = none
  entry : ∀ h pindex, m h = some pindex → pindex ≠ [] ∧ CBlockIndex.getBlockHash pindex = h
  pprev : ∀ h b pprev, m h = some (b :: pprev) → pprev ≠ [] →
    m (CBlockIndex.getBlockHash pprev) = some pprev
  trust : ∀ h b pprev, m h = some (b :: pprev) → CBlockIndex.nChainTrust pprev ≤ b.nChainTrust

/-- The pointer is null or leads to an entry of the index. -/
def Filed (m : UInt256 → Option CBlockIndex) (pindex : CBlockIndex) : Prop :=
  pindex ≠ [] → m (CBlockIndex.getBlockHash pindex) = some pindex

variable {m : UInt256 → Option CBlockIndex}

theorem Filed.nil : Filed m [] := fun h => absurd rfl h

/-- Entries lead to filed entries. -/
def PprevFiled (m : UInt256 → Option CBlockIndex) : Prop :=
  ∀ h b pprev, m h = some (b :: pprev) → pprev ≠ [] → m (CBlockIndex.getBlockHash pprev) = some pprev

theorem Filed.below (hm : PprevFiled m) {pindex q : CBlockIndex} (hp : Filed m pindex) (hq : q <:+ pindex) :
    Filed m q := by
  induction pindex with
  | nil =>
    rw [List.suffix_nil.mp hq]
    exact Filed.nil
  | cons b pprev ih =>
    cases List.suffix_cons_iff.mp hq with
    | inl heq => rwa [heq]
    | inr htail => exact ih (fun hne => hm _ b pprev (hp (List.cons_ne_nil b pprev)) hne) htail

theorem Filed.suffix (hm : IndexClosed m) {pindex q : CBlockIndex} (hp : Filed m pindex)
    (hq : q <:+ pindex) : Filed m q :=
  hp.below hm.pprev hq

/-- A filed block is determined by its hash. -/
theorem Filed.eq_of_hash {p q : CBlockIndex} (hp : Filed m p) (hq : Filed m q) (hp0 : p ≠ [])
    (hq0 : q ≠ []) (hhash : CBlockIndex.getBlockHash p = CBlockIndex.getBlockHash q) : p = q := by
  have hfound := hp hp0
  rw [hhash, hq hq0, Option.some.injEq] at hfound
  exact hfound.symm

theorem Filed.trust_le (hm : IndexClosed m) {pindex q : CBlockIndex} (hp : Filed m pindex)
    (hq : q <:+ pindex) : CBlockIndex.nChainTrust q ≤ CBlockIndex.nChainTrust pindex := by
  induction pindex with
  | nil => rw [List.suffix_nil.mp hq]
  | cons b pprev ih =>
    cases List.suffix_cons_iff.mp hq with
    | inl heq => rw [heq]
    | inr htail =>
      have hfiled := hp (List.cons_ne_nil b pprev)
      exact (ih (fun hne => hm.pprev _ b pprev hfiled hne) htail).trans (hm.trust _ b pprev hfiled)

variable {Pt L : Type} (env : NodeEnv Pt L)

/-- A new entry keeps the index closed. -/
theorem IndexClosed.insert (hm : IndexClosed m) (b : BlockNode) (pprev : CBlockIndex) (hb : b.hash ≠ 0)
    (hnew : m b.hash = none) (hprev : Filed m pprev)
    (htrust : CBlockIndex.nChainTrust pprev ≤ b.nChainTrust) :
    IndexClosed (Function.update m b.hash (some (b :: pprev))) := by
  have hold : ∀ h pindex, Function.update m b.hash (some (b :: pprev)) h = some pindex →
      h = b.hash ∧ pindex = b :: pprev ∨ h ≠ b.hash ∧ m h = some pindex := by
    intro h pindex hfound
    by_cases hh : h = b.hash
    · subst hh
      rw [Function.update_self, Option.some.injEq] at hfound
      exact Or.inl ⟨rfl, hfound.symm⟩
    · rw [Function.update_of_ne hh] at hfound
      exact Or.inr ⟨hh, hfound⟩
  have hkeep : ∀ pindex, pindex ≠ [] → Filed m pindex →
      Function.update m b.hash (some (b :: pprev)) (CBlockIndex.getBlockHash pindex) = some pindex := by
    intro pindex hne hfiled
    have hfound := hfiled hne
    rw [Function.update_of_ne, hfound]
    intro hhash
    rw [hhash, hnew] at hfound
    cases hfound
  constructor
  · rw [Function.update_of_ne (Ne.symm hb)]
    exact hm.null
  · intro h pindex hfound
    cases hold h pindex hfound with
    | inl hcase =>
      obtain ⟨rfl, rfl⟩ := hcase
      exact ⟨List.cons_ne_nil b pprev, rfl⟩
    | inr hcase => exact hm.entry h pindex hcase.2
  · intro h b' pprev' hfound hne
    cases hold h (b' :: pprev') hfound with
    | inl hcase =>
      obtain ⟨-, rfl⟩ := List.cons.inj hcase.2
      exact hkeep _ hne hprev
    | inr hcase => exact hkeep _ hne fun _ => hm.pprev h b' pprev' hcase.2 hne
  · intro h b' pprev' hfound
    cases hold h (b' :: pprev') hfound with
    | inl hcase =>
      obtain ⟨rfl, rfl⟩ := List.cons.inj hcase.2
      exact htrust
    | inr hcase => exact hm.trust h b' pprev' hcase.2

theorem Filed.insert {pindex : CBlockIndex} (hp : Filed m pindex) (h : UInt256) (q : CBlockIndex)
    (hnew : m h = none) : Filed (Function.update m h (some q)) pindex := by
  intro hne
  have hfound := hp hne
  rw [Function.update_of_ne, hfound]
  intro hhash
  rw [hhash, hnew] at hfound
  cases hfound

end Index

section Fork

/-- The fork is below both tips. -/
theorem findFork_suffix (pindexBest pindexNew pfork : CBlockIndex)
    (h : findFork pindexBest pindexNew = some pfork) :
    pfork ≠ [] ∧ pfork <:+ pindexBest ∧ pfork <:+ pindexNew := by
  induction pindexBest generalizing pindexNew with
  | nil => cases h
  | cons b pprev ih =>
    simp only [findFork] at h
    have hdrop : pindexNew.drop (pindexNew.length - (pprev.length + 1)) <:+ pindexNew :=
      List.drop_suffix _ _
    by_cases hfound : pindexNew.drop (pindexNew.length - (pprev.length + 1)) = b :: pprev
    · rw [if_pos hfound, Option.some.injEq] at h
      rw [← h]
      refine ⟨?_, ?_, hdrop⟩
      · rw [hfound]
        exact List.cons_ne_nil b pprev
      · rw [hfound]
    · rw [if_neg hfound] at h
      obtain ⟨hne, hold, hnew⟩ := ih _ h
      exact ⟨hne, hold.trans (List.suffix_cons b pprev), hnew.trans hdrop⟩

theorem branchAbove_self (pindex : CBlockIndex) : branchAbove pindex pindex = [] := by
  simp [branchAbove]

theorem branchAbove_cons (b : BlockNode) (pprev pfork : CBlockIndex) (hfork : pfork <:+ pprev) :
    branchAbove (b :: pprev) pfork = (b :: pprev) :: branchAbove pprev pfork := by
  have hle := hfork.length_le
  have hlen : (b :: pprev).length - pfork.length = (pprev.length - pfork.length) + 1 := by
    simp only [List.length_cons]
    omega
  rw [branchAbove, hlen, List.tails_cons, List.take_succ_cons, branchAbove]

/-- The blocks above the fork, one at a time. -/
theorem mem_branchAbove (pindex pfork q : CBlockIndex) (hfork : pfork <:+ pindex) :
    q ∈ branchAbove pindex pfork ↔ q <:+ pindex ∧ pfork <:+ q ∧ q ≠ pfork := by
  induction pindex with
  | nil =>
    obtain rfl := List.suffix_nil.mp hfork
    rw [branchAbove_self]
    simp only [List.not_mem_nil, List.suffix_nil, false_iff]
    rintro ⟨rfl, -, hne⟩
    exact hne rfl
  | cons b pprev ih =>
    cases List.suffix_cons_iff.mp hfork with
    | inl heq =>
      subst heq
      rw [branchAbove_self]
      simp only [List.not_mem_nil, false_iff]
      rintro ⟨hq, hfq, hne⟩
      exact hne (List.IsSuffix.eq_of_length_le hfq hq.length_le).symm
    | inr htail =>
      rw [branchAbove_cons b pprev pfork htail, List.mem_cons, ih htail, List.suffix_cons_iff]
      constructor
      · rintro (rfl | ⟨hq, hfq, hne⟩)
        · refine ⟨Or.inl rfl, hfork, fun heq => ?_⟩
          have hle := htail.length_le
          rw [← heq, List.length_cons] at hle
          omega
        · exact ⟨Or.inr hq, hfq, hne⟩
      · rintro ⟨rfl | hq, hfq, hne⟩
        · exact Or.inl rfl
        · exact Or.inr ⟨hq, hfq, hne⟩

/-- The intermediate block lies below the new tip, and the postponed ones are those above it. -/
theorem postponed_spec (nBestChainTrust : Nat) (pindexNew : CBlockIndex) :
    (postponed nBestChainTrust pindexNew).1 <:+ pindexNew ∧
      (postponed nBestChainTrust pindexNew).2 =
        (branchAbove pindexNew (postponed nBestChainTrust pindexNew).1).reverse := by
  induction pindexNew with
  | nil => simp [postponed, branchAbove]
  | cons b pprev ih =>
    unfold postponed
    by_cases hmore : pprev ≠ [] ∧ CBlockIndex.nChainTrust pprev > nBestChainTrust
    · rw [if_pos hmore]
      refine ⟨ih.1.trans (List.suffix_cons b pprev), ?_⟩
      simp only [branchAbove_cons b pprev _ ih.1, List.reverse_cons, ih.2]
    · rw [if_neg hmore]
      exact ⟨List.suffix_rfl, by rw [branchAbove_self]; rfl⟩

/-- The intermediate block trusts more than the old tip when the new tip does. -/
theorem postponed_trust (nBestChainTrust : Nat) (pindexNew : CBlockIndex)
    (htrust : nBestChainTrust < CBlockIndex.nChainTrust pindexNew) :
    nBestChainTrust < CBlockIndex.nChainTrust (postponed nBestChainTrust pindexNew).1 := by
  induction pindexNew with
  | nil => exact htrust
  | cons b pprev ih =>
    unfold postponed
    by_cases hmore : pprev ≠ [] ∧ CBlockIndex.nChainTrust pprev > nBestChainTrust
    · rw [if_pos hmore]
      exact ih hmore.2
    · rw [if_neg hmore]
      exact htrust

end Fork

section Main

/-- Each block of the chain below its tip leads on. -/
def MainNext (c : ChainState) (chain : CBlockIndex) : Prop :=
  ∀ q, q <:+ chain → q ≠ [] → q ≠ chain → (c.pnext (CBlockIndex.getBlockHash q)).isSome

theorem exists_cons_suffix {α : Type} {q l : List α} (hq : q <:+ l) (hne : q ≠ l) :
    ∃ b, b :: q <:+ l := by
  obtain ⟨pre, rfl⟩ := hq
  cases List.eq_nil_or_concat pre with
  | inl hnil => exact absurd (by rw [hnil, List.nil_append]) hne
  | inr hconcat =>
    obtain ⟨pre', b, rfl⟩ := hconcat
    exact ⟨b, pre', by rw [List.concat_append]⟩

variable (c : ChainState) (g : CBlockIndex → Option UInt256) (l : List CBlockIndex)

/-- Setting pointers changes nothing else. -/
theorem foldl_setNext_frame :
    (l.foldl (fun c q => c.setNext q.tail (g q)) c).pindexBest = c.pindexBest ∧
      (l.foldl (fun c q => c.setNext q.tail (g q)) c).pindexGenesisBlock = c.pindexGenesisBlock ∧
      (l.foldl (fun c q => c.setNext q.tail (g q)) c).mapBlockIndex = c.mapBlockIndex := by
  induction l generalizing c with
  | nil => exact ⟨rfl, rfl, rfl⟩
  | cons q l ih =>
    rw [List.foldl_cons]
    obtain ⟨hbest, hgenesis, hmap⟩ := ih (c.setNext q.tail (g q))
    rw [hbest, hgenesis, hmap]
    cases q.tail with
    | nil => exact ⟨rfl, rfl, rfl⟩
    | cons b pprev => exact ⟨rfl, rfl, rfl⟩

theorem reorganizeNext_frame (vDisconnect vConnect : List CBlockIndex) :
    (reorganizeNext c vDisconnect vConnect).pindexBest = c.pindexBest ∧
      (reorganizeNext c vDisconnect vConnect).pindexGenesisBlock = c.pindexGenesisBlock ∧
      (reorganizeNext c vDisconnect vConnect).mapBlockIndex = c.mapBlockIndex := by
  have hfirst := foldl_setNext_frame c (fun _ => none) vDisconnect
  have hlast := foldl_setNext_frame (vDisconnect.foldl (fun c q => c.setNext q.tail none) c)
    (fun q => some (CBlockIndex.getBlockHash q)) vConnect
  exact ⟨hlast.1.trans hfirst.1, hlast.2.1.trans hfirst.2.1, hlast.2.2.trans hfirst.2.2⟩

theorem setNext_pnext (q : CBlockIndex) (v : Option UInt256) (h : UInt256) :
    (c.setNext q v).pnext h = if q ≠ [] ∧ CBlockIndex.getBlockHash q = h then v else c.pnext h := by
  cases q with
  | nil => simp [ChainState.setNext]
  | cons b pprev =>
    simp only [ChainState.setNext, CBlockIndex.getBlockHash, Function.update_apply, List.head?_cons,
      Option.map_some, Option.getD_some, ne_eq, reduceCtorEq, not_false_eq_true, true_and]
    by_cases hh : h = b.hash
    · simp [hh]
    · simp [hh, Ne.symm hh]

theorem foldl_setNext_of_not_mem (h : UInt256)
    (hnot : ∀ q ∈ l, ¬ (q.tail ≠ [] ∧ CBlockIndex.getBlockHash q.tail = h)) :
    (l.foldl (fun c q => c.setNext q.tail (g q)) c).pnext h = c.pnext h := by
  induction l generalizing c with
  | nil => rfl
  | cons q l ih =>
    rw [List.foldl_cons, ih _ fun r hr => hnot r (List.mem_cons_of_mem q hr), setNext_pnext,
      if_neg (hnot q List.mem_cons_self)]

theorem foldl_setNext_of_mem (h : UInt256)
    (hmem : ∃ q ∈ l, q.tail ≠ [] ∧ CBlockIndex.getBlockHash q.tail = h) :
    ∃ q ∈ l, (q.tail ≠ [] ∧ CBlockIndex.getBlockHash q.tail = h) ∧
      (l.foldl (fun c q => c.setNext q.tail (g q)) c).pnext h = g q := by
  induction l generalizing c with
  | nil =>
    obtain ⟨q, hq, -⟩ := hmem
    cases hq
  | cons q l ih =>
    rw [List.foldl_cons]
    by_cases hlater : ∃ r ∈ l, r.tail ≠ [] ∧ CBlockIndex.getBlockHash r.tail = h
    · obtain ⟨r, hr, hhit, hnext⟩ := ih (c.setNext q.tail (g q)) hlater
      exact ⟨r, List.mem_cons_of_mem q hr, hhit, hnext⟩
    · have hhit : q.tail ≠ [] ∧ CBlockIndex.getBlockHash q.tail = h := by
        obtain ⟨r, hr, hit⟩ := hmem
        cases List.mem_cons.mp hr with
        | inl heq => rwa [heq] at hit
        | inr hr => exact absurd ⟨r, hr, hit⟩ hlater
      refine ⟨q, List.mem_cons_self, hhit, ?_⟩
      rw [foldl_setNext_of_not_mem _ g l h fun r hr hit => hlater ⟨r, hr, hit⟩, setNext_pnext,
        if_pos hhit]

theorem MainNext.setNext {chain : CBlockIndex} (h : MainNext c chain) (b : BlockNode) (hash : UInt256) :
    MainNext (c.setNext chain (some hash)) (b :: chain) := by
  intro q hq hne hproper
  rw [setNext_pnext]
  by_cases hset : chain ≠ [] ∧ CBlockIndex.getBlockHash chain = CBlockIndex.getBlockHash q
  · rw [if_pos hset]
    rfl
  · rw [if_neg hset]
    cases List.suffix_cons_iff.mp hq with
    | inl heq => exact absurd heq hproper
    | inr htail =>
      refine h q htail hne fun heq => hset ⟨?_, by rw [heq]⟩
      rwa [← heq]

/-- The blocks that a reorganisation sets pointers for lie above the fork. -/
theorem suffix_tail_of_mem_branchAbove {pindex pfork q : CBlockIndex} (hfork : pfork <:+ pindex)
    (hq : q ∈ branchAbove pindex pfork) : q.tail <:+ pindex ∧ pfork <:+ q.tail := by
  obtain ⟨hsuffix, habove, hne⟩ := (mem_branchAbove pindex pfork q hfork).mp hq
  refine ⟨(List.tail_suffix q).trans hsuffix, ?_⟩
  cases q with
  | nil => exact absurd (List.suffix_nil.mp habove).symm hne
  | cons b pprev =>
    cases List.suffix_cons_iff.mp habove with
    | inl heq => exact absurd heq.symm hne
    | inr htail => exact htail

/-- The pointers lead along the new branch after a reorganisation. -/
theorem reorganizeNext_main (pindexNew pfork : CBlockIndex) (hm : IndexClosed c.mapBlockIndex)
    (hbest : Filed c.mapBlockIndex c.pindexBest) (hnew : Filed c.mapBlockIndex pindexNew)
    (hold : pfork <:+ c.pindexBest) (hfork : pfork <:+ pindexNew) (hmain : MainNext c c.pindexBest) :
    MainNext (reorganizeNext c (branchAbove c.pindexBest pfork) (branchAbove pindexNew pfork).reverse)
      pindexNew := by
  intro q hq hne hproper
  unfold reorganizeNext
  by_cases habove : pfork <:+ q
  · obtain ⟨b, hb⟩ := exists_cons_suffix hq hproper
    have hmem : b :: q ∈ branchAbove pindexNew pfork := by
      refine (mem_branchAbove pindexNew pfork (b :: q) hfork).mpr
        ⟨hb, habove.trans (List.suffix_cons b q), fun heq => ?_⟩
      have hle := habove.length_le
      rw [← heq, List.length_cons] at hle
      omega
    obtain ⟨r, -, -, hnext⟩ := foldl_setNext_of_mem _ (fun r => some (CBlockIndex.getBlockHash r))
      (branchAbove pindexNew pfork).reverse (CBlockIndex.getBlockHash q)
      ⟨b :: q, List.mem_reverse.mpr hmem, hne, rfl⟩
    rw [hnext]
    rfl
  · -- below the fork no pointer is touched
    have hout : ∀ p, Filed c.mapBlockIndex p → pfork <:+ p → ∀ r ∈ branchAbove p pfork,
        ¬ (r.tail ≠ [] ∧ CBlockIndex.getBlockHash r.tail = CBlockIndex.getBlockHash q) := by
      intro p hp hpfork r hr hhit
      obtain ⟨htail, hfork'⟩ := suffix_tail_of_mem_branchAbove hpfork hr
      have heq := Filed.eq_of_hash (hp.suffix hm htail) (hnew.suffix hm hq) hhit.1 hne hhit.2
      rw [heq] at hfork'
      exact habove hfork'
    rw [foldl_setNext_of_not_mem _ _ _ _ fun r hr => hout pindexNew hnew hfork r (List.mem_reverse.mp hr),
      foldl_setNext_of_not_mem c (fun _ => none) _ _ (hout c.pindexBest hbest hold)]
    have hbelow : q <:+ pfork := (List.suffix_or_suffix_of_suffix hq hfork).resolve_right habove
    refine hmain q (hbelow.trans hold) hne fun heq => habove ?_
    rw [heq]
    exact hold

end Main

end AliasWallet
