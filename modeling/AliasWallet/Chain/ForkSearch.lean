import AliasWallet.Chain.ActiveChain
import AliasWallet.Chain.BestChainSpec
import AliasWallet.Chain.BlockIndex
import AliasWallet.Chain.ConcreteNode

/-!
# The fork of two branches and the links of the chain (`Reorganize`)

The search moves two pointers by their heights and meets at the last common block. What lies above it on
either side is disconnected and connected, and the pointers `pnext` then lead from the first block to the
new tip.
-/

namespace AliasWallet
open Lib

section Search

/-- The inner loop: `plonger` goes back while it is higher than `pfork`. -/
def lowerLonger (pfork : CBlockIndex) : CBlockIndex → CBlockIndex
  | [] => []
  | b :: pprev =>
    if CBlockIndex.nHeight (b :: pprev) > CBlockIndex.nHeight pfork then lowerLonger pfork pprev
    else b :: pprev

/-- The outer loop; null ends it with an error. -/
def forkSearch : CBlockIndex → CBlockIndex → Option CBlockIndex
  | [], _ => none
  | b :: pprev, plonger =>
    if b :: pprev = plonger then some plonger
    else
      let plonger := lowerLonger (b :: pprev) plonger
      if b :: pprev = plonger then some plonger else forkSearch pprev plonger

/-- The loops that fill `vDisconnect` and `vConnect`: the blocks back to the fork, which is left out. -/
def walkTo (pfork : CBlockIndex) : CBlockIndex → List CBlockIndex
  | [] => []
  | b :: pprev => if b :: pprev ≠ pfork then (b :: pprev) :: walkTo pfork pprev else []

theorem lowerLonger_eq (pfork plonger : CBlockIndex) :
    lowerLonger pfork plonger = plonger.drop (plonger.length - pfork.length) := by
  induction plonger with
  | nil => rw [lowerLonger, List.drop_nil]
  | cons b pprev ih =>
    rw [lowerLonger, ih, List.length_cons]
    by_cases hhigher : CBlockIndex.nHeight (b :: pprev) > CBlockIndex.nHeight pfork
    · rw [if_pos hhigher]
      rw [CBlockIndex.nHeight, CBlockIndex.nHeight, List.length_cons] at hhigher
      have hdrop : pprev.length + 1 - pfork.length = pprev.length - pfork.length + 1 := by omega
      rw [hdrop, List.drop_succ_cons]
    · rw [if_neg hhigher]
      rw [CBlockIndex.nHeight, CBlockIndex.nHeight, List.length_cons] at hhigher
      have hdrop : pprev.length + 1 - pfork.length = 0 := by omega
      rw [hdrop, List.drop_zero]

theorem forkSearch_eq (pfork plonger : CBlockIndex) : forkSearch pfork plonger = findFork pfork plonger := by
  induction pfork generalizing plonger with
  | nil => rfl
  | cons b pprev ih =>
    rw [forkSearch, findFork, lowerLonger_eq, List.length_cons]
    by_cases heq : b :: pprev = plonger
    · have hlen : plonger.length - (pprev.length + 1) = 0 := by
        rw [← heq, List.length_cons, Nat.sub_self]
      rw [if_pos heq, hlen, List.drop_zero, if_pos heq.symm]
    · rw [if_neg heq]
      simp only [ih, eq_comm (a := b :: pprev)]

/-- A block below both tips is not above the fork that is found. -/
theorem findFork_above (pindexOld pindexNew q : CBlockIndex) (hne : q ≠ []) (hold : q <:+ pindexOld)
    (hnew : q <:+ pindexNew) : ∃ pfork, findFork pindexOld pindexNew = some pfork ∧ q <:+ pfork := by
  induction pindexOld generalizing pindexNew with
  | nil => exact absurd (List.suffix_nil.mp hold) hne
  | cons b pprev ih =>
    rw [findFork]
    by_cases hfound : pindexNew.drop (pindexNew.length - (pprev.length + 1)) = b :: pprev
    · rw [if_pos hfound, hfound]
      exact ⟨_, rfl, hold⟩
    · rw [if_neg hfound]
      cases List.suffix_cons_iff.mp hold with
      | inl heq =>
        subst heq
        exact absurd (List.suffix_iff_eq_drop.mp hnew).symm hfound
      | inr htail =>
        refine ih _ htail (List.suffix_of_suffix_length_le hnew (List.drop_suffix _ _) ?_)
        have hle := htail.length_le
        have hle' := hnew.length_le
        rw [List.length_drop]
        omega

theorem walkTo_eq (pindex pfork : CBlockIndex) (hfork : pfork <:+ pindex) :
    walkTo pfork pindex = branchAbove pindex pfork := by
  induction pindex with
  | nil =>
    rw [List.suffix_nil.mp hfork, branchAbove_self]
    rfl
  | cons b pprev ih =>
    rw [walkTo]
    cases List.suffix_cons_iff.mp hfork with
    | inl heq => rw [if_neg (not_not.mpr heq.symm), heq, branchAbove_self]
    | inr htail =>
      rw [if_pos, ih htail, branchAbove_cons b pprev pfork htail]
      intro heq
      have hle := htail.length_le
      rw [← heq, List.length_cons] at hle
      omega

/-- The blocks above the fork are the ancestors from its height on. -/
theorem branchAbove_reverse (pindex pfork : CBlockIndex) (hfork : pfork <:+ pindex) :
    (branchAbove pindex pfork).reverse = (ancestors pindex).drop pfork.length := by
  induction pindex with
  | nil =>
    rw [List.suffix_nil.mp hfork, branchAbove_self]
    rfl
  | cons b pprev ih =>
    cases List.suffix_cons_iff.mp hfork with
    | inl heq =>
      rw [heq, branchAbove_self, List.drop_of_length_le (by rw [ancestors_length]), List.reverse_nil]
    | inr htail =>
      rw [branchAbove_cons b pprev pfork htail, List.reverse_cons, ih htail, ancestors,
        List.drop_append_of_le_length (by rw [ancestors_length]; exact htail.length_le)]

end Search

section Links

/-- The pointers `pnext` lead along the chain and nowhere else. -/
structure LinksAlong (c : ChainState) (chain : CBlockIndex) : Prop where
  up : ∀ b q, b :: q <:+ chain → q ≠ [] → c.pnext (CBlockIndex.getBlockHash q) = some b.hash
  null : ∀ q, Filed c.mapBlockIndex q → q ≠ [] → (q <:+ chain → q = chain) →
    c.pnext (CBlockIndex.getBlockHash q) = none

/-- The block that `pnext` leads to. -/
def followNext (c : ChainState) (pindex : CBlockIndex) : Option CBlockIndex :=
  (c.pnext (CBlockIndex.getBlockHash pindex)).bind c.mapBlockIndex

/-- The blocks that the pointers `pnext` lead through, at most `n` of them. -/
def visited (c : ChainState) : Nat → CBlockIndex → List CBlockIndex
  | 0, _ => []
  | n + 1, pindex => pindex :: (followNext c pindex).elim [] (visited c n)

theorem LinksAlong.visited_eq {c : ChainState} {chain : CBlockIndex} (hlinks : LinksAlong c chain)
    (hm : PprevFiled c.mapBlockIndex) (hchain : Filed c.mapBlockIndex chain) (n : Nat) (q : CBlockIndex)
    (hne : q ≠ []) (hq : q <:+ chain) (hn : chain.length < q.length + n) :
    visited c n q = (ancestors chain).drop (q.length - 1) := by
  have hpos := List.length_pos_iff.mpr hne
  have hhead : (ancestors chain).drop (q.length - 1) = q :: (ancestors chain).drop q.length := by
    have hle := hq.length_le
    have hget := ancestors_get chain (q.length - 1) (by omega)
    rw [Nat.sub_add_cancel hpos, ← List.suffix_iff_eq_drop.mp hq] at hget
    rw [List.drop_eq_getElem_cons (by rw [ancestors_length]; omega),
      Option.some.inj ((List.getElem?_eq_getElem _).symm.trans hget), Nat.sub_add_cancel hpos]
  induction n generalizing q with
  | zero =>
    have hle := hq.length_le
    omega
  | succ n ih =>
    rw [visited, hhead]
    congr 1
    by_cases htip : q = chain
    · rw [followNext, hlinks.null q (htip ▸ hchain) hne fun _ => htip, htip,
        List.drop_of_length_le (by rw [ancestors_length])]
      rfl
    · obtain ⟨b, hb⟩ := exists_cons_suffix hq htip
      have hfound : followNext c q = some (b :: q) := by
        rw [followNext, hlinks.up b q hb hne]
        exact hchain.below hm hb (List.cons_ne_nil b q)
      rw [hfound, Option.elim_some]
      have hle := hb.length_le
      rw [List.length_cons] at hle
      have hget := ancestors_get chain q.length (by omega)
      refine (ih (b :: q) (List.cons_ne_nil b q) hb ?_ (Nat.succ_pos _) ?_).trans ?_
      · rw [List.length_cons]
        omega
      · rw [List.length_cons, Nat.add_sub_cancel, List.drop_eq_getElem_cons (by rw [ancestors_length]; omega),
          Option.some.inj ((List.getElem?_eq_getElem _).symm.trans hget)]
        congr 1
        exact (List.suffix_iff_eq_drop.mp hb).symm
      · rw [List.length_cons, Nat.add_sub_cancel]

variable (c : ChainState)

/-- The pointers that a reorganisation does not touch. -/
private theorem setNext_untouched (g : CBlockIndex → Option UInt256) (pindex pfork q : CBlockIndex)
    (l : List CBlockIndex) (hl : ∀ r ∈ l, r ∈ branchAbove pindex pfork) (c' : ChainState)
    (hm : PprevFiled c.mapBlockIndex) (hp : Filed c.mapBlockIndex pindex) (hfork : pfork <:+ pindex)
    (hq : Filed c.mapBlockIndex q) (hne : q ≠ [])
    (hout : ¬ (pfork <:+ q ∧ q <:+ pindex ∧ q ≠ pindex)) :
    (l.foldl (fun c r => c.setNext r.tail (g r)) c').pnext (CBlockIndex.getBlockHash q) =
      c'.pnext (CBlockIndex.getBlockHash q) := by
  apply foldl_setNext_of_not_mem
  intro r hr hhit
  obtain ⟨htail, habove⟩ := suffix_tail_of_mem_branchAbove hfork (hl r hr)
  have heq := Filed.eq_of_hash (hp.below hm htail) hq hhit.1 hne hhit.2
  subst heq
  refine hout ⟨habove, htail, fun heq => ?_⟩
  obtain ⟨hr', -, -⟩ := (mem_branchAbove pindex pfork r hfork).mp (hl r hr)
  have hle := hr'.length_le
  have hpos : 0 < r.length := by
    cases r with
    | nil => exact absurd rfl hhit.1
    | cons b r => exact Nat.succ_pos _
  rw [← heq, List.length_tail] at hle
  omega

/-- After a reorganisation the pointers lead along the new chain and nowhere else. -/
theorem reorganizeNext_links (pindexNew pfork : CBlockIndex) (hm : PprevFiled c.mapBlockIndex)
    (hbest : Filed c.mapBlockIndex c.pindexBest) (hnew : Filed c.mapBlockIndex pindexNew)
    (hold : pfork <:+ c.pindexBest) (hfork : pfork <:+ pindexNew) (hlinks : LinksAlong c c.pindexBest) :
    LinksAlong (reorganizeNext c (branchAbove c.pindexBest pfork) (branchAbove pindexNew pfork).reverse)
      pindexNew := by
  have hframe := reorganizeNext_frame c (branchAbove c.pindexBest pfork) (branchAbove pindexNew pfork).reverse
  constructor
  · intro b q hb hne
    have hq : q <:+ pindexNew := (List.suffix_cons b q).trans hb
    have hqfiled := hnew.below hm hq
    unfold reorganizeNext
    by_cases habove : pfork <:+ q
    · have hmem : b :: q ∈ branchAbove pindexNew pfork := by
        refine (mem_branchAbove pindexNew pfork (b :: q) hfork).mpr
          ⟨hb, habove.trans (List.suffix_cons b q), fun heq => ?_⟩
        have hle := habove.length_le
        rw [← heq, List.length_cons] at hle
        omega
      obtain ⟨r, hr, hhit, hnext⟩ := foldl_setNext_of_mem
        ((branchAbove c.pindexBest pfork).foldl (fun c q => c.setNext q.tail none) c)
        (fun r => some (CBlockIndex.getBlockHash r)) (branchAbove pindexNew pfork).reverse
        (CBlockIndex.getBlockHash q) ⟨b :: q, List.mem_reverse.mpr hmem, hne, rfl⟩
      rw [hnext]
      have hr := List.mem_reverse.mp hr
      obtain ⟨htail, -⟩ := suffix_tail_of_mem_branchAbove hfork hr
      have heq := Filed.eq_of_hash (hnew.below hm htail) hqfiled hhit.1 hne hhit.2
      obtain ⟨hr', -, -⟩ := (mem_branchAbove pindexNew pfork r hfork).mp hr
      cases r with
      | nil => exact absurd rfl hhit.1
      | cons b' r =>
        obtain rfl : r = q := heq
        have hsame : b' :: r = b :: r :=
          (List.suffix_of_suffix_length_le hr' hb le_rfl).eq_of_length rfl
        rw [hsame]
        rfl
    · have hbelow : q <:+ pfork := (List.suffix_or_suffix_of_suffix hq hfork).resolve_right habove
      have hproper : q ≠ pfork := by
        rintro rfl
        exact habove List.suffix_rfl
      rw [setNext_untouched c _ pindexNew pfork q _ (fun r hr => List.mem_reverse.mp hr) _ hm hnew hfork
          hqfiled hne fun h => habove h.1,
        setNext_untouched c (fun _ => none) c.pindexBest pfork q _ (fun _ hr => hr) c hm hbest hold hqfiled hne
          fun h => habove h.1]
      obtain ⟨b', hb'⟩ := exists_cons_suffix hbelow hproper
      have hsame : b' :: q = b :: q :=
        (List.suffix_of_suffix_length_le (hb'.trans hfork) hb le_rfl).eq_of_length rfl
      rw [hsame] at hb'
      exact hlinks.up b q (hb'.trans hold) hne
  · intro q hq hne htip
    rw [hframe.2.2] at hq
    unfold reorganizeNext
    rw [setNext_untouched c _ pindexNew pfork q _ (fun r hr => List.mem_reverse.mp hr) _ hm hnew hfork hq hne
      fun h => h.2.2 (htip h.2.1)]
    by_cases hcleared : pfork <:+ q ∧ q <:+ c.pindexBest ∧ q ≠ c.pindexBest
    · obtain ⟨b, hb⟩ := exists_cons_suffix hcleared.2.1 hcleared.2.2
      have hmem : b :: q ∈ branchAbove c.pindexBest pfork := by
        refine (mem_branchAbove c.pindexBest pfork (b :: q) hold).mpr
          ⟨hb, hcleared.1.trans (List.suffix_cons b q), fun heq => ?_⟩
        have hle := hcleared.1.length_le
        rw [← heq, List.length_cons] at hle
        omega
      obtain ⟨r, -, -, hnext⟩ := foldl_setNext_of_mem c (fun _ => none) (branchAbove c.pindexBest pfork)
        (CBlockIndex.getBlockHash q) ⟨b :: q, hmem, hne, rfl⟩
      exact hnext
    · rw [setNext_untouched c (fun _ => none) c.pindexBest pfork q _ (fun _ hr => hr) c hm hbest hold hq hne
        hcleared]
      refine hlinks.null q hq hne fun hin => ?_
      by_contra hproper
      have habove : ¬ pfork <:+ q := fun h => hcleared ⟨h, hin, hproper⟩
      have hbelow : q <:+ pfork := (List.suffix_or_suffix_of_suffix hin hold).resolve_right habove
      rw [htip (hbelow.trans hfork)] at habove
      exact habove hfork

end Links

section Reorganize

variable {Pt L : Type} (env : NodeEnv Pt L)

/-- The search ends at the last block below both tips, the lists hold what lies above it, and after a
reorganisation that succeeds the pointers lead from the first block through the ancestors of the new tip. -/
theorem reorganize_linked (n : Node L) (pindexNew : CBlockIndex) (g : BlockNode)
    (hm : IndexClosed n.chain.mapBlockIndex) (hbest : Filed n.chain.mapBlockIndex n.chain.pindexBest)
    (hnew : Filed n.chain.mapBlockIndex pindexNew) (hroot : [g] <:+ n.chain.pindexBest)
    (hroot' : [g] <:+ pindexNew) (hlinks : LinksAlong n.chain n.chain.pindexBest) :
    ∃ pfork, forkSearch n.chain.pindexBest pindexNew = some pfork ∧
      (pfork <:+ n.chain.pindexBest ∧ pfork <:+ pindexNew ∧
        ∀ q, q <:+ n.chain.pindexBest → q <:+ pindexNew → q <:+ pfork) ∧
      walkTo pfork n.chain.pindexBest = ((ancestors n.chain.pindexBest).drop pfork.length).reverse ∧
      (walkTo pfork pindexNew).reverse = (ancestors pindexNew).drop pfork.length ∧
      ∀ n', reorganize env n pindexNew = (n', true) →
        (∀ k, pindexNew.length ≤ k → visited n'.chain k [g] = ancestors pindexNew) ∧
        ∀ q ∈ walkTo pfork n.chain.pindexBest, n'.chain.pnext (CBlockIndex.getBlockHash q) = none := by
  obtain ⟨pfork, hfork, -⟩ := findFork_above n.chain.pindexBest pindexNew [g] (List.cons_ne_nil g []) hroot hroot'
  obtain ⟨hne, hold, hbelow⟩ := findFork_suffix _ _ _ hfork
  have hlowest : ∀ q, q <:+ n.chain.pindexBest → q <:+ pindexNew → q <:+ pfork := by
    intro q hq hq'
    by_cases hnil : q = []
    · rw [hnil]
      exact List.nil_suffix
    · obtain ⟨pfork', hfork', habove⟩ := findFork_above _ _ q hnil hq hq'
      rw [hfork, Option.some.injEq] at hfork'
      rwa [hfork']
  refine ⟨pfork, (forkSearch_eq _ _).trans hfork, ⟨hold, hbelow, hlowest⟩, ?_, ?_, ?_⟩
  · rw [walkTo_eq _ _ hold, ← branchAbove_reverse _ _ hold, List.reverse_reverse]
  · rw [walkTo_eq _ _ hbelow, branchAbove_reverse _ _ hbelow]
  · intro n' hok
    obtain ⟨s, hchain⟩ : ∃ s, n' = switched env n s pindexNew pfork := by
      rcases reorganize_cases env n pindexNew with ⟨pfork', s, hfork', -, hcall⟩ | ⟨-, s, hcall⟩
      · rw [hfork, Option.some.injEq] at hfork'
        rw [hok, Prod.mk.injEq] at hcall
        exact ⟨s, by rw [hcall.1, hfork']⟩
      · rw [hok, Prod.mk.injEq] at hcall
        cases hcall.2
    have hframe := reorganizeNext_frame n.chain (branchAbove n.chain.pindexBest pfork)
      (branchAbove pindexNew pfork).reverse
    have hafter : LinksAlong n'.chain pindexNew := by
      rw [hchain]
      exact reorganizeNext_links n.chain pindexNew pfork hm.pprev hbest hnew hold hbelow hlinks
    have hmap : n'.chain.mapBlockIndex = n.chain.mapBlockIndex := by
      rw [hchain]
      exact hframe.2.2
    constructor
    · intro k hk
      refine (hafter.visited_eq (hmap ▸ hm.pprev) (hmap ▸ hnew) k [g] (List.cons_ne_nil g []) hroot' ?_).trans rfl
      rw [List.length_singleton]
      omega
    · intro q hq
      rw [walkTo_eq _ _ hold] at hq
      obtain ⟨hsuffix, habove, hproper⟩ := (mem_branchAbove _ _ q hold).mp hq
      refine hafter.null q (hmap ▸ hbest.suffix hm hsuffix) ?_ fun hin => ?_
      · rintro rfl
        exact hproper (List.suffix_nil.mp habove).symm
      · have hle := (hlowest q hsuffix hin).length_le
        exact absurd (habove.eq_of_length_le hle).symm hproper

/-- A first block with a branch of one block and a branch of two. -/
def smallTree : UInt256 → Option CBlockIndex := fun hash =>
  if hash = 1 then some [⟨1, 1, 1, 0, 1⟩]
  else if hash = 2 then some [⟨2, 1, 2, 0, 2⟩, ⟨1, 1, 1, 0, 1⟩]
  else if hash = 3 then some [⟨3, 1, 3, 0, 2⟩, ⟨1, 1, 1, 0, 1⟩]
  else if hash = 4 then some [⟨4, 1, 4, 0, 3⟩, ⟨3, 1, 3, 0, 2⟩, ⟨1, 1, 1, 0, 1⟩]
  else none

/-- The shorter branch is active. -/
def shortChain : ChainState where
  pindexBest := [⟨2, 1, 2, 0, 2⟩, ⟨1, 1, 1, 0, 1⟩]
  pindexGenesisBlock := [⟨1, 1, 1, 0, 1⟩]
  mapBlockIndex := smallTree
  pnext hash := if hash = 1 then some 2 else none
  nAdjustedTime := 0

private theorem smallTree_cases {hash : UInt256} {pindex : CBlockIndex} (h : smallTree hash = some pindex) :
    (hash = 1 ∧ pindex = [⟨1, 1, 1, 0, 1⟩]) ∨ (hash = 2 ∧ pindex = [⟨2, 1, 2, 0, 2⟩, ⟨1, 1, 1, 0, 1⟩]) ∨
      (hash = 3 ∧ pindex = [⟨3, 1, 3, 0, 2⟩, ⟨1, 1, 1, 0, 1⟩]) ∨
      (hash = 4 ∧ pindex = [⟨4, 1, 4, 0, 3⟩, ⟨3, 1, 3, 0, 2⟩, ⟨1, 1, 1, 0, 1⟩]) := by
  unfold smallTree at h
  split at h
  · next hone => exact Or.inl ⟨hone, (Option.some.inj h).symm⟩
  · split at h
    · next htwo => exact Or.inr (Or.inl ⟨htwo, (Option.some.inj h).symm⟩)
    · split at h
      · next hthree => exact Or.inr (Or.inr (Or.inl ⟨hthree, (Option.some.inj h).symm⟩))
      · split at h
        · next hfour => exact Or.inr (Or.inr (Or.inr ⟨hfour, (Option.some.inj h).symm⟩))
        · cases h

private theorem smallTree_closed : IndexClosed smallTree := by
  constructor
  · rfl
  · intro h pindex hfound
    obtain ⟨rfl, rfl⟩ | ⟨rfl, rfl⟩ | ⟨rfl, rfl⟩ | ⟨rfl, rfl⟩ := smallTree_cases hfound <;> decide
  · intro h b pprev hfound hne
    obtain ⟨-, hcase⟩ | ⟨-, hcase⟩ | ⟨-, hcase⟩ | ⟨-, hcase⟩ := smallTree_cases hfound
    · exact absurd (List.cons.inj hcase).2 hne
    · rw [(List.cons.inj hcase).2]
      rfl
    · rw [(List.cons.inj hcase).2]
      rfl
    · rw [(List.cons.inj hcase).2]
      rfl
  · intro h b pprev hfound
    obtain ⟨-, hcase⟩ | ⟨-, hcase⟩ | ⟨-, hcase⟩ | ⟨-, hcase⟩ := smallTree_cases hfound <;>
    · obtain ⟨rfl, rfl⟩ := List.cons.inj hcase
      decide

private theorem shortChain_links : LinksAlong shortChain shortChain.pindexBest := by
  constructor
  · intro b q hb hne
    cases List.suffix_cons_iff.mp hb with
    | inl heq =>
      obtain ⟨rfl, rfl⟩ := List.cons.inj heq
      rfl
    | inr htail =>
      cases List.suffix_cons_iff.mp htail with
      | inl heq => exact absurd (List.cons.inj heq).2 hne
      | inr hnil => cases List.suffix_nil.mp hnil
  · intro q hq hne htip
    obtain ⟨-, rfl⟩ | ⟨-, rfl⟩ | ⟨-, rfl⟩ | ⟨-, rfl⟩ := smallTree_cases (hq hne)
    · exact absurd (htip (by decide)) (by decide)
    · rfl
    · rfl
    · rfl

/-- The reorganisation from the shorter branch to the longer one. -/
theorem shortChain_linked :
    ∃ pfork, forkSearch shortChain.pindexBest
        [⟨4, 1, 4, 0, 3⟩, ⟨3, 1, 3, 0, 2⟩, ⟨1, 1, 1, 0, 1⟩] = some pfork ∧ pfork.length = 1 := by
  obtain ⟨pfork, hfork, -⟩ := reorganize_linked (testNode [])
    ⟨⟨fun _ => none, fun _ => none, fun _ => none, none⟩, CTxMemPool.empty, shortChain, (), fun _ => ⟨0, 0, 0⟩⟩
    [⟨4, 1, 4, 0, 3⟩, ⟨3, 1, 3, 0, 2⟩, ⟨1, 1, 1, 0, 1⟩] ⟨1, 1, 1, 0, 1⟩ smallTree_closed (fun _ => rfl)
    (fun _ => rfl) (by decide) (by decide) shortChain_links
  refine ⟨pfork, hfork, ?_⟩
  have hsome : forkSearch shortChain.pindexBest
      [⟨4, 1, 4, 0, 3⟩, ⟨3, 1, 3, 0, 2⟩, ⟨1, 1, 1, 0, 1⟩] = some [⟨1, 1, 1, 0, 1⟩] := by decide
  rw [hsome, Option.some.injEq] at hfork
  rw [← hfork]
  rfl

end Reorganize

end AliasWallet
