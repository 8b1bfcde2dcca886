import AliasWallet.Chain.ForkSearch

/-!
# Headers by height in a light client (`FindBlockThinByHeight`)

The search starts from the first header, from the best one or from its last answer, whichever is nearest. The
last answer is kept when the headers are reorganised, so it may lie on an abandoned branch.
-/

namespace AliasWallet
open Lib

/-- The settings of a light client, and the hash of its headers. -/
structure LightParams where
  H : BlockHash
  fThinFullIndex : Bool
  nThinIndexWindow : Int

/-- How the checks of `AcceptBlockThin` that the index does not decide come out, and how the database answers. -/
structure HeaderIO where
  accepts : Bool
  /-- The transaction around `WriteBlockThinIndex`. -/
  writeIndex : Bool
  txnBegin : UInt256 → Bool
  disconnectBlockThin : CBlockIndex → Bool
  connectBlockThin : CBlockIndex → Bool
  writeHashBestHeaderChain : UInt256 → Bool
  txnCommit : UInt256 → Bool

/-- The header index (`mapBlockThinIndex`, `pindexBestHeader` and `pindexGenesisBlockThin` are those of `chain`),
and the static pointer of `FindBlockThinByHeight`. -/
structure LightNode where
  chain : ChainState
  pindexRear : CBlockIndex
  pblockHeaderIndexFBBHLast : CBlockIndex

section Connect

variable (io : HeaderIO)

/-- `SetBestThinChainInner`. -/
def setBestThinChainInner (c : ChainState) (pindexNew : CBlockIndex) : ChainState × Bool :=
  let hash := CBlockIndex.getBlockHash pindexNew
  if io.connectBlockThin pindexNew && io.writeHashBestHeaderChain hash && io.txnCommit hash then
    (c.setNext pindexNew.tail (some hash), true)
  else (c, false)

/-- `ReorganizeHeaders`. -/
def reorganizeHeaders (c : ChainState) (pindexNew : CBlockIndex) : ChainState × Bool :=
  match forkSearch c.pindexBest pindexNew with
  | none => (c, false)
  | some pfork =>
    let hash := CBlockIndex.getBlockHash pindexNew
    let vDisconnect := walkTo pfork c.pindexBest
    let vConnect := (walkTo pfork pindexNew).reverse
    if vDisconnect.all io.disconnectBlockThin && vConnect.all io.connectBlockThin &&
        io.writeHashBestHeaderChain hash && io.txnCommit hash then
      (reorganizeNext c vDisconnect vConnect, true)
    else (c, false)

/-- The further headers; a failure only ends the loop. -/
def connectSecondary : List CBlockIndex → ChainState → ChainState
  | [], c => c
  | pindex :: rest, c =>
    if io.txnBegin (CBlockIndex.getBlockHash pindex) then
      match setBestThinChainInner io c pindex with
      | (c, true) => connectSecondary rest c
      | (c, false) => c
    else c

/-- `SetBestThinChain` behind the first header; `block` is the header of `pindexNew`. -/
def setBestThinChain (c : ChainState) (block : CBlock) (pindexNew : CBlockIndex) : ChainState × Bool :=
  if io.txnBegin (CBlockIndex.getBlockHash pindexNew) then
    if block.hashPrevBlock = c.hashBestChain then
      match setBestThinChainInner io c pindexNew with
      | (c, true) => ({ c with pindexBest := pindexNew }, true)
      | (c, false) => (c, false)
    else
      let (pindexIntermediate, vpindexSecondary) := postponed (CBlockIndex.nChainTrust c.pindexBest) pindexNew
      match reorganizeHeaders io c pindexIntermediate with
      | (c, true) => ({ connectSecondary io vpindexSecondary c with pindexBest := pindexNew }, true)
      | (c, false) => (c, false)
  else (c, false)

variable (L : LightParams)

/-- The index entry for a header. -/
def newThinIndex (c : ChainState) (block : CBlock) : CBlockIndex :=
  let pprev := (c.mapBlockIndex block.hashPrevBlock).getD []
  ⟨block.getHash L.H, 0xFFFFFFFF, 0, block.nTime, CBlockIndex.nChainTrust pprev + getBlockTrust block.nBits⟩ :: pprev

/-- Whether headers are deleted after this one. -/
def windowPassed (n : LightNode) (pindexNew : CBlockIndex) : Bool :=
  !L.fThinFullIndex && !n.pindexRear.isEmpty &&
    decide (CBlockIndex.nHeight pindexNew - CBlockIndex.nHeight n.pindexRear > L.nThinIndexWindow)

/-- `AddToBlockThinIndex`. There is no result where the window passes the first header: it is deleted, and
`pindexGenesisBlockThin` leads nowhere from then on. -/
def addToBlockThinIndex (n : LightNode) (block : CBlock) : Option (LightNode × Bool) :=
  let hash := block.getHash L.H
  if (n.chain.mapBlockIndex hash).isSome then some (n, false)
  else
    let pindexNew := newThinIndex L n.chain block
    let c := { n.chain with mapBlockIndex := Function.update n.chain.mapBlockIndex hash (some pindexNew) }
    if io.writeIndex then
      match if CBlockIndex.nChainTrust pindexNew > CBlockIndex.nChainTrust c.pindexBest then
          setBestThinChain io c block pindexNew
        else (c, true) with
      | (c, true) => if windowPassed L n pindexNew then none else some ({ n with chain := c }, true)
      | (c, false) => some ({ n with chain := c }, false)
    else some ({ n with chain := c }, false)

/-- `AcceptBlockThin`. -/
def acceptBlockThin (n : LightNode) (block : CBlock) : Option (LightNode × Bool) :=
  if (n.chain.mapBlockIndex (block.getHash L.H)).isSome then some (n, false)
  else if (n.chain.mapBlockIndex block.hashPrevBlock).isNone then some (n, false)
  else if io.accepts then addToBlockThinIndex io L n block
  else some (n, false)

end Connect

section Lookup

/-- The first loop: back while the header is too high. -/
def walkBack (nHeight : Int) : CBlockIndex → CBlockIndex
  | [] => []
  | b :: pprev =>
    if CBlockIndex.nHeight (b :: pprev) > nHeight ∧ pprev ≠ [] then walkBack nHeight pprev else b :: pprev

/-- The second loop: on while the header is too low. Each round goes up by one. -/
def walkOn (c : ChainState) (nHeight : Int) : Nat → CBlockIndex → CBlockIndex
  | 0, pindex => pindex
  | rounds + 1, pindex =>
    if pindex ≠ [] ∧ CBlockIndex.nHeight pindex < nHeight then
      match followNext c pindex with
      | some pnext => walkOn c nHeight rounds pnext
      | none => pindex
    else pindex

/-- Where the search starts. -/
def lookupStart (n : LightNode) (nHeight : Int) : CBlockIndex :=
  let pblockindex :=
    if nHeight < n.chain.nBestHeight.tdiv 2 then n.chain.pindexGenesisBlock else n.chain.pindexBest
  let last := n.pblockHeaderIndexFBBHLast
  if pblockindex = [] then []
  else if last ≠ [] ∧
      (nHeight - CBlockIndex.nHeight pblockindex).natAbs > (nHeight - CBlockIndex.nHeight last).natAbs then last
  else pblockindex

/-- `FindBlockThinByHeight`. -/
def findBlockThinByHeight (n : LightNode) (nHeight : Int) : LightNode × CBlockIndex :=
  let pblockindex := walkBack nHeight (lookupStart n nHeight)
  let pblockindex := walkOn n.chain nHeight (nHeight - CBlockIndex.nHeight pblockindex).toNat pblockindex
  if pblockindex = [] ∨ CBlockIndex.nHeight pblockindex ≠ nHeight then (n, [])
  else ({ n with pblockHeaderIndexFBBHLast := pblockindex }, pblockindex)

end Lookup

section Index

/-- Entries are filed under their hash, lead to filed entries, and go back to the first header. -/
structure HeaderTree (g : BlockNode) (m : UInt256 → Option CBlockIndex) : Prop where
  entry : ∀ h pindex, m h = some pindex → pindex ≠ [] ∧ CBlockIndex.getBlockHash pindex = h
  pprev : PprevFiled m
  root : ∀ h pindex, m h = some pindex → [g] <:+ pindex

/-- Only filed headers lead on. -/
def NextFiled (c : ChainState) : Prop := ∀ h, c.mapBlockIndex h = none → c.pnext h = none

variable {g : BlockNode} {m : UInt256 → Option CBlockIndex} {c : ChainState}

theorem HeaderTree.insert (ht : HeaderTree g m) (b : BlockNode) (pprev : CBlockIndex) (hne : pprev ≠ [])
    (hnew : m b.hash = none) (hprev : Filed m pprev) :
    HeaderTree g (Function.update m b.hash (some (b :: pprev))) := by
  have hold : ∀ h pindex, Function.update m b.hash (some (b :: pprev)) h = some pindex →
      h = b.hash ∧ pindex = b :: pprev ∨ m h = some pindex := by
    intro h pindex hfound
    by_cases hh : h = b.hash
    · rw [hh, Function.update_self, Option.some.injEq] at hfound
      exact Or.inl ⟨hh, hfound.symm⟩
    · rw [Function.update_of_ne hh] at hfound
      exact Or.inr hfound
  constructor
  · intro h pindex hfound
    cases hold h pindex hfound with
    | inl hcase =>
      rw [hcase.1, hcase.2]
      exact ⟨List.cons_ne_nil b pprev, rfl⟩
    | inr hcase => exact ht.entry h pindex hcase
  · intro h b' pprev' hfound hne'
    cases hold h (b' :: pprev') hfound with
    | inl hcase =>
      obtain ⟨-, rfl⟩ := List.cons.inj hcase.2
      exact hprev.insert b.hash _ hnew hne'
    | inr hcase => exact Filed.insert (fun hne => ht.pprev h b' pprev' hcase hne) b.hash _ hnew hne'
  · intro h pindex hfound
    cases hold h pindex hfound with
    | inl hcase =>
      rw [hcase.2]
      exact (ht.root _ pprev (hprev hne)).trans (List.suffix_cons b pprev)
    | inr hcase => exact ht.root h pindex hcase

theorem NextFiled.foldl (hnext : NextFiled c) (f : CBlockIndex → Option UInt256) (l : List CBlockIndex)
    (hl : ∀ pindex ∈ l, Filed c.mapBlockIndex pindex.tail) :
    NextFiled (l.foldl (fun c pindex => c.setNext pindex.tail (f pindex)) c) := by
  intro h hnone
  rw [(foldl_setNext_frame c f l).2.2] at hnone
  rw [foldl_setNext_of_not_mem]
  · exact hnext h hnone
  · rintro pindex hmem ⟨hne, hhash⟩
    have hfound := hl pindex hmem hne
    rw [hhash, hnone] at hfound
    cases hfound

/-- A filed header on top of the chain becomes the next one of the tip. -/
theorem LinksAlong.extend {chain : CBlockIndex} (hlinks : LinksAlong c chain) (hm : PprevFiled c.mapBlockIndex)
    (b : BlockNode) (hne : chain ≠ []) (hfiled : Filed c.mapBlockIndex (b :: chain)) :
    LinksAlong (c.setNext chain (some b.hash)) (b :: chain) := by
  have hchain : Filed c.mapBlockIndex chain := hfiled.below hm (List.suffix_cons b chain)
  have hother : ∀ q, Filed c.mapBlockIndex q → q ≠ [] → q ≠ chain →
      (c.setNext chain (some b.hash)).pnext (CBlockIndex.getBlockHash q) = c.pnext (CBlockIndex.getBlockHash q) := by
    intro q hq hqne hdiff
    rw [setNext_pnext, if_neg]
    rintro ⟨-, hhash⟩
    exact hdiff (Filed.eq_of_hash hq hchain hqne hne hhash.symm)
  constructor
  · intro b' q hq hqne
    cases List.suffix_cons_iff.mp hq with
    | inl heq =>
      obtain ⟨rfl, rfl⟩ := List.cons.inj heq
      rw [setNext_pnext, if_pos ⟨hne, rfl⟩]
    | inr htail =>
      rw [hother q (hchain.below hm ((List.suffix_cons b' q).trans htail)) hqne]
      · exact hlinks.up b' q htail hqne
      · rintro rfl
        have hle := htail.length_le
        rw [List.length_cons] at hle
        omega
  · intro q hq hqne htip
    have hmap : (c.setNext chain (some b.hash)).mapBlockIndex = c.mapBlockIndex := by
      cases chain with
      | nil => rfl
      | cons b' pprev => rfl
    rw [hmap] at hq
    have habove : ¬ q <:+ chain := by
      intro hq'
      have hle := hq'.length_le
      rw [htip (hq'.trans (List.suffix_cons b chain)), List.length_cons] at hle
      omega
    rw [hother q hq hqne]
    · exact hlinks.null q hq hqne fun h => absurd h habove
    · rintro rfl
      exact habove List.suffix_rfl

/-- The postponed headers lead up to the new tip. -/
theorem LinksAlong.extend_branch {pfork : CBlockIndex} (hlinks : LinksAlong c pfork)
    (hm : PprevFiled c.mapBlockIndex) (hne : pfork ≠ []) (pindexNew : CBlockIndex) (hfork : pfork <:+ pindexNew)
    (hfiled : Filed c.mapBlockIndex pindexNew) :
    LinksAlong ((branchAbove pindexNew pfork).reverse.foldl
      (fun c pindex => c.setNext pindex.tail (some (CBlockIndex.getBlockHash pindex))) c) pindexNew := by
  induction pindexNew with
  | nil => exact absurd (List.suffix_nil.mp hfork) hne
  | cons b pprev ih =>
    cases List.suffix_cons_iff.mp hfork with
    | inl heq =>
      rw [heq, branchAbove_self]
      exact heq ▸ hlinks
    | inr htail =>
      have hprev : Filed c.mapBlockIndex pprev := hfiled.below hm (List.suffix_cons b pprev)
      rw [branchAbove_cons b pprev pfork htail, List.reverse_cons, List.foldl_append, List.foldl_cons, List.foldl_nil]
      have hmap := (foldl_setNext_frame c (fun pindex => some (CBlockIndex.getBlockHash pindex))
        (branchAbove pprev pfork).reverse).2.2
      refine (ih htail hprev).extend (hmap ▸ hm) b ?_ (hmap ▸ hfiled)
      rintro rfl
      exact hne (List.suffix_nil.mp htail)

end Index

section Switch

variable (io : HeaderIO) {g : BlockNode} {c : ChainState}

/-- Everything that is written for the header of a postponed connection. -/
def HeaderIO.Writes (pindex : CBlockIndex) : Prop :=
  io.txnBegin (CBlockIndex.getBlockHash pindex) = true ∧ io.connectBlockThin pindex = true ∧
    io.writeHashBestHeaderChain (CBlockIndex.getBlockHash pindex) = true ∧
    io.txnCommit (CBlockIndex.getBlockHash pindex) = true

theorem connectSecondary_eq (l : List CBlockIndex) (c : ChainState) (hl : ∀ pindex ∈ l, io.Writes pindex) :
    connectSecondary io l c =
      l.foldl (fun c pindex => c.setNext pindex.tail (some (CBlockIndex.getBlockHash pindex))) c := by
  induction l generalizing c with
  | nil => rfl
  | cons pindex rest ih =>
    obtain ⟨hbegin, hconnect, hwrite, hcommit⟩ := hl pindex List.mem_cons_self
    rw [connectSecondary, if_pos hbegin, setBestThinChainInner, hconnect, hwrite, hcommit]
    exact ih _ fun q hq => hl q (List.mem_cons_of_mem pindex hq)

/-- The best header is filed, and the pointers `pnext` lead from the first header to it. -/
structure HeaderLinks (g : BlockNode) (c : ChainState) : Prop where
  tree : HeaderTree g c.mapBlockIndex
  genesis : c.pindexGenesisBlock = [g]
  best_ne : c.pindexBest ≠ []
  best : Filed c.mapBlockIndex c.pindexBest
  next : NextFiled c
  links : LinksAlong c c.pindexBest

theorem HeaderLinks.root (h : HeaderLinks g c) : [g] <:+ c.pindexBest :=
  h.tree.root _ _ (h.best h.best_ne)

/-- A new entry is not led to yet. -/
theorem HeaderLinks.insert (h : HeaderLinks g c) (b : BlockNode) (pprev : CBlockIndex) (hne : pprev ≠ [])
    (hnew : c.mapBlockIndex b.hash = none) (hprev : Filed c.mapBlockIndex pprev) :
    HeaderLinks g { c with mapBlockIndex := Function.update c.mapBlockIndex b.hash (some (b :: pprev)) } where
  tree := h.tree.insert b pprev hne hnew hprev
  genesis := h.genesis
  best_ne := h.best_ne
  best := h.best.insert b.hash _ hnew
  next := by
    intro hash hnone
    refine h.next hash ?_
    by_cases hh : hash = b.hash
    · rw [hh]
      exact hnew
    · dsimp only at hnone
      rwa [Function.update_of_ne hh] at hnone
  links := by
    refine ⟨h.links.up, fun q hq hqne htip => ?_⟩
    have hfound := hq hqne
    dsimp only at hfound
    by_cases hh : CBlockIndex.getBlockHash q = b.hash
    · rw [hh]
      exact h.next b.hash hnew
    · rw [Function.update_of_ne hh] at hfound
      exact h.links.null q (fun _ => hfound) hqne htip

/-- The new pointers lead to a filed header, which becomes the best one. -/
theorem HeaderLinks.switch (h : HeaderLinks g c) {c' : ChainState} {pindexNew : CBlockIndex}
    (hmap : c'.mapBlockIndex = c.mapBlockIndex) (hgenesis : c'.pindexGenesisBlock = c.pindexGenesisBlock)
    (hne : pindexNew ≠ []) (hnew : Filed c.mapBlockIndex pindexNew) (hnext : NextFiled c')
    (hlinks : LinksAlong c' pindexNew) : HeaderLinks g { c' with pindexBest := pindexNew } where
  tree := hmap ▸ h.tree
  genesis := hgenesis.trans h.genesis
  best_ne := hne
  best := hmap ▸ hnew
  next := hnext
  links := ⟨hlinks.up, hlinks.null⟩

theorem reorganizeHeaders_cases (c : ChainState) (pindexNew : CBlockIndex) :
    reorganizeHeaders io c pindexNew = (c, false) ∨ ∃ pfork, pfork ≠ [] ∧ pfork <:+ c.pindexBest ∧ pfork <:+ pindexNew ∧
      reorganizeHeaders io c pindexNew =
        (reorganizeNext c (branchAbove c.pindexBest pfork) (branchAbove pindexNew pfork).reverse, true) := by
  rw [reorganizeHeaders, forkSearch_eq]
  cases hfork : findFork c.pindexBest pindexNew with
  | none => exact Or.inl rfl
  | some pfork =>
    obtain ⟨hne, hold, hnew⟩ := findFork_suffix _ _ _ hfork
    dsimp only
    rw [walkTo_eq _ _ hold, walkTo_eq _ _ hnew]
    split
    · exact Or.inr ⟨pfork, hne, hold, hnew, rfl⟩
    · exact Or.inl rfl

/-- The pointers after a reorganisation. -/
theorem HeaderLinks.reorganize (h : HeaderLinks g c) {pindexNew pfork : CBlockIndex} (hold : pfork <:+ c.pindexBest)
    (hfork : pfork <:+ pindexNew) (hnew : Filed c.mapBlockIndex pindexNew) :
    let c' := reorganizeNext c (branchAbove c.pindexBest pfork) (branchAbove pindexNew pfork).reverse
    NextFiled c' ∧ LinksAlong c' pindexNew := by
  have hm := h.tree.pprev
  have htail : ∀ pindex r : CBlockIndex, Filed c.mapBlockIndex pindex → pfork <:+ pindex →
      r ∈ branchAbove pindex pfork → Filed c.mapBlockIndex r.tail := by
    intro pindex r hpindex hfork hr
    exact hpindex.below hm ((List.tail_suffix r).trans ((mem_branchAbove pindex pfork r hfork).mp hr).1)
  have hcleared := foldl_setNext_frame c (fun _ => none) (branchAbove c.pindexBest pfork)
  have hnext := h.next.foldl (fun _ => none) _ fun r hr => htail _ r h.best hold hr
  refine ⟨hnext.foldl (fun pindex => some (CBlockIndex.getBlockHash pindex)) _ fun r hr => ?_,
    reorganizeNext_links c pindexNew pfork hm h.best hnew hold hfork h.links⟩
  rw [hcleared.2.2]
  exact htail _ r hnew hfork (List.mem_reverse.mp hr)

/-- The pointers after the postponed connections, which start at a header below the new tip. -/
theorem HeaderLinks.connectPostponed (h : HeaderLinks g c) {c' : ChainState} {pindexIntermediate : CBlockIndex}
    (pindexNew : CBlockIndex)
    (hmap : c'.mapBlockIndex = c.mapBlockIndex) (hgenesis : c'.pindexGenesisBlock = c.pindexGenesisBlock)
    (hnext : NextFiled c') (hlinks : LinksAlong c' pindexIntermediate) (hne : pindexIntermediate ≠ [])
    (hinter : pindexIntermediate <:+ pindexNew) (hnew : Filed c.mapBlockIndex pindexNew) :
    let c'' := (branchAbove pindexNew pindexIntermediate).reverse.foldl
      (fun c pindex => c.setNext pindex.tail (some (CBlockIndex.getBlockHash pindex))) c'
    HeaderLinks g { c'' with pindexBest := pindexNew } ∧ c''.mapBlockIndex = c.mapBlockIndex := by
  intro c''
  have hm : PprevFiled c'.mapBlockIndex := hmap ▸ h.tree.pprev
  have hframe := foldl_setNext_frame c' (fun pindex => some (CBlockIndex.getBlockHash pindex))
    (branchAbove pindexNew pindexIntermediate).reverse
  refine ⟨h.switch (hframe.2.2.trans hmap) (hframe.2.1.trans hgenesis) ?_ hnew ?_ ?_, hframe.2.2.trans hmap⟩
  · rintro rfl
    exact hne (List.suffix_nil.mp hinter)
  · refine hnext.foldl (fun pindex => some (CBlockIndex.getBlockHash pindex)) _ fun r hr => ?_
    have hr' := (mem_branchAbove pindexNew pindexIntermediate r hinter).mp (List.mem_reverse.mp hr)
    rw [hmap]
    exact hnew.below h.tree.pprev ((List.tail_suffix r).trans hr'.1)
  · exact hlinks.extend_branch hm hne pindexNew hinter (hmap ▸ hnew)

/-- The step of the best header: up by one, or over to another branch. -/
theorem HeaderLinks.setBestThinChain (h : HeaderLinks g c) {block : CBlock} {b : BlockNode} {pprev : CBlockIndex}
    (hprev : c.mapBlockIndex block.hashPrevBlock = some pprev) (hnew : Filed c.mapBlockIndex (b :: pprev))
    (hwrites : block.hashPrevBlock ≠ c.hashBestChain →
      ∀ pindex ∈ (postponed (CBlockIndex.nChainTrust c.pindexBest) (b :: pprev)).2, io.Writes pindex) :
    HeaderLinks g (setBestThinChain io c block (b :: pprev)).1 ∧
      (setBestThinChain io c block (b :: pprev)).1.mapBlockIndex = c.mapBlockIndex := by
  rw [AliasWallet.setBestThinChain]
  split
  · by_cases hdirect : block.hashPrevBlock = c.hashBestChain
    · have htip : pprev = c.pindexBest := by
        have hbest := h.best h.best_ne
        rw [hdirect, ChainState.hashBestChain, hbest, Option.some.injEq] at hprev
        exact hprev.symm
      subst htip
      rw [if_pos hdirect, setBestThinChainInner]
      by_cases hok : (io.connectBlockThin (b :: c.pindexBest) &&
          io.writeHashBestHeaderChain (CBlockIndex.getBlockHash (b :: c.pindexBest)) &&
          io.txnCommit (CBlockIndex.getBlockHash (b :: c.pindexBest))) = true
      · rw [if_pos hok]
        have hstep := h.connectPostponed (b :: c.pindexBest) rfl rfl h.next h.links h.best_ne
          (List.suffix_cons b c.pindexBest) hnew
        rw [branchAbove_cons b _ _ List.suffix_rfl, branchAbove_self] at hstep
        exact hstep
      · rw [if_neg hok]
        exact ⟨h, rfl⟩
    · rw [if_neg hdirect]
      obtain ⟨hinter, hsecondary⟩ := postponed_spec (CBlockIndex.nChainTrust c.pindexBest) (b :: pprev)
      have hall := hwrites hdirect
      cases hcut : postponed (CBlockIndex.nChainTrust c.pindexBest) (b :: pprev) with
      | mk pindexIntermediate vpindexSecondary =>
        rw [hcut] at hinter hsecondary hall
        dsimp only at hinter hsecondary hall ⊢
        rcases reorganizeHeaders_cases io c pindexIntermediate with hfail | ⟨pfork, hne, hold, hfork, hok⟩
        · rw [hfail]
          exact ⟨h, rfl⟩
        · have hfiled := hnew.below h.tree.pprev hinter
          have hframe := reorganizeNext_frame c (branchAbove c.pindexBest pfork)
            (branchAbove pindexIntermediate pfork).reverse
          obtain ⟨hnext, hlinks⟩ := h.reorganize hold hfork hfiled
          rw [hok]
          dsimp only
          rw [connectSecondary_eq io _ _ hall, hsecondary]
          refine h.connectPostponed (b :: pprev) hframe.2.2 hframe.2.1 hnext hlinks ?_ hinter hnew
          rintro rfl
          exact hne (List.suffix_nil.mp hfork)
  · exact ⟨h, rfl⟩

end Switch

section Answers

variable {g : BlockNode} {n : LightNode}

theorem walkBack_eq (nHeight : Int) (hpos : 0 ≤ nHeight) (pindex : CBlockIndex) :
    walkBack nHeight pindex = pindex.drop (CBlockIndex.nHeight pindex - nHeight).toNat := by
  induction pindex with
  | nil => rw [walkBack, List.drop_nil]
  | cons b pprev ih =>
    rw [walkBack, ih, CBlockIndex.nHeight, CBlockIndex.nHeight, List.length_cons]
    by_cases hhigh : ((pprev.length + 1 : Nat) : Int) - 1 > nHeight
    · have hne : pprev ≠ [] := by
        rintro rfl
        rw [List.length_nil] at hhigh
        omega
      have hdrop : (((pprev.length + 1 : Nat) : Int) - 1 - nHeight).toNat =
          ((pprev.length : Int) - 1 - nHeight).toNat + 1 := by
        have hlen := List.length_pos_iff.mpr hne
        omega
      rw [if_pos ⟨hhigh, hne⟩, hdrop, List.drop_succ_cons]
    · have hdrop : (((pprev.length + 1 : Nat) : Int) - 1 - nHeight).toNat = 0 := by omega
      rw [if_neg fun h => hhigh h.1, hdrop, List.drop_zero]

/-- From a header of the chain the second loop reaches the height. -/
theorem walkOn_active (h : HeaderLinks g n.chain) (nHeight : Int) (rounds : Nat) (pindex : CBlockIndex)
    (hne : pindex ≠ []) (hchain : pindex <:+ n.chain.pindexBest)
    (hrounds : CBlockIndex.nHeight pindex + rounds = nHeight) (hbest : nHeight ≤ n.chain.nBestHeight) :
    walkOn n.chain nHeight rounds pindex <:+ n.chain.pindexBest ∧
      CBlockIndex.nHeight (walkOn n.chain nHeight rounds pindex) = nHeight := by
  induction rounds generalizing pindex with
  | zero => exact ⟨hchain, by simpa [walkOn] using hrounds⟩
  | succ rounds ih =>
    have hlow : pindex ≠ [] ∧ CBlockIndex.nHeight pindex < nHeight := ⟨hne, by omega⟩
    have hbelow : pindex ≠ n.chain.pindexBest := by
      rintro rfl
      rw [ChainState.nBestHeight] at hbest
      omega
    obtain ⟨b, hb⟩ := exists_cons_suffix hchain hbelow
    have hnext : followNext n.chain pindex = some (b :: pindex) := by
      rw [followNext, h.links.up b pindex hb hne]
      exact h.best.below h.tree.pprev hb (List.cons_ne_nil b pindex)
    rw [walkOn, if_pos hlow, hnext]
    refine ih (b :: pindex) (List.cons_ne_nil b pindex) hb ?_
    rw [CBlockIndex.nHeight] at hrounds ⊢
    rw [List.length_cons]
    omega

theorem walkOn_filed (h : HeaderLinks g n.chain) (nHeight : Int) (rounds : Nat) (pindex : CBlockIndex)
    (hne : pindex ≠ []) (hfiled : Filed n.chain.mapBlockIndex pindex) :
    walkOn n.chain nHeight rounds pindex ≠ [] ∧ Filed n.chain.mapBlockIndex (walkOn n.chain nHeight rounds pindex) := by
  induction rounds generalizing pindex with
  | zero => exact ⟨hne, hfiled⟩
  | succ rounds ih =>
    rw [walkOn]
    split
    · cases hnext : followNext n.chain pindex with
      | none => exact ⟨hne, hfiled⟩
      | some pnext =>
        obtain ⟨hash, -, hfound⟩ := Option.bind_eq_some_iff.mp hnext
        obtain ⟨hne', hhash⟩ := h.tree.entry _ _ hfound
        exact ih pnext hne' fun _ => by rw [hhash, hfound]
    · exact ⟨hne, hfiled⟩

/-- The last answer cannot lead astray: it is on the active chain, or never nearer than the best header. -/
def AnswerOk (n : LightNode) : Prop :=
  n.pblockHeaderIndexFBBHLast = [] ∨ n.pblockHeaderIndexFBBHLast <:+ n.chain.pindexBest ∨
    n.chain.pindexBest.length ≤ n.pblockHeaderIndexFBBHLast.length

/-- Every height of the active chain gives its header. -/
def FindsActive (n : LightNode) : Prop :=
  ∀ nHeight, 0 ≤ nHeight → nHeight ≤ n.chain.nBestHeight →
    (findBlockThinByHeight n nHeight).2 <:+ n.chain.pindexBest ∧
      CBlockIndex.nHeight (findBlockThinByHeight n nHeight).2 = nHeight

theorem HeaderLinks.nBestHeight_nonneg (h : HeaderLinks g n.chain) : 0 ≤ n.chain.nBestHeight := by
  have hlen := List.length_pos_iff.mpr h.best_ne
  rw [ChainState.nBestHeight, CBlockIndex.nHeight]
  omega

/-- The search starts from an end of the chain unless the last answer is nearer. -/
theorem lookupStart_eq (h : HeaderLinks g n.chain) (nHeight : Int) :
    ∃ start, start ≠ [] ∧ start <:+ n.chain.pindexBest ∧ (start = [g] ∨ start = n.chain.pindexBest) ∧
      (0 ≤ nHeight → nHeight ≤ n.chain.nBestHeight →
        n.chain.pindexBest.length ≤ n.pblockHeaderIndexFBBHLast.length →
          (nHeight - CBlockIndex.nHeight start).natAbs ≤
            (nHeight - CBlockIndex.nHeight n.pblockHeaderIndexFBBHLast).natAbs) ∧
      lookupStart n nHeight =
        if n.pblockHeaderIndexFBBHLast ≠ [] ∧ (nHeight - CBlockIndex.nHeight start).natAbs >
          (nHeight - CBlockIndex.nHeight n.pblockHeaderIndexFBBHLast).natAbs
        then n.pblockHeaderIndexFBBHLast else start := by
  have hheight : n.chain.nBestHeight = n.chain.pindexBest.length - 1 := rfl
  have hlast : CBlockIndex.nHeight n.pblockHeaderIndexFBBHLast = n.pblockHeaderIndexFBBHLast.length - 1 := rfl
  rw [lookupStart, Int.tdiv_eq_ediv_of_nonneg h.nBestHeight_nonneg, h.genesis]
  by_cases hlow : nHeight < n.chain.nBestHeight / 2
  · refine ⟨[g], List.cons_ne_nil g [], h.root, Or.inl rfl, fun hpos hbest hle => ?_, ?_⟩
    · rw [hlast, CBlockIndex.nHeight, List.length_singleton]
      omega
    · rw [if_pos hlow, if_neg (List.cons_ne_nil g [])]
  · refine ⟨n.chain.pindexBest, h.best_ne, List.suffix_rfl, Or.inr rfl, fun hpos hbest hle => ?_, ?_⟩
    · rw [hlast, CBlockIndex.nHeight]
      omega
    · rw [if_neg hlow, if_neg h.best_ne]

/-- Where the last answer is as high as the best header, it is never nearer. -/
theorem lookupStart_cases (h : HeaderLinks g n.chain) (nHeight : Int) (hpos : 0 ≤ nHeight)
    (hbest : nHeight ≤ n.chain.nBestHeight) :
    (lookupStart n nHeight = n.pblockHeaderIndexFBBHLast ∧ n.pblockHeaderIndexFBBHLast ≠ [] ∧
      n.pblockHeaderIndexFBBHLast.length < n.chain.pindexBest.length) ∨
      (lookupStart n nHeight ≠ [] ∧ lookupStart n nHeight <:+ n.chain.pindexBest ∧
        (lookupStart n nHeight = [g] ∨ lookupStart n nHeight = n.chain.pindexBest) ∧
        (n.pblockHeaderIndexFBBHLast = [] ∨
          CBlockIndex.nHeight n.pblockHeaderIndexFBBHLast ≠ nHeight ∨
          CBlockIndex.nHeight (lookupStart n nHeight) = nHeight)) := by
  obtain ⟨start, hne, hsuffix, hends, hfar, heq⟩ := lookupStart_eq h nHeight
  rw [heq]
  by_cases hnear : n.pblockHeaderIndexFBBHLast ≠ [] ∧ (nHeight - CBlockIndex.nHeight start).natAbs >
      (nHeight - CBlockIndex.nHeight n.pblockHeaderIndexFBBHLast).natAbs
  · rw [if_pos hnear]
    refine Or.inl ⟨rfl, hnear.1, ?_⟩
    by_contra hlong
    exact absurd (hfar hpos hbest (not_lt.mp hlong)) (not_le.mpr hnear.2)
  · rw [if_neg hnear]
    refine Or.inr ⟨hne, hsuffix, hends, ?_⟩
    by_cases hnil : n.pblockHeaderIndexFBBHLast = []
    · exact Or.inl hnil
    · have hle : ¬ (nHeight - CBlockIndex.nHeight start).natAbs >
          (nHeight - CBlockIndex.nHeight n.pblockHeaderIndexFBBHLast).natAbs := fun hgt => hnear ⟨hnil, hgt⟩
      omega

/-- A search that starts on the active chain ends at the height. -/
theorem findBlockThinByHeight_of_start (h : HeaderLinks g n.chain) (nHeight : Int) (hpos : 0 ≤ nHeight)
    (hbest : nHeight ≤ n.chain.nBestHeight) (hne : lookupStart n nHeight ≠ [])
    (hstart : lookupStart n nHeight <:+ n.chain.pindexBest) :
    (findBlockThinByHeight n nHeight).2 <:+ n.chain.pindexBest ∧
      CBlockIndex.nHeight (findBlockThinByHeight n nHeight).2 = nHeight := by
  have hback := walkBack_eq nHeight hpos (lookupStart n nHeight)
  have hlen := List.length_pos_iff.mpr hne
  have hheight : CBlockIndex.nHeight (lookupStart n nHeight) = (lookupStart n nHeight).length - 1 := rfl
  have hlength : (walkBack nHeight (lookupStart n nHeight)).length =
      (lookupStart n nHeight).length - (CBlockIndex.nHeight (lookupStart n nHeight) - nHeight).toNat := by
    rw [hback, List.length_drop]
  have hne' : walkBack nHeight (lookupStart n nHeight) ≠ [] := by
    rw [← List.length_pos_iff]
    omega
  have hchain : walkBack nHeight (lookupStart n nHeight) <:+ n.chain.pindexBest := by
    rw [hback]
    exact (List.drop_suffix _ _).trans hstart
  have hlow : CBlockIndex.nHeight (walkBack nHeight (lookupStart n nHeight)) ≤ nHeight := by
    rw [CBlockIndex.nHeight]
    omega
  obtain ⟨hin, hat⟩ := walkOn_active h nHeight _ _ hne' hchain
    (by rw [Int.toNat_of_nonneg (sub_nonneg.mpr hlow)]; omega) hbest
  rw [findBlockThinByHeight]
  rw [if_neg]
  · exact ⟨hin, hat⟩
  · rw [not_or, not_not]
    refine ⟨fun hnil => ?_, hat⟩
    rw [hnil, CBlockIndex.nHeight, List.length_nil] at hat
    omega

/-- All lookups are right exactly when the last answer cannot lead astray. -/
theorem findsActive_iff (h : HeaderLinks g n.chain) (hlast : Filed n.chain.mapBlockIndex n.pblockHeaderIndexFBBHLast) :
    FindsActive n ↔ AnswerOk n := by
  constructor
  · intro hfinds
    by_contra hbad
    rw [AnswerOk, not_or, not_or, not_le] at hbad
    obtain ⟨hne, hoff, hshort⟩ := hbad
    have hlen := List.length_pos_iff.mpr hne
    -- the height of the last answer itself
    obtain ⟨nHeight, hat⟩ : ∃ nHeight, CBlockIndex.nHeight n.pblockHeaderIndexFBBHLast = nHeight := ⟨_, rfl⟩
    have hheight : nHeight = n.pblockHeaderIndexFBBHLast.length - 1 := hat.symm
    have hbest : n.chain.nBestHeight = n.chain.pindexBest.length - 1 := rfl
    obtain ⟨hin, -⟩ := hfinds nHeight (by omega) (by omega)
    rcases lookupStart_cases h nHeight (by omega) (by omega) with ⟨heq, -, -⟩ | ⟨-, -, hends, hnil | hdiff | hsame⟩
    · have hback : walkBack nHeight n.pblockHeaderIndexFBBHLast = n.pblockHeaderIndexFBBHLast := by
        rw [walkBack_eq nHeight (by omega), hat, sub_self]
        rfl
      rw [findBlockThinByHeight, heq, hback, hat, sub_self, if_neg] at hin
      · exact hoff hin
      · rw [not_or, not_not]
        exact ⟨hne, hat⟩
    · exact hne hnil
    · exact hdiff hat
    · rw [CBlockIndex.nHeight] at hsame
      rcases hends with hgenesis | htip
      · rw [hgenesis, List.length_singleton] at hsame
        have hroot := (h.tree.root _ _ (hlast hne)).eq_of_length (by rw [List.length_singleton]; omega)
        exact hoff (hroot ▸ h.root)
      · rw [htip] at hsame
        omega
  · intro hok nHeight hpos hbest
    rcases lookupStart_cases h nHeight hpos hbest with ⟨heq, hne, hshort⟩ | ⟨hne, hsuffix, -, -⟩
    · refine findBlockThinByHeight_of_start h nHeight hpos hbest (heq ▸ hne) ?_
      rcases hok with hnil | hin | hlong
      · exact absurd hnil hne
      · exact heq ▸ hin
      · omega
    · exact findBlockThinByHeight_of_start h nHeight hpos hbest hne hsuffix

end Answers

section Runs

variable (L : LightParams)

/-- What is done with the headers of a light client. -/
inductive LightCall
  | acceptBlockThin (io : HeaderIO) (block : CBlock)
  | findBlockThinByHeight (nHeight : Int)

def LightNode.step (n : LightNode) : LightCall → Option LightNode
  | .acceptBlockThin io block => (acceptBlockThin io L n block).map Prod.fst
  | .findBlockThinByHeight nHeight => some (AliasWallet.findBlockThinByHeight n nHeight).1

/-- Runs in which every call meets a condition. -/
inductive LightRun (allowed : LightNode → LightCall → Prop) (start : LightNode) : LightNode → Prop
  | start : LightRun allowed start start
  | call {n n' : LightNode} {call : LightCall} : LightRun allowed start n → allowed n call →
      n.step L call = some n' → LightRun allowed start n'

/-- A light client with the first header. -/
def firstHeader (g : BlockNode) : LightNode where
  chain := {
    pindexBest := [g]
    pindexGenesisBlock := [g]
    mapBlockIndex := fun hash => if hash = g.hash then some [g] else none
    pnext := fun _ => none
    nAdjustedTime := 0 }
  pindexRear := [g]
  pblockHeaderIndexFBBHLast := []

/-- A header that is added deletes none, and where it brings a reorganisation the postponed headers are connected. -/
def HeadersKept (n : LightNode) : LightCall → Prop
  | .acceptBlockThin io block =>
    let pindexNew := newThinIndex L n.chain block
    n.chain.mapBlockIndex (block.getHash L.H) = none → (n.chain.mapBlockIndex block.hashPrevBlock).isSome →
      io.accepts = true → windowPassed L n pindexNew = false ∧
        (CBlockIndex.nChainTrust pindexNew > CBlockIndex.nChainTrust n.chain.pindexBest →
          block.hashPrevBlock ≠ n.chain.hashBestChain →
            ∀ pindex ∈ (postponed (CBlockIndex.nChainTrust n.chain.pindexBest) pindexNew).2, io.Writes pindex)
  | .findBlockThinByHeight _ => True

variable {L} {g : BlockNode} {n n' : LightNode}

/-- What a call leaves as it is. -/
structure LightInv (g : BlockNode) (n : LightNode) : Prop where
  links : HeaderLinks g n.chain
  last : Filed n.chain.mapBlockIndex n.pblockHeaderIndexFBBHLast

theorem LightInv.firstHeader (g : BlockNode) : LightInv g (firstHeader g) where
  links := {
    tree := {
      entry := by
        intro h pindex hfound
        rw [AliasWallet.firstHeader] at hfound
        dsimp only at hfound
        split at hfound
        case isTrue hh =>
          rw [← Option.some.inj hfound, hh]
          exact ⟨List.cons_ne_nil g [], rfl⟩
        case isFalse => cases hfound
      pprev := by
        intro h b pprev hfound hne
        rw [AliasWallet.firstHeader] at hfound
        dsimp only at hfound
        split at hfound
        · exact absurd (List.cons.inj (Option.some.inj hfound)).2.symm hne
        · cases hfound
      root := by
        intro h pindex hfound
        rw [AliasWallet.firstHeader] at hfound
        dsimp only at hfound
        split at hfound
        · rw [Option.some.inj hfound]
        · cases hfound }
    genesis := rfl
    best_ne := List.cons_ne_nil g []
    best := fun _ => if_pos rfl
    next := fun _ _ => rfl
    links := by
      refine ⟨fun b q hb hne => ?_, fun _ _ _ _ => rfl⟩
      cases List.suffix_cons_iff.mp hb with
      | inl heq => exact absurd (List.cons.inj heq).2 hne
      | inr hnil => cases List.suffix_nil.mp hnil }
  last := Filed.nil

theorem walkBack_suffix (nHeight : Int) (pindex : CBlockIndex) (hne : pindex ≠ []) :
    walkBack nHeight pindex ≠ [] ∧ walkBack nHeight pindex <:+ pindex := by
  induction pindex with
  | nil => exact absurd rfl hne
  | cons b pprev ih =>
    rw [walkBack]
    split
    case isTrue hback => exact ⟨(ih hback.2).1, (ih hback.2).2.trans (List.suffix_cons b pprev)⟩
    case isFalse => exact ⟨List.cons_ne_nil b pprev, List.suffix_rfl⟩

/-- Whatever is asked, the answer is filed. -/
theorem LightInv.findBlockThinByHeight (h : LightInv g n) (nHeight : Int) :
    LightInv g (findBlockThinByHeight n nHeight).1 := by
  have hm := h.links.tree.pprev
  obtain ⟨start, hne, hsuffix, -, -, heq⟩ := lookupStart_eq h.links nHeight
  have hstart : lookupStart n nHeight ≠ [] ∧ Filed n.chain.mapBlockIndex (lookupStart n nHeight) := by
    rw [heq]
    split
    case isTrue hlast => exact ⟨hlast.1, h.last⟩
    case isFalse => exact ⟨hne, h.links.best.below hm hsuffix⟩
  obtain ⟨hback_ne, hback⟩ := walkBack_suffix nHeight _ hstart.1
  have hfound := walkOn_filed h.links nHeight
    (nHeight - CBlockIndex.nHeight (walkBack nHeight (lookupStart n nHeight))).toNat _ hback_ne
    (hstart.2.below hm hback)
  rw [AliasWallet.findBlockThinByHeight]
  split
  · exact h
  · exact ⟨h.links, hfound.2⟩

theorem LightInv.addToBlockThinIndex (h : LightInv g n) (io : HeaderIO) {block : CBlock} {pprev : CBlockIndex}
    (hnew : n.chain.mapBlockIndex (block.getHash L.H) = none)
    (hprev : n.chain.mapBlockIndex block.hashPrevBlock = some pprev)
    (hpass : windowPassed L n (newThinIndex L n.chain block) = false)
    (hwrites : CBlockIndex.nChainTrust (newThinIndex L n.chain block) > CBlockIndex.nChainTrust n.chain.pindexBest →
      block.hashPrevBlock ≠ n.chain.hashBestChain → ∀ pindex ∈
        (postponed (CBlockIndex.nChainTrust n.chain.pindexBest) (newThinIndex L n.chain block)).2, io.Writes pindex) :
    ∃ n' ok, addToBlockThinIndex io L n block = some (n', ok) ∧ LightInv g n' := by
  obtain ⟨hne, hhash⟩ := h.links.tree.entry _ _ hprev
  have hfiled : Filed n.chain.mapBlockIndex pprev := fun _ => by rw [hhash, hprev]
  obtain ⟨b, hb, hentry⟩ : ∃ b : BlockNode, b.hash = block.getHash L.H ∧
      newThinIndex L n.chain block = b :: pprev := by
    rw [newThinIndex, hprev]
    exact ⟨_, rfl, rfl⟩
  rw [hentry] at hpass hwrites
  rw [← hb] at hnew
  have hinsert := h.links.insert b pprev hne hnew hfiled
  have hlast := h.last.insert b.hash (b :: pprev) hnew
  have hother : block.hashPrevBlock ≠ b.hash := by
    intro heq
    rw [heq, hnew] at hprev
    cases hprev
  have hprev' : Function.update n.chain.mapBlockIndex b.hash (some (b :: pprev)) block.hashPrevBlock = some pprev := by
    rw [Function.update_of_ne hother, hprev]
  have hentry' : Filed (Function.update n.chain.mapBlockIndex b.hash (some (b :: pprev))) (b :: pprev) :=
    fun _ => Function.update_self ..
  rw [AliasWallet.addToBlockThinIndex, hentry, ← hb, hnew]
  dsimp only
  rw [if_neg (by simp)]
  by_cases hwrite : io.writeIndex = true
  · rw [if_pos hwrite]
    by_cases hbetter : CBlockIndex.nChainTrust (b :: pprev) > CBlockIndex.nChainTrust n.chain.pindexBest
    · have hset := hinsert.setBestThinChain io hprev' hentry' (hwrites hbetter)
      rw [if_pos hbetter]
      generalize setBestThinChain io _ block (b :: pprev) = r at hset ⊢
      obtain ⟨c', ok⟩ := r
      have hlast' : Filed c'.mapBlockIndex n.pblockHeaderIndexFBBHLast := hset.2 ▸ hlast
      cases ok with
      | true =>
        dsimp only
        rw [hpass]
        exact ⟨_, _, rfl, hset.1, hlast'⟩
      | false => exact ⟨_, _, rfl, hset.1, hlast'⟩
    · rw [if_neg hbetter]
      dsimp only
      rw [hpass]
      exact ⟨_, _, rfl, hinsert, hlast⟩
  · rw [if_neg hwrite]
    exact ⟨_, _, rfl, hinsert, hlast⟩

theorem LightInv.step (h : LightInv g n) (call : LightCall) (hkept : HeadersKept L n call) :
    ∃ n', n.step L call = some n' ∧ LightInv g n' := by
  cases call with
  | findBlockThinByHeight nHeight => exact ⟨_, rfl, h.findBlockThinByHeight nHeight⟩
  | acceptBlockThin io block =>
    have hsame : ∃ n', (some (n, false)).map Prod.fst = some n' ∧ LightInv g n' := ⟨n, rfl, h⟩
    rw [LightNode.step, acceptBlockThin]
    cases hnew : n.chain.mapBlockIndex (block.getHash L.H) with
    | some pindex => exact hsame
    | none =>
      cases hprev : n.chain.mapBlockIndex block.hashPrevBlock with
      | none => exact hsame
      | some pprev =>
        by_cases haccepts : io.accepts = true
        · obtain ⟨hpass, hwrites⟩ := hkept hnew (by rw [hprev]; rfl) haccepts
          obtain ⟨n', ok, heq, hinv⟩ := h.addToBlockThinIndex io hnew hprev hpass hwrites
          refine ⟨n', ?_, hinv⟩
          rw [if_neg (by simp), if_neg (by simp), if_pos haccepts, heq]
          rfl
        · rw [if_neg (by simp), if_neg (by simp), if_neg haccepts]
          exact hsame

theorem LightRun.inv (hrun : LightRun L (HeadersKept L) (firstHeader g) n) : LightInv g n := by
  induction hrun with
  | start => exact LightInv.firstHeader g
  | call _ hkept hstep ih =>
    obtain ⟨n', heq, hinv⟩ := ih.step _ hkept
    rw [hstep, Option.some.injEq] at heq
    rwa [heq]

/-- In every run that keeps the headers, all lookups are right exactly where the last answer cannot lead astray,
and calls have a result. -/
theorem headerLookup_iff (hrun : LightRun L (HeadersKept L) (firstHeader g) n) :
    (FindsActive n ↔ AnswerOk n) ∧ ∀ call, HeadersKept L n call → (n.step L call).isSome := by
  refine ⟨findsActive_iff hrun.inv.links hrun.inv.last, fun call hkept => ?_⟩
  obtain ⟨n', heq, -⟩ := hrun.inv.step call hkept
  rw [heq]
  rfl

/-- A light client that keeps all headers; a header's hash is its nonce. -/
def nonceParams : LightParams where
  H := ⟨fun bs => BitVec.ofNat 256 (leNat (bs.drop 76)), fun bs => BitVec.ofNat 256 (leNat (bs.drop 76))⟩
  fThinFullIndex := true
  nThinIndexWindow := 4096

/-- Nothing fails. -/
def writesAll : HeaderIO where
  accepts := true
  writeIndex := true
  txnBegin := fun _ => true
  disconnectBlockThin := fun _ => true
  connectBlockThin := fun _ => true
  writeHashBestHeaderChain := fun _ => true
  txnCommit := fun _ => true

def nonceHeader (hashPrevBlock : UInt256) (nNonce : UInt32) : CBlock where
  nVersion := 7
  hashPrevBlock := hashPrevBlock
  hashMerkleRoot := 0
  nTime := 0
  nBits := 0x207fffff
  nNonce := nNonce
  vtx := []
  vchBlockSig := []

def nonceRoot : BlockNode := ⟨1, 0, 0, 0, 2⟩

/-- The first branch, and one lookup in it. -/
def firstCalls : List LightCall :=
  [.acceptBlockThin writesAll (nonceHeader 1 2), .acceptBlockThin writesAll (nonceHeader 2 3), .findBlockThinByHeight 1]

/-- A longer branch from the first header. -/
def secondCalls : List LightCall :=
  [.acceptBlockThin writesAll (nonceHeader 1 12), .acceptBlockThin writesAll (nonceHeader 12 13),
    .acceptBlockThin writesAll (nonceHeader 13 14)]

theorem LightRun.of_calls {allowed : LightNode → LightCall → Prop} {start n n' : LightNode} (calls : List LightCall)
    (hall : ∀ n, ∀ call ∈ calls, allowed n call) (hrun : LightRun L allowed start n)
    (hcalls : calls.foldlM (LightNode.step L) n = some n') : LightRun L allowed start n' := by
  apply foldlM_preserves (LightRun L allowed start) calls n n' hrun _ hcalls
  intro n₁ call hcall n₂ hn₁ hstep
  exact hn₁.call (hall n₁ call hcall) hstep

theorem headersKept_writesAll (n : LightNode) (block : CBlock) :
    HeadersKept nonceParams n (.acceptBlockThin writesAll block) :=
  fun _ _ _ => ⟨rfl, fun _ _ _ _ => ⟨rfl, rfl, rfl, rfl⟩⟩

/-- A lookup before the reorganisation. -/
theorem headerLookup_first : ∃ n, LightRun nonceParams (HeadersKept nonceParams) (firstHeader nonceRoot) n ∧
    n.pblockHeaderIndexFBBHLast ≠ [] ∧ FindsActive n := by
  have hcalls : (firstCalls.foldlM (LightNode.step nonceParams) (firstHeader nonceRoot)).map
      (fun n => decide (n.pblockHeaderIndexFBBHLast ≠ [] ∧ n.pblockHeaderIndexFBBHLast <:+ n.chain.pindexBest)) =
        some true := by
    decide +kernel
  obtain ⟨n, hn, heq⟩ := Option.map_eq_some_iff.mp hcalls
  obtain ⟨hne, hin⟩ := of_decide_eq_true heq
  have hkept : ∀ n, ∀ call ∈ firstCalls, HeadersKept nonceParams n call := by
    intro n call hcall
    rw [firstCalls] at hcall
    simp only [List.mem_cons, List.not_mem_nil, or_false] at hcall
    rcases hcall with rfl | rfl | rfl
    · exact headersKept_writesAll n _
    · exact headersKept_writesAll n _
    · exact trivial
  have hrun := LightRun.of_calls firstCalls hkept LightRun.start hn
  exact ⟨n, hrun, hne, (headerLookup_iff hrun).1.mpr (Or.inr (Or.inl hin))⟩

/-- After a lookup and a reorganisation the lookup of the same height gives the header of the abandoned branch. -/
theorem headerLookup_stale :
    ∃ n, LightRun nonceParams (fun _ _ => True) (firstHeader nonceRoot) n ∧ ¬ FindsActive n := by
  have hrun : ((firstCalls ++ secondCalls).foldlM (LightNode.step nonceParams) (firstHeader nonceRoot)).map
      (fun n => (n.chain.pindexBest.map BlockNode.hash, (findBlockThinByHeight n 1).2.map BlockNode.hash)) =
        some ([14, 13, 12, 1], [2, 1]) := by
    decide +kernel
  obtain ⟨n, hn, heq⟩ := Option.map_eq_some_iff.mp hrun
  obtain ⟨hbest, hfound⟩ := Prod.mk.inj heq
  refine ⟨n, LightRun.of_calls _ (fun _ _ _ => trivial) LightRun.start hn, fun hfinds => ?_⟩
  have hheight : n.chain.nBestHeight = 3 := by
    rw [ChainState.nBestHeight, CBlockIndex.nHeight, ← List.length_map (f := BlockNode.hash), hbest]
    rfl
  obtain ⟨hin, -⟩ := hfinds 1 (by decide) (by rw [hheight]; decide)
  have hmap := hin.map BlockNode.hash
  rw [hbest, hfound] at hmap
  exact absurd hmap (by decide)

end Runs

end AliasWallet
