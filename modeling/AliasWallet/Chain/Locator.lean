import AliasWallet.Chain.ForkSearch

/-!
# Block locators (`CBlockLocator`)

The sender names blocks of its branch, further and further apart behind the first ones, and the first block of all. The
receiver goes on from the first of them that is on its main chain. Both have blocks of one tree, in which a hash stands
on one other hash; where the blocks lie in their files is their own matter. `nStep` is a natural number: it stays in its
range on every chain whose heights do.
-/

namespace AliasWallet
open Lib

namespace CBlockLocator

section Locator

/-- The inner loop of `Set`. -/
def stepBack : Nat → CBlockIndex → CBlockIndex
  | 0, pindex => pindex
  | _ + 1, [] => []
  | i + 1, _ :: pprev => stepBack i pprev

/-- The outer loop of `Set`. Each round goes back by one block at least. -/
def setLoop : Nat → Nat → List UInt256 → CBlockIndex → List UInt256
  | 0, _, vHave, _ => vHave
  | rounds + 1, nStep, vHave, pindex =>
    if pindex = [] then vHave
    else
      let vHave := vHave ++ [CBlockIndex.getBlockHash pindex]
      let pindex := stepBack nStep pindex
      setLoop rounds (if vHave.length > 10 then nStep * 2 else nStep) vHave pindex

/-- `CBlockLocator::Set`. -/
def set (hashGenesisBlock : UInt256) (pindex : CBlockIndex) : List UInt256 :=
  setLoop pindex.length 1 [] pindex ++ [hashGenesisBlock]

/-- `CBlockLocator::GetBlockIndex`. -/
def getBlockIndex (c : ChainState) : List UInt256 → CBlockIndex
  | [] => c.pindexGenesisBlock
  | hash :: vHave =>
    match c.mapBlockIndex hash with
    | some pindex => if c.isInMainChain pindex then pindex else getBlockIndex c vHave
    | none => getBlockIndex c vHave

end Locator

section Tree

/-- Which hash a block stands on. -/
structure BlockTree where
  hashGenesisBlock : UInt256
  hashPrev : UInt256 → UInt256

/-- A chain of blocks of the tree down to the first block. -/
def BlockTree.Chain (T : BlockTree) : CBlockIndex → Prop
  | [] => True
  | [b] => b.hash = T.hashGenesisBlock
  | b :: b' :: pprev => b.hash ≠ T.hashGenesisBlock ∧ T.hashPrev b.hash = b'.hash ∧ T.Chain (b' :: pprev)

/-- The hashes from a block back to the first one. -/
def hashes (pindex : CBlockIndex) : List UInt256 := pindex.map fun b => b.hash

variable {T : BlockTree} {p q : CBlockIndex}

theorem BlockTree.Chain.tail {b : BlockNode} (h : T.Chain (b :: p)) : T.Chain p := by
  cases p with
  | nil => trivial
  | cons b' p => exact h.2.2

theorem BlockTree.Chain.drop (h : T.Chain p) (k : Nat) : T.Chain (p.drop k) := by
  induction k generalizing p with
  | zero => exact h
  | succ k ih =>
    cases p with
    | nil => trivial
    | cons b p => exact ih h.tail

/-- A hash has one chain. -/
theorem BlockTree.Chain.hashes_eq (hp : T.Chain p) (hq : T.Chain q) (hpne : p ≠ []) (hqne : q ≠ [])
    (hhash : CBlockIndex.getBlockHash p = CBlockIndex.getBlockHash q) : hashes p = hashes q := by
  induction p generalizing q with
  | nil => exact absurd rfl hpne
  | cons b p ih =>
    cases q with
    | nil => exact absurd rfl hqne
    | cons b' q =>
      have hsame : b.hash = b'.hash := hhash
      cases p with
      | nil =>
        cases q with
        | nil => simp [hashes, hsame]
        | cons d q => exact absurd (hsame.symm.trans hp) hq.1
      | cons a p =>
        cases q with
        | nil => exact absurd (hsame.trans hq) hp.1
        | cons d q =>
          have hprev : a.hash = d.hash := by rw [← hp.2.1, ← hq.2.1, hsame]
          have hbelow := ih hp.tail hq.tail (List.cons_ne_nil _ _) (List.cons_ne_nil _ _) hprev
          show b.hash :: hashes (a :: p) = b'.hash :: hashes (d :: q)
          rw [hbelow, hsame]

theorem BlockTree.Chain.last (h : T.Chain p) (hne : p ≠ []) :
    CBlockIndex.getBlockHash (p.drop (p.length - 1)) = T.hashGenesisBlock := by
  induction p with
  | nil => exact absurd rfl hne
  | cons b p ih =>
    cases p with
    | nil => exact h
    | cons b' p => exact ih h.tail (List.cons_ne_nil b' p)

end Tree

section Search

variable {T : BlockTree} {c : ChainState} {pindexTip : CBlockIndex} {d : Nat}

/-- The receiver has the block with this hash on its main chain. -/
def OnMain (c : ChainState) (hash : UInt256) : Prop :=
  ∃ pindex, c.mapBlockIndex hash = some pindex ∧ c.isInMainChain pindex = true

/-- The index of the receiver is a part of the tree, and its main chain starts with the first block. -/
structure Receiver (T : BlockTree) (c : ChainState) : Prop where
  entry : ∀ h pindex, c.mapBlockIndex h = some pindex →
    pindex ≠ [] ∧ CBlockIndex.getBlockHash pindex = h ∧ T.Chain pindex
  genesis : c.mapBlockIndex T.hashGenesisBlock = some c.pindexGenesisBlock
  genesisOnMain : c.isInMainChain c.pindexGenesisBlock = true

/-- With a block of the branch, all blocks of the branch below it are on the main chain. -/
def ClosedBelow (c : ChainState) (pindexTip : CBlockIndex) : Prop :=
  ∀ q r, q <:+ pindexTip → r <:+ q → r ≠ [] → OnMain c (CBlockIndex.getBlockHash q) →
    OnMain c (CBlockIndex.getBlockHash r)

/-- The highest block of the branch that is on the main chain is `d` blocks back. -/
structure HighestCommon (c : ChainState) (pindexTip : CBlockIndex) (d : Nat) : Prop where
  lt : d < pindexTip.length
  onMain : OnMain c (CBlockIndex.getBlockHash (pindexTip.drop d))
  above : ∀ k < d, ¬ OnMain c (CBlockIndex.getBlockHash (pindexTip.drop k))

theorem stepBack_eq (nStep : Nat) (pindex : CBlockIndex) : stepBack nStep pindex = pindex.drop nStep := by
  induction nStep generalizing pindex with
  | zero => rfl
  | succ n ih =>
    cases pindex with
    | nil => rfl
    | cons b pprev => exact ih pprev

/-- What was named stays at the front. -/
theorem setLoop_append (rounds nStep : Nat) (vHave : List UInt256) (pindex : CBlockIndex) :
    ∃ l, setLoop rounds nStep vHave pindex = vHave ++ l := by
  induction rounds generalizing nStep vHave pindex with
  | zero => exact ⟨[], (List.append_nil vHave).symm⟩
  | succ rounds ih =>
    rw [setLoop]
    split
    · exact ⟨[], (List.append_nil vHave).symm⟩
    · obtain ⟨l, hl⟩ := ih (if (vHave ++ [CBlockIndex.getBlockHash pindex]).length > 10 then nStep * 2 else nStep)
        (vHave ++ [CBlockIndex.getBlockHash pindex]) (stepBack nStep pindex)
      exact ⟨CBlockIndex.getBlockHash pindex :: l, by rw [hl, List.append_assoc]; rfl⟩

/-- Hashes that are not on the main chain are passed over. -/
theorem getBlockIndex_append {vHave : List UInt256} (hnone : ∀ h ∈ vHave, ¬ OnMain c h) (l : List UInt256) :
    getBlockIndex c (vHave ++ l) = getBlockIndex c l := by
  induction vHave with
  | nil => rfl
  | cons h vHave ih =>
    rw [List.forall_mem_cons] at hnone
    rw [List.cons_append, getBlockIndex]
    cases hfound : c.mapBlockIndex h with
    | none => exact ih hnone.2
    | some pindex =>
      have hoff : c.isInMainChain pindex = false := Bool.eq_false_iff.mpr fun hon => hnone.1 ⟨pindex, hfound, hon⟩
      simp only [hoff, Bool.false_eq_true, if_false]
      exact ih hnone.2

/-- The first hash that is on the main chain is taken. -/
theorem getBlockIndex_cons {h : UInt256} (hon : OnMain c h) (l : List UInt256) :
    c.mapBlockIndex h = some (getBlockIndex c (h :: l)) ∧ c.isInMainChain (getBlockIndex c (h :: l)) = true := by
  obtain ⟨pindex, hfound, hmain⟩ := hon
  rw [getBlockIndex, hfound]
  simp only [hmain, if_true]
  exact ⟨trivial, trivial⟩

/-- How far back a round starts that is reached without a hit: by single blocks first, then by twice as much each time,
and never twice as far as the highest common block. -/
def Reached (d size nStep k : Nat) : Prop :=
  size ≤ 10 ∧ nStep = 1 ∧ k = size ∧ k ≤ d ∨ 10 < size ∧ 0 < nStep ∧ k = 9 + nStep ∧ 9 + k < 2 * d ∧ 10 < d

theorem Reached.next {size nStep k : Nat} (h : Reached d size nStep k) (hk : k < d) :
    Reached d (size + 1) (if size + 1 > 10 then nStep * 2 else nStep) (k + nStep) := by
  rw [Reached] at h ⊢
  split
  · omega
  · omega

theorem Reached.hit {size nStep k : Nat} (h : Reached d size nStep k) (hk : d ≤ k) :
    (d ≤ 10 → k = d) ∧ k ≤ 2 * d := by
  rw [Reached] at h
  omega

theorem Reached.step_pos {size nStep k : Nat} (h : Reached d size nStep k) : 0 < nStep := by
  rw [Reached] at h
  omega

theorem ClosedBelow.onMain_iff (hclosed : ClosedBelow c pindexTip) (hd : HighestCommon c pindexTip d) {k : Nat}
    (hk : k < pindexTip.length) : OnMain c (CBlockIndex.getBlockHash (pindexTip.drop k)) ↔ d ≤ k := by
  constructor
  · intro hon
    by_contra hlt
    exact hd.above k (Nat.lt_of_not_le hlt) hon
  · intro hle
    have hbelow : pindexTip.drop k <:+ pindexTip.drop d := by
      have hsplit : pindexTip.drop k = (pindexTip.drop d).drop (k - d) := by
        rw [List.drop_drop, Nat.add_sub_cancel' hle]
      rw [hsplit]
      exact List.drop_suffix _ _
    have hne : pindexTip.drop k ≠ [] := List.ne_nil_of_length_pos (by rw [List.length_drop]; omega)
    exact hclosed _ _ (List.drop_suffix d pindexTip) hbelow hne hd.onMain

/-- A block of the branch on the main chain of the receiver, near the highest one or the first of all. -/
def Near (c : ChainState) (pindexTip : CBlockIndex) (d : Nat) (pindex : CBlockIndex) : Prop :=
  ∃ k, k < pindexTip.length ∧ d ≤ k ∧ (d ≤ 10 → k = d) ∧ (k ≤ 2 * d ∨ k + 1 = pindexTip.length) ∧
    c.mapBlockIndex (CBlockIndex.getBlockHash (pindexTip.drop k)) = some pindex ∧ c.isInMainChain pindex = true

/-- A search that passes the end of the branch ends at the first block of all. -/
theorem near_genesis (hc : Receiver T c) (hchain : T.Chain pindexTip) (hlt : d < pindexTip.length) {size nStep k : Nat}
    (hreached : Reached d size nStep k) (hk : pindexTip.length ≤ k) {vHave : List UInt256}
    (hnone : ∀ h ∈ vHave, ¬ OnMain c h) :
    Near c pindexTip d (getBlockIndex c (vHave ++ [T.hashGenesisBlock])) := by
  have hgenesis := hchain.last (List.ne_nil_of_length_pos (Nat.zero_lt_of_lt hlt))
  have hhit := hreached.hit (by omega)
  refine ⟨pindexTip.length - 1, by omega, by omega, fun hsmall => ?_, Or.inr (by omega), ?_⟩
  · have hend := hhit.1 hsmall
    omega
  · rw [getBlockIndex_append hnone, hgenesis]
    exact getBlockIndex_cons ⟨_, hc.genesis, hc.genesisOnMain⟩ []

/-- Where the search ends, from a round on that is reached without a hit. -/
theorem setLoop_search (hc : Receiver T c) (hchain : T.Chain pindexTip) (hclosed : ClosedBelow c pindexTip)
    (hd : HighestCommon c pindexTip d) (rounds : Nat) {nStep k : Nat} {vHave : List UInt256}
    (hreached : Reached d vHave.length nStep k) (hnone : ∀ h ∈ vHave, ¬ OnMain c h)
    (hrounds : pindexTip.length ≤ k + rounds) :
    Near c pindexTip d (getBlockIndex c (setLoop rounds nStep vHave (pindexTip.drop k) ++ [T.hashGenesisBlock])) := by
  induction rounds generalizing nStep k vHave with
  | zero => exact near_genesis hc hchain hd.lt hreached hrounds hnone
  | succ rounds ih =>
    rw [setLoop]
    by_cases hk : k < pindexTip.length
    · have hne : pindexTip.drop k ≠ [] := List.ne_nil_of_length_pos (by rw [List.length_drop]; omega)
      rw [if_neg hne]
      dsimp only
      rw [stepBack_eq, List.drop_drop]
      by_cases hhit : d ≤ k
      · have hon := (hclosed.onMain_iff hd hk).mpr hhit
        obtain ⟨l, hl⟩ := setLoop_append rounds
          (if (vHave ++ [CBlockIndex.getBlockHash (pindexTip.drop k)]).length > 10 then nStep * 2 else nStep)
          (vHave ++ [CBlockIndex.getBlockHash (pindexTip.drop k)]) (pindexTip.drop (k + nStep))
        rw [hl, List.append_assoc, List.append_assoc, getBlockIndex_append hnone]
        have hfar := hreached.hit hhit
        exact ⟨k, hk, hhit, hfar.1, Or.inl hfar.2, getBlockIndex_cons hon _⟩
      · have hmiss : ¬ OnMain c (CBlockIndex.getBlockHash (pindexTip.drop k)) := fun hon =>
          hhit ((hclosed.onMain_iff hd hk).mp hon)
        have hnext := hreached.next (Nat.lt_of_not_le hhit)
        have hstep := hreached.step_pos
        apply ih
        · rw [List.length_append, List.length_singleton]
          exact hnext
        · rw [List.forall_mem_append]
          exact ⟨hnone, List.forall_mem_singleton.mpr hmiss⟩
        · omega
    · have hend : pindexTip.drop k = [] := List.drop_of_length_le (by omega)
      rw [if_pos hend]
      exact near_genesis hc hchain hd.lt hreached (by omega) hnone

/-- The first block is below the tip, so there is a highest common block. -/
theorem exists_highestCommon (hc : Receiver T c) (hchain : T.Chain pindexTip) (hne : pindexTip ≠ []) :
    ∃ d, HighestCommon c pindexTip d := by
  have hpos := List.length_pos_of_ne_nil hne
  have hsome : ∃ d, OnMain c (CBlockIndex.getBlockHash (pindexTip.drop d)) := by
    refine ⟨pindexTip.length - 1, ?_⟩
    rw [hchain.last hne]
    exact ⟨_, hc.genesis, hc.genesisOnMain⟩
  classical
  refine ⟨Nat.find hsome, ?_, Nat.find_spec hsome, fun k hk => Nat.find_min hsome hk⟩
  have hle : Nat.find hsome ≤ pindexTip.length - 1 := by
    apply Nat.find_min'
    rw [hchain.last hne]
    exact ⟨_, hc.genesis, hc.genesisOnMain⟩
  omega

/-- Block locators find a near common block: the block that the receiver goes on from is on its main chain and is the
tip of the sender or below it. It is the highest such block where that is at most ten blocks below the tip, and
otherwise at most twice as far below the tip, or the first block of all. -/
theorem getBlockIndex_set_near (hc : Receiver T c) (hchain : T.Chain pindexTip) (hne : pindexTip ≠ [])
    (hclosed : ClosedBelow c pindexTip) : ∃ k, k < pindexTip.length ∧
      hashes (getBlockIndex c (set T.hashGenesisBlock pindexTip)) = hashes (pindexTip.drop k) ∧
      c.mapBlockIndex (CBlockIndex.getBlockHash (pindexTip.drop k)) =
        some (getBlockIndex c (set T.hashGenesisBlock pindexTip)) ∧
      c.isInMainChain (getBlockIndex c (set T.hashGenesisBlock pindexTip)) = true ∧
      ∀ d, HighestCommon c pindexTip d → d ≤ k ∧ (d ≤ 10 → k = d) ∧
        (k ≤ 2 * d ∨ getBlockIndex c (set T.hashGenesisBlock pindexTip) = c.pindexGenesisBlock) := by
  obtain ⟨d, hd⟩ := exists_highestCommon hc hchain hne
  have hstart : Reached d ([] : List UInt256).length 1 0 := Or.inl ⟨Nat.zero_le _, rfl, rfl, Nat.zero_le d⟩
  obtain ⟨k, hk, hdk, hsmall, hfar, hfound, hmain⟩ := setLoop_search hc hchain hclosed hd pindexTip.length hstart
    (fun h hmem => absurd hmem List.not_mem_nil) (by omega)
  rw [List.drop_zero] at hfound hmain
  obtain ⟨hpne, hhash, hpchain⟩ := hc.entry _ _ hfound
  have hkne : pindexTip.drop k ≠ [] := List.ne_nil_of_length_pos (by rw [List.length_drop]; omega)
  refine ⟨k, hk, hpchain.hashes_eq (hchain.drop k) hpne hkne hhash, hfound, hmain, fun d' hd' => ?_⟩
  have hsame : d' = d := by
    apply Nat.le_antisymm
    · exact (hclosed.onMain_iff hd' hd.lt).mp hd.onMain
    · exact (hclosed.onMain_iff hd hd'.lt).mp hd'.onMain
  rw [hsame]
  refine ⟨hdk, hsmall, ?_⟩
  cases hfar with
  | inl hle => exact Or.inl hle
  | inr hlast =>
    right
    have hplace : k = pindexTip.length - 1 := by omega
    rw [hplace, hchain.last hne, hc.genesis] at hfound
    exact (Option.some.inj hfound).symm

/-- The main chain of a node whose pointers lead along it is closed. -/
theorem Receiver.closedBelow (hc : Receiver T c) (hm : PprevFiled c.mapBlockIndex)
    (hbest : Filed c.mapBlockIndex c.pindexBest) (hlinks : LinksAlong c c.pindexBest) (hchain : T.Chain pindexTip) :
    ClosedBelow c pindexTip := by
  intro q r hq hr hne hon
  obtain ⟨p, hfound, hmain⟩ := hon
  obtain ⟨hpne, hhash, hpchain⟩ := hc.entry _ _ hfound
  have hqne : q ≠ [] := fun heq => hne (List.suffix_nil.mp (heq ▸ hr))
  have hqchain : T.Chain q := List.suffix_iff_eq_drop.mp hq ▸ hchain.drop _
  have hsame := hpchain.hashes_eq hqchain hpne hqne hhash
  have honChain : p <:+ c.pindexBest := by
    rw [ChainState.isInMainChain, Bool.or_eq_true, beq_iff_eq] at hmain
    cases hmain with
    | inl hnext =>
      by_contra hoff
      have hfiled : Filed c.mapBlockIndex p := fun _ => by rw [hhash]; exact hfound
      rw [hlinks.null p hfiled hpne fun hin => absurd hin hoff] at hnext
      cases hnext
    | inr htip => rw [htip]
  -- the entry below that stands where the block of the branch does
  have hrdrop := List.suffix_iff_eq_drop.mp hr
  have hbelow := (List.drop_suffix (q.length - r.length) p).trans honChain
  have hhashBelow : CBlockIndex.getBlockHash (p.drop (q.length - r.length)) = CBlockIndex.getBlockHash r := by
    have hdrop := congrArg (List.drop (q.length - r.length)) hsame
    rw [hashes, hashes, ← List.map_drop, ← List.map_drop, ← hrdrop] at hdrop
    have hhead := congrArg List.head? hdrop
    rw [List.head?_map, List.head?_map] at hhead
    exact congrArg (fun o => o.getD 0) hhead
  have hpneBelow : p.drop (q.length - r.length) ≠ [] := by
    have hlen := congrArg List.length hsame
    rw [hashes, hashes, List.length_map, List.length_map] at hlen
    have hpos := List.length_pos_of_ne_nil hne
    have hle := hr.length_le
    exact List.ne_nil_of_length_pos (by rw [List.length_drop]; omega)
  refine ⟨p.drop (q.length - r.length), ?_, ?_⟩
  · rw [← hhashBelow]
    exact hbest.below hm hbelow hpneBelow
  · rw [ChainState.isInMainChain, Bool.or_eq_true, beq_iff_eq]
    by_cases htip : p.drop (q.length - r.length) = c.pindexBest
    · exact Or.inr htip
    · obtain ⟨b, hb⟩ := exists_cons_suffix hbelow htip
      rw [hlinks.up b _ hb hpneBelow]
      exact Or.inl rfl

end Search

section Sample

/-- Blocks that are numbered from the first one on. -/
def numberedTree : BlockTree := ⟨1, fun h => h - 1⟩

def numberedBlock (hash : UInt256) (nBlockPos : UInt32) : BlockNode := ⟨hash, 1, nBlockPos, 0, 0⟩

/-- The sender has three blocks. -/
def threeBlocks : CBlockIndex := [numberedBlock 3 900, numberedBlock 2 500, numberedBlock 1 0]

/-- The receiver has the first two of them, the second one elsewhere in its file. -/
def twoBlockNode : ChainState where
  pindexBest := [numberedBlock 2 300, numberedBlock 1 0]
  pindexGenesisBlock := [numberedBlock 1 0]
  mapBlockIndex h :=
    if h = 1 then some [numberedBlock 1 0] else if h = 2 then some [numberedBlock 2 300, numberedBlock 1 0] else none
  pnext h := if h = 1 then some 2 else none
  nAdjustedTime := 0

theorem twoBlockNode_receiver : Receiver numberedTree twoBlockNode where
  entry h pindex hfound := by
    have hcases : (if h = 1 then some [numberedBlock 1 0]
      else if h = 2 then some [numberedBlock 2 300, numberedBlock 1 0] else none) = some pindex := hfound
    by_cases hone : h = 1
    · rw [if_pos hone] at hcases
      rw [← Option.some.inj hcases, hone]
      exact ⟨List.cons_ne_nil _ _, rfl, rfl⟩
    · rw [if_neg hone] at hcases
      by_cases htwo : h = 2
      · rw [if_pos htwo] at hcases
        rw [← Option.some.inj hcases, htwo]
        exact ⟨List.cons_ne_nil _ _, rfl, by decide, by decide, rfl⟩
      · rw [if_neg htwo] at hcases
        cases hcases
  genesis := rfl
  genesisOnMain := rfl

theorem threeBlocks_closed : ClosedBelow twoBlockNode threeBlocks := by
  have hone : OnMain twoBlockNode 1 := ⟨_, rfl, rfl⟩
  have htwo : OnMain twoBlockNode 2 := ⟨_, rfl, rfl⟩
  intro q r hq hr hne hon
  cases List.suffix_cons_iff.mp (hr.trans hq) with
  | inl htip =>
    have hsame : r = q := hr.eq_of_length (Nat.le_antisymm hr.length_le (htip ▸ hq.length_le))
    rw [hsame]
    exact hon
  | inr hbelow =>
    cases List.suffix_cons_iff.mp hbelow with
    | inl hsecond => rw [hsecond]; exact htwo
    | inr hbelow =>
      cases List.suffix_cons_iff.mp hbelow with
      | inl hfirst => rw [hfirst]; exact hone
      | inr hnone => exact absurd (List.suffix_nil.mp hnone) hne

theorem getBlockIndex_set_near_threeBlocks : ∃ k, k < threeBlocks.length ∧
    hashes (getBlockIndex twoBlockNode (set 1 threeBlocks)) = hashes (threeBlocks.drop k) ∧
    twoBlockNode.mapBlockIndex (CBlockIndex.getBlockHash (threeBlocks.drop k)) =
      some (getBlockIndex twoBlockNode (set 1 threeBlocks)) ∧
    twoBlockNode.isInMainChain (getBlockIndex twoBlockNode (set 1 threeBlocks)) = true ∧
    ∀ d, HighestCommon twoBlockNode threeBlocks d → d ≤ k ∧ (d ≤ 10 → k = d) ∧
      (k ≤ 2 * d ∨ getBlockIndex twoBlockNode (set 1 threeBlocks) = twoBlockNode.pindexGenesisBlock) :=
  getBlockIndex_set_near twoBlockNode_receiver (T := numberedTree) (by simp [threeBlocks, BlockTree.Chain, numberedTree,
    numberedBlock]) (List.cons_ne_nil _ _) threeBlocks_closed

example : getBlockIndex twoBlockNode (set 1 threeBlocks) = [numberedBlock 2 300, numberedBlock 1 0] := by decide

end Sample

end CBlockLocator

end AliasWallet
