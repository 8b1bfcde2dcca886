import AliasWallet.Stake.Modifier

/-!
# The modifier of a stake kernel (`GetKernelStakeModifier`, `GetKernelStakeModifierThin`)

The first modifier generated a selection interval after the coin's block. A thin node that no longer
has that block in memory starts from the database records and goes over to the index further on.
-/

namespace AliasWallet
open Lib

section Walk

/-- A block and, after it, what `pnext` leads to. -/
abbrev NextPtr := List IndexEntry

/-- What both functions return through their references. -/
structure KernelModifier where
  nStakeModifier : UInt64
  nStakeModifierHeight : Int
  nStakeModifierTime : Int
  deriving DecidableEq, Repr

/-- The loop of `GetKernelStakeModifier` and of `GetKernelStakeModifierThinIt`. -/
def kernelWalk (stop nStakeModifierHeight nStakeModifierTime : Int) : NextPtr → Option KernelModifier
  | [] => none
  | [e] =>
    if nStakeModifierTime < stop then none
    else some ⟨e.nStakeModifier, nStakeModifierHeight, nStakeModifierTime⟩
  | e :: e' :: pnext =>
    if nStakeModifierTime < stop then
      if e'.generatedStakeModifier then kernelWalk stop e'.nHeight e'.getBlockTime (e' :: pnext)
      else kernelWalk stop nStakeModifierHeight nStakeModifierTime (e' :: pnext)
    else some ⟨e.nStakeModifier, nStakeModifierHeight, nStakeModifierTime⟩

/-- `GetKernelStakeModifier`. -/
def getKernelStakeModifier (mapBlockIndex : UInt256 → Option NextPtr) (hashBlockFrom : UInt256) :
    Option KernelModifier :=
  match mapBlockIndex hashBlockFrom with
  | some (pindexFrom :: pnext) =>
    kernelWalk (pindexFrom.getBlockTime + getStakeModifierSelectionInterval) pindexFrom.nHeight
      pindexFrom.getBlockTime (pindexFrom :: pnext)
  | _ => none

/-- `CDiskBlockThinIndex`. -/
structure DiskBlockThinIndex extends IndexEntry where
  hashNext : UInt256

structure ThinNode where
  fThinFullIndex : Bool
  pindexRear : Option IndexEntry
  mapBlockThinIndex : UInt256 → Option NextPtr
  readBlockThinIndex : UInt256 → Option DiskBlockThinIndex

/-- The loop over the records. The node found in the window is the next block, and the walk that goes
on from it does not test it. -/
def walkDisk (node : ThinNode) (rear : IndexEntry) (stop : Int) :
    Nat → Int → Int → DiskBlockThinIndex → Option KernelModifier
  | 0, _, _, _ => none
  | fuel + 1, nStakeModifierHeight, nStakeModifierTime, diskindex =>
    if nStakeModifierTime < stop then
      if diskindex.hashNext = 0 then none
      else
        match if diskindex.getBlockTime > rear.getBlockTime
            then node.mapBlockThinIndex diskindex.hashNext else none with
        | some pindex => kernelWalk stop nStakeModifierHeight nStakeModifierTime pindex
        | none =>
          match node.readBlockThinIndex diskindex.hashNext with
          | none => none
          | some diskindex =>
            if diskindex.hashNext = 0 then none
            else if diskindex.generatedStakeModifier then
              walkDisk node rear stop fuel diskindex.nHeight diskindex.getBlockTime diskindex
            else walkDisk node rear stop fuel nStakeModifierHeight nStakeModifierTime diskindex
    else some ⟨diskindex.nStakeModifier, nStakeModifierHeight, nStakeModifierTime⟩

/-- `GetKernelStakeModifierThin`; the fuel bounds the loop over the records. -/
def getKernelStakeModifierThin (node : ThinNode) (fuel : Nat) (hashBlockFrom : UInt256) :
    Option KernelModifier :=
  match node.mapBlockThinIndex hashBlockFrom with
  | some (pindexFrom :: pnext) =>
    kernelWalk (pindexFrom.getBlockTime + getStakeModifierSelectionInterval) pindexFrom.nHeight
      pindexFrom.getBlockTime (pindexFrom :: pnext)
  | some [] => none
  | none =>
    match node.fThinFullIndex, node.pindexRear with
    | false, some rear =>
      match node.readBlockThinIndex hashBlockFrom with
      | none => none
      | some diskindex =>
        if diskindex.hashNext = 0 then none
        else walkDisk node rear (diskindex.getBlockTime + getStakeModifierSelectionInterval) fuel
          diskindex.nHeight diskindex.getBlockTime diskindex
    | _, _ => none

end Walk

section Hit

/-- The block that a walk stops at. -/
def isHit (stop : Int) (e : IndexEntry) : Bool :=
  e.generatedStakeModifier && decide (stop ≤ e.getBlockTime)

def modifierOf (e : IndexEntry) : KernelModifier := ⟨e.nStakeModifier, e.nHeight, e.getBlockTime⟩

/-- A walk that has not reached its end yet takes the first hit after its block. -/
theorem kernelWalk_eq (stop nStakeModifierHeight nStakeModifierTime : Int) (e : IndexEntry)
    (pnext : NextPtr) (ht : nStakeModifierTime < stop) :
    kernelWalk stop nStakeModifierHeight nStakeModifierTime (e :: pnext) =
      (pnext.find? (isHit stop)).map modifierOf := by
  induction pnext generalizing e nStakeModifierHeight nStakeModifierTime with
  | nil => simp [kernelWalk, ht]
  | cons e' pnext ih =>
    rw [kernelWalk, if_pos ht]
    split
    · rename_i hgen
      by_cases hstop : stop ≤ e'.getBlockTime
      · have hwalk : kernelWalk stop e'.nHeight e'.getBlockTime (e' :: pnext) =
            some (modifierOf e') := by
          cases pnext <;> simp [kernelWalk, modifierOf, not_lt.mpr hstop]
        simp [hwalk, isHit, hgen, hstop]
      · rw [ih _ _ _ (not_le.mp hstop), List.find?_cons_of_neg]
        simp [isHit, hstop]
    · rename_i hgen
      rw [ih _ _ _ ht, List.find?_cons_of_neg]
      simp [isHit, hgen]

theorem getStakeModifierSelectionInterval_pos : 0 < getStakeModifierSelectionInterval := by
  decide

end Hit

section Seam

variable (stop : Int) (rear : IndexEntry) (inWindow : IndexEntry → Prop)

/-- The walk over the records goes over to the window at this block: it is there, and the block before
it is later than the rear. -/
def EntersAt (pindexFrom : IndexEntry) (passed : List IndexEntry) (e : IndexEntry) : Prop :=
  (passed.getLastD pindexFrom).getBlockTime > rear.getBlockTime ∧ inWindow e

/-- The first block at which the walk enters the window is no hit, unless the walk ended before. -/
def SeamQuiet (pindexFrom : IndexEntry) (next : List IndexEntry) : Prop :=
  ∀ passed e after, next = passed ++ e :: after → EntersAt rear inWindow pindexFrom passed e →
    (∀ before x rest, passed = before ++ x :: rest → ¬ EntersAt rear inWindow pindexFrom before x) →
    isHit stop e → ∃ x ∈ passed, isHit stop x

variable {stop rear inWindow} {pindexFrom e : IndexEntry} {next : List IndexEntry}

theorem seamQuiet_cons_of_enters (henter : EntersAt rear inWindow pindexFrom [] e) :
    SeamQuiet stop rear inWindow pindexFrom (e :: next) ↔ ¬ isHit stop e := by
  constructor
  · intro hquiet hhit
    obtain ⟨x, hx, _⟩ := hquiet [] e next rfl henter (by simp) hhit
    simp at hx
  · intro hhit passed x after hnext _ hfirst hx
    cases passed with
    | nil =>
      simp only [List.nil_append, List.cons.injEq] at hnext
      exact absurd (hnext.1 ▸ hx) hhit
    | cons y passed =>
      simp only [List.cons_append, List.cons.injEq] at hnext
      exact absurd (hnext.1 ▸ henter) (hfirst [] y passed rfl)

theorem seamQuiet_cons_of_hit (henter : ¬ EntersAt rear inWindow pindexFrom [] e) (hhit : isHit stop e) :
    SeamQuiet stop rear inWindow pindexFrom (e :: next) := by
  intro passed x after hnext hx _ _
  cases passed with
  | nil =>
    simp only [List.nil_append, List.cons.injEq] at hnext
    exact absurd (hnext.1 ▸ hx) henter
  | cons y passed =>
    simp only [List.cons_append, List.cons.injEq] at hnext
    exact ⟨y, List.mem_cons_self, hnext.1 ▸ hhit⟩

/-- A block that is neither entered at nor a hit is passed. -/
theorem seamQuiet_cons_of_passed (henter : ¬ EntersAt rear inWindow pindexFrom [] e)
    (hhit : ¬ isHit stop e) :
    SeamQuiet stop rear inWindow pindexFrom (e :: next) ↔ SeamQuiet stop rear inWindow e next := by
  have hshift : ∀ passed x, EntersAt rear inWindow pindexFrom (e :: passed) x ↔
      EntersAt rear inWindow e passed x := by
    intro passed x
    rw [EntersAt, EntersAt, List.getLastD_cons]
  constructor
  · intro hquiet passed x after hnext hx hfirst hxhit
    have hfirst' : ∀ before y rest, e :: passed = before ++ y :: rest →
        ¬ EntersAt rear inWindow pindexFrom before y := by
      intro before y rest heq
      cases before with
      | nil =>
        simp only [List.nil_append, List.cons.injEq] at heq
        exact heq.1 ▸ henter
      | cons z before =>
        simp only [List.cons_append, List.cons.injEq] at heq
        obtain ⟨rfl, heq⟩ := heq
        rw [hshift]
        exact hfirst before y rest heq
    obtain ⟨y, hy, hyhit⟩ := hquiet (e :: passed) x after (by rw [hnext]; rfl) ((hshift _ _).mpr hx)
      hfirst' hxhit
    rcases List.mem_cons.mp hy with rfl | hy
    · exact absurd hyhit hhit
    · exact ⟨y, hy, hyhit⟩
  · intro hquiet passed x after hnext hx hfirst hxhit
    cases passed with
    | nil =>
      simp only [List.nil_append, List.cons.injEq] at hnext
      exact absurd (hnext.1 ▸ hx) henter
    | cons z passed =>
      simp only [List.cons_append, List.cons.injEq] at hnext
      obtain ⟨rfl, hnext⟩ := hnext
      obtain ⟨y, hy, hyhit⟩ := hquiet passed x after hnext ((hshift _ _).mp hx) (by
        intro before y rest heq
        rw [← hshift]
        exact hfirst (e :: before) y rest (by rw [heq]; rfl)) hxhit
      exact ⟨y, List.mem_cons_of_mem _ hy, hyhit⟩

end Seam

section MainChain

/-- A main chain, from its first block on. -/
structure MainChain where
  blocks : List IndexEntry
  heights : blocks.Pairwise fun e e' => e.nHeight < e'.nHeight

namespace MainChain

variable (chain : MainChain)

/-- `mapBlockIndex` of a full node with this main chain. -/
def Indexed (mapBlockIndex : UInt256 → Option NextPtr) : Prop :=
  ∀ before e after, chain.blocks = before ++ e :: after → mapBlockIndex e.hash = some (e :: after)

/-- What a record keeps of the next block. -/
def hashNext : List IndexEntry → UInt256
  | [] => 0
  | e :: _ => e.hash

/-- The block with a hash and those after it. -/
def pointerTo (h : UInt256) : List IndexEntry → Option NextPtr
  | [] => none
  | e :: after => if e.hash = h then some (e :: after) else pointerTo h after

/-- A thin node with the blocks from height `k` on in memory. Records may be missing. -/
structure SplitAt (k : Nat) (node : ThinNode) : Prop where
  window : ∀ before e after, chain.blocks = before ++ e :: after →
    node.mapBlockThinIndex e.hash = if k ≤ before.length then some (e :: after) else none
  rear : node.pindexRear = chain.blocks[k]?
  disk : ∀ before e after, chain.blocks = before ++ e :: after →
    ∀ diskindex, node.readBlockThinIndex e.hash = some diskindex →
      diskindex.toIndexEntry = e ∧ diskindex.hashNext = hashNext after

/-- A block stands at one place. -/
theorem split_unique {before before' after after' : List IndexEntry} {e : IndexEntry}
    (h : chain.blocks = before ++ e :: after) (h' : chain.blocks = before' ++ e :: after') :
    before = before' ∧ after = after' := by
  have hpair := List.pairwise_append.mp (h ▸ chain.heights)
  have hbefore : e ∉ before := by
    intro he
    exact lt_irrefl _ (hpair.2.2 e he e List.mem_cons_self)
  have hafter : e ∉ after := by
    intro he
    exact lt_irrefl _ ((List.pairwise_cons.mp hpair.2.1).1 e he)
  obtain ⟨hb, _, ha⟩ := (List.append_cons_inj_of_notMem hbefore hafter).mp (h.symm.trans h')
  exact ⟨hb, ha⟩

variable {chain} {k : Nat} {node : ThinNode} {rear : IndexEntry} {stop : Int}

/-- The walk over the records agrees with the first hit exactly when it enters the window quietly. -/
theorem SplitAt.walkDisk_iff (hsplit : chain.SplitAt k node) (fuel : Nat)
    (nStakeModifierHeight nStakeModifierTime : Int) (diskindex : DiskBlockThinIndex)
    (before next : List IndexEntry) (r : KernelModifier)
    (hchain : chain.blocks = before ++ diskindex.toIndexEntry :: next)
    (hnext : diskindex.hashNext = hashNext next) (ht : nStakeModifierTime < stop)
    (hwalk : walkDisk node rear stop fuel nStakeModifierHeight nStakeModifierTime diskindex = some r) :
    (next.find? (isHit stop)).map modifierOf = some r ↔
      SeamQuiet stop rear (fun e => (node.mapBlockThinIndex e.hash).isSome) diskindex.toIndexEntry
        next := by
  induction fuel generalizing nStakeModifierHeight nStakeModifierTime diskindex before next with
  | zero => simp [walkDisk] at hwalk
  | succ fuel ih =>
    rw [walkDisk, if_pos ht] at hwalk
    split at hwalk
    · simp at hwalk
    rename_i hzero
    cases next with
    | nil => exact absurd hnext hzero
    | cons e next =>
      have hshift : chain.blocks = (before ++ [diskindex.toIndexEntry]) ++ e :: next := by
        rw [hchain]
        simp
      rw [hnext, hashNext] at hwalk
      split at hwalk
      · -- the walk goes on in the window, behind `e`
        rename_i pindex hfound
        obtain ⟨hlate, hpindex⟩ := Option.ite_none_right_eq_some.mp hfound
        have hwin := hsplit.window _ _ _ hshift
        rw [hpindex] at hwin
        obtain rfl : pindex = e :: next := by
          split at hwin
          · simpa using hwin
          · simp at hwin
        rw [kernelWalk_eq _ _ _ _ _ ht] at hwalk
        rw [seamQuiet_cons_of_enters ⟨hlate, by rw [hpindex]; rfl⟩]
        constructor
        · intro hfull hhit
          obtain ⟨x, hx, hxr⟩ := Option.map_eq_some_iff.mp hwalk
          rw [List.find?_cons_of_pos hhit, Option.map_some, Option.some.injEq, ← hxr] at hfull
          have hlt : e.nHeight < x.nHeight := by
            have hpair := hshift ▸ chain.heights
            exact (List.pairwise_cons.mp (List.pairwise_append.mp hpair).2.1).1 x
              (List.mem_of_find?_eq_some hx)
          have heq : e.nHeight = x.nHeight := congrArg KernelModifier.nStakeModifierHeight hfull
          omega
        · intro hhit
          rw [List.find?_cons_of_neg hhit]
          exact hwalk
      · rename_i hfound
        have henter : ¬ EntersAt rear (fun e => (node.mapBlockThinIndex e.hash).isSome)
            diskindex.toIndexEntry [] e := by
          rintro ⟨hlate, hin⟩
          obtain ⟨pindex, hpindex⟩ := Option.isSome_iff_exists.mp hin
          have hlate : diskindex.getBlockTime > rear.getBlockTime := hlate
          simp [hlate, hpindex] at hfound
        cases hread : node.readBlockThinIndex e.hash with
        | none => simp [hread] at hwalk
        | some diskindex' =>
          obtain ⟨rfl, hnext'⟩ := hsplit.disk _ _ _ hshift _ hread
          simp only [hread] at hwalk
          split at hwalk
          · simp at hwalk
          split at hwalk
          · rename_i hgen
            by_cases hstop : stop ≤ diskindex'.getBlockTime
            · have hhit : isHit stop diskindex'.toIndexEntry := by simp [isHit, hgen, hstop]
              have hr : some (modifierOf diskindex'.toIndexEntry) = some r := by
                cases fuel with
                | zero => simp [walkDisk] at hwalk
                | succ fuel =>
                  rw [walkDisk, if_neg (not_lt.mpr hstop)] at hwalk
                  exact hwalk
              rw [List.find?_cons_of_pos hhit]
              exact iff_of_true hr (seamQuiet_cons_of_hit henter hhit)
            · have hhit : ¬ isHit stop diskindex'.toIndexEntry := by simp [isHit, hstop]
              rw [List.find?_cons_of_neg hhit, seamQuiet_cons_of_passed henter hhit]
              exact ih _ _ diskindex' _ next hshift hnext' (not_le.mp hstop) hwalk
          · rename_i hgen
            have hhit : ¬ isHit stop diskindex'.toIndexEntry := by simp [isHit, hgen]
            rw [List.find?_cons_of_neg hhit, seamQuiet_cons_of_passed henter hhit]
            exact ih _ _ diskindex' _ next hshift hnext' ht hwalk

/-- Where the walk from a block that is no longer in the window enters it, no modifier is passed over. -/
def SeamKept (chain : MainChain) (k : Nat) (node : ThinNode) (pindexFrom : IndexEntry) : Prop :=
  ∀ before after rear, chain.blocks = before ++ pindexFrom :: after → before.length < k →
    chain.blocks[k]? = some rear →
      SeamQuiet (pindexFrom.getBlockTime + getStakeModifierSelectionInterval) rear
        (fun e => (node.mapBlockThinIndex e.hash).isSome) pindexFrom after

/-- When the thin function succeeds, it returns what the full one does if and only if the walk enters
the window at a block that is not itself the one to take. -/
theorem getKernelStakeModifierThin_eq_iff (chain : MainChain) (k : Nat) (node : ThinNode)
    (mapBlockIndex : UInt256 → Option NextPtr) (hfull : chain.Indexed mapBlockIndex)
    (hsplit : chain.SplitAt k node) (pindexFrom : IndexEntry) (hfrom : pindexFrom ∈ chain.blocks)
    (fuel : Nat) (r : KernelModifier)
    (hthin : getKernelStakeModifierThin node fuel pindexFrom.hash = some r) :
    getKernelStakeModifier mapBlockIndex pindexFrom.hash = some r ↔
      SeamKept chain k node pindexFrom := by
  obtain ⟨before, after, hchain⟩ := List.append_of_mem hfrom
  have hpos := getStakeModifierSelectionInterval_pos
  have hstart : pindexFrom.getBlockTime <
      pindexFrom.getBlockTime + getStakeModifierSelectionInterval := by omega
  have hindex := hfull before pindexFrom after hchain
  have hwin := hsplit.window before pindexFrom after hchain
  by_cases hk : k ≤ before.length
  · rw [if_pos hk] at hwin
    simp only [getKernelStakeModifierThin, hwin] at hthin
    simp only [getKernelStakeModifier, hindex, hthin, true_iff]
    intro before' after' rear hchain' hlt
    obtain ⟨rfl, rfl⟩ := chain.split_unique hchain hchain'
    omega
  · rw [if_neg hk] at hwin
    simp only [getKernelStakeModifierThin, hwin] at hthin
    split at hthin
    · rename_i rear hfull hrear
      cases hread : node.readBlockThinIndex pindexFrom.hash with
      | none => simp [hread] at hthin
      | some diskindex =>
        simp only [hread] at hthin
        split at hthin
        · simp at hthin
        obtain ⟨rfl, hnext⟩ := hsplit.disk before pindexFrom after hchain diskindex hread
        simp only [getKernelStakeModifier, hindex]
        rw [kernelWalk_eq _ _ _ _ _ hstart,
          hsplit.walkDisk_iff fuel _ _ diskindex before after r hchain hnext hstart hthin]
        constructor
        · intro hquiet before' after' rear' hchain' _ hrear'
          obtain ⟨rfl, rfl⟩ := chain.split_unique hchain hchain'
          obtain rfl : rear = rear' := by
            rw [hsplit.rear, hrear', Option.some.injEq] at hrear
            exact hrear.symm
          exact hquiet
        · intro hkept
          exact hkept before after rear hchain (not_le.mp hk) (hsplit.rear ▸ hrear)
    · simp at hthin

theorem pointerTo_split {before after : List IndexEntry} {e : IndexEntry}
    (hnew : ∀ x ∈ before, x.hash ≠ e.hash) :
    pointerTo e.hash (before ++ e :: after) = some (e :: after) := by
  induction before with
  | nil => simp [pointerTo]
  | cons x before ih =>
    have hx := hnew x List.mem_cons_self
    have ih := ih fun y hy => hnew y (List.mem_cons_of_mem _ hy)
    simp [pointerTo, hx, ih]

theorem pointerTo_none {blocks : List IndexEntry} {h : UInt256} (hnew : ∀ x ∈ blocks, x.hash ≠ h) :
    pointerTo h blocks = none := by
  induction blocks with
  | nil => rfl
  | cons x blocks ih =>
    have hx := hnew x List.mem_cons_self
    have ih := ih fun y hy => hnew y (List.mem_cons_of_mem _ hy)
    simp [pointerTo, hx, ih]

/-- The hashes before and after a block are others. -/
theorem hash_ne_of_split {before after : List IndexEntry} {e : IndexEntry}
    (hnodup : ((before ++ e :: after).map IndexEntry.hash).Nodup) :
    (∀ x ∈ before, x.hash ≠ e.hash) ∧ ∀ x ∈ after, x.hash ≠ e.hash := by
  rw [List.map_append, List.map_cons, List.nodup_append] at hnodup
  obtain ⟨_, hafter, hbefore⟩ := hnodup
  constructor
  · intro x hx
    exact hbefore _ (List.mem_map_of_mem hx) _ List.mem_cons_self
  · intro x hx heq
    exact (List.nodup_cons.mp hafter).1 (heq ▸ List.mem_map_of_mem hx)

/-- The node of a chain with all records and the blocks from height `k` on in memory. -/
def thinNode (blocks : List IndexEntry) (k : Nat) : ThinNode where
  fThinFullIndex := false
  pindexRear := blocks[k]?
  mapBlockThinIndex h := pointerTo h (blocks.drop k)
  readBlockThinIndex h :=
    match pointerTo h blocks with
    | some (e :: after) => some { e with hashNext := hashNext after }
    | _ => none

theorem indexed_pointerTo (hnodup : (chain.blocks.map IndexEntry.hash).Nodup) :
    chain.Indexed fun h => pointerTo h chain.blocks := by
  intro before e after hchain
  rw [hchain] at hnodup
  simp only [hchain]
  exact pointerTo_split (hash_ne_of_split hnodup).1

theorem splitAt_thinNode (hnodup : (chain.blocks.map IndexEntry.hash).Nodup) (k : Nat) :
    chain.SplitAt k (thinNode chain.blocks k) where
  window := by
    intro before e after hchain
    rw [hchain] at hnodup
    obtain ⟨hbefore, hafter⟩ := hash_ne_of_split hnodup
    simp only [thinNode, hchain]
    split
    · rename_i hk
      rw [List.drop_append_of_le_length hk]
      apply pointerTo_split
      intro x hx
      exact hbefore x (List.mem_of_mem_drop hx)
    · rename_i hk
      obtain ⟨j, hj⟩ := Nat.exists_eq_add_of_lt (not_le.mp hk)
      have hdrop : (before ++ e :: after).drop k = after.drop j := by
        rw [hj, add_assoc, List.drop_length_add_append, List.drop_succ_cons]
      rw [hdrop]
      apply pointerTo_none
      intro x hx
      exact hafter x (List.mem_of_mem_drop hx)
  rear := rfl
  disk := by
    intro before e after hchain diskindex hread
    simp only [thinNode, indexed_pointerTo hnodup before e after hchain, Option.some.injEq] at hread
    subst hread
    exact ⟨rfl, rfl⟩

/-- Blocks 4 and 5 of seven generated a modifier, at the given times. -/
def sevenBlocks (time4 time5 : UInt32) : MainChain where
  blocks := [workEntry 0 1600000000, workEntry 1 1600000100, workEntry 2 1600000200,
    workEntry 3 1600000300, modifierEntry 4 time4, modifierEntry 5 time5, workEntry 6 1600300000]
  heights := by simp [workEntry, modifierEntry]

/-- With the blocks from height 2 on in memory, the walk from block 1 enters the window at block 4 and
passes over its modifier. -/
theorem seamBlock_passedOver :
    ¬ ∀ (chain : MainChain) (k : Nat) (node : ThinNode) (mapBlockIndex : UInt256 → Option NextPtr),
      chain.Indexed mapBlockIndex → chain.SplitAt k node → ∀ pindexFrom ∈ chain.blocks,
        ∀ fuel r, getKernelStakeModifierThin node fuel pindexFrom.hash = some r →
          getKernelStakeModifier mapBlockIndex pindexFrom.hash = some r := by
  intro hall
  have hnodup : ((sevenBlocks 1600100000 1600200000).blocks.map IndexEntry.hash).Nodup := by
    decide +kernel
  have hsame := hall (sevenBlocks 1600100000 1600200000) 2 _ _ (indexed_pointerTo hnodup)
    (splitAt_thinNode hnodup 2) (workEntry 1 1600000100) (by decide) 10
    (modifierOf (modifierEntry 5 1600200000)) (by decide +kernel)
  revert hsame
  decide +kernel

/-- A modifier of block 4 that is too early to be taken is no loss. -/
theorem earlyModifier_agrees :
    getKernelStakeModifier (fun h => pointerTo h (sevenBlocks 1600000400 1600200000).blocks)
      (workEntry 1 1600000100).hash = some (modifierOf (modifierEntry 5 1600200000)) := by
  have hnodup : ((sevenBlocks 1600000400 1600200000).blocks.map IndexEntry.hash).Nodup := by
    decide +kernel
  apply (getKernelStakeModifierThin_eq_iff (sevenBlocks 1600000400 1600200000) 2 _ _
    (indexed_pointerTo hnodup) (splitAt_thinNode hnodup 2) (workEntry 1 1600000100) (by decide) 10
    (modifierOf (modifierEntry 5 1600200000)) (by decide +kernel)).mpr
  intro before after rear hchain _ hrear
  obtain ⟨_, rfl⟩ := (sevenBlocks 1600000400 1600200000).split_unique
    (show _ = [workEntry 0 1600000000] ++ workEntry 1 1600000100 :: _ from rfl) hchain
  obtain rfl : workEntry 2 1600000200 = rear := Option.some.inj hrear
  rw [seamQuiet_cons_of_passed (by unfold EntersAt; decide +kernel) (by decide +kernel),
    seamQuiet_cons_of_passed (by unfold EntersAt; decide +kernel) (by decide +kernel),
    seamQuiet_cons_of_enters (by unfold EntersAt; decide +kernel)]
  decide +kernel

end MainChain

end MainChain

end AliasWallet
