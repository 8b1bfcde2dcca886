import AliasWallet.Chain.AcceptBlock
import AliasWallet.Lib.Fold

/-!
# Orphan blocks (`AddOrphanBlock`, `PruneOrphanBlocks`, `ProcessBlock`)

Blocks without a previous block are kept in two maps, with the stakes that they spend and the sum of their sizes. They
leave by adoption, by a checkpoint that makes them obsolete, and at random when they take too much space.
-/

namespace AliasWallet
open Lib

/-- `vchBlock` is the serialisation of `block`. -/
structure COrphanBlock where
  hashBlock : UInt256
  hashPrev : UInt256
  nTime : UInt32
  stake : COutPoint × UInt32
  block : CBlock
  deriving DecidableEq

/-- `vchBlock.size()`. -/
def COrphanBlock.size (orphan : COrphanBlock) : Nat := orphan.block.bytes.length

/-- The maps are in the order of their keys. -/
structure OrphanBlocks where
  mapOrphanBlocks : List (UInt256 × COrphanBlock)
  mapOrphanBlocksByPrev : List (UInt256 × COrphanBlock)
  setStakeSeenOrphan : List (COutPoint × UInt32)
  nOrphanBlocksSize : Nat

/-- Where a `multimap` inserts: behind the entries of the same key. -/
def insertByKey {α : Type} (entry : UInt256 × α) (l : List (UInt256 × α)) : List (UInt256 × α) :=
  l.takeWhile (fun e => e.1 ≤ entry.1) ++ entry :: l.dropWhile (fun e => e.1 ≤ entry.1)

namespace OrphanBlocks

variable (pool : OrphanBlocks)

def blocks : List COrphanBlock := pool.mapOrphanBlocks.map Prod.snd

/-- `mapOrphanBlocks.find`. -/
def find (hash : UInt256) : Option COrphanBlock :=
  (pool.mapOrphanBlocks.find? fun e => e.1 == hash).map Prod.snd

/-- `mapOrphanBlocksByPrev.find`. -/
def findByPrev (hash : UInt256) : Option COrphanBlock :=
  (pool.mapOrphanBlocksByPrev.find? fun e => e.1 == hash).map Prod.snd

/-- `AddOrphanBlock`. -/
def addOrphanBlock (H : BlockHash) (block : CBlock) : OrphanBlocks :=
  let orphan : COrphanBlock :=
    ⟨block.getHash H, block.hashPrevBlock, block.nTime, block.getProofOfStake, block⟩
  { mapOrphanBlocks :=
      if (pool.find orphan.hashBlock).isSome then pool.mapOrphanBlocks
      else insertByKey (orphan.hashBlock, orphan) pool.mapOrphanBlocks
    mapOrphanBlocksByPrev := insertByKey (orphan.hashPrev, orphan) pool.mapOrphanBlocksByPrev
    setStakeSeenOrphan :=
      if block.isProofOfStake then pool.setStakeSeenOrphan.insert orphan.stake else pool.setStakeSeenOrphan
    nOrphanBlocksSize := pool.nOrphanBlocksSize + orphan.size }

/-- What every removal does besides `mapOrphanBlocksByPrev`. -/
def forget (orphan : COrphanBlock) : OrphanBlocks :=
  { pool with
    mapOrphanBlocks := pool.mapOrphanBlocks.filter fun e => e.1 != orphan.hashBlock
    setStakeSeenOrphan := pool.setStakeSeenOrphan.filter fun s => s != orphan.stake
    nOrphanBlocksSize := pool.nOrphanBlocksSize - orphan.size }

/-- A block with its entry in `mapOrphanBlocksByPrev`. -/
def eraseOrphan (orphan : COrphanBlock) : OrphanBlocks :=
  { pool.forget orphan with
    mapOrphanBlocksByPrev := pool.mapOrphanBlocksByPrev.erase (orphan.hashPrev, orphan) }

/-- The loop that deletes all predecessors; each round deletes one. -/
def deletePredecessors : Nat → OrphanBlocks → UInt256 → OrphanBlocks
  | 0, pool, _ => pool
  | rounds + 1, pool, hash =>
    match pool.find hash with
    | some orphan => deletePredecessors rounds (pool.eraseOrphan orphan) orphan.hashPrev
    | none => pool

/-- The loop over `mapOrphanBlocks`; its iterator must not be deleted on the way. -/
def pruneObsolete (nTimeCheckpoint : UInt32) : Option OrphanBlocks :=
  (pool.mapOrphanBlocks.map Prod.fst).foldlM (fun pool hash =>
    match pool.find hash with
    | some orphan =>
      if orphan.nTime < nTimeCheckpoint then
        let pool := deletePredecessors pool.mapOrphanBlocks.length pool orphan.hashPrev
        if (pool.find hash).isSome then some pool else none
      else some pool
    | none => some pool) pool

/-- A block that no other one depends on, from a block; nothing where the walk does not end. -/
def successor : Nat → COrphanBlock → Option COrphanBlock
  | 0, _ => none
  | rounds + 1, orphan =>
    match pool.findByPrev orphan.hashBlock with
    | some next => successor rounds next
    | none => some orphan

/-- The loop that removes blocks at random; nothing where it divides by zero or does not end. -/
def pruneRandom (nMaxOrphanBlocksSize : Nat) (insecure_rand : Nat → Nat) : Nat → OrphanBlocks → Option OrphanBlocks
  | 0, pool => if pool.nOrphanBlocksSize > nMaxOrphanBlocksSize then none else some pool
  | rounds + 1, pool =>
    if pool.nOrphanBlocksSize > nMaxOrphanBlocksSize then
      let size := pool.mapOrphanBlocksByPrev.length
      if size = 0 then none
      else do
        let picked ← pool.mapOrphanBlocksByPrev[insecure_rand rounds % size]?
        let orphan ← pool.successor (size + 1) picked.2
        pruneRandom nMaxOrphanBlocksSize insecure_rand rounds (pool.eraseOrphan orphan)
    else some pool

/-- What `PruneOrphanBlocks` reads elsewhere. -/
structure PruneArgs where
  nTimeCheckpoint : UInt32
  nMaxOrphanBlocksSize : Nat
  insecure_rand : Nat → Nat

/-- `PruneOrphanBlocks`. -/
def pruneOrphanBlocks (args : PruneArgs) : Option OrphanBlocks := do
  let pool ← pool.pruneObsolete args.nTimeCheckpoint
  pruneRandom args.nMaxOrphanBlocksSize args.insecure_rand pool.mapOrphanBlocksByPrev.length pool

/-- The loop over `vWorkQueue`. -/
def adoptOrphans (acceptBlock : UInt256 → Bool) : Nat → List UInt256 → OrphanBlocks → OrphanBlocks
  | 0, _, pool => pool
  | _ + 1, [], pool => pool
  | rounds + 1, hashPrev :: queue, pool =>
    let orphans := (pool.mapOrphanBlocksByPrev.filter fun e => e.1 == hashPrev).map Prod.snd
    let accepted := (orphans.filter fun orphan => acceptBlock orphan.hashBlock).map COrphanBlock.hashBlock
    adoptOrphans acceptBlock rounds (queue ++ accepted)
      { orphans.foldl forget pool with
        mapOrphanBlocksByPrev := pool.mapOrphanBlocksByPrev.filter fun e => e.1 != hashPrev }

/-- What `ProcessBlock` finds outside the orphan blocks: the block index, the stakes that are seen
(unless blocks are imported), the checks that the block must pass, and what becomes of blocks with a
previous block. -/
structure ProcessArgs extends PruneArgs where
  mapBlockIndex : UInt256 → Bool
  setStakeSeen : COutPoint × UInt32 → Bool
  checkBlock : Bool
  pfrom : Bool
  acceptBlock : UInt256 → Bool

/-- `ProcessBlock`. -/
def processBlock (H : BlockHash) (args : ProcessArgs) (block : CBlock) : Option OrphanBlocks :=
  let hash := block.getHash H
  if args.mapBlockIndex hash || (pool.find hash).isSome then some pool
  else if block.isProofOfStake && args.setStakeSeen block.getProofOfStake && (pool.findByPrev hash).isNone then
    some pool
  else if !args.checkBlock then some pool
  else if !args.mapBlockIndex block.hashPrevBlock then
    if !args.pfrom then some pool
    else if block.isProofOfStake && pool.setStakeSeenOrphan.contains block.getProofOfStake &&
        (pool.findByPrev hash).isNone then some pool
    else (pool.addOrphanBlock H block).pruneOrphanBlocks args.toPruneArgs
  else if !args.acceptBlock hash then some pool
  else some (adoptOrphans args.acceptBlock (pool.mapOrphanBlocksByPrev.length + 1) [hash] pool)

end OrphanBlocks

section Maps

variable {rank : UInt256 → Nat} {pool pool' pool'' : OrphanBlocks}

/-- Both maps hold the same blocks under their keys, the sizes add up, and no chain of hashes leads back. -/
structure OrphansFiled (rank : UInt256 → Nat) (pool : OrphanBlocks) : Prop where
  key : ∀ e ∈ pool.mapOrphanBlocks, e.1 = e.2.hashBlock
  nodup : (pool.mapOrphanBlocks.map Prod.fst).Nodup
  prev : ∀ e ∈ pool.mapOrphanBlocksByPrev, e.1 = e.2.hashPrev
  perm : (pool.mapOrphanBlocksByPrev.map Prod.snd).Perm pool.blocks
  size : pool.nOrphanBlocksSize = (pool.blocks.map COrphanBlock.size).sum
  stake : ∀ o ∈ pool.blocks, o.stake = o.block.getProofOfStake
  rank : ∀ o ∈ pool.blocks, rank o.hashPrev < rank o.hashBlock

/-- The seen stakes are those of the proof-of-stake blocks. -/
def StakesExact (pool : OrphanBlocks) : Prop :=
  ∀ s, s ∈ pool.setStakeSeenOrphan ↔ ∃ o ∈ pool.blocks, o.block.isProofOfStake ∧ o.stake = s

/-- No two proof-of-stake blocks spend the same stake. -/
def StakesDistinct (pool : OrphanBlocks) : Prop :=
  ∀ o ∈ pool.blocks, ∀ o' ∈ pool.blocks, o.block.isProofOfStake → o'.block.isProofOfStake → o.stake = o'.stake → o = o'

theorem insertByKey_perm {α : Type} (entry : UInt256 × α) (l : List (UInt256 × α)) :
    (insertByKey entry l).Perm (entry :: l) := by
  rw [insertByKey]
  refine List.perm_middle.trans ?_
  rw [List.takeWhile_append_dropWhile]

theorem OrphansFiled.keys_eq (h : OrphansFiled rank pool) :
    pool.mapOrphanBlocks.map Prod.fst = pool.blocks.map COrphanBlock.hashBlock := by
  rw [OrphanBlocks.blocks, List.map_map]
  exact List.map_congr_left h.key

/-- A block is determined by its hash. -/
theorem OrphansFiled.eq_of_hash (h : OrphansFiled rank pool) {o o' : COrphanBlock} (ho : o ∈ pool.blocks)
    (ho' : o' ∈ pool.blocks) (heq : o.hashBlock = o'.hashBlock) : o = o' :=
  List.inj_on_of_nodup_map (h.keys_eq ▸ h.nodup) ho ho' heq

theorem OrphansFiled.blocks_nodup (h : OrphansFiled rank pool) : pool.blocks.Nodup :=
  List.Nodup.of_map COrphanBlock.hashBlock (h.keys_eq ▸ h.nodup)

theorem OrphansFiled.find_eq_some (h : OrphansFiled rank pool) (hash : UInt256) (o : COrphanBlock) :
    pool.find hash = some o ↔ o ∈ pool.blocks ∧ o.hashBlock = hash := by
  rw [OrphanBlocks.find, Option.map_eq_some_iff]
  constructor
  · rintro ⟨e, hfound, rfl⟩
    have hmem := List.mem_of_find?_eq_some hfound
    have hkey := List.find?_some hfound
    rw [h.key e hmem, beq_iff_eq] at hkey
    exact ⟨List.mem_map_of_mem hmem, hkey⟩
  · rintro ⟨hmem, rfl⟩
    obtain ⟨e, he, rfl⟩ := List.mem_map.mp hmem
    cases hfound : pool.mapOrphanBlocks.find? fun e' => e'.1 == e.2.hashBlock with
    | none =>
      have hnone := List.find?_eq_none.mp hfound e he
      rw [h.key e he] at hnone
      exact absurd (beq_self_eq_true _) hnone
    | some e' =>
      have hmem' := List.mem_of_find?_eq_some hfound
      have hkey := List.find?_some hfound
      rw [h.key e' hmem', beq_iff_eq] at hkey
      exact ⟨e', rfl, h.eq_of_hash (List.mem_map_of_mem hmem') hmem hkey⟩

/-- Some blocks are taken out of everything. -/
structure Removes (l : List COrphanBlock) (pool pool' : OrphanBlocks) : Prop where
  nodup : l.Nodup
  subset : ∀ o ∈ l, o ∈ pool.blocks
  map : pool'.mapOrphanBlocks = pool.mapOrphanBlocks.filter fun e => e.2 ∉ l
  byPrev : pool'.mapOrphanBlocksByPrev = pool.mapOrphanBlocksByPrev.filter fun e => e.2 ∉ l
  stakes : ∀ s, s ∈ pool'.setStakeSeenOrphan ↔ s ∈ pool.setStakeSeenOrphan ∧ ∀ o ∈ l, o.stake ≠ s
  size : pool'.nOrphanBlocksSize = pool.nOrphanBlocksSize - (l.map COrphanBlock.size).sum

theorem Removes.blocks_eq {l : List COrphanBlock} (h : Removes l pool pool') :
    pool'.blocks = pool.blocks.filter fun o => o ∉ l := by
  rw [OrphanBlocks.blocks, OrphanBlocks.blocks, h.map, List.filter_map]
  rfl

theorem Removes.mem_blocks {l : List COrphanBlock} (h : Removes l pool pool') (o : COrphanBlock) :
    o ∈ pool'.blocks ↔ o ∈ pool.blocks ∧ o ∉ l := by
  rw [h.blocks_eq, List.mem_filter, decide_eq_true_eq]

theorem Removes.filed {l : List COrphanBlock} (h : Removes l pool pool') (hok : OrphansFiled rank pool) :
    OrphansFiled rank pool' where
  key := fun e he => hok.key e (List.mem_of_mem_filter (h.map ▸ he))
  nodup := by
    rw [h.map]
    exact hok.nodup.sublist (List.filter_sublist.map Prod.fst)
  prev := fun e he => hok.prev e (List.mem_of_mem_filter (h.byPrev ▸ he))
  perm := by
    rw [h.byPrev, h.blocks_eq]
    have hperm := hok.perm.filter fun o => decide (o ∉ l)
    rwa [List.filter_map] at hperm
  size := by
    have hsplit : (pool.blocks.filter fun o => o ∈ l).Perm l := by
      refine (List.perm_ext_iff_of_nodup (hok.blocks_nodup.filter _) h.nodup).mpr fun o => ?_
      rw [List.mem_filter, decide_eq_true_eq]
      exact ⟨fun ho => ho.2, fun ho => ⟨h.subset o ho, ho⟩⟩
    have hboth := (List.filter_append_perm (fun o => decide (o ∈ l)) pool.blocks).map COrphanBlock.size
    have hsum := hboth.sum_eq
    rw [List.map_append, List.sum_append, (hsplit.map COrphanBlock.size).sum_eq] at hsum
    have hrest : (pool.blocks.filter fun o => !decide (o ∈ l)) = pool'.blocks := by
      rw [h.blocks_eq]
      simp only [decide_not]
    rw [hrest] at hsum
    rw [h.size, hok.size, ← hsum, Nat.add_sub_cancel_left]
  stake := fun o ho => hok.stake o ((h.mem_blocks o).mp ho).1
  rank := fun o ho => hok.rank o ((h.mem_blocks o).mp ho).1

theorem Removes.refl (pool : OrphanBlocks) : Removes [] pool pool := by
  constructor <;> simp

theorem Removes.trans {l l' : List COrphanBlock} (h : Removes l pool pool') (h' : Removes l' pool' pool'') :
    Removes (l ++ l') pool pool'' where
  nodup := by
    rw [List.nodup_append]
    refine ⟨h.nodup, h'.nodup, fun o ho o' ho' heq => ?_⟩
    have hin := (h.mem_blocks o').mp (h'.subset o' ho')
    exact hin.2 (heq ▸ ho)
  subset := by
    intro o ho
    cases List.mem_append.mp ho with
    | inl ho => exact h.subset o ho
    | inr ho => exact ((h.mem_blocks o).mp (h'.subset o ho)).1
  map := by
    rw [h'.map, h.map, List.filter_filter]
    congr 1
    funext e
    simp [Bool.and_comm]
  byPrev := by
    rw [h'.byPrev, h.byPrev, List.filter_filter]
    congr 1
    funext e
    simp [Bool.and_comm]
  stakes := by
    intro s
    rw [h'.stakes, h.stakes, and_assoc]
    simp only [List.mem_append, or_imp, forall_and]
  size := by
    rw [h'.size, h.size, List.map_append, List.sum_append, Nat.sub_sub]

end Maps

section Removal

variable {rank : UInt256 → Nat} {pool pool' : OrphanBlocks}

theorem getProofOfStake_ne_null {b : CBlock} (hb : b.isProofOfStake) : b.getProofOfStake.1 ≠ COutPoint.null := by
  rw [CBlock.getProofOfStake, if_pos hb, CBlock.kernelInput]
  rw [CBlock.isProofOfStake] at hb
  cases hvtx : b.vtx with
  | nil => simp [hvtx] at hb
  | cons tx vtx =>
    cases hvtx' : vtx with
    | nil => simp [hvtx, hvtx'] at hb
    | cons tx' vtx' =>
      rw [hvtx, hvtx'] at hb
      dsimp only at hb
      rw [CTransaction.isCoinStake] at hb
      cases hvin : tx'.vin with
      | nil => simp [hvin] at hb
      | cons txin vin =>
        intro hnull
        simp only [List.getElem?_cons_succ, List.getElem?_cons_zero, Option.bind_some, hvin, List.head?_cons,
          Option.map_some, Option.getD_some] at hnull
        rw [hvin] at hb
        cases hvout : tx'.vout with
        | nil => simp [hvout] at hb
        | cons txout vout =>
          cases vout with
          | nil => simp [hvout] at hb
          | cons txout' vout => simp [hvout, hnull, COutPoint.isNull, COutPoint.null] at hb

/-- Where no stake is shared, the stakes of the blocks that stay stay. -/
theorem Removes.stakesExact {l : List COrphanBlock} (h : Removes l pool pool') (hok : OrphansFiled rank pool)
    (hd : StakesDistinct pool) (hs : StakesExact pool) : StakesExact pool' := by
  intro s
  rw [h.stakes, hs]
  constructor
  · rintro ⟨⟨o, ho, hpos, rfl⟩, hkept⟩
    exact ⟨o, (h.mem_blocks o).mpr ⟨ho, fun hl => hkept o hl rfl⟩, hpos, rfl⟩
  · rintro ⟨o, ho, hpos, rfl⟩
    obtain ⟨hin, hout⟩ := (h.mem_blocks o).mp ho
    refine ⟨⟨o, hin, hpos, rfl⟩, fun o' ho' heq => ?_⟩
    by_cases hpos' : o'.block.isProofOfStake
    · exact hout (hd o' (h.subset o' ho') o hin hpos' hpos heq ▸ ho')
    · rw [hok.stake o' (h.subset o' ho'), hok.stake o hin, CBlock.getProofOfStake, if_neg hpos'] at heq
      exact getProofOfStake_ne_null hpos (congrArg Prod.fst heq).symm

/-- The common part of the removals, for several blocks. -/
theorem foldl_forget (l : List COrphanBlock) (pool : OrphanBlocks) :
    (l.foldl OrphanBlocks.forget pool).mapOrphanBlocks =
        pool.mapOrphanBlocks.filter (fun e => decide (e.1 ∉ l.map COrphanBlock.hashBlock)) ∧
      (∀ s, s ∈ (l.foldl OrphanBlocks.forget pool).setStakeSeenOrphan ↔
        s ∈ pool.setStakeSeenOrphan ∧ ∀ o ∈ l, o.stake ≠ s) ∧
      (l.foldl OrphanBlocks.forget pool).nOrphanBlocksSize =
        pool.nOrphanBlocksSize - (l.map COrphanBlock.size).sum := by
  induction l generalizing pool with
  | nil => simp
  | cons o l ih =>
    obtain ⟨hmap, hstakes, hsize⟩ := ih (pool.forget o)
    rw [List.foldl_cons]
    refine ⟨?_, fun s => ?_, ?_⟩
    · rw [hmap, OrphanBlocks.forget, List.filter_filter]
      congr 1
      funext e
      simp [Bool.and_comm, bne, ← Bool.beq_eq_decide_eq]
    · rw [hstakes, OrphanBlocks.forget]
      simp only [List.mem_filter, bne_iff_ne, ne_eq, List.forall_mem_cons, and_assoc]
      exact and_congr_right fun _ => and_congr_left fun _ => not_congr eq_comm
    · rw [hsize, OrphanBlocks.forget, List.map_cons, List.sum_cons, Nat.sub_sub]

/-- Blocks that are forgotten and taken out of `mapOrphanBlocksByPrev` are removed. -/
theorem removes_forget (hok : OrphansFiled rank pool) {l : List COrphanBlock} (hl : l.Nodup)
    (hsub : ∀ o ∈ l, o ∈ pool.blocks) {byPrev : List (UInt256 × COrphanBlock)}
    (hbyPrev : byPrev = pool.mapOrphanBlocksByPrev.filter fun e => e.2 ∉ l) :
    Removes l pool { l.foldl OrphanBlocks.forget pool with mapOrphanBlocksByPrev := byPrev } := by
  obtain ⟨hmap, hstakes, hsize⟩ := foldl_forget l pool
  refine ⟨hl, hsub, ?_, hbyPrev, hstakes, hsize⟩
  dsimp only
  rw [hmap]
  refine List.filter_congr fun e he => ?_
  have hmem : e.2 ∈ pool.blocks := List.mem_map_of_mem he
  rw [decide_eq_decide, not_iff_not, hok.key e he, List.mem_map]
  constructor
  · rintro ⟨o, ho, heq⟩
    exact hok.eq_of_hash (hsub o ho) hmem heq ▸ ho
  · exact fun hin => ⟨e.2, hin, rfl⟩

theorem OrphansFiled.mem_byPrev (hok : OrphansFiled rank pool) (o : COrphanBlock) :
    (o.hashPrev, o) ∈ pool.mapOrphanBlocksByPrev ↔ o ∈ pool.blocks := by
  rw [← hok.perm.mem_iff, List.mem_map]
  constructor
  · exact fun h => ⟨_, h, rfl⟩
  · rintro ⟨e, he, rfl⟩
    rw [← hok.prev e he]
    exact he

theorem OrphansFiled.byPrev_nodup (hok : OrphansFiled rank pool) : pool.mapOrphanBlocksByPrev.Nodup :=
  List.Nodup.of_map Prod.snd (hok.perm.nodup_iff.mpr hok.blocks_nodup)

theorem removes_eraseOrphan (hok : OrphansFiled rank pool) {o : COrphanBlock} (ho : o ∈ pool.blocks) :
    Removes [o] pool (pool.eraseOrphan o) := by
  have hsub : ∀ o' ∈ [o], o' ∈ pool.blocks := fun o' ho' => List.mem_singleton.mp ho' ▸ ho
  refine removes_forget hok (List.nodup_singleton o) hsub ?_
  rw [hok.byPrev_nodup.erase_eq_filter]
  refine List.filter_congr fun e he => ?_
  have hkey := hok.prev e he
  by_cases heq : e.2 = o
  · rw [heq] at hkey
    have hsame : e = (o.hashPrev, o) := Prod.ext hkey heq
    simp [hsame]
  · have hdiff : e ≠ (o.hashPrev, o) := fun h => heq (congrArg Prod.snd h)
    simp [heq, hdiff]

/-- The round of `vWorkQueue` for one hash. -/
theorem removes_children (hok : OrphansFiled rank pool) (hashPrev : UInt256) :
    let orphans := (pool.mapOrphanBlocksByPrev.filter fun e => e.1 == hashPrev).map Prod.snd
    Removes orphans pool { orphans.foldl OrphanBlocks.forget pool with
      mapOrphanBlocksByPrev := pool.mapOrphanBlocksByPrev.filter fun e => e.1 != hashPrev } := by
  intro orphans
  have hnodup : (pool.mapOrphanBlocksByPrev.map Prod.snd).Nodup := hok.perm.nodup_iff.mpr hok.blocks_nodup
  have hmem : ∀ e ∈ pool.mapOrphanBlocksByPrev, e.2 ∈ orphans ↔ e.1 = hashPrev := by
    intro e he
    rw [List.mem_map]
    constructor
    · rintro ⟨e', he', heq⟩
      obtain ⟨he', hkey⟩ := List.mem_filter.mp he'
      rw [hok.prev e he, ← heq, ← hok.prev e' he']
      exact beq_iff_eq.mp hkey
    · rintro rfl
      exact ⟨e, List.mem_filter.mpr ⟨he, beq_self_eq_true _⟩, rfl⟩
  refine removes_forget hok (hnodup.sublist (List.filter_sublist.map Prod.snd)) ?_ ?_
  · intro o ho
    obtain ⟨e, he, rfl⟩ := List.mem_map.mp ho
    exact hok.perm.mem_iff.mp (List.mem_map_of_mem (List.mem_of_mem_filter he))
  · refine List.filter_congr fun e he => ?_
    have hiff := hmem e he
    change (e.1 != hashPrev) = decide (e.2 ∉ orphans)
    clear_value orphans
    by_cases hkey : e.1 = hashPrev
    · simp [hkey, hiff]
    · simp [hkey, hiff]

/-- Predecessors are removed, and only they: their rank is not above the first one's. -/
theorem deletePredecessors_removes (hok : OrphansFiled rank pool) (rounds : Nat) (hash : UInt256) :
    ∃ l, Removes l pool (OrphanBlocks.deletePredecessors rounds pool hash) ∧
      ∀ o ∈ l, rank o.hashBlock ≤ rank hash := by
  induction rounds generalizing pool hash with
  | zero => exact ⟨[], Removes.refl pool, fun o ho => absurd ho List.not_mem_nil⟩
  | succ rounds ih =>
    rw [OrphanBlocks.deletePredecessors]
    cases hfind : pool.find hash with
    | none => exact ⟨[], Removes.refl pool, fun o ho => absurd ho List.not_mem_nil⟩
    | some o =>
      obtain ⟨ho, hhash⟩ := (hok.find_eq_some hash o).mp hfind
      have herase := removes_eraseOrphan hok ho
      obtain ⟨l, hl, hrank⟩ := ih (herase.filed hok) o.hashPrev
      refine ⟨[o] ++ l, herase.trans hl, fun o' ho' => ?_⟩
      have hlt := hok.rank o ho
      rw [hhash] at hlt
      cases List.mem_append.mp ho' with
      | inl heq => rw [List.mem_singleton.mp heq, hhash]
      | inr hin => exact (hrank o' hin).trans hlt.le

/-- The blocks are removed by rounds, and the iterator stays where it is. -/
theorem pruneObsolete_removes (hok : OrphansFiled rank pool) (nTimeCheckpoint : UInt32) :
    ∃ l pool', pool.pruneObsolete nTimeCheckpoint = some pool' ∧ Removes l pool pool' := by
  have hround : ∀ t hash, (∃ l, Removes l pool t) → ∃ t', (match t.find hash with
      | some orphan =>
        if orphan.nTime < nTimeCheckpoint then
          let t := OrphanBlocks.deletePredecessors t.mapOrphanBlocks.length t orphan.hashPrev
          if (t.find hash).isSome then some t else none
        else some t
      | none => some t) = some t' ∧ ∃ l, Removes l pool t' := by
    rintro t hash ⟨l, hl⟩
    have ht := hl.filed hok
    cases hfind : t.find hash with
    | none => exact ⟨t, rfl, l, hl⟩
    | some o =>
      dsimp only
      split
      · obtain ⟨ho, hhash⟩ := (ht.find_eq_some hash o).mp hfind
        obtain ⟨l', hl', hrank⟩ := deletePredecessors_removes ht t.mapOrphanBlocks.length o.hashPrev
        have hstays : (OrphanBlocks.deletePredecessors t.mapOrphanBlocks.length t o.hashPrev).find hash = some o := by
          refine ((hl'.filed ht).find_eq_some hash o).mpr ⟨(hl'.mem_blocks o).mpr ⟨ho, fun hin => ?_⟩, hhash⟩
          exact absurd (hrank o hin) (not_le.mpr (ht.rank o ho))
        rw [hstays]
        exact ⟨_, rfl, l ++ l', hl.trans hl'⟩
      · exact ⟨t, rfl, l, hl⟩
  obtain ⟨pool', heq, l, hl⟩ := Lib.foldlM_total (fun _ t => ∃ l, Removes l pool t) _ pool ⟨[], Removes.refl pool⟩
    (fun _ hash _ _ t ht => hround t hash ht)
  exact ⟨l, pool', heq, hl⟩

/-- The blocks of a higher rank. -/
def above (rank : UInt256 → Nat) (pool : OrphanBlocks) (o : COrphanBlock) : List COrphanBlock :=
  pool.blocks.filter fun o' => rank o.hashBlock < rank o'.hashBlock

/-- The walk to a successor ends: the ranks on the way grow. -/
theorem successor_of_filed (hok : OrphansFiled rank pool) (rounds : Nat) (o : COrphanBlock) (ho : o ∈ pool.blocks)
    (hrounds : (above rank pool o).length < rounds) : ∃ o' ∈ pool.blocks, pool.successor rounds o = some o' := by
  induction rounds generalizing o with
  | zero => exact absurd hrounds (Nat.not_lt_zero _)
  | succ rounds ih =>
    rw [OrphanBlocks.successor]
    cases hfind : pool.findByPrev o.hashBlock with
    | none => exact ⟨o, ho, rfl⟩
    | some next =>
      obtain ⟨e, hfound, rfl⟩ := Option.map_eq_some_iff.mp hfind
      have hmem := List.mem_of_find?_eq_some hfound
      have hprev := List.find?_some hfound
      rw [hok.prev e hmem, beq_iff_eq] at hprev
      have hnext : e.2 ∈ pool.blocks := hok.perm.mem_iff.mp (List.mem_map_of_mem hmem)
      have hlt := hok.rank e.2 hnext
      rw [hprev] at hlt
      refine ih e.2 hnext (lt_of_lt_of_le ?_ (Nat.le_of_lt_succ hrounds))
      have hsub : (above rank pool e.2).Sublist (above rank pool o) := by
        refine List.monotone_filter_right _ fun o' ho' => ?_
        rw [decide_eq_true_eq] at ho' ⊢
        exact hlt.trans ho'
      refine lt_of_le_of_ne hsub.length_le fun heq => ?_
      have hin : e.2 ∈ above rank pool o := List.mem_filter.mpr ⟨hnext, decide_eq_true hlt⟩
      rw [← hsub.eq_of_length heq, above, List.mem_filter, decide_eq_true_eq] at hin
      exact absurd hin.2 (lt_irrefl _)

theorem OrphansFiled.size_of_empty (hok : OrphansFiled rank pool) (hempty : pool.mapOrphanBlocksByPrev.length = 0) :
    pool.nOrphanBlocksSize = 0 := by
  have hperm := hok.perm
  rw [List.length_eq_zero_iff.mp hempty, List.map_nil] at hperm
  rw [hok.size, hperm.symm.eq_nil]
  rfl

/-- Blocks are removed until the rest is small enough. -/
theorem pruneRandom_removes (hok : OrphansFiled rank pool) (nMax : Nat) (rand : Nat → Nat) (rounds : Nat)
    (hrounds : pool.mapOrphanBlocksByPrev.length ≤ rounds) :
    ∃ l pool', OrphanBlocks.pruneRandom nMax rand rounds pool = some pool' ∧ Removes l pool pool' ∧
      pool'.nOrphanBlocksSize ≤ nMax := by
  induction rounds generalizing pool with
  | zero =>
    have hzero := hok.size_of_empty (Nat.le_zero.mp hrounds)
    rw [OrphanBlocks.pruneRandom, if_neg (by omega)]
    exact ⟨[], pool, rfl, Removes.refl pool, by omega⟩
  | succ rounds ih =>
    rw [OrphanBlocks.pruneRandom]
    split
    case isFalse hle => exact ⟨[], pool, rfl, Removes.refl pool, not_lt.mp hle⟩
    case isTrue hlarge =>
      have hne : pool.mapOrphanBlocksByPrev.length ≠ 0 := fun hempty => by
        rw [hok.size_of_empty hempty] at hlarge
        exact Nat.not_lt_zero _ hlarge
      have hpos : rand rounds % pool.mapOrphanBlocksByPrev.length < pool.mapOrphanBlocksByPrev.length :=
        Nat.mod_lt _ (Nat.pos_of_ne_zero hne)
      dsimp only
      have hpicked : pool.mapOrphanBlocksByPrev[rand rounds % pool.mapOrphanBlocksByPrev.length].2 ∈ pool.blocks :=
        hok.perm.mem_iff.mp (List.mem_map_of_mem (List.getElem_mem hpos))
      have hfew :
          (above rank pool pool.mapOrphanBlocksByPrev[rand rounds % pool.mapOrphanBlocksByPrev.length].2).length <
          pool.mapOrphanBlocksByPrev.length + 1 := by
        have hle := List.length_filter_le (fun o' => decide (rank
          pool.mapOrphanBlocksByPrev[rand rounds % pool.mapOrphanBlocksByPrev.length].2.hashBlock < rank o'.hashBlock))
          pool.blocks
        rw [← hok.perm.length_eq, List.length_map] at hle
        exact Nat.lt_succ_of_le hle
      obtain ⟨o, ho, hsucc⟩ := successor_of_filed hok _ _ hpicked hfew
      have herase := removes_eraseOrphan hok ho
      have hshorter : (pool.eraseOrphan o).mapOrphanBlocksByPrev.length = pool.mapOrphanBlocksByPrev.length - 1 :=
        List.length_erase_of_mem ((hok.mem_byPrev o).mpr ho)
      obtain ⟨l, pool', heq, hl, hle⟩ := ih (herase.filed hok) (by omega)
      refine ⟨[o] ++ l, pool', ?_, herase.trans hl, hle⟩
      rw [if_neg hne, List.getElem?_eq_getElem hpos, Option.bind_eq_bind, Option.bind_some, hsucc,
        Option.bind_eq_bind, Option.bind_some, heq]

end Removal

section Calls

variable (H : BlockHash) {rank : UInt256 → Nat} {pool pool' : OrphanBlocks}

/-- The entry that `AddOrphanBlock` makes. -/
def newOrphan (block : CBlock) : COrphanBlock :=
  ⟨block.getHash H, block.hashPrevBlock, block.nTime, block.getProofOfStake, block⟩

variable {H} {block : CBlock}

theorem addOrphanBlock_blocks (hnew : pool.find (block.getHash H) = none) :
    (pool.addOrphanBlock H block).blocks.Perm (newOrphan H block :: pool.blocks) := by
  have hmap : (pool.addOrphanBlock H block).mapOrphanBlocks =
      insertByKey (block.getHash H, newOrphan H block) pool.mapOrphanBlocks := by
    rw [OrphanBlocks.addOrphanBlock]
    dsimp only
    rw [hnew]
    rfl
  rw [OrphanBlocks.blocks, hmap]
  exact (insertByKey_perm _ _).map Prod.snd

theorem OrphansFiled.addOrphanBlock (hok : OrphansFiled rank pool) (hnew : pool.find (block.getHash H) = none)
    (hrank : rank block.hashPrevBlock < rank (block.getHash H)) :
    OrphansFiled rank (pool.addOrphanBlock H block) := by
  have hblocks := addOrphanBlock_blocks hnew
  have hperm : (pool.addOrphanBlock H block).mapOrphanBlocks.Perm
      ((block.getHash H, newOrphan H block) :: pool.mapOrphanBlocks) := by
    rw [OrphanBlocks.addOrphanBlock]
    dsimp only
    rw [hnew]
    exact insertByKey_perm _ _
  have hprev : (pool.addOrphanBlock H block).mapOrphanBlocksByPrev.Perm
      ((block.hashPrevBlock, newOrphan H block) :: pool.mapOrphanBlocksByPrev) := insertByKey_perm _ _
  constructor
  · intro e he
    cases List.mem_cons.mp (hperm.mem_iff.mp he) with
    | inl heq => rw [heq, newOrphan]
    | inr hin => exact hok.key e hin
  · rw [(hperm.map Prod.fst).nodup_iff, List.map_cons, List.nodup_cons]
    refine ⟨fun hin => ?_, hok.nodup⟩
    rw [hok.keys_eq] at hin
    obtain ⟨o, ho, hhash⟩ := List.mem_map.mp hin
    rw [(hok.find_eq_some _ o).mpr ⟨ho, hhash⟩] at hnew
    cases hnew
  · intro e he
    cases List.mem_cons.mp (hprev.mem_iff.mp he) with
    | inl heq => rw [heq, newOrphan]
    | inr hin => exact hok.prev e hin
  · exact (hprev.map Prod.snd).trans ((hok.perm.cons _).trans hblocks.symm)
  · rw [(hblocks.map COrphanBlock.size).sum_eq, List.map_cons, List.sum_cons, ← hok.size, Nat.add_comm]
    rfl
  · intro o ho
    cases List.mem_cons.mp (hblocks.mem_iff.mp ho) with
    | inl heq => rw [heq, newOrphan]
    | inr hin => exact hok.stake o hin
  · intro o ho
    cases List.mem_cons.mp (hblocks.mem_iff.mp ho) with
    | inl heq => rw [heq]; exact hrank
    | inr hin => exact hok.rank o hin

theorem StakesExact.addOrphanBlock (hs : StakesExact pool) (hnew : pool.find (block.getHash H) = none) :
    StakesExact (pool.addOrphanBlock H block) := by
  intro s
  have hblocks : ∀ o, o ∈ (pool.addOrphanBlock H block).blocks ↔ o = newOrphan H block ∨ o ∈ pool.blocks := fun o => by
    rw [(addOrphanBlock_blocks hnew).mem_iff, List.mem_cons]
  simp only [hblocks, or_and_right, exists_or, exists_eq_left]
  rw [← hs s, OrphanBlocks.addOrphanBlock]
  dsimp only
  by_cases hpos : block.isProofOfStake
  · rw [if_pos hpos, List.mem_insert_iff, newOrphan]
    simp only [hpos, true_and]
    exact or_congr eq_comm Iff.rfl
  · rw [if_neg hpos, newOrphan]
    simp only [hpos, Bool.false_eq_true, false_and, false_or]

/-- A block with a stake that is not seen does not share it. -/
theorem StakesDistinct.addOrphanBlock (hd : StakesDistinct pool) (hs : StakesExact pool)
    (hnew : pool.find (block.getHash H) = none)
    (hstake : block.isProofOfStake → block.getProofOfStake ∉ pool.setStakeSeenOrphan) :
    StakesDistinct (pool.addOrphanBlock H block) := by
  have hblocks : ∀ o, o ∈ (pool.addOrphanBlock H block).blocks → o = newOrphan H block ∨ o ∈ pool.blocks := fun o ho =>
    List.mem_cons.mp ((addOrphanBlock_blocks hnew).mem_iff.mp ho)
  intro o ho o' ho' hpos hpos' heq
  rcases hblocks o ho with rfl | hin
  · rcases hblocks o' ho' with rfl | hin'
    · rfl
    · exact absurd ((hs _).mpr ⟨o', hin', hpos', heq.symm⟩) (hstake hpos)
  · rcases hblocks o' ho' with rfl | hin'
    · exact absurd ((hs _).mpr ⟨o, hin, hpos, heq⟩) (hstake hpos')
    · exact hd o hin o' hin' hpos hpos' heq

theorem pruneOrphanBlocks_removes (hok : OrphansFiled rank pool) (args : OrphanBlocks.PruneArgs) :
    ∃ l pool', pool.pruneOrphanBlocks args = some pool' ∧ Removes l pool pool' ∧
      pool'.nOrphanBlocksSize ≤ args.nMaxOrphanBlocksSize := by
  obtain ⟨l, pool₁, hobsolete, hl⟩ := pruneObsolete_removes hok args.nTimeCheckpoint
  obtain ⟨l', pool₂, hrandom, hl', hle⟩ := pruneRandom_removes (hl.filed hok) args.nMaxOrphanBlocksSize
    args.insecure_rand pool₁.mapOrphanBlocksByPrev.length le_rfl
  refine ⟨l ++ l', pool₂, ?_, hl.trans hl', hle⟩
  rw [OrphanBlocks.pruneOrphanBlocks, hobsolete, Option.bind_eq_bind, Option.bind_some, hrandom]

theorem adoptOrphans_removes (hok : OrphansFiled rank pool) (acceptBlock : UInt256 → Bool) (rounds : Nat)
    (queue : List UInt256) : ∃ l, Removes l pool (OrphanBlocks.adoptOrphans acceptBlock rounds queue pool) := by
  induction rounds generalizing pool queue with
  | zero => exact ⟨[], Removes.refl pool⟩
  | succ rounds ih =>
    cases queue with
    | nil => exact ⟨[], Removes.refl pool⟩
    | cons hashPrev queue =>
      have hround := removes_children hok hashPrev
      obtain ⟨l, hl⟩ := ih (hround.filed hok) _
      exact ⟨_, hround.trans hl⟩

/-- A round takes a hash from the queue and adds at most the blocks that it takes from the maps, so further rounds
than these find the queue empty. -/
theorem adoptOrphans_rounds (acceptBlock : UInt256 → Bool) (rounds more : Nat) (queue : List UInt256)
    (hrounds : queue.length + pool.mapOrphanBlocksByPrev.length ≤ rounds) :
    OrphanBlocks.adoptOrphans acceptBlock (rounds + more) queue pool =
      OrphanBlocks.adoptOrphans acceptBlock rounds queue pool := by
  induction rounds generalizing pool queue with
  | zero =>
    obtain rfl : queue = [] := List.length_eq_zero_iff.mp (by omega)
    cases more with
    | zero => rfl
    | succ more => rw [Nat.zero_add]; rfl
  | succ rounds ih =>
    rw [Nat.succ_add]
    cases queue with
    | nil => rfl
    | cons hashPrev queue =>
      rw [OrphanBlocks.adoptOrphans, OrphanBlocks.adoptOrphans]
      apply ih
      have hsplit := List.length_eq_length_filter_add (l := pool.mapOrphanBlocksByPrev) fun e => e.1 == hashPrev
      have haccepted := List.length_filter_le (fun orphan => acceptBlock orphan.hashBlock)
        ((pool.mapOrphanBlocksByPrev.filter fun e => e.1 == hashPrev).map Prod.snd)
      rw [List.length_map] at haccepted
      rw [List.length_cons] at hrounds
      rw [List.length_append, List.length_map]
      simp only [bne]
      omega

end Calls

section Runs

variable (H : BlockHash) (rank : UInt256 → Nat)

inductive OrphanBlockCall
  | addOrphanBlock (block : CBlock)
  | pruneOrphanBlocks (args : OrphanBlocks.PruneArgs)
  | processBlock (args : OrphanBlocks.ProcessArgs) (block : CBlock)

def OrphanBlocks.step (pool : OrphanBlocks) : OrphanBlockCall → Option OrphanBlocks
  | .addOrphanBlock block => some (pool.addOrphanBlock H block)
  | .pruneOrphanBlocks args => pool.pruneOrphanBlocks args
  | .processBlock args block => pool.processBlock H args block

def OrphanBlocks.empty : OrphanBlocks := ⟨[], [], [], 0⟩

/-- Runs in which every call meets a condition. -/
inductive OrphanBlockRun (allowed : OrphanBlocks → OrphanBlockCall → Prop) : OrphanBlocks → Prop
  | start : OrphanBlockRun allowed OrphanBlocks.empty
  | call {pool pool' : OrphanBlocks} {call : OrphanBlockCall} : OrphanBlockRun allowed pool → allowed pool call →
      pool.step H call = some pool' → OrphanBlockRun allowed pool'

/-- The exception of `ProcessBlock`: a block whose stake is seen is kept because another block depends on it. -/
def SharesStake (pool : OrphanBlocks) (block : CBlock) : Prop :=
  block.isProofOfStake ∧ block.getProofOfStake ∈ pool.setStakeSeenOrphan ∧ (pool.findByPrev (block.getHash H)).isSome

/-- A block is added once and without a cycle of hashes, and blocks are removed while no stake is shared. -/
def UnsharedStakes (pool : OrphanBlocks) : OrphanBlockCall → Prop
  | .addOrphanBlock block =>
    pool.find (block.getHash H) = none ∧ rank block.hashPrevBlock < rank (block.getHash H)
  | .pruneOrphanBlocks _ => StakesDistinct pool
  | .processBlock args block =>
    StakesDistinct pool ∧ (args.mapBlockIndex block.hashPrevBlock = false →
      rank block.hashPrevBlock < rank (block.getHash H) ∧ ¬ SharesStake H pool block)

/-- What the calls keep. -/
structure OrphansOk (pool : OrphanBlocks) : Prop where
  filed : OrphansFiled rank pool
  stakes : StakesExact pool

variable {H rank} {pool pool' : OrphanBlocks}

theorem OrphansOk.empty : OrphansOk rank OrphanBlocks.empty := by
  refine ⟨?_, fun s => ?_⟩
  · constructor <;> simp [OrphanBlocks.empty, OrphanBlocks.blocks]
  · simp [OrphanBlocks.empty, OrphanBlocks.blocks]

theorem OrphansOk.removes (h : OrphansOk rank pool) (hd : StakesDistinct pool) {l : List COrphanBlock}
    (hl : Removes l pool pool') : OrphansOk rank pool' :=
  ⟨hl.filed h.filed, hl.stakesExact h.filed hd h.stakes⟩

theorem OrphansOk.processBlock (h : OrphansOk rank pool) (args : OrphanBlocks.ProcessArgs) (block : CBlock)
    (hd : StakesDistinct pool) (horphan : args.mapBlockIndex block.hashPrevBlock = false →
      rank block.hashPrevBlock < rank (block.getHash H) ∧ ¬ SharesStake H pool block) :
    ∃ pool', pool.processBlock H args block = some pool' ∧ OrphansOk rank pool' := by
  have hsame : ∃ pool', some pool = some pool' ∧ OrphansOk rank pool' := ⟨pool, rfl, h⟩
  rw [OrphanBlocks.processBlock]
  by_cases hknown : (args.mapBlockIndex (block.getHash H) || (pool.find (block.getHash H)).isSome) = true
  · rw [if_pos hknown]
    exact hsame
  rw [if_neg hknown]
  split
  · exact hsame
  split
  · exact hsame
  split
  case isTrue hprev =>
    split
    · exact hsame
    split
    · exact hsame
    case isFalse hseen =>
      have hnew : pool.find (block.getHash H) = none := by
        rw [Bool.or_eq_true, not_or, Bool.not_eq_true, Bool.not_eq_true, Option.isSome_eq_false_iff,
          Option.isNone_iff_eq_none] at hknown
        exact hknown.2
      obtain ⟨hrank, hunshared⟩ := horphan (by simpa using hprev)
      have hstake : block.isProofOfStake → block.getProofOfStake ∉ pool.setStakeSeenOrphan := by
        intro hpos hin
        have hchild : ¬ (pool.findByPrev (block.getHash H)).isSome := fun hsome => hunshared ⟨hpos, hin, hsome⟩
        rw [Option.not_isSome_iff_eq_none] at hchild
        refine hseen ?_
        rw [hpos, hchild, List.contains_iff_mem.mpr hin]
        rfl
      obtain ⟨l, pool', heq, hl, -⟩ := pruneOrphanBlocks_removes (h.filed.addOrphanBlock hnew hrank) args.toPruneArgs
      exact ⟨pool', heq, OrphansOk.removes ⟨h.filed.addOrphanBlock hnew hrank, h.stakes.addOrphanBlock hnew⟩
        (hd.addOrphanBlock h.stakes hnew hstake) hl⟩
  case isFalse =>
    split
    · exact hsame
    · obtain ⟨l, hl⟩ := adoptOrphans_removes h.filed args.acceptBlock (pool.mapOrphanBlocksByPrev.length + 1)
        [block.getHash H]
      exact ⟨_, rfl, h.removes hd hl⟩

theorem OrphansOk.step (h : OrphansOk rank pool) (call : OrphanBlockCall) (hallowed : UnsharedStakes H rank pool call) :
    ∃ pool', pool.step H call = some pool' ∧ OrphansOk rank pool' := by
  cases call with
  | addOrphanBlock block =>
    exact ⟨_, rfl, h.filed.addOrphanBlock hallowed.1 hallowed.2, h.stakes.addOrphanBlock hallowed.1⟩
  | pruneOrphanBlocks args =>
    obtain ⟨l, pool', heq, hl, -⟩ := pruneOrphanBlocks_removes h.filed args
    exact ⟨pool', heq, h.removes hallowed hl⟩
  | processBlock args block => exact h.processBlock args block hallowed.1 hallowed.2

theorem OrphanBlockRun.ok (hrun : OrphanBlockRun H (UnsharedStakes H rank) pool) : OrphansOk rank pool := by
  induction hrun with
  | start => exact OrphansOk.empty
  | call _ hallowed hstep ih =>
    obtain ⟨pool', heq, hok⟩ := ih.step _ hallowed
    rw [hstep, Option.some.injEq] at heq
    rwa [heq]

/-- In every run in which no stake is shared when blocks are removed, both maps hold the same blocks, the size is
the sum of theirs, the seen stakes are theirs, and `PruneOrphanBlocks` ends within the limit. -/
theorem orphanBlocks_kept (hrun : OrphanBlockRun H (UnsharedStakes H rank) pool) :
    (pool.mapOrphanBlocksByPrev.map Prod.snd).Perm (pool.mapOrphanBlocks.map Prod.snd) ∧
      pool.nOrphanBlocksSize = (pool.blocks.map COrphanBlock.size).sum ∧ StakesExact pool ∧
      (∀ args, ∃ pool', pool.pruneOrphanBlocks args = some pool' ∧
        pool'.nOrphanBlocksSize ≤ args.nMaxOrphanBlocksSize) ∧
      ∀ call, UnsharedStakes H rank pool call → (pool.step H call).isSome := by
  have hok := hrun.ok
  refine ⟨hok.filed.perm, hok.filed.size, hok.stakes, fun args => ?_, fun call hallowed => ?_⟩
  · obtain ⟨l, pool', heq, -, hle⟩ := pruneOrphanBlocks_removes hok.filed args
    exact ⟨pool', heq, hle⟩
  · obtain ⟨pool', heq, -⟩ := hok.step call hallowed
    rw [heq]
    rfl

/-- A block's hash is its nonce. -/
def nonceHash : BlockHash :=
  ⟨fun bs => BitVec.ofNat 256 (leNat (bs.drop 76)), fun bs => BitVec.ofNat 256 (leNat (bs.drop 76))⟩

/-- A block with some transactions. -/
def nonceBlock (hashPrevBlock : UInt256) (nNonce : UInt32) (vtx : List CTransaction) : CBlock where
  nVersion := 7
  hashPrevBlock := hashPrevBlock
  hashMerkleRoot := 0
  nTime := 1
  nBits := 0
  nNonce := nNonce
  vtx := vtx
  vchBlockSig := []

/-- A coinbase and a coinstake. -/
def onePosPair : List CTransaction :=
  [⟨1, 1, [⟨COutPoint.null, [1, 1], 0⟩], [⟨0, []⟩], 0⟩, ⟨1, 1, [⟨⟨5, 0⟩, [], 0⟩], [⟨0, []⟩, ⟨7, [0x51]⟩], 0⟩]

/-- Only the first block is known; every block passes its checks. -/
def firstKnown : OrphanBlocks.ProcessArgs where
  nTimeCheckpoint := 0
  nMaxOrphanBlocksSize := 40 * 2 ^ 20
  insecure_rand := fun _ => 0
  mapBlockIndex := fun hash => hash == 1
  setStakeSeen := fun _ => false
  checkBlock := true
  pfrom := true
  acceptBlock := fun _ => true

/-- A block that waits for 20, two blocks with one stake, and the previous block of the first of them. -/
def sharedStakeCalls : List OrphanBlockCall :=
  [.processBlock firstKnown (nonceBlock 20 21 []), .processBlock firstKnown (nonceBlock 10 11 onePosPair),
    .processBlock firstKnown (nonceBlock 18 20 onePosPair), .processBlock firstKnown (nonceBlock 1 10 [])]

theorem OrphanBlockRun.of_calls {allowed : OrphanBlocks → OrphanBlockCall → Prop} (calls : List OrphanBlockCall)
    (hall : ∀ pool, ∀ call ∈ calls, allowed pool call) (hrun : OrphanBlockRun H allowed pool)
    (hcalls : calls.foldlM (OrphanBlocks.step H) pool = some pool') : OrphanBlockRun H allowed pool' := by
  apply foldlM_preserves (OrphanBlockRun H allowed) calls pool pool' hrun _ hcalls
  intro pool₁ call hcall pool₂ hpool₁ hstep
  exact hpool₁.call (hall pool₁ call hcall) hstep

/-- The second block with the stake stays, and its stake is forgotten with the first. -/
theorem sharedStake_forgotten : ∃ pool, OrphanBlockRun nonceHash (fun _ _ => True) pool ∧ ¬ StakesExact pool := by
  have hcalls : (sharedStakeCalls.foldlM (OrphanBlocks.step nonceHash) OrphanBlocks.empty).map
      (fun pool => (pool.setStakeSeenOrphan, pool.blocks.map fun o => (o.block.isProofOfStake, o.stake))) =
        some ([], [(true, (⟨5, 0⟩, 1)), (false, (COutPoint.null, 0))]) := by
    decide +kernel
  obtain ⟨pool, hpool, heq⟩ := Option.map_eq_some_iff.mp hcalls
  obtain ⟨hset, hblocks⟩ := Prod.mk.inj heq
  refine ⟨pool, OrphanBlockRun.of_calls _ (fun _ _ _ => trivial) OrphanBlockRun.start hpool, fun hexact => ?_⟩
  have hin : (true, (⟨5, 0⟩, 1)) ∈ pool.blocks.map fun o => (o.block.isProofOfStake, o.stake) := by
    rw [hblocks]
    exact List.mem_cons_self
  obtain ⟨o, ho, hpair⟩ := List.mem_map.mp hin
  obtain ⟨hpos, hstake⟩ := Prod.mk.inj hpair
  have hseen := (hexact _).mpr ⟨o, ho, hpos, hstake⟩
  rw [hset] at hseen
  exact List.not_mem_nil hseen

/-- One orphan block. -/
theorem orphanBlocks_kept_one : ∃ pool, OrphanBlockRun nonceHash (UnsharedStakes nonceHash BitVec.toNat) pool ∧
    pool.blocks ≠ [] ∧ StakesExact pool := by
  have hcalls : ([OrphanBlockCall.processBlock firstKnown (nonceBlock 10 11 onePosPair)].foldlM
      (OrphanBlocks.step nonceHash) OrphanBlocks.empty).map (fun pool => decide (pool.blocks ≠ [])) = some true := by
    decide +kernel
  obtain ⟨pool, hpool, hne⟩ := Option.map_eq_some_iff.mp hcalls
  rw [List.foldlM_cons, Option.bind_eq_bind, Option.bind_eq_some_iff] at hpool
  obtain ⟨pool₁, hstep, hpool⟩ := hpool
  rw [List.foldlM_nil, Option.pure_def, Option.some.injEq] at hpool
  have hallowed : UnsharedStakes nonceHash BitVec.toNat OrphanBlocks.empty
      (.processBlock firstKnown (nonceBlock 10 11 onePosPair)) := by
    refine ⟨fun o ho => absurd ho List.not_mem_nil, fun _ => ⟨by decide +kernel, fun hshares => ?_⟩⟩
    exact absurd hshares.2.1 List.not_mem_nil
  have hrun := OrphanBlockRun.start.call hallowed hstep
  rw [hpool] at hrun
  exact ⟨pool, hrun, of_decide_eq_true hne, (orphanBlocks_kept hrun).2.2.1⟩

end Runs

end AliasWallet
