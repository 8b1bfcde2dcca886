import AliasWallet.Chain.MerkleBlocks

/-!
# The progress of a filtered sync (`SendMessages` and `ProcessMerkleBlock` in `NS_GET_FILTERED_BLOCKS`)

A light client asks for merkle blocks in chunks. What it has still to ask for, the chunks that are not answered and the
last height of the wallet change with different messages.
-/

namespace AliasWallet
open Lib

structure CPendingFilteredChunk where
  startHash : UInt256
  endHash : UInt256
  nTime : Int
  deriving DecidableEq, Repr

/-- A header chain from the first block on. Without `fThinFullIndex` the blocks below `pindexRear` are only on disk; the
checkpoints stand in descending order. -/
structure HeaderChain (H : BlockHash) where
  headers : List CBlock
  nRear : Option Nat
  checkpoints : List (Int × UInt256)
  distinct : (headers.map fun header => header.getHash H).Nodup
  rearBelow : ∀ nHeight ∈ nRear, nHeight < headers.length
  checkpointsKept : ∀ checkpoint ∈ checkpoints, ∀ nHeight : Nat,
    (headers.map fun header => header.getHash H)[nHeight]? = some checkpoint.2 → (nHeight : Int) = checkpoint.1

/-- `received` holds the heights of the merkle blocks whose root was right; it is for the proofs. -/
structure FilteredSync where
  nHeightFilteredNeeded : Int
  vPendingFilteredChunks : List CPendingFilteredChunk
  nLastFilteredHeight : Int
  /-- `nNodeState` is `NS_READY`. -/
  fReady : Bool
  received : List Nat

/-- The messages, with the reads of the database that succeed. -/
inductive SyncEvent
  | sendMessages (nTimeNow : Int) (readBlockThinIndex : UInt256 → Bool)
  | merkleBlock (mb : CMerkleBlock) (readBlockThinIndex : UInt256 → Bool)

/-- The loops over the chain: they end after some blocks, or behind one. -/
def blocksUpTo (stop : UInt256 → Bool) : Nat → List UInt256 → List UInt256
  | 0, _ => []
  | _, [] => []
  | n + 1, hash :: rest => hash :: if stop hash then [] else blocksUpTo stop n rest

namespace HeaderChain

variable {H : BlockHash} (chain : HeaderChain H)

def hashes : List UInt256 := chain.headers.map fun header => header.getHash H

def nBestHeight : Int := chain.headers.length - 1

def inMemory (nHeight : Nat) : Bool := chain.nRear.all (· ≤ nHeight)

/-- The walk back over the headers on disk, from a height to the first one that is not above. -/
def walkBackDisk (readBlockThinIndex : UInt256 → Bool) (nHeight : Int) : Nat → Option Nat
  | 0 => if chain.hashes[0]?.any readBlockThinIndex ∧ 0 ≤ nHeight then some 0 else none
  | d + 1 =>
    if ¬ chain.hashes[d + 1]?.any readBlockThinIndex then none
    else if (d + 1 : Nat) ≤ nHeight then some (d + 1)
    else walkBackDisk readBlockThinIndex nHeight d

/-- The closest checkpoint that is not below, or `pindexRear`. -/
def diskStart (nRear : Nat) (nHeight : Int) : Option Nat :=
  match (chain.checkpoints.takeWhile fun checkpoint => nHeight ≤ checkpoint.1).getLast? with
  | none => some nRear
  | some checkpoint => chain.hashes.idxOf? checkpoint.2

/-- The blocks of the next chunk. -/
def nextBlocks (readBlockThinIndex : UInt256 → Bool) (nHeight : Int) : List UInt256 :=
  match chain.nRear.filter fun nRear : Nat => nHeight < nRear with
  | none => blocksUpTo (fun _ => false) 128 (chain.hashes.drop nHeight.toNat)
  | some nRear =>
    match (chain.diskStart nRear nHeight).bind (chain.walkBackDisk readBlockThinIndex nHeight) with
    | none => []
    | some d => blocksUpTo (fun hash => !readBlockThinIndex hash) 128 (chain.hashes.drop d)

/-- The blocks of a chunk that is asked for again; its first block is looked up in memory. -/
def chunkBlocks (chunk : CPendingFilteredChunk) : List UInt256 :=
  match (chain.hashes.idxOf? chunk.startHash).filter chain.inMemory with
  | none => []
  | some a => blocksUpTo (· == chunk.endHash) 512 (chain.hashes.drop a)

/-- The height of the header of a merkle block; outside of memory it is looked up only where it is old enough. -/
def findThin (mb : CMerkleBlock) (readBlockThinIndex : UInt256 → Bool) : Option Nat :=
  (chain.hashes.idxOf? (mb.header.getHash H)).filter fun nHeight =>
    chain.inMemory nHeight ||
      ((chain.nRear.bind (chain.headers[·]?)).any (mb.header.nTime < ·.nTime) &&
        readBlockThinIndex (mb.header.getHash H))

/-- A block of a chunk. -/
def Within (chunk : CPendingFilteredChunk) (nHeight : Nat) : Prop :=
  ∃ a b, chain.hashes[a]? = some chunk.startHash ∧ chain.hashes[b]? = some chunk.endHash ∧ a ≤ nHeight ∧ nHeight ≤ b

end HeaderChain

namespace FilteredSync

variable {H : BlockHash} (hash : HashFn) (chain : HeaderChain H) (s : FilteredSync)

/-- The first height that can be asked for is 1. -/
def withFirstHeight : FilteredSync :=
  { s with nHeightFilteredNeeded := if s.nHeightFilteredNeeded < 1 then 1 else s.nHeightFilteredNeeded }

def asksNext : Bool :=
  decide (s.nHeightFilteredNeeded ≤ chain.nBestHeight) && decide (s.vPendingFilteredChunks.length < 4)

def isLate (nTimeNow : Int) (chunk : CPendingFilteredChunk) : Bool := decide (60 * 5 < nTimeNow - chunk.nTime)

/-- The chunk that is asked for again, where no next one is. -/
def lateChunk (nTimeNow : Int) : Option CPendingFilteredChunk :=
  if s.asksNext chain then none else s.vPendingFilteredChunks.find? (isLate nTimeNow)

/-- The `getdata` message for some blocks, which are a pending chunk from now on. -/
def ask (nTimeNow : Int) (vGetFilteredBlocks : List UInt256) : FilteredSync :=
  { s with
    nHeightFilteredNeeded := s.nHeightFilteredNeeded + vGetFilteredBlocks.length
    vPendingFilteredChunks := s.vPendingFilteredChunks ++
      match vGetFilteredBlocks.head?, vGetFilteredBlocks.getLast? with
      | some startHash, some endHash => [⟨startHash, endHash, nTimeNow⟩]
      | _, _ => [] }

/-- `SendMessages`, for a full node. -/
def sendMessages (nTimeNow : Int) (readBlockThinIndex : UInt256 → Bool) : FilteredSync :=
  let s := s.withFirstHeight
  if s.asksNext chain then s.ask nTimeNow (chain.nextBlocks readBlockThinIndex s.nHeightFilteredNeeded)
  else match s.lateChunk chain nTimeNow with
    | none => s
    | some chunk =>
      -- the blocks of the chunk are counted as if they were asked for the first time
      ask { s with vPendingFilteredChunks := s.vPendingFilteredChunks.eraseP (isLate nTimeNow) } nTimeNow
        (chain.chunkBlocks chunk)

/-- `ProcessMerkleBlock` for the progress: the end of a chunk raises the last height in front of the root check. -/
def processMerkleBlock (mb : CMerkleBlock) (readBlockThinIndex : UInt256 → Bool) : FilteredSync :=
  match chain.findThin mb readBlockThinIndex with
  | none => s
  | some nHeight =>
    let isEnd := fun chunk : CPendingFilteredChunk => chunk.endHash == mb.header.getHash H
    let s := if s.vPendingFilteredChunks.any isEnd then
        { s with
          nLastFilteredHeight := if s.nLastFilteredHeight < nHeight then nHeight else s.nLastFilteredHeight
          vPendingFilteredChunks := s.vPendingFilteredChunks.eraseP isEnd }
      else s
    let s := { s with
      fReady := s.fReady || (s.vPendingFilteredChunks.isEmpty && decide (chain.nBestHeight ≤ s.nLastFilteredHeight)) }
    if (provenMatches hash mb chain.headers[nHeight]?).isSome then { s with received := nHeight :: s.received } else s

def step : SyncEvent → FilteredSync
  | .sendMessages nTimeNow readBlockThinIndex => s.sendMessages chain nTimeNow readBlockThinIndex
  | .merkleBlock mb readBlockThinIndex => s.processMerkleBlock hash chain mb readBlockThinIndex

/-- A sync that begins: nothing is pending or received. -/
def begin (nHeightFilteredNeeded nLastFilteredHeight : Int) : FilteredSync :=
  ⟨nHeightFilteredNeeded, [], nLastFilteredHeight, false, []⟩

end FilteredSync

/-- Runs in `NS_GET_FILTERED_BLOCKS` whose events meet a condition. -/
inductive FilteredRun {H : BlockHash} (hash : HashFn) (chain : HeaderChain H)
    (allowed : FilteredSync → SyncEvent → Prop) (start : FilteredSync) : FilteredSync → Prop
  | start : FilteredRun hash chain allowed start start
  | event {s : FilteredSync} {e : SyncEvent} (hrun : FilteredRun hash chain allowed start s) (hstate : s.fReady = false)
      (he : allowed s e) : FilteredRun hash chain allowed start (s.step hash chain e)

section NoGap

variable {H : BlockHash} (hash : HashFn) (chain : HeaderChain H)

/-- Every block from the starting height up to the last one was received with the right root. -/
def NoGap (start s : FilteredSync) : Prop :=
  ∀ nHeight : Nat, 1 ≤ nHeight → start.nHeightFilteredNeeded ≤ nHeight → start.nLastFilteredHeight < nHeight →
    nHeight ≤ s.nLastFilteredHeight → nHeight ∈ s.received

/-- The end of a chunk that raises the last height has the right root, and comes behind all blocks of pending chunks
that are below it. A chunk is asked for again while its first block is in memory, and where no block that was never
asked for is stepped over. -/
def ChunksInOrder (s : FilteredSync) : SyncEvent → Prop
  | .sendMessages nTimeNow _ =>
    ∀ chunk, s.withFirstHeight.lateChunk chain nTimeNow = some chunk →
      (∀ nHeight : Nat, s.withFirstHeight.nHeightFilteredNeeded ≤ nHeight →
        nHeight < s.withFirstHeight.nHeightFilteredNeeded + (chain.chunkBlocks chunk).length →
          nHeight < chain.headers.length → nHeight ∈ s.received) ∧
      (chain.chunkBlocks chunk = [] → ∀ nHeight, chain.Within chunk nHeight → nHeight ∈ s.received)
  | .merkleBlock mb readBlockThinIndex =>
    ∀ nHeight : Nat, chain.findThin mb readBlockThinIndex = some nHeight → s.nLastFilteredHeight < nHeight →
      (∃ chunk ∈ s.vPendingFilteredChunks, chunk.endHash = mb.header.getHash H) →
        (provenMatches hash mb chain.headers[nHeight]?).isSome ∧
        ∀ chunk ∈ s.vPendingFilteredChunks, ∀ nBelow < nHeight, chain.Within chunk nBelow → nBelow ∈ s.received

variable {hash chain}

theorem blocksUpTo_prefix (stop : UInt256 → Bool) (n : Nat) (l : List UInt256) :
    blocksUpTo stop n l <+: l ∧ (blocksUpTo stop n l).length ≤ n := by
  induction n generalizing l with
  | zero => exact ⟨List.nil_prefix, Nat.zero_le _⟩
  | succ n ih =>
    cases l with
    | nil => exact ⟨List.nil_prefix, Nat.zero_le _⟩
    | cons h rest =>
      rw [blocksUpTo]
      split
      · exact ⟨(List.prefix_cons_inj h).mpr List.nil_prefix, by simp⟩
      · exact ⟨(List.prefix_cons_inj h).mpr (ih rest).1, Nat.succ_le_succ (ih rest).2⟩

/-- The loop that ends behind a block takes everything up to its first occurrence. -/
theorem blocksUpTo_eq_take {n k : Nat} {l : List UInt256} {endHash : UInt256} (hk : l[k]? = some endHash) (hlt : k < n)
    (hfirst : ∀ j < k, l[j]? ≠ some endHash) : blocksUpTo (· == endHash) n l = l.take (k + 1) := by
  induction k generalizing n l with
  | zero =>
    obtain ⟨n, rfl⟩ := Nat.exists_eq_succ_of_ne_zero (by omega : n ≠ 0)
    cases l with
    | nil => cases hk
    | cons h rest =>
      have hh : h = endHash := by simpa using hk
      simp [blocksUpTo, hh]
  | succ k ih =>
    obtain ⟨n, rfl⟩ := Nat.exists_eq_succ_of_ne_zero (by omega : n ≠ 0)
    cases l with
    | nil => cases hk
    | cons h rest =>
      have hne : (h == endHash) = false := by
        have hhead := hfirst 0 (Nat.succ_pos k)
        simpa using hhead
      rw [blocksUpTo, hne, List.take_succ_cons]
      rw [ih (by simpa using hk) (by omega) fun j hj => by simpa using hfirst (j + 1) (by omega)]
      rfl

namespace HeaderChain

theorem height_unique (chain : HeaderChain H) {a b : Nat} {h : UInt256} (ha : chain.hashes[a]? = some h)
    (hb : chain.hashes[b]? = some h) : a = b := by
  have hlt : a < chain.hashes.length := (List.getElem?_eq_some_iff.mp ha).1
  exact (List.getElem?_inj hlt chain.distinct).mp (ha.trans hb.symm)

theorem idxOf_some {chain : HeaderChain H} {a : Nat} {h : UInt256} (ha : chain.hashes.idxOf? h = some a) :
    chain.hashes[a]? = some h := by
  obtain ⟨hlt, heq, -⟩ := List.idxOf?_eq_some_iff.mp ha
  exact List.getElem?_eq_some_iff.mpr ⟨hlt, heq⟩

theorem idxOf_eq {chain : HeaderChain H} {a : Nat} {h : UInt256} (ha : chain.hashes[a]? = some h) :
    chain.hashes.idxOf? h = some a := by
  obtain ⟨hlt, heq⟩ := List.getElem?_eq_some_iff.mp ha
  refine List.idxOf?_eq_some_iff.mpr ⟨hlt, heq, ?_⟩
  intro j hj hsame
  have hja := chain.height_unique (List.getElem?_eq_some_iff.mpr ⟨Nat.lt_trans hj hlt, hsame⟩) ha
  omega

theorem findThin_some {mb : CMerkleBlock} {readBlockThinIndex : UInt256 → Bool} {nHeight : Nat}
    (h : chain.findThin mb readBlockThinIndex = some nHeight) :
    chain.hashes[nHeight]? = some (mb.header.getHash H) :=
  idxOf_some (Option.filter_eq_some_iff.mp h).1

theorem length_hashes (chain : HeaderChain H) : chain.hashes.length = chain.headers.length := List.length_map _

/-- The walk back ends at the height, or below where it begins below. -/
theorem walkBackDisk_eq {readBlockThinIndex : UInt256 → Bool} {nHeight : Int} {d d' : Nat} (hd : nHeight ≤ d)
    (h : chain.walkBackDisk readBlockThinIndex nHeight d = some d') : (d' : Int) = nHeight := by
  induction d with
  | zero =>
    rw [walkBackDisk] at h
    split at h
    case isTrue hok =>
      obtain rfl := Option.some.inj h
      have := hok.2
      omega
    case isFalse => cases h
  | succ d ih =>
    rw [walkBackDisk] at h
    split at h
    · cases h
    split at h
    case isTrue hle =>
      obtain rfl := Option.some.inj h
      omega
    case isFalse hgt => exact ih (by omega) h

theorem diskStart_ge {nRear : Nat} {nHeight : Int} {d : Nat} (hrear : nHeight ≤ nRear)
    (h : chain.diskStart nRear nHeight = some d) : nHeight ≤ d := by
  rw [diskStart] at h
  split at h
  case h_1 => exact Option.some.inj h ▸ hrear
  case h_2 checkpoint hlast =>
    have hmem := List.mem_of_getLast? hlast
    have habove : nHeight ≤ checkpoint.1 := by
      simpa using List.all_eq_true.mp List.all_takeWhile checkpoint hmem
    have hheight := chain.checkpointsKept checkpoint (List.takeWhile_subset _ hmem) d (idxOf_some h)
    omega

/-- The next chunk holds the blocks from the height on. -/
theorem nextBlocks_prefix (chain : HeaderChain H) (readBlockThinIndex : UInt256 → Bool) (nHeight : Int)
    (hpos : 0 ≤ nHeight) :
    chain.nextBlocks readBlockThinIndex nHeight <+: chain.hashes.drop nHeight.toNat ∧
      (chain.nextBlocks readBlockThinIndex nHeight).length ≤ 128 := by
  rw [nextBlocks]
  split
  · exact blocksUpTo_prefix _ _ _
  case h_2 nRear hrear =>
    have hbelow : nHeight < nRear := by simpa using (Option.filter_eq_some_iff.mp hrear).2
    split
    · exact ⟨List.nil_prefix, Nat.zero_le _⟩
    case h_2 d hd =>
      obtain ⟨dStart, hstart, hwalk⟩ := Option.bind_eq_some_iff.mp hd
      have heq := walkBackDisk_eq (diskStart_ge (Int.le_of_lt hbelow) hstart) hwalk
      have hnat : nHeight.toNat = d := by omega
      rw [hnat]
      exact blocksUpTo_prefix _ _ _

/-- A pending chunk has its first and its last block on the chain, below the next height. -/
structure ChunkOn (chain : HeaderChain H) (chunk : CPendingFilteredChunk) (nHeightFilteredNeeded : Int) (a b : Nat) :
    Prop where
  start : chain.hashes[a]? = some chunk.startHash
  stop : chain.hashes[b]? = some chunk.endHash
  le : a ≤ b
  short : b < a + 128
  below : (b : Int) < nHeightFilteredNeeded

theorem ChunkOn.mono {chunk : CPendingFilteredChunk} {n n' : Int} {a b : Nat} (h : chain.ChunkOn chunk n a b)
    (hle : n ≤ n') : chain.ChunkOn chunk n' a b :=
  ⟨h.start, h.stop, h.le, h.short, Int.lt_of_lt_of_le h.below hle⟩

/-- Blocks that stand one behind the other on the chain make a chunk. -/
theorem chunkOn_asked {startHash : UInt256} {rest : List UInt256} {a : Nat} {nHeightFilteredNeeded : Int}
    (hblocks : startHash :: rest <+: chain.hashes.drop a) (hshort : (startHash :: rest).length ≤ 128)
    (ha : (a : Int) ≤ nHeightFilteredNeeded) (nTimeNow : Int) :
    chain.ChunkOn ⟨startHash, (startHash :: rest).getLast (List.cons_ne_nil _ _), nTimeNow⟩
      (nHeightFilteredNeeded + (startHash :: rest).length) a (a + rest.length) := by
  have hat : ∀ i < (startHash :: rest).length, chain.hashes[a + i]? = (startHash :: rest)[i]? := by
    intro i hi
    obtain ⟨later, hlater⟩ := hblocks
    rw [← List.getElem?_drop, ← hlater, List.getElem?_append_left hi]
  rw [List.length_cons] at hshort ⊢
  refine ⟨hat 0 (Nat.succ_pos _), ?_, Nat.le_add_right _ _, by omega, by omega⟩
  rw [hat rest.length (Nat.lt_succ_self _)]
  exact (List.getLast?_eq_getElem?).symm.trans (List.getLast?_eq_some_getLast _)

/-- A chunk that is asked for again has the blocks that it had, unless its first one is not in memory. -/
theorem chunkBlocks_eq {chunk : CPendingFilteredChunk} {nHeightFilteredNeeded : Int} {a b : Nat}
    (h : chain.ChunkOn chunk nHeightFilteredNeeded a b) :
    chain.chunkBlocks chunk = if chain.inMemory a then (chain.hashes.drop a).take (b - a + 1) else [] := by
  rw [chunkBlocks, idxOf_eq h.start]
  by_cases hmem : chain.inMemory a
  · have hle := h.le
    have hshort := h.short
    rw [Option.filter_some, if_pos hmem, if_pos hmem]
    apply blocksUpTo_eq_take
    · rw [List.getElem?_drop, Nat.add_sub_cancel' hle]
      exact h.stop
    · omega
    · intro j hj hsame
      rw [List.getElem?_drop] at hsame
      have := chain.height_unique hsame h.stop
      omega
  · rw [Option.filter_some, if_neg hmem, if_neg hmem]

end HeaderChain

/-- What was asked for is received or in a pending chunk, which stands on the chain. -/
structure FilteredInv (chain : HeaderChain H) (start s : FilteredSync) : Prop where
  covered : ∀ nHeight : Nat, nHeight < chain.headers.length → 1 ≤ nHeight → start.nHeightFilteredNeeded ≤ nHeight →
    start.nLastFilteredHeight < nHeight → nHeight < s.nHeightFilteredNeeded →
      nHeight ∈ s.received ∨ ∃ chunk ∈ s.vPendingFilteredChunks, chain.Within chunk nHeight
  chunks : ∀ chunk ∈ s.vPendingFilteredChunks, ∃ a b, chain.ChunkOn chunk s.nHeightFilteredNeeded a b
  noGap : NoGap start s

variable {start s : FilteredSync}

theorem FilteredInv.begin (nHeightFilteredNeeded nLastFilteredHeight : Int) :
    FilteredInv chain (FilteredSync.begin nHeightFilteredNeeded nLastFilteredHeight)
      (FilteredSync.begin nHeightFilteredNeeded nLastFilteredHeight) where
  covered := fun _ _ _ hneeded _ hlt => absurd hlt (Int.not_lt.mpr hneeded)
  chunks := fun _ hchunk => absurd hchunk List.not_mem_nil
  noGap := fun _ _ _ hlast hle => absurd hle (Int.not_le.mpr hlast)

theorem FilteredInv.withFirstHeight (h : FilteredInv chain start s) : FilteredInv chain start s.withFirstHeight := by
  have hle : s.nHeightFilteredNeeded ≤ s.withFirstHeight.nHeightFilteredNeeded := by
    rw [FilteredSync.withFirstHeight]
    dsimp only
    split <;> omega
  constructor
  · intro nHeight hlen hpos hneeded hlast hlt
    refine h.covered nHeight hlen hpos hneeded hlast ?_
    rw [FilteredSync.withFirstHeight] at hlt
    dsimp only at hlt
    split at hlt <;> omega
  · intro chunk hchunk
    obtain ⟨a, b, hon⟩ := h.chunks chunk hchunk
    exact ⟨a, b, HeaderChain.ChunkOn.mono hon hle⟩
  · exact h.noGap

/-- Blocks of the chain that are asked for are in the new chunk. -/
theorem FilteredInv.ask {nTimeNow : Int} {vGetFilteredBlocks : List UInt256} {a : Nat}
    (hblocks : vGetFilteredBlocks <+: chain.hashes.drop a) (hshort : vGetFilteredBlocks.length ≤ 128)
    (ha : (a : Int) ≤ s.nHeightFilteredNeeded)
    (hchunks : ∀ chunk ∈ s.vPendingFilteredChunks, ∃ a b, chain.ChunkOn chunk s.nHeightFilteredNeeded a b)
    (hcovered : ∀ nHeight : Nat, nHeight < chain.headers.length → 1 ≤ nHeight → start.nHeightFilteredNeeded ≤ nHeight →
      start.nLastFilteredHeight < nHeight → nHeight < s.nHeightFilteredNeeded + vGetFilteredBlocks.length →
        nHeight ∈ s.received ∨ (∃ chunk ∈ s.vPendingFilteredChunks, chain.Within chunk nHeight) ∨
          (a ≤ nHeight ∧ nHeight < a + vGetFilteredBlocks.length))
    (hgap : NoGap start s) : FilteredInv chain start (s.ask nTimeNow vGetFilteredBlocks) := by
  have hkept : ∀ chunk ∈ s.vPendingFilteredChunks, ∃ a b,
      chain.ChunkOn chunk (s.nHeightFilteredNeeded + vGetFilteredBlocks.length) a b := by
    intro chunk hchunk
    obtain ⟨a, b, hon⟩ := hchunks chunk hchunk
    exact ⟨a, b, HeaderChain.ChunkOn.mono hon (by omega)⟩
  cases vGetFilteredBlocks with
  | nil =>
    constructor
    · intro nHeight hlen hpos hneeded hlast hlt
      rcases hcovered nHeight hlen hpos hneeded hlast hlt with hreceived | ⟨chunk, hchunk, hwithin⟩ | hnew
      · exact Or.inl hreceived
      · exact Or.inr ⟨chunk, List.mem_append_left _ hchunk, hwithin⟩
      · simp at hnew
        omega
    · intro chunk hchunk
      exact hkept chunk (by simpa [FilteredSync.ask] using hchunk)
    · exact hgap
  | cons startHash rest =>
    have hlast : ((startHash :: rest).getLast?) = some ((startHash :: rest).getLast (List.cons_ne_nil _ _)) :=
      List.getLast?_eq_some_getLast _
    have hon := HeaderChain.chunkOn_asked hblocks hshort ha nTimeNow
    have hpending : (s.ask nTimeNow (startHash :: rest)).vPendingFilteredChunks = s.vPendingFilteredChunks ++
        [⟨startHash, (startHash :: rest).getLast (List.cons_ne_nil _ _), nTimeNow⟩] := by
      rw [FilteredSync.ask]
      simp only [List.head?_cons, hlast]
    constructor
    · intro nHeight hlen hpos hneeded hbegin hlt
      rw [hpending]
      rcases hcovered nHeight hlen hpos hneeded hbegin hlt with hreceived | ⟨chunk, hchunk, hwithin⟩ | ⟨hfrom, hto⟩
      · exact Or.inl hreceived
      · exact Or.inr ⟨chunk, List.mem_append_left _ hchunk, hwithin⟩
      · rw [List.length_cons] at hto
        exact Or.inr ⟨_, List.mem_append_right _ (List.mem_singleton_self _), a, a + rest.length, hon.start, hon.stop,
          hfrom, by omega⟩
    · intro chunk hchunk
      rw [hpending] at hchunk
      rcases List.mem_append.mp hchunk with hold | hnew
      · exact hkept chunk hold
      · exact ⟨a, a + rest.length, List.mem_singleton.mp hnew ▸ hon⟩
    · exact hgap

theorem mem_of_find_eraseP {α : Type} {p : α → Bool} {l : List α} {c x : α} (h : l.find? p = some c) (hx : x ∈ l) :
    x = c ∨ x ∈ l.eraseP p := by
  obtain ⟨hc, pre, post, rfl, hpre⟩ := List.find?_eq_some_iff_append.mp h
  have herase : (pre ++ c :: post).eraseP p = pre ++ post := by
    rw [List.eraseP_append_right _ (fun b hb => by simpa using hpre b hb), List.eraseP_cons_of_pos hc]
  rw [herase]
  rcases List.mem_append.mp hx with hbefore | hafter
  · exact Or.inr (List.mem_append_left _ hbefore)
  · rcases List.mem_cons.mp hafter with heq | hpost
    · exact Or.inl heq
    · exact Or.inr (List.mem_append_right _ hpost)

theorem ChunkOn.within_iff {chunk : CPendingFilteredChunk} {nHeightFilteredNeeded : Int} {a b nHeight : Nat}
    (h : chain.ChunkOn chunk nHeightFilteredNeeded a b) : chain.Within chunk nHeight ↔ a ≤ nHeight ∧ nHeight ≤ b := by
  constructor
  · intro hwithin
    obtain ⟨a', b', ha', hb', hfrom, hto⟩ := hwithin
    rw [chain.height_unique h.start ha', chain.height_unique h.stop hb']
    exact ⟨hfrom, hto⟩
  · intro hbetween
    exact ⟨a, b, h.start, h.stop, hbetween.1, hbetween.2⟩

/-- A chunk that is late is asked for again as a whole. -/
theorem FilteredInv.askAgain (h : FilteredInv chain start s) (hpos : 1 ≤ s.nHeightFilteredNeeded) {nTimeNow : Int}
    {chunk : CPendingFilteredChunk}
    (hlate : s.vPendingFilteredChunks.find? (FilteredSync.isLate nTimeNow) = some chunk)
    (hstepped : ∀ nHeight : Nat, s.nHeightFilteredNeeded ≤ nHeight →
      nHeight < s.nHeightFilteredNeeded + (chain.chunkBlocks chunk).length →
        nHeight < chain.headers.length → nHeight ∈ s.received)
    (hdropped : chain.chunkBlocks chunk = [] → ∀ nHeight, chain.Within chunk nHeight → nHeight ∈ s.received) :
    FilteredInv chain start (FilteredSync.ask
      { s with vPendingFilteredChunks := s.vPendingFilteredChunks.eraseP (FilteredSync.isLate nTimeNow) } nTimeNow
      (chain.chunkBlocks chunk)) := by
  obtain ⟨a, b, hon⟩ := h.chunks chunk (List.mem_of_find?_eq_some hlate)
  have hblocks := HeaderChain.chunkBlocks_eq hon
  have hle := hon.le
  have hshort := hon.short
  have hbelow := hon.below
  have hkept : ∀ chunk' ∈ s.vPendingFilteredChunks.eraseP (FilteredSync.isLate nTimeNow),
      ∃ a b, chain.ChunkOn chunk' s.nHeightFilteredNeeded a b :=
    fun chunk' hchunk' => h.chunks chunk' (List.eraseP_subset hchunk')
  have hold : ∀ nHeight : Nat, nHeight < chain.headers.length → 1 ≤ nHeight → start.nHeightFilteredNeeded ≤ nHeight →
      start.nLastFilteredHeight < nHeight → nHeight < s.nHeightFilteredNeeded + (chain.chunkBlocks chunk).length →
        nHeight ∈ s.received ∨ (∃ chunk' ∈ s.vPendingFilteredChunks.eraseP (FilteredSync.isLate nTimeNow),
          chain.Within chunk' nHeight) ∨ chain.Within chunk nHeight := by
    intro nHeight hlen hpos hneeded hbegin hlt
    by_cases hasked : (nHeight : Int) < s.nHeightFilteredNeeded
    · rcases h.covered nHeight hlen hpos hneeded hbegin hasked with hreceived | ⟨chunk', hchunk', hwithin⟩
      · exact Or.inl hreceived
      · rcases mem_of_find_eraseP hlate hchunk' with rfl | hother
        · exact Or.inr (Or.inr hwithin)
        · exact Or.inr (Or.inl ⟨chunk', hother, hwithin⟩)
    · exact Or.inl (hstepped nHeight (Int.not_lt.mp hasked) hlt hlen)
  by_cases hmem : chain.inMemory a
  · rw [if_pos hmem] at hblocks
    have hb : b < chain.hashes.length := (List.getElem?_eq_some_iff.mp hon.stop).1
    have hlength : (chain.chunkBlocks chunk).length = b - a + 1 := by
      rw [hblocks, List.length_take, List.length_drop]
      omega
    have ha : (a : Int) ≤ s.nHeightFilteredNeeded := by omega
    refine FilteredInv.ask (a := a) (hblocks ▸ List.take_prefix _ _) (by omega) ha hkept ?_ h.noGap
    intro nHeight hlen hpos hneeded hbegin hlt
    refine (hold nHeight hlen hpos hneeded hbegin hlt).imp_right (Or.imp_right ?_)
    intro hwithin
    have hbetween := (ChunkOn.within_iff hon).mp hwithin
    omega
  · rw [if_neg hmem] at hblocks
    have hzero : ((0 : Nat) : Int) ≤ s.nHeightFilteredNeeded := by omega
    refine FilteredInv.ask (a := 0) (hblocks ▸ List.nil_prefix) (by simp [hblocks]) hzero hkept ?_ h.noGap
    intro nHeight hlen hpos hneeded hbegin hlt
    rcases hold nHeight hlen hpos hneeded hbegin hlt with hreceived | hother | hwithin
    · exact Or.inl hreceived
    · exact Or.inr (Or.inl hother)
    · exact Or.inl (hdropped hblocks nHeight hwithin)

theorem FilteredInv.sendMessages (h : FilteredInv chain start s) (nTimeNow : Int)
    (readBlockThinIndex : UInt256 → Bool)
    (hkept : ChunksInOrder hash chain s (.sendMessages nTimeNow readBlockThinIndex)) :
    FilteredInv chain start (s.sendMessages chain nTimeNow readBlockThinIndex) := by
  have hfirst := h.withFirstHeight
  have hpos : 1 ≤ s.withFirstHeight.nHeightFilteredNeeded := by
    rw [FilteredSync.withFirstHeight]
    dsimp only
    split <;> omega
  rw [FilteredSync.sendMessages]
  split
  · obtain ⟨hblocks, hshort⟩ := chain.nextBlocks_prefix readBlockThinIndex _
      (Int.le_of_lt (Int.lt_of_lt_of_le Int.zero_lt_one hpos))
    refine FilteredInv.ask hblocks hshort (by omega) hfirst.chunks ?_ hfirst.noGap
    intro nHeight hlen hpos hneeded hbegin hlt
    by_cases hasked : (nHeight : Int) < s.withFirstHeight.nHeightFilteredNeeded
    · exact (hfirst.covered nHeight hlen hpos hneeded hbegin hasked).imp_right Or.inl
    · exact Or.inr (Or.inr (by omega))
  case isFalse hnext =>
    split
    · exact hfirst
    case h_2 chunk hlate =>
      obtain ⟨hstepped, hdropped⟩ := hkept chunk hlate
      rw [FilteredSync.lateChunk, if_neg hnext] at hlate
      exact hfirst.askAgain hpos hlate hstepped hdropped

/-- A merkle block that ends a chunk, or none, where the blocks up to its height are received if it raises the last
height. -/
theorem FilteredInv.endChunk (h : FilteredInv chain start s) {s' : FilteredSync} {nHeight : Nat} {hashBlock : UInt256}
    (hat : chain.hashes[nHeight]? = some hashBlock)
    (hend : ∃ chunk ∈ s.vPendingFilteredChunks, chunk.endHash = hashBlock)
    (hraise : s.nLastFilteredHeight < nHeight → nHeight ∈ s'.received ∧
      ∀ chunk ∈ s.vPendingFilteredChunks, ∀ nBelow < nHeight, chain.Within chunk nBelow → nBelow ∈ s.received)
    (hneeded : s'.nHeightFilteredNeeded = s.nHeightFilteredNeeded)
    (hpending : s'.vPendingFilteredChunks = s.vPendingFilteredChunks.eraseP (·.endHash == hashBlock))
    (hlast : s'.nLastFilteredHeight =
      if s.nLastFilteredHeight < nHeight then (nHeight : Int) else s.nLastFilteredHeight)
    (hreceived : s.received ⊆ s'.received) : FilteredInv chain start s' := by
  have hlen : nHeight < chain.headers.length := by
    rw [← chain.length_hashes]
    exact (List.getElem?_eq_some_iff.mp hat).1
  have hbelowNeeded : (nHeight : Int) < s.nHeightFilteredNeeded := by
    obtain ⟨chunk, hchunk, heq⟩ := hend
    obtain ⟨a, b, hon⟩ := h.chunks chunk hchunk
    rw [chain.height_unique hat (heq ▸ hon.stop)]
    exact hon.below
  -- a block of a pending chunk that is not above
  have hwithin : ∀ n ≤ nHeight, 1 ≤ n → start.nHeightFilteredNeeded ≤ n → start.nLastFilteredHeight < n →
      n ∈ s'.received := by
    intro n hle hpos hfrom hbegin
    by_cases hraised : s.nLastFilteredHeight < nHeight
    · rcases Nat.lt_or_eq_of_le hle with hlt | rfl
      · rcases h.covered n (by omega) hpos hfrom hbegin (by omega) with hold | ⟨chunk, hchunk, hin⟩
        · exact hreceived hold
        · exact hreceived ((hraise hraised).2 chunk hchunk n hlt hin)
      · exact (hraise hraised).1
    · exact hreceived (h.noGap n hpos hfrom hbegin (by omega))
  constructor
  · intro n hn hpos hfrom hbegin hasked
    rcases h.covered n hn hpos hfrom hbegin (hneeded ▸ hasked) with hold | ⟨chunk, hchunk, hin⟩
    · exact Or.inl (hreceived hold)
    · by_cases hends : chunk.endHash = hashBlock
      · obtain ⟨a, b, -, hstop, -, hto⟩ := hin
        have hheight := chain.height_unique (hends ▸ hstop) hat
        rw [hheight] at hto
        exact Or.inl (hwithin n hto hpos hfrom hbegin)
      · refine Or.inr ⟨chunk, ?_, hin⟩
        rw [hpending, List.mem_eraseP_of_neg (by simpa using hends)]
        exact hchunk
  · intro chunk hchunk
    rw [hpending] at hchunk
    rw [hneeded]
    exact h.chunks chunk (List.eraseP_subset hchunk)
  · intro n hpos hfrom hbegin hle
    rw [hlast] at hle
    split at hle
    · exact hwithin n (by omega) hpos hfrom hbegin
    · exact hreceived (h.noGap n hpos hfrom hbegin hle)

theorem FilteredInv.received (h : FilteredInv chain start s) {s' : FilteredSync}
    (hneeded : s'.nHeightFilteredNeeded = s.nHeightFilteredNeeded)
    (hpending : s'.vPendingFilteredChunks = s.vPendingFilteredChunks)
    (hlast : s'.nLastFilteredHeight = s.nLastFilteredHeight) (hreceived : s.received ⊆ s'.received) :
    FilteredInv chain start s' where
  covered := by
    rw [hneeded, hpending]
    intro n hn hpos hfrom hbegin hasked
    exact (h.covered n hn hpos hfrom hbegin hasked).imp_left (hreceived ·)
  chunks := by
    rw [hneeded, hpending]
    exact h.chunks
  noGap := by
    intro n hpos hfrom hbegin hle
    exact hreceived (h.noGap n hpos hfrom hbegin (hlast ▸ hle))

theorem FilteredInv.processMerkleBlock (h : FilteredInv chain start s) (mb : CMerkleBlock)
    (readBlockThinIndex : UInt256 → Bool) (hkept : ChunksInOrder hash chain s (.merkleBlock mb readBlockThinIndex)) :
    FilteredInv chain start (s.processMerkleBlock hash chain mb readBlockThinIndex) := by
  rw [FilteredSync.processMerkleBlock]
  split
  · exact h
  case h_2 nHeight hfound =>
    have hat := HeaderChain.findThin_some hfound
    have hraise := hkept nHeight hfound
    dsimp only
    by_cases hany : s.vPendingFilteredChunks.any (·.endHash == mb.header.getHash H)
    · have hend : ∃ chunk ∈ s.vPendingFilteredChunks, chunk.endHash = mb.header.getHash H := by simpa using hany
      rw [if_pos hany]
      by_cases hroot : (provenMatches hash mb chain.headers[nHeight]?).isSome
      · rw [if_pos hroot]
        exact h.endChunk hat hend (fun hraised => ⟨List.mem_cons_self, (hraise hraised hend).2⟩) rfl rfl rfl
          fun n hn => List.mem_cons_of_mem _ hn
      · rw [if_neg hroot]
        exact h.endChunk hat hend (fun hraised => absurd (hraise hraised hend).1 hroot) rfl rfl rfl fun n hn => hn
    · rw [if_neg hany]
      split
      · exact h.received rfl rfl rfl fun n hn => List.mem_cons_of_mem _ hn
      · exact h.received rfl rfl rfl fun n hn => hn

/-- A sync whose chunks end in order leaves no gap. -/
theorem filteredSync_no_gap {H : BlockHash} (hash : HashFn) (chain : HeaderChain H)
    (nHeightFilteredNeeded nLastFilteredHeight : Int) (s : FilteredSync)
    (hrun : FilteredRun hash chain (ChunksInOrder hash chain)
      (FilteredSync.begin nHeightFilteredNeeded nLastFilteredHeight) s) :
    NoGap (FilteredSync.begin nHeightFilteredNeeded nLastFilteredHeight) s := by
  have hinv : FilteredInv chain (FilteredSync.begin nHeightFilteredNeeded nLastFilteredHeight) s := by
    induction hrun with
    | start => exact FilteredInv.begin _ _
    | event hrun hstate hkept ih =>
      rename_i s e
      cases e with
      | sendMessages nTimeNow readBlockThinIndex => exact ih.sendMessages nTimeNow readBlockThinIndex hkept
      | merkleBlock mb readBlockThinIndex => exact ih.processMerkleBlock mb readBlockThinIndex hkept
  exact hinv.noGap

end NoGap

section Example

/-- Two blocks on top of the first one. -/
def twoBlocks : HeaderChain ⟨sumHash, sumHash⟩ where
  headers := [matchHeader 1, matchHeader 2, matchHeader 3]
  nRear := none
  checkpoints := []
  distinct := by decide +kernel
  rearBelow := fun _ h => nomatch h
  checkpointsKept := fun _ h => nomatch h

/-- The merkle block of the header with a root, which has one transaction. -/
def rootBlock (hashMerkleRoot : UInt256) : SyncEvent :=
  .merkleBlock ⟨matchHeader hashMerkleRoot, ⟨1, [true], [hashMerkleRoot], false⟩⟩ fun _ => true

/-- Both blocks are asked for, and the second one arrives first. -/
theorem second_block_first : ∃ s, FilteredRun sumHash twoBlocks (fun _ _ => True) (FilteredSync.begin 1 0) s ∧
    ¬ NoGap (FilteredSync.begin 1 0) s := by
  refine ⟨_, .event (e := rootBlock 3) (.event (e := .sendMessages 0 fun _ => true) .start rfl trivial)
    (by decide +kernel) trivial, ?_⟩
  intro h
  exact absurd (h 1 (by decide) (by decide) (by decide) (by decide +kernel)) (by decide +kernel)

/-- Both blocks arrive in order. -/
theorem filteredSync_no_gap_two :
    ∃ s, s.nLastFilteredHeight = 2 ∧ FilteredRun sumHash twoBlocks (ChunksInOrder sumHash twoBlocks)
      (FilteredSync.begin 1 0) s ∧ NoGap (FilteredSync.begin 1 0) s := by
  have hasked : FilteredRun sumHash twoBlocks (ChunksInOrder sumHash twoBlocks) (FilteredSync.begin 1 0)
      ((FilteredSync.begin 1 0).step sumHash twoBlocks (.sendMessages 0 fun _ => true)) := by
    refine .event .start rfl ?_
    intro chunk hlate
    have hnone : (FilteredSync.begin 1 0).withFirstHeight.lateChunk twoBlocks 0 = none := by decide +kernel
    rw [hnone] at hlate
    cases hlate
  have hfirst := hasked.event (e := rootBlock 2) (by decide +kernel) (by
    intro nHeight hfound hlast hend
    exact absurd hend (by decide +kernel))
  have hsecond := hfirst.event (e := rootBlock 3) (by decide +kernel) (by
    intro nHeight hfound hlast hend
    have hheight : nHeight = 2 := by
      have heval : twoBlocks.findThin ⟨matchHeader 3, ⟨1, [true], [3], false⟩⟩ (fun _ => true) = some 2 := by
        decide +kernel
      exact Option.some.inj (hfound.symm.trans heval)
    subst hheight
    refine ⟨by decide +kernel, ?_⟩
    intro chunk hchunk nBelow hbelow hwithin
    obtain ⟨a, b, hstart, -, hfrom, -⟩ := hwithin
    have hpending : chunk =
        ⟨(matchHeader 2).getHash ⟨sumHash, sumHash⟩, (matchHeader 3).getHash ⟨sumHash, sumHash⟩, 0⟩ :=
      List.mem_singleton.mp hchunk
    have ha : a = 1 := twoBlocks.height_unique hstart (by rw [hpending]; decide +kernel)
    obtain rfl : nBelow = 1 := by omega
    decide +kernel)
  exact ⟨_, by decide +kernel, hsecond, filteredSync_no_gap sumHash twoBlocks 1 0 _ hsecond⟩

end Example

end AliasWallet
