import AliasWallet.Chain.IndexRuns
import AliasWallet.Chain.Supply
import AliasWallet.Chain.UndoBlock

/-!
# The marks of the active chain

In every run whose postponed blocks pass, each entry of the transaction index describes a transaction of
the active chain, and each spend of it in its block or later has left its mark. A transaction may come
back under a hash that is completely spent; the marks then belong to the later one.
-/

namespace AliasWallet
open Lib

section Entries

variable {Pt L : Type} (env : NodeEnv Pt L) (pindex : CBlockIndex)

/-- The entries of the first transactions of a block. -/
structure BlockEntries (pre : List CTransaction) (m : UInt256 → Option CTxIndex) : Prop where
  own : ∀ tx ∈ pre, ∃ pos, shape m (env.txid tx) = some (pos, tx.vout.length) ∧ AtBlock pindex pos ∧
    env.readTx pos = some tx
  marked : ∀ tx ∈ pre, ∀ tx' ∈ pre, ∀ n, tx'.Spends (env.txid tx) n →
    ∃ nTxPos, slot m (env.txid tx) n = some (posThisTx pindex nTxPos)

theorem BlockEntries.nil (m : UInt256 → Option CTxIndex) : BlockEntries env pindex [] m :=
  ⟨fun _ h => absurd h List.not_mem_nil, fun _ h => absurd h List.not_mem_nil⟩

/-- One more transaction, which neither it nor one before it spends. -/
theorem BlockEntries.snoc {pre : List CTransaction} {m m₁ : UInt256 → Option CTxIndex}
    (hpre : BlockEntries env pindex pre m) (tx : CTransaction) (nTxPos : UInt32)
    (hnew : env.txid tx ∉ pre.map env.txid) (hread : env.readTx (posThisTx pindex nTxPos) = some tx)
    (hapart : ∀ tx' ∈ pre ++ [tx], ∀ n, ¬ tx'.Spends (env.txid tx) n)
    (hmarked : Marked tx.Spends (posThisTx pindex nTxPos) m m₁) :
    BlockEntries env pindex (pre ++ [tx]) (Function.update m₁ (env.txid tx)
      (some (CTxIndex.new (posThisTx pindex nTxPos) tx.vout.length))) := by
  have hne : ∀ tx' ∈ pre, env.txid tx' ≠ env.txid tx := by
    intro tx' hmem heq
    exact hnew (heq ▸ List.mem_map_of_mem hmem)
  constructor
  · intro tx' htx'
    cases List.mem_append.mp htx' with
    | inl hmem =>
      rw [shape_update _ _ _ _ (hne tx' hmem), hmarked.shape_eq]
      exact hpre.own tx' hmem
    | inr hmem =>
      rw [List.mem_singleton.mp hmem]
      refine ⟨posThisTx pindex nTxPos, ?_, ⟨nTxPos, rfl⟩, hread⟩
      simp [shape, CTxIndex.new]
  · intro tx' htx' tx'' htx'' n hspends
    cases List.mem_append.mp htx' with
    | inr hmem =>
      rw [List.mem_singleton.mp hmem] at hspends
      exact absurd hspends (hapart tx'' htx'' n)
    | inl hmem =>
      rw [slot_update _ _ _ _ _ (hne tx' hmem)]
      by_cases hthis : tx.Spends (env.txid tx') n
      · exact ⟨nTxPos, hmarked.marked _ n hthis⟩
      · rw [hmarked.others _ n hthis]
        cases List.mem_append.mp htx'' with
        | inl hmem' => exact hpre.marked tx' hmem tx'' hmem' n hspends
        | inr hmem' =>
          rw [List.mem_singleton.mp hmem'] at hspends
          exact absurd hspends hthis

/-- The loop of `ConnectBlock`: what it does to other entries, and its own. -/
theorem connectTxs_entries (c : ChainState) (pool : CTxMemPool) (s : Session L) (l pre : List CTransaction)
    (t t' : BlockTotals) (hnodup : ((pre ++ l).map env.txid).Nodup)
    (hread : TxsOnDisk env pindex t.nTxPos l)
    (hpre : BlockMarked env pindex pre s.readTxIndex (proposed s t.mapQueuedChanges))
    (hown : BlockEntries env pindex pre (proposed s t.mapQueuedChanges))
    (h : l.foldlM (connectTx env c pool s pindex false) t = some t') :
    BlockEntries env pindex (pre ++ l) (proposed s t'.mapQueuedChanges) := by
  induction l generalizing pre t with
  | nil =>
    simp only [List.foldlM_nil, Option.pure_def, Option.some.injEq] at h
    rwa [List.append_nil, ← h]
  | cons tx l ih =>
    obtain ⟨t₀, t₁, ht₀, hround, hrest⟩ := (foldlM_eq_some_split [] l tx t t').mp h
    obtain rfl : t = t₀ := by simpa using ht₀
    obtain ⟨q, hmarked, hproposed⟩ := connectTx_marked env c pool s pindex false t t₁ tx hround
    obtain ⟨hover, _, -, hcases⟩ := connectTx_amounts env c pool s pindex t t₁ tx hround
    have hspent := slot_of_not_overwrites s _ hover
    have hnTxPos : t₁.nTxPos = t.nTxPos + tx.size.toUInt32 := by
      rcases hcases with ⟨-, -, hamounts⟩ | ⟨-, inputs, nTxAnonIn, -, hamounts⟩
      · exact hamounts.nTxPos
      · exact hamounts.nTxPos
    have hnew : env.txid tx ∉ pre.map env.txid := by
      rw [List.map_append, List.nodup_append] at hnodup
      intro hmem
      exact hnodup.2.2 _ hmem _ (List.mem_map_of_mem List.mem_cons_self) rfl
    have hentries := hown.snoc env pindex tx t.nTxPos hnew hread.1
      (hpre.apart env pindex tx t.nTxPos hnew hspent hmarked) hmarked
    have hothers := hpre.snoc env pindex tx t.nTxPos
      (CTxIndex.new (posThisTx pindex t.nTxPos) tx.vout.length) hnew hspent hmarked
    rw [← hproposed] at hentries hothers
    rw [List.append_cons] at hnodup ⊢
    exact ih (pre ++ [tx]) t₁ hnodup (hnTxPos ▸ hread.2) hothers hentries hrest

/-- What connecting a block does to the index. -/
theorem connectBlock_entries (c : ChainState) (pool : CTxMemPool) (s s' : Session L) (block : CBlock)
    (hstored : BlockOnDisk env block pindex)
    (h : connectBlock env c pool false s block pindex = (s', true)) :
    BlockMarked env pindex block.vtx s.readTxIndex s'.readTxIndex ∧
      BlockEntries env pindex block.vtx s'.readTxIndex := by
  obtain ⟨t, ht, -, hread⟩ := connectBlock_result env c pool s s' block pindex h
  have hnodup : (block.vtx.map env.txid).Nodup :=
    connectBlock_nodup env c pool s block pindex false (by rw [h])
  obtain ⟨hloop, -⟩ := checkTransactions_loop env c pool s block pindex t ht
  have hproposed : proposed s t.mapQueuedChanges = s'.readTxIndex := (funext hread).symm
  have hmarked := connectTxs_marked env c pool s pindex false block.vtx []
    (initTotals block pindex false) t hnodup (BlockMarked.nil env pindex s.readTxIndex) hloop
  have hentries := connectTxs_entries env pindex c pool s block.vtx []
    (initTotals block pindex false) t hnodup hstored.readable (BlockMarked.nil env pindex s.readTxIndex)
    (BlockEntries.nil env pindex s.readTxIndex) hloop
  rw [List.nil_append, hproposed] at hmarked hentries
  exact ⟨hmarked, hentries⟩

/-- What disconnecting a block does to the index. -/
theorem disconnectBlock_entries (pool : CTxMemPool) (s s' : Session L) (block : CBlock)
    (h : disconnectBlock env pool s block pindex = (s', true)) :
    BlockCleared env block.vtx.reverse s.readTxIndex s'.readTxIndex := by
  cases hloop : block.vtx.reverse.foldlM
      (fun b tx => disconnectInputs env.C.hash s.disk.txIndex tx b) s.batch.txIndex with
  | none => simp [disconnectBlock, hloop] at h
  | some txIndex =>
    obtain ⟨-, hread, -⟩ := disconnectBlock_result env pool s block pindex txIndex hloop
    rw [h] at hread
    rw [hread]
    exact disconnectTxs_cleared env s.disk.txIndex block.vtx.reverse [] s.readTxIndex s.batch.txIndex txIndex
      (BlockCleared.nil env s.readTxIndex) hloop

end Entries

section Chain

variable {Pt L : Type} (env : NodeEnv Pt L)

/-- What is read at a position has been written there as a block. -/
def FilesSound : Prop :=
  ∀ b pprev block, env.readBlock b.nFile b.nBlockPos = some block → BlockOnDisk env block (b :: pprev)

/-- The entry describes a transaction of the block. -/
structure Describes (e : CTxIndex) (h : UInt256) (b : BlockNode) (pprev : CBlockIndex) : Prop where
  inBlock : InBlock e b
  stored : ∃ tx ∈ blockTxs env (b :: pprev), env.txid tx = h ∧ env.readTx e.pos = some tx ∧
    e.vSpent.length = tx.vout.length

/-- The index belongs to the chain: it describes transactions of the chain, with the marks of all their
spends from their block on. -/
structure IndexMarked (txIndex : UInt256 → Option CTxIndex) (chain : CBlockIndex) : Prop where
  located : ∀ h e, txIndex h = some e → ∃ b pprev, b :: pprev <:+ chain ∧ Describes env e h b pprev
  marked : ∀ h e, txIndex h = some e → ∀ b pprev, b :: pprev <:+ chain → InBlock e b →
    ∀ b' pprev', b' :: pprev' <:+ chain → b :: pprev <:+ b' :: pprev' →
      ∀ tx ∈ blockTxs env (b' :: pprev'), ∀ n, tx.Spends h n →
        ∃ nTxPos, e.vSpent[n]? = some (posThisTx (b' :: pprev') nTxPos)

variable {env}

/-- Entries that differ in marks only. -/
theorem shape_eq_some {txIndex : UInt256 → Option CTxIndex} {h : UInt256} {e : CTxIndex}
    (he : txIndex h = some e) : shape txIndex h = some (e.pos, e.vSpent.length) := by
  simp [shape, he]

theorem exists_of_shape {txIndex : UInt256 → Option CTxIndex} {h : UInt256} {pos : CDiskTxPos} {len : Nat}
    (hshape : shape txIndex h = some (pos, len)) :
    ∃ e, txIndex h = some e ∧ e.pos = pos ∧ e.vSpent.length = len := by
  obtain ⟨e, he, heq⟩ := Option.map_eq_some_iff.mp hshape
  exact ⟨e, he, congrArg Prod.fst heq, congrArg Prod.snd heq⟩

theorem slot_eq {txIndex : UInt256 → Option CTxIndex} {h : UInt256} {e : CTxIndex}
    (he : txIndex h = some e) (n : Nat) : slot txIndex h n = e.vSpent[n]? := by
  simp [slot, he]

/-- The position of a block of the index is never null. -/
theorem posThisTx_notNull {m : UInt256 → Option CBlockIndex} (hfiles : FilesSound env)
    (hstored : IndexStored env m) {b : BlockNode} {pprev : CBlockIndex} (hfiled : Filed m (b :: pprev))
    (nTxPos : UInt32) : ¬ (posThisTx (b :: pprev) nTxPos).isNull := by
  obtain ⟨block, hread, -⟩ := hstored _ b pprev (hfiled (List.cons_ne_nil _ _))
  exact (hfiles b pprev block hread).notNull

theorem IndexMarked.connect {m : UInt256 → Option CBlockIndex} (hm : IndexClosed m)
    (hstored : IndexStored env m) (hfiles : FilesSound env) {txIndex txIndex' : UInt256 → Option CTxIndex}
    {block : CBlock} {b : BlockNode} {chain : CBlockIndex} (hfiled : Filed m (b :: chain))
    (hread : env.readFromDisk (b :: chain) = some block) (hrec : IndexMarked env txIndex chain)
    (hmarked : BlockMarked env (b :: chain) block.vtx txIndex txIndex')
    (hentries : BlockEntries env (b :: chain) block.vtx txIndex') : IndexMarked env txIndex' (b :: chain) := by
  have htxs : blockTxs env (b :: chain) = block.vtx := by simp [blockTxs, hread]
  have hone : ∀ {b₁ b₂ : BlockNode} {p₁ p₂ : CBlockIndex}, b₁ :: p₁ <:+ b :: chain → b₂ :: p₂ <:+ b :: chain →
      b₁.nFile = b₂.nFile → b₁.nBlockPos = b₂.nBlockPos → b₁ :: p₁ = b₂ :: p₂ := by
    intro b₁ b₂ p₁ p₂ h₁ h₂
    exact hstored.eq_of_pos env (hfiled.suffix hm h₁) (hfiled.suffix hm h₂)
  -- the entry of another transaction is an old one with the same position
  have hold : ∀ h e, txIndex' h = some e → h ∉ block.vtx.map env.txid →
      ∃ e₀, txIndex h = some e₀ ∧ e₀.pos = e.pos ∧ e₀.vSpent.length = e.vSpent.length := by
    intro h e he hout
    have hshape := hmarked.shape_eq h hout
    rw [shape_eq_some he] at hshape
    exact exists_of_shape hshape.symm
  constructor
  · intro h e he
    by_cases hin : h ∈ block.vtx.map env.txid
    · obtain ⟨tx, htx, rfl⟩ := List.mem_map.mp hin
      obtain ⟨pos, hshape, ⟨nTxPos, rfl⟩, hreadTx⟩ := hentries.own tx htx
      obtain ⟨e', he', hpos, hlen⟩ := exists_of_shape hshape
      obtain rfl : e = e' := Option.some.inj (he.symm.trans he')
      refine ⟨b, chain, List.suffix_rfl, ?_, tx, htxs ▸ htx, rfl, hpos ▸ hreadTx, hlen⟩
      rw [InBlock, hpos]
      exact ⟨rfl, rfl⟩
    · obtain ⟨e₀, he₀, hpos, hlen⟩ := hold h e he hin
      obtain ⟨b₁, p₁, hsuffix, hblock, tx, htx, hhash, hreadTx, hlen'⟩ := hrec.located h e₀ he₀
      refine ⟨b₁, p₁, hsuffix.trans (List.suffix_cons b chain), ?_, tx, htx, hhash, hpos ▸ hreadTx,
        hlen.symm.trans hlen'⟩
      rwa [InBlock, ← hpos]
  · intro h e he b₁ p₁ hsuffix hblock b' p' hsuffix' habove tx htx n hspends
    by_cases hin : h ∈ block.vtx.map env.txid
    · obtain ⟨tx₀, htx₀, rfl⟩ := List.mem_map.mp hin
      obtain ⟨pos, hshape, ⟨nTxPos, rfl⟩, -⟩ := hentries.own tx₀ htx₀
      obtain ⟨e', he', hpos, -⟩ := exists_of_shape hshape
      obtain rfl : e = e' := Option.some.inj (he.symm.trans he')
      rw [InBlock, hpos] at hblock
      have hfirst : b :: chain = b₁ :: p₁ := hone List.suffix_rfl hsuffix hblock.1 hblock.2
      have htop : b' :: p' = b :: chain := hsuffix'.eq_of_length_le (hfirst ▸ habove.length_le)
      rw [htop] at htx ⊢
      rw [htxs] at htx
      rw [← slot_eq he]
      exact hentries.marked tx₀ htx₀ tx htx n hspends
    · obtain ⟨e₀, he₀, hpos, -⟩ := hold h e he hin
      rw [← slot_eq he]
      obtain heq | htail := List.suffix_cons_iff.mp hsuffix'
      · rw [heq] at htx ⊢
        rw [htxs] at htx
        exact (hmarked.marked h n hin ⟨tx, htx, hspends⟩).1
      · have hblock₀ : InBlock e₀ b₁ := by rwa [InBlock, hpos]
        obtain ⟨nTxPos, hmark⟩ := hrec.marked h e₀ he₀ b₁ p₁ (habove.trans htail) hblock₀ b' p' htail habove tx htx
          n hspends
        refine ⟨nTxPos, ?_⟩
        rw [hmarked.others h n hin, slot_eq he₀, hmark]
        -- what the chain below has spent is not free for the block
        intro hspent
        obtain ⟨-, x, hx, hnull⟩ := hmarked.marked h n hin hspent
        rw [slot_eq he₀, hmark, Option.some.injEq] at hx
        rw [← hx] at hnull
        exact posThisTx_notNull hfiles hstored (hfiled.suffix hm hsuffix') nTxPos hnull

theorem IndexMarked.disconnect {m : UInt256 → Option CBlockIndex} (hm : IndexClosed m)
    (hstored : IndexStored env m) {txIndex txIndex' : UInt256 → Option CTxIndex} {block : CBlock}
    {b : BlockNode} {chain : CBlockIndex} (hfiled : Filed m (b :: chain))
    (hread : env.readFromDisk (b :: chain) = some block) (hrec : IndexMarked env txIndex (b :: chain))
    (hcleared : BlockCleared env block.vtx.reverse txIndex txIndex') : IndexMarked env txIndex' chain := by
  have htxs : blockTxs env (b :: chain) = block.vtx := by simp [blockTxs, hread]
  have hout : ∀ h e, txIndex' h = some e → h ∉ block.vtx.reverse.map env.txid := by
    intro h e he hin
    obtain ⟨tx, htx, rfl⟩ := List.mem_map.mp hin
    rw [hcleared.erased tx htx] at he
    cases he
  have hold : ∀ h e, txIndex' h = some e →
      ∃ e₀, txIndex h = some e₀ ∧ e₀.pos = e.pos ∧ e₀.vSpent.length = e.vSpent.length := by
    intro h e he
    have hshape := hcleared.shape_eq h (hout h e he)
    rw [shape_eq_some he] at hshape
    exact exists_of_shape hshape.symm
  constructor
  · intro h e he
    obtain ⟨e₀, he₀, hpos, hlen⟩ := hold h e he
    obtain ⟨b₁, p₁, hsuffix, hblock, tx, htx, hhash, hreadTx, hlen'⟩ := hrec.located h e₀ he₀
    obtain heq | htail := List.suffix_cons_iff.mp hsuffix
    · rw [heq, htxs] at htx
      refine absurd ?_ (hout h e he)
      rw [← hhash]
      exact List.mem_map_of_mem (List.mem_reverse.mpr htx)
    · refine ⟨b₁, p₁, htail, ?_, tx, htx, hhash, hpos ▸ hreadTx, hlen.symm.trans hlen'⟩
      rwa [InBlock, ← hpos]
  · intro h e he b₁ p₁ hsuffix hblock b' p' hsuffix' habove tx htx n hspends
    obtain ⟨e₀, he₀, hpos, -⟩ := hold h e he
    have hblock₀ : InBlock e₀ b₁ := by rwa [InBlock, hpos]
    have hlast := List.suffix_cons b chain
    obtain ⟨nTxPos, hmark⟩ := hrec.marked h e₀ he₀ b₁ p₁ (hsuffix.trans hlast) hblock₀ b' p'
      (hsuffix'.trans hlast) habove tx htx n hspends
    refine ⟨nTxPos, ?_⟩
    rw [← slot_eq he, hcleared.others h n (hout h e he), slot_eq he₀, hmark]
    -- a second spend in the block would have left its own mark
    rintro ⟨tx', htx', hclears⟩
    rw [List.mem_reverse, ← htxs] at htx'
    obtain ⟨nTxPos', hmark'⟩ := hrec.marked h e₀ he₀ b₁ p₁ (hsuffix.trans hlast) hblock₀ b chain
      List.suffix_rfl (hsuffix.trans hlast) tx' htx' n hclears.spends
    rw [hmark, Option.some.injEq] at hmark'
    have heq := hstored.eq_of_pos env (hfiled.suffix hm (hsuffix'.trans hlast)) hfiled
      (congrArg CDiskTxPos.nFile hmark') (congrArg CDiskTxPos.nBlockPos hmark')
    have hle := hsuffix'.length_le
    rw [heq, List.length_cons] at hle
    omega

variable (env)

theorem IndexMarked.follows (hfiles : FilesSound env) (m : UInt256 → Option CBlockIndex)
    (hm : IndexClosed m) (hstored : IndexStored env m) : FollowsChain (L := L) env m (IndexMarked env) where
  genesis txIndex b hrec := by
    have hnone : ∀ h e, txIndex h ≠ some e := by
      intro h e he
      obtain ⟨b₁, p₁, hsuffix, -⟩ := hrec.located h e he
      exact absurd (List.suffix_nil.mp hsuffix) (List.cons_ne_nil _ _)
    exact ⟨fun h e he => absurd he (hnone h e), fun h e he => absurd he (hnone h e)⟩
  connect c pool s s' block b chain hfiled hread hrec h := by
    obtain ⟨hblock, -⟩ := readFromDisk_eq_some env b chain block hread
    obtain ⟨hmarked, hentries⟩ := connectBlock_entries env (b :: chain) c pool s s' block
      (hfiles b chain block hblock) h
    exact hrec.connect hm hstored hfiles hfiled hread hmarked hentries
  disconnect pool s s' block b chain hfiled hread hrec h :=
    hrec.disconnect hm hstored hfiled hread (disconnectBlock_entries env (b :: chain) pool s s' block h)

/-- The index of a run whose postponed blocks pass belongs to the active chain. -/
theorem Reachable.indexMarked (hfiles : FilesSound env) {n : Node L}
    (h : Reachable env (PostponedBlocksPass env) n) : IndexMarked env n.disk.txIndex n.chain.pindexBest := by
  apply h.follows env (IndexMarked.follows env hfiles)
  exact ⟨fun h e he => (by cases he), fun h e he => (by cases he)⟩

end Chain

end AliasWallet
