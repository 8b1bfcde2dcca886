import AliasWallet.Anon.MemberRules
import AliasWallet.Chain.BlockIndex
import AliasWallet.Chain.ConnectSpec
import AliasWallet.Wallet.AnonSpec

/-!
# The records of a chain

What has to be on record for the images of a chain to count as spent: each image under the hash of
its transaction, and each such transaction in the index at its block. Connecting and disconnecting a
block keep the records, under conditions that `ConnectBlock` does not check itself.
-/

namespace AliasWallet
open Lib

/-- The key images that a transaction spends. -/
def CTransaction.spentImages (tx : CTransaction) : List Bytes :=
  if tx.nVersion = ANON_TXN_VERSION then tx.keyImages else []

section Txs

variable {Pt L : Type} (env : NodeEnv Pt L)

def blockTxs (pindex : CBlockIndex) : List CTransaction := (env.readFromDisk pindex).elim [] CBlock.vtx

/-- The transactions of a chain, from the tip down. -/
def chainTxs : CBlockIndex → List CTransaction
  | [] => []
  | b :: pprev => blockTxs env (b :: pprev) ++ chainTxs pprev

/-- The transactions of the blocks above the fork. -/
def branchTxs (pindex pfork : CBlockIndex) : List CTransaction :=
  (branchAbove pindex pfork).flatMap (blockTxs env)

theorem chainTxs_eq (pindex pfork : CBlockIndex) (hfork : pfork <:+ pindex) :
    chainTxs env pindex = branchTxs env pindex pfork ++ chainTxs env pfork := by
  induction pindex with
  | nil =>
    rw [List.suffix_nil.mp hfork]
    rfl
  | cons b pprev ih =>
    cases List.suffix_cons_iff.mp hfork with
    | inl heq =>
      rw [heq, branchTxs, branchAbove_self]
      rfl
    | inr htail =>
      simp only [chainTxs, ih htail, branchTxs, branchAbove_cons b pprev pfork htail,
        List.flatMap_cons, List.append_assoc]

theorem mem_chainTxs (pindex : CBlockIndex) (tx : CTransaction) :
    tx ∈ chainTxs env pindex ↔ ∃ b pprev, b :: pprev <:+ pindex ∧ tx ∈ blockTxs env (b :: pprev) := by
  induction pindex with
  | nil =>
    simp only [chainTxs, List.not_mem_nil, List.suffix_nil, false_iff]
    rintro ⟨b, pprev, hnil, -⟩
    cases hnil
  | cons b pprev ih =>
    rw [chainTxs, List.mem_append, ih]
    constructor
    · rintro (htop | ⟨b', pprev', hsuffix, htx⟩)
      · exact ⟨b, pprev, List.suffix_rfl, htop⟩
      · exact ⟨b', pprev', hsuffix.trans (List.suffix_cons b pprev), htx⟩
    · rintro ⟨b', pprev', hsuffix, htx⟩
      cases List.suffix_cons_iff.mp hsuffix with
      | inl heq =>
        rw [heq] at htx
        exact Or.inl htx
      | inr htail => exact Or.inr ⟨b', pprev', htail, htx⟩

/-- The hash of a transaction that spends images is there once. -/
def SpendsOnce (txs : List CTransaction) : Prop :=
  ∀ tx ∈ txs, tx.spentImages ≠ [] → (txs.map env.txid).count (env.txid tx) = 1

variable {env}

theorem SpendsOnce.ne {txs txs' : List CTransaction} (h : SpendsOnce env (txs ++ txs'))
    {tx tx' : CTransaction} (htx : tx ∈ txs) (htx' : tx' ∈ txs')
    (hspends : tx.spentImages ≠ [] ∨ tx'.spentImages ≠ []) : env.txid tx ≠ env.txid tx' := by
  intro heq
  have hleft := List.count_pos_iff.mpr (List.mem_map_of_mem (f := env.txid) htx)
  have hright := List.count_pos_iff.mpr (List.mem_map_of_mem (f := env.txid) htx')
  have hcount : ((txs ++ txs').map env.txid).count (env.txid tx) = 1 := by
    cases hspends with
    | inl hne => exact h tx (List.mem_append_left _ htx) hne
    | inr hne =>
      rw [heq]
      exact h tx' (List.mem_append_right _ htx') hne
  rw [List.map_append, List.count_append] at hcount
  rw [← heq] at hright
  omega

theorem SpendsOnce.right {txs txs' : List CTransaction} (h : SpendsOnce env (txs ++ txs')) :
    SpendsOnce env txs' := by
  intro tx htx hne
  have hcount := h tx (List.mem_append_right _ htx) hne
  have hpos := List.count_pos_iff.mpr (List.mem_map_of_mem (f := env.txid) htx)
  rw [List.map_append, List.count_append] at hcount
  omega

theorem SpendsOnce.eq {txs : List CTransaction} (h : SpendsOnce env txs) {tx tx' : CTransaction}
    (htx : tx ∈ txs) (htx' : tx' ∈ txs) (hne : tx.spentImages ≠ []) (heq : env.txid tx = env.txid tx') :
    tx = tx' := by
  obtain ⟨pre, post, hsplit⟩ := List.append_of_mem htx
  have hcount := h tx htx hne
  rw [hsplit, List.mem_append, List.mem_cons] at htx'
  rw [hsplit, List.map_append, List.map_cons, List.count_append, List.count_cons_self] at hcount
  -- the hash is counted at `tx`, so it is nowhere else
  rcases htx' with hpre | hself | hpost
  · have hpos := List.count_pos_iff.mpr (List.mem_map_of_mem (f := env.txid) hpre)
    rw [← heq] at hpos
    omega
  · exact hself.symm
  · have hpos := List.count_pos_iff.mpr (List.mem_map_of_mem (f := env.txid) hpost)
    rw [← heq] at hpos
    omega

end Txs

section Records

variable {Pt L : Type} (env : NodeEnv Pt L)

/-- The index entry points into the block. -/
def InBlock (e : CTxIndex) (b : BlockNode) : Prop :=
  e.pos.nFile = b.nFile ∧ e.pos.nBlockPos = b.nBlockPos

structure ChainRecorded (keyImages : Bytes → Option CKeyImageSpent)
    (readTxIndex : UInt256 → Option CTxIndex) (chain : CBlockIndex) : Prop where
  recorded : ∀ tx ∈ chainTxs env chain, ∀ k ∈ tx.spentImages,
    ∃ ski, keyImages k = some ski ∧ ski.txnHash = env.txid tx
  located : ∀ b pprev, b :: pprev <:+ chain → ∀ tx ∈ blockTxs env (b :: pprev),
    tx.spentImages ≠ [] → ∃ e, readTxIndex (env.txid tx) = some e ∧ InBlock e b
  once : SpendsOnce env (chainTxs env chain)

/-- The blocks of `base` are found in the index and count as blocks of the main chain. -/
def InMain (c : ChainState) (base : CBlockIndex) : Prop :=
  ∀ q, q <:+ base → q ≠ [] → c.mapBlockIndex (CBlockIndex.getBlockHash q) = some q ∧
    c.isInMainChain q ∧ q.length ≤ c.pindexBest.length

/-- A block that is read has the hash of its entry. -/
theorem readFromDisk_eq_some (b : BlockNode) (pprev : CBlockIndex) (block : CBlock)
    (h : env.readFromDisk (b :: pprev) = some block) :
    env.readBlock b.nFile b.nBlockPos = some block ∧ block.getHash env.H = b.hash := by
  simp only [NodeEnv.readFromDisk, List.head?_cons, Option.bind_eq_bind, Option.bind_some,
    Option.bind_eq_some_iff, Option.ite_none_right_eq_some, Option.some.injEq, Bool.and_eq_true,
    beq_iff_eq] at h
  obtain ⟨block', hread, hok, rfl⟩ := h
  exact ⟨hread, hok.2⟩

/-- A transaction of the main chain is known to `TxnHashInSystem`. -/
theorem txnHashInSystem_of_located (c : ChainState) (pool : CTxMemPool)
    (readTxIndex : UInt256 → Option CTxIndex) (base : CBlockIndex) (hmain : InMain c base)
    (b : BlockNode) (pprev : CBlockIndex) (hsuffix : b :: pprev <:+ base) (tx : CTransaction)
    (htx : tx ∈ blockTxs env (b :: pprev)) (e : CTxIndex)
    (he : readTxIndex (env.txid tx) = some e) (hpos : InBlock e b) :
    env.txnHashInSystem c pool readTxIndex (env.txid tx) = true := by
  cases hread : env.readFromDisk (b :: pprev) with
  | none => simp [blockTxs, hread] at htx
  | some block =>
    obtain ⟨hblock, hhash⟩ := readFromDisk_eq_some env b pprev block hread
    obtain ⟨hfiled, hin, hlen⟩ := hmain (b :: pprev) hsuffix (List.cons_ne_nil b pprev)
    have hdepth : env.getDepthInMainChain c e > 0 := by
      have hfound : c.mapBlockIndex (block.getHash env.H) = some (b :: pprev) := by
        rw [hhash]
        exact hfiled
      simp only [NodeEnv.getDepthInMainChain, hpos.1, hpos.2, hblock, hfound, hin, if_true,
        ChainState.nBestHeight, CBlockIndex.nHeight]
      omega
    simp [NodeEnv.txnHashInSystem, he, hdepth]

/-- An image of the main chain can be spent again only under the same hash. -/
theorem txid_eq_of_accepted (c : ChainState) (pool : CTxMemPool) (s : Session L)
    (base chain : CBlockIndex) (hrec : ChainRecorded env s.disk.keyImages s.readTxIndex chain)
    (hbase : base <:+ chain) (hmain : InMain c base) (tx tx' : CTransaction)
    (htx : tx ∈ chainTxs env base) (k : Bytes) (hk : k ∈ tx.spentImages) (hk' : k ∈ tx'.spentImages)
    (hok : tx'.nVersion = ANON_TXN_VERSION →
      (checkAnonInputs env.p env.E env.C.hash (sessionView env c pool s) tx' true).isOk) :
    env.txid tx = env.txid tx' := by
  obtain ⟨b, pprev, hsuffix, hblock⟩ := (mem_chainTxs env base tx).mp htx
  obtain ⟨ski, hski, howner⟩ := hrec.recorded tx
    ((mem_chainTxs env chain tx).mpr ⟨b, pprev, hsuffix.trans hbase, hblock⟩) k hk
  obtain ⟨e, he, hpos⟩ := hrec.located b pprev (hsuffix.trans hbase) tx hblock
    (List.ne_nil_of_mem hk)
  have hknown : env.txnHashInSystem c pool s.readTxIndex ski.txnHash = true := by
    rw [howner]
    exact txnHashInSystem_of_located env c pool s.readTxIndex base hmain b pprev hsuffix tx hblock e he
      hpos
  unfold CTransaction.spentImages at hk'
  by_cases hversion : tx'.nVersion = ANON_TXN_VERSION
  · rw [if_pos hversion, CTransaction.keyImages, List.mem_map] at hk'
    obtain ⟨txin, hmem, rfl⟩ := hk'
    rw [List.mem_filter] at hmem
    obtain ⟨preimage, -, hinputs⟩ := (checkAnonInputs_isOk_iff _ _ _ _ tx' true).mp (hok hversion)
    obtain ⟨i, hi⟩ := List.mem_iff_getElem?.mp hmem.1
    have hfree := hinputs i txin hi hmem.2
    rw [checkAnonInput_isOk, Bool.and_eq_true, Bool.and_eq_true] at hfree
    have hspent : (sessionView env c pool s).getKeyImage txin.extractKeyImage = some ski := by
      simp [sessionView, NodeEnv.anonView, getKeyImage, hski]
    have hinSystem : (sessionView env c pool s).txnHashInSystem ski.txnHash = true := hknown
    simp only [keyImageFree, hspent, hinSystem, Bool.not_true, Bool.and_false, Bool.or_false,
      beq_iff_eq] at hfree
    exact howner.symm.trans hfree.1.1
  · rw [if_neg hversion] at hk'
    cases hk'

end Records

section Wallet

variable {Pt L : Type} (env : NodeEnv Pt L) (c : ChainState) (pool : CTxMemPool)

/-- `ProcessAnonTransaction` succeeds on each anonymous transaction of a block. -/
def walletRecords (nBlockHeight : Int) : List CTransaction → Disk × L → Bool
  | [], _ => true
  | tx :: vtx, s =>
    (tx.nVersion != ANON_TXN_VERSION ||
      (processAnonTransaction env c s.2 true tx nBlockHeight ⟨s.1, pool⟩).isSome) &&
      walletRecords nBlockHeight vtx (syncConnect env c pool nBlockHeight s tx)

theorem walletRecords_mem (nBlockHeight : Int) (vtx : List CTransaction) (s : Disk × L)
    (h : walletRecords env c pool nBlockHeight vtx s) (tx : CTransaction) (htx : tx ∈ vtx)
    (hversion : tx.nVersion = ANON_TXN_VERSION) :
    ∃ s' : Disk × L, (processAnonTransaction env c s'.2 true tx nBlockHeight ⟨s'.1, pool⟩).isSome := by
  induction vtx generalizing s with
  | nil => cases htx
  | cons t vtx ih =>
    rw [walletRecords, Bool.and_eq_true] at h
    cases List.mem_cons.mp htx with
    | inl heq =>
      subst heq
      refine ⟨s, ?_⟩
      simpa [hversion] using h.1
    | inr hmem => exact ih _ h.2 hmem

/-- A transaction that the wallet takes is on record afterwards. -/
theorem syncConnect_records (nBlockHeight : Int) (tx : CTransaction) (s : Disk × L)
    (h : tx.nVersion != ANON_TXN_VERSION ||
      (processAnonTransaction env c s.2 true tx nBlockHeight ⟨s.1, pool⟩).isSome) :
    ImagesRecorded env tx tx.spentImages s.1 (syncConnect env c pool nBlockHeight s tx).1 := by
  unfold syncConnect CTransaction.spentImages
  by_cases hversion : tx.nVersion = ANON_TXN_VERSION
  · rw [if_pos hversion, if_pos hversion]
    cases hprocess : processAnonTransaction env c s.2 true tx nBlockHeight ⟨s.1, pool⟩ with
    | none => simp [hversion, hprocess] at h
    | some st =>
      exact processAnonTransaction_records env c s.2 tx nBlockHeight ⟨s.1, pool⟩ st hprocess
  · rw [if_neg hversion, if_neg hversion]
    exact ⟨rfl, rfl, by simp, fun _ _ => rfl⟩

/-- After a block its images are on record, each under one of its transactions with that image. -/
theorem foldl_syncConnect_records (nBlockHeight : Int) (vtx : List CTransaction) (s : Disk × L)
    (h : walletRecords env c pool nBlockHeight vtx s) (k : Bytes) :
    ((∀ tx ∈ vtx, k ∉ tx.spentImages) →
      (vtx.foldl (syncConnect env c pool nBlockHeight) s).1.keyImages k = s.1.keyImages k) ∧
    ((∃ tx ∈ vtx, k ∈ tx.spentImages) → ∃ tx ∈ vtx, k ∈ tx.spentImages ∧ ∃ ski,
      (vtx.foldl (syncConnect env c pool nBlockHeight) s).1.keyImages k = some ski ∧
        ski.txnHash = env.txid tx) := by
  induction vtx generalizing s with
  | nil => simp
  | cons tx vtx ih =>
    rw [walletRecords, Bool.and_eq_true] at h
    have hone := syncConnect_records env c pool nBlockHeight tx s h.1
    have hrest := ih (syncConnect env c pool nBlockHeight s tx) h.2
    rw [List.foldl_cons]
    constructor
    · intro hnone
      rw [hrest.1 fun t ht => hnone t (List.mem_cons_of_mem tx ht)]
      exact hone.others k (hnone tx List.mem_cons_self)
    · intro hsome
      by_cases hlater : ∃ t ∈ vtx, k ∈ t.spentImages
      · obtain ⟨t, ht, hkt, hski⟩ := hrest.2 hlater
        exact ⟨t, List.mem_cons_of_mem tx ht, hkt, hski⟩
      · have hnone : ∀ t ∈ vtx, k ∉ t.spentImages := fun t ht hkt => hlater ⟨t, ht, hkt⟩
        obtain ⟨t, ht, hkt⟩ := hsome
        cases List.mem_cons.mp ht with
        | inr hmem => exact absurd hkt (hnone t hmem)
        | inl heq =>
          subst heq
          rw [hrest.1 hnone]
          exact ⟨t, List.mem_cons_self, hkt, hone.own k hkt⟩

theorem foldl_syncDisconnect_kept (vtx : List CTransaction) (s : Disk × L) (k : Bytes)
    (ski : CKeyImageSpent) (hk : s.1.keyImages k = some ski)
    (hne : ∀ tx ∈ vtx, ski.txnHash ≠ env.txid tx) :
    (vtx.foldl (syncDisconnect env pool) s).1.keyImages k = some ski := by
  induction vtx generalizing s with
  | nil => exact hk
  | cons tx vtx ih =>
    rw [List.foldl_cons]
    apply ih
    · exact (syncDisconnect_undone env pool s tx).kept k ski hk (hne tx List.mem_cons_self)
    · intro t ht
      exact hne t (List.mem_cons_of_mem tx ht)

end Wallet

section Connect

variable {Pt L : Type} (env : NodeEnv Pt L) (c : ChainState) (pool : CTxMemPool)

/-- The wallet takes every anonymous transaction of the block. -/
def blockRecorded (s : Session L) (block : CBlock) (pindex : CBlockIndex) : Bool :=
  walletRecords env c pool (getBlockHeightFromHash c (block.getHash env.H)) block.vtx
    (s.disk, env.wallet.cacheAnonStats s.loc s.disk (CBlockIndex.nHeight pindex.tail))

/-- What `ConnectBlock` leaves in the two maps. -/
theorem connectBlock_result (s s' : Session L) (block : CBlock) (pindex : CBlockIndex)
    (h : connectBlock env c pool false s block pindex = (s', true)) :
    ∃ t, checkTransactions env c pool s block pindex false = some t ∧
      s'.disk.keyImages = (block.vtx.foldl
        (syncConnect env c pool (getBlockHeightFromHash c (block.getHash env.H)))
        (s.disk, env.wallet.cacheAnonStats s.loc s.disk (CBlockIndex.nHeight pindex.tail))).1.keyImages ∧
      ∀ hash, s'.readTxIndex hash = (t.mapQueuedChanges hash).or (s.readTxIndex hash) := by
  rcases connectBlock_cases env c pool s block pindex with ⟨t, ht, hconnect⟩ | ⟨loc, hconnect⟩
  · rw [h, Prod.mk.injEq] at hconnect
    rw [hconnect.1]
    refine ⟨t, ht, rfl, fun hash => ?_⟩
    have hindex := foldl_syncConnect_txIndex env c pool
      (getBlockHeightFromHash c (block.getHash env.H)) block.vtx
      (s.disk, env.wallet.cacheAnonStats s.loc s.disk (CBlockIndex.nHeight pindex.tail))
    simp only [Session.readTxIndex, recordBlock, hindex]
    exact Patch.read_writeAll s.batch.txIndex s.disk.txIndex t.mapQueuedChanges hash
  · rw [h] at hconnect
    cases hconnect

/-- Each transaction with images of a connected block has passed the check of its anonymous inputs, if
the wallet takes it: the check leaves out coinbases only. -/
theorem connectBlock_anonChecked (s s' : Session L) (block : CBlock) (pindex : CBlockIndex)
    (hrecorded : blockRecorded env c pool s block pindex)
    (h : connectBlock env c pool false s block pindex = (s', true)) (tx : CTransaction)
    (htx : tx ∈ block.vtx) (hversion : tx.nVersion = ANON_TXN_VERSION) (hne : tx.spentImages ≠ []) :
    (checkAnonInputs env.p env.E env.C.hash (sessionView env c pool s) tx true).isOk := by
  obtain ⟨t, ht, -⟩ := connectBlock_result env c pool s s' block pindex h
  apply checkTransactions_anonChecked env c pool s block pindex false (by simp [ht]) tx htx _ hversion
  intro hbase
  obtain ⟨s₁, hsome⟩ := walletRecords_mem env c pool _ block.vtx _ hrecorded tx htx hversion
  rw [CTransaction.spentImages, if_pos hversion] at hne
  rw [processAnonTransaction_coinBase env c s₁.2 tx _ ⟨s₁.1, pool⟩ hbase hne] at hsome
  cases hsome

/-- The conditions on a block under which its records stay complete. -/
structure BlockSound (s : Session L) (block : CBlock) (pindex : CBlockIndex) : Prop where
  recorded : blockRecorded env c pool s block pindex
  own : ∀ tx ∈ block.vtx, ∀ tx' ∈ block.vtx, ∀ k ∈ tx.spentImages, k ∈ tx'.spentImages → tx = tx'
  others : ∀ tx ∈ block.vtx, ∀ tx' ∈ chainTxs env pindex.tail, ∀ k ∈ tx.spentImages,
    k ∉ tx'.spentImages
  once : SpendsOnce env (chainTxs env pindex)

theorem connectBlock_records (s s' : Session L) (block : CBlock) (b : BlockNode) (chain : CBlockIndex)
    (hrec : ChainRecorded env s.disk.keyImages s.readTxIndex chain)
    (hread : env.readFromDisk (b :: chain) = some block)
    (hsound : BlockSound env c pool s block (b :: chain))
    (h : connectBlock env c pool false s block (b :: chain) = (s', true)) :
    ChainRecorded env s'.disk.keyImages s'.readTxIndex (b :: chain) := by
  obtain ⟨t, ht, hkeyImages, hindex⟩ := connectBlock_result env c pool s s' block (b :: chain) h
  have hqueued := checkTransactions_queued env c pool s block (b :: chain) false t ht
  have htxs : blockTxs env (b :: chain) = block.vtx := by simp [blockTxs, hread]
  have honce := hsound.once
  rw [chainTxs, htxs] at honce
  have hwallet := foldl_syncConnect_records env c pool _ block.vtx _ hsound.recorded
  rw [← hkeyImages] at hwallet
  refine ⟨?_, ?_, hsound.once⟩
  · intro tx htx k hk
    rw [chainTxs, htxs, List.mem_append] at htx
    cases htx with
    | inl hnew =>
      obtain ⟨tx', htx', hk', hski⟩ := (hwallet k).2 ⟨tx, hnew, hk⟩
      rwa [hsound.own tx hnew tx' htx' k hk hk']
    | inr hold =>
      rw [(hwallet k).1 fun tx' htx' hk' => hsound.others tx' htx' tx hold k hk' hk]
      exact hrec.recorded tx hold k hk
  · intro b' pprev hsuffix tx htx hne
    rw [hindex]
    cases List.suffix_cons_iff.mp hsuffix with
    | inl heq =>
      rw [heq, htxs] at htx
      obtain ⟨rfl, rfl⟩ := List.cons.inj heq
      obtain ⟨e, he, nTxPos, hpos⟩ := hqueued.own tx htx
      refine ⟨e, by rw [he, Option.some_or], ?_⟩
      rw [InBlock, hpos]
      exact ⟨rfl, rfl⟩
    | inr htail =>
      obtain ⟨e, he, hpos⟩ := hrec.located b' pprev htail tx htx hne
      cases hentry : t.mapQueuedChanges (env.txid tx) with
      | none =>
        rw [Option.none_or]
        exact ⟨e, he, hpos⟩
      | some e' =>
        have hout : env.txid tx ∉ block.vtx.map env.txid := by
          intro hin
          obtain ⟨tx', htx', heq⟩ := List.mem_map.mp hin
          exact honce.ne htx' ((mem_chainTxs env chain tx).mpr ⟨b', pprev, htail, htx⟩) (Or.inr hne) heq
        obtain ⟨e₂, he₂, hsame⟩ := hqueued.others _ e' hentry hout
        obtain rfl : e = e₂ := Option.some.inj (he.symm.trans he₂)
        refine ⟨e', Option.some_or, ?_⟩
        rwa [InBlock, hsame]

end Connect

section Disconnect

variable {Pt L : Type} (env : NodeEnv Pt L) (pool : CTxMemPool)

/-- Disconnecting an input moves no entry. -/
theorem disconnectInput_pos (txIndex : UInt256 → Option CTxIndex) (txin : CTxIn)
    (batch batch' : Patch UInt256 CTxIndex) (h : disconnectInput txIndex batch txin = some batch')
    (k : UInt256) :
    (batch'.read txIndex k).map CTxIndex.pos = (batch.read txIndex k).map CTxIndex.pos := by
  unfold disconnectInput at h
  by_cases hanon : txin.isAnonInput
  · rw [if_pos hanon, Option.some.injEq] at h
    rw [h]
  · rw [if_neg hanon] at h
    cases hentry : batch.read txIndex txin.prevout.hash with
    | none =>
      simp only [hentry, Option.some.injEq] at h
      rw [h]
    | some txindex =>
      simp only [hentry, Option.ite_none_left_eq_some, Option.some.injEq] at h
      rw [← h.2, Patch.read_write]
      by_cases hk : k = txin.prevout.hash
      · subst hk
        rw [Function.update_self, hentry]
        rfl
      · rw [Function.update_of_ne hk]

/-- Disconnecting a transaction removes its own entry and moves no other. -/
theorem disconnectInputs_pos (hash : HashFn) (txIndex : UInt256 → Option CTxIndex) (tx : CTransaction)
    (batch batch' : Patch UInt256 CTxIndex) (h : disconnectInputs hash txIndex tx batch = some batch')
    (k : UInt256) (hne : k ≠ tx.getHash hash) :
    (batch'.read txIndex k).map CTxIndex.pos = (batch.read txIndex k).map CTxIndex.pos := by
  have herase : ∀ batch₁ : Patch UInt256 CTxIndex,
      ((batch₁.erase (tx.getHash hash)).read txIndex k) = batch₁.read txIndex k := by
    intro batch₁
    rw [Patch.read_erase, Function.update_of_ne hne]
  unfold disconnectInputs at h
  by_cases hbase : tx.isCoinBase
  · simp only [hbase, if_true, Option.bind_eq_bind, Option.bind_some, Option.pure_def,
      Option.some.injEq] at h
    rw [← h, herase]
  · simp only [hbase, Bool.false_eq_true, if_false, Option.bind_eq_bind, Option.bind_eq_some_iff,
      Option.pure_def, Option.some.injEq] at h
    obtain ⟨batch₁, hloop, rfl⟩ := h
    rw [herase]
    refine foldlM_preserves (fun b : Patch UInt256 CTxIndex =>
      (b.read txIndex k).map CTxIndex.pos = (batch.read txIndex k).map CTxIndex.pos) tx.vin batch batch₁
      rfl ?_ hloop
    intro b txin _ b' hb hround
    exact (disconnectInput_pos txIndex txin b b' hround k).trans hb

/-- What `DisconnectBlock` leaves, once its inputs are disconnected. -/
theorem disconnectBlock_result (s : Session L) (block : CBlock) (pindex : CBlockIndex)
    (txIndex : Patch UInt256 CTxIndex)
    (hloop : block.vtx.reverse.foldlM (fun b tx => disconnectInputs env.C.hash s.disk.txIndex tx b)
      s.batch.txIndex = some txIndex) :
    (disconnectBlock env pool s block pindex).1.disk =
        (block.vtx.foldl (syncDisconnect env pool) (s.disk, s.loc)).1 ∧
      (disconnectBlock env pool s block pindex).1.readTxIndex = txIndex.read s.disk.txIndex ∧
      (disconnectBlock env pool s block pindex).2 =
        (env.wallet.removeAnonStats (block.vtx.foldl (syncDisconnect env pool) (s.disk, s.loc)).2
          (CBlockIndex.nHeight pindex)).isSome := by
  have hindex := foldl_syncDisconnect_txIndex env pool block.vtx (s.disk, s.loc)
  simp only [disconnectBlock, hloop]
  cases env.wallet.removeAnonStats (block.vtx.foldl (syncDisconnect env pool) (s.disk, s.loc)).2
      (CBlockIndex.nHeight pindex) with
  | none => exact ⟨rfl, by rw [Session.readTxIndex, hindex], rfl⟩
  | some loc => exact ⟨rfl, by rw [Session.readTxIndex, hindex], rfl⟩

/-- Disconnecting the top block leaves the records of the chain below it. -/
theorem disconnectBlock_records (s s' : Session L) (block : CBlock) (b : BlockNode)
    (chain : CBlockIndex) (hrec : ChainRecorded env s.disk.keyImages s.readTxIndex (b :: chain))
    (hread : env.readFromDisk (b :: chain) = some block)
    (h : disconnectBlock env pool s block (b :: chain) = (s', true)) :
    ChainRecorded env s'.disk.keyImages s'.readTxIndex chain := by
  have htxs : blockTxs env (b :: chain) = block.vtx := by simp [blockTxs, hread]
  have honce := hrec.once
  rw [chainTxs, htxs] at honce
  have hother : ∀ tx ∈ chainTxs env chain, tx.spentImages ≠ [] → ∀ tx' ∈ block.vtx,
      env.txid tx ≠ env.txid tx' := by
    intro tx htx hne tx' htx' heq
    exact honce.ne htx' htx (Or.inr hne) heq.symm
  cases hloop : block.vtx.reverse.foldlM
      (fun b tx => disconnectInputs env.C.hash s.disk.txIndex tx b) s.batch.txIndex with
  | none => simp [disconnectBlock, hloop] at h
  | some txIndex =>
    obtain ⟨hdisk, hread', -⟩ := disconnectBlock_result env pool s block (b :: chain) txIndex hloop
    rw [h] at hdisk hread'
    simp only at hdisk hread'
    -- the index, seen through the batch of the session
    have hindex : ∀ k, (∀ tx ∈ block.vtx, k ≠ env.txid tx) →
        (txIndex.read s.disk.txIndex k).map CTxIndex.pos = (s.readTxIndex k).map CTxIndex.pos := by
      intro k hk
      refine foldlM_preserves (fun b : Patch UInt256 CTxIndex =>
        (b.read s.disk.txIndex k).map CTxIndex.pos = (s.readTxIndex k).map CTxIndex.pos)
        block.vtx.reverse s.batch.txIndex txIndex rfl ?_ hloop
      intro b tx htx b' hb hround
      exact (disconnectInputs_pos env.C.hash s.disk.txIndex tx b b' hround k
        (hk tx (List.mem_reverse.mp htx))).trans hb
    refine ⟨?_, ?_, honce.right⟩
    · intro tx htx k hk
      obtain ⟨ski, hski, howner⟩ := hrec.recorded tx (List.mem_append_right _ htx) k hk
      refine ⟨ski, ?_, howner⟩
      rw [hdisk]
      apply foldl_syncDisconnect_kept env pool block.vtx (s.disk, s.loc) k ski hski
      intro tx' htx'
      rw [howner]
      exact hother tx htx (List.ne_nil_of_mem hk) tx' htx'
    · intro b' pprev hsuffix tx htx hne
      have hmem := (mem_chainTxs env chain tx).mpr ⟨b', pprev, hsuffix, htx⟩
      obtain ⟨e, he, hpos⟩ := hrec.located b' pprev (hsuffix.trans (List.suffix_cons b chain)) tx htx hne
      have hsame := hindex (env.txid tx) (hother tx hmem hne)
      rw [he, ← hread'] at hsame
      obtain ⟨e', he', hpos'⟩ := Option.map_eq_some_iff.mp hsame
      refine ⟨e', he', ?_⟩
      rwa [InBlock, hpos']

end Disconnect

end AliasWallet
