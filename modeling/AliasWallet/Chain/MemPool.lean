import AliasWallet.Chain.TipAgreement

/-!
# The index of the memory pool

`mapNextTx` says which pooled transaction spends an outpoint. It is filled by `addUnchecked` alone and
cleared by `remove`, which every change of the best chain calls for the transactions of its blocks.
-/

namespace AliasWallet
open Lib

namespace CTransaction

/-- An input of the transaction names the outpoint, as its own or to carry a key image. -/
def HasPrevout (tx : CTransaction) (o : COutPoint) : Prop := ∃ txin ∈ tx.vin, txin.prevout = o

instance (tx : CTransaction) (o : COutPoint) : Decidable (tx.HasPrevout o) :=
  inferInstanceAs (Decidable (∃ txin ∈ tx.vin, txin.prevout = o))

@[simp] theorem any_prevout (tx : CTransaction) (o : COutPoint) :
    (tx.vin.any fun txin => txin.prevout == o) = true ↔ tx.HasPrevout o := by
  simp [HasPrevout]

end CTransaction

section Index

variable (hash : HashFn) (T : CTransaction → Prop)

/-- Each transaction is one of `T` and filed under its hash, and the index has their outpoints. -/
structure PoolIndexed (m : CTxMemPool) : Prop where
  filed : ∀ h tx, (h, tx) ∈ m.mapTx → h = tx.getHash hash ∧ T tx
  next : ∀ o h, m.mapNextTx o = some h ↔ ∃ tx, (h, tx) ∈ m.mapTx ∧ tx.HasPrevout o

/-- No two of these transactions have one hash. -/
def TxidsDiffer : Prop := ∀ tx tx', T tx → T tx' → tx.getHash hash = tx'.getHash hash → tx = tx'

variable {hash T} {m : CTxMemPool} {tx : CTransaction}

theorem lookup_mem {h : UInt256} (hfound : m.lookup h = some tx) : (h, tx) ∈ m.mapTx := by
  obtain ⟨l, l', hsplit, -⟩ := List.lookup_eq_some_iff.mp hfound
  rw [hsplit]
  simp

theorem contains_iff {h : UInt256} : m.contains h = true ↔ ∃ tx, (h, tx) ∈ m.mapTx := by
  rw [CTxMemPool.contains, CTxMemPool.lookup, List.lookup_isSome_iff]
  constructor
  · rintro ⟨⟨k, tx⟩, hmem, hk⟩
    exact ⟨tx, by simpa [eq_of_beq hk] using hmem⟩
  · rintro ⟨tx, hmem⟩
    exact ⟨(h, tx), hmem, beq_self_eq_true _⟩

/-- A pooled transaction is the only one under its hash. -/
theorem PoolIndexed.eq_of_hash (hT : TxidsDiffer hash T) (hm : PoolIndexed hash T m) (htx : T tx)
    {tx' : CTransaction} (hmem : (tx.getHash hash, tx') ∈ m.mapTx) : tx' = tx := by
  obtain ⟨hhash, htx'⟩ := hm.filed _ _ hmem
  exact (hT tx tx' htx htx' hhash).symm

theorem PoolIndexed.mem_of_contains (hT : TxidsDiffer hash T) (hm : PoolIndexed hash T m) (htx : T tx)
    (hin : m.contains (tx.getHash hash)) : (tx.getHash hash, tx) ∈ m.mapTx := by
  obtain ⟨tx', hmem⟩ := contains_iff.mp hin
  have heq := hm.eq_of_hash hT htx hmem
  rwa [heq] at hmem

/-- Two pooled transactions that spend one outpoint are the same. -/
theorem PoolIndexed.unique (hT : TxidsDiffer hash T) (hm : PoolIndexed hash T m) {h h' : UInt256}
    {tx' : CTransaction} {o : COutPoint} (hmem : (h, tx) ∈ m.mapTx) (hmem' : (h', tx') ∈ m.mapTx)
    (ho : tx.HasPrevout o) (ho' : tx'.HasPrevout o) : tx = tx' := by
  have hnext := (hm.next o h).mpr ⟨tx, hmem, ho⟩
  have hnext' := (hm.next o h').mpr ⟨tx', hmem', ho'⟩
  obtain rfl : h = h' := Option.some.inj (hnext.symm.trans hnext')
  obtain ⟨hhash, htx⟩ := hm.filed _ _ hmem
  obtain ⟨hhash', htx'⟩ := hm.filed _ _ hmem'
  exact hT tx tx' htx htx' (hhash.symm.trans hhash')

theorem poolIndexed_empty : PoolIndexed hash T CTxMemPool.empty where
  filed := by simp [CTxMemPool.empty]
  next := by simp [CTxMemPool.empty]

theorem PoolIndexed.addUnchecked (hm : PoolIndexed hash T m) (htx : T tx)
    (hnew : ¬ m.contains (tx.getHash hash)) (hfree : ∀ o, tx.HasPrevout o → m.mapNextTx o = none) :
    PoolIndexed hash T (m.addUnchecked (tx.getHash hash) tx) := by
  have hother : ∀ h tx', (h, tx') ∈ m.mapTx → h ≠ tx.getHash hash := by
    rintro h tx' hmem rfl
    exact hnew (contains_iff.mpr ⟨tx', hmem⟩)
  constructor
  · intro h tx' hmem
    simp only [CTxMemPool.addUnchecked, List.mem_cons, Prod.mk.injEq, List.mem_filter] at hmem
    rcases hmem with ⟨rfl, rfl⟩ | ⟨hmem, -⟩
    · exact ⟨rfl, htx⟩
    · exact hm.filed h tx' hmem
  · intro o h
    simp only [CTxMemPool.addUnchecked, CTransaction.any_prevout, List.mem_cons, Prod.mk.injEq,
      List.mem_filter, bne_iff_ne]
    split
    · rename_i ho
      rw [Option.some.injEq]
      constructor
      · rintro rfl
        exact ⟨tx, .inl ⟨rfl, rfl⟩, ho⟩
      · rintro ⟨tx', ⟨rfl, -⟩ | ⟨hmem, -⟩, ho'⟩
        · rfl
        · have hnext := (hm.next o h).mpr ⟨tx', hmem, ho'⟩
          rw [hfree o ho] at hnext
          cases hnext
    · rename_i ho
      rw [hm.next o h]
      constructor
      · rintro ⟨tx', hmem, ho'⟩
        exact ⟨tx', .inr ⟨hmem, hother h tx' hmem⟩, ho'⟩
      · rintro ⟨tx', ⟨-, rfl⟩ | ⟨hmem, -⟩, ho'⟩
        · exact absurd ho' ho
        · exact ⟨tx', hmem, ho'⟩

theorem PoolIndexed.acceptToMemoryPool (p : ChainParams) (hm : PoolIndexed hash T m) (htx : T tx)
    (fRest : Bool) : PoolIndexed hash T (m.acceptToMemoryPool p hash tx fRest) := by
  unfold CTxMemPool.acceptToMemoryPool
  split
  · rename_i haccept
    simp only [Bool.and_eq_true, Bool.not_eq_true', List.all_eq_true, Option.isNone_iff_eq_none] at haccept
    obtain ⟨⟨⟨-, hnew⟩, hfree⟩, -⟩ := haccept
    apply hm.addUnchecked htx
    · simp [hnew]
    · rintro o ⟨txin, hmem, rfl⟩
      exact hfree txin hmem
  · exact hm

/-- What is needed to take a transaction out: it is the one under its hash, and no other one has its
outpoints. -/
theorem PoolIndexed.eraseTx (hm : PoolIndexed hash T m) {h : UInt256}
    (hsame : ∀ tx', (h, tx') ∈ m.mapTx → tx' = tx)
    (howner : ∀ o k, tx.HasPrevout o → m.mapNextTx o = some k → k = h) :
    PoolIndexed hash T (m.eraseTx h tx) := by
  constructor
  · intro k tx' hmem
    simp only [CTxMemPool.eraseTx, List.mem_filter] at hmem
    exact hm.filed k tx' hmem.1
  · intro o k
    simp only [CTxMemPool.eraseTx, CTransaction.any_prevout, List.mem_filter, bne_iff_ne]
    split
    · rename_i ho
      constructor
      · intro hnone
        cases hnone
      · rintro ⟨tx', ⟨hmem, hne⟩, ho'⟩
        exact absurd (howner o k ho ((hm.next o k).mpr ⟨tx', hmem, ho'⟩)) hne
    · rename_i ho
      rw [hm.next o k]
      constructor
      · rintro ⟨tx', hmem, ho'⟩
        refine ⟨tx', ⟨hmem, ?_⟩, ho'⟩
        rintro rfl
        exact ho (hsame tx' hmem ▸ ho')
      · rintro ⟨tx', ⟨hmem, -⟩, ho'⟩
        exact ⟨tx', hmem, ho'⟩

theorem mapTx_eraseTx_subset (h : UInt256) : (m.eraseTx h tx).mapTx ⊆ m.mapTx :=
  List.filter_sublist.subset

theorem notMem_mapTx_eraseTx (h : UInt256) (tx' : CTransaction) : (h, tx') ∉ (m.eraseTx h tx).mapTx := by
  simp [CTxMemPool.eraseTx]

/-- The index after an operation that only takes transactions out. -/
structure Removed (hash : HashFn) (T : CTransaction → Prop) (m m' : CTxMemPool) : Prop where
  indexed : PoolIndexed hash T m'
  mapTx : m'.mapTx ⊆ m.mapTx

theorem Removed.refl (hm : PoolIndexed hash T m) : Removed hash T m m := ⟨hm, List.Subset.refl _⟩

theorem Removed.trans {m' m'' : CTxMemPool} (h : Removed hash T m m') (h' : Removed hash T m' m'') :
    Removed hash T m m'' := ⟨h'.indexed, List.Subset.trans h'.mapTx h.mapTx⟩

/-- A transaction of the pool can be taken out after others. -/
theorem Removed.eraseTx (hT : TxidsDiffer hash T) (hm : PoolIndexed hash T m) (htx : T tx)
    (hin : m.contains (tx.getHash hash)) {m' : CTxMemPool} (h : Removed hash T m m') :
    Removed hash T m (m'.eraseTx (tx.getHash hash) tx) := by
  refine ⟨h.indexed.eraseTx ?_ ?_, List.Subset.trans (mapTx_eraseTx_subset _) h.mapTx⟩
  · intro tx' hmem
    exact h.indexed.eq_of_hash hT htx hmem
  · intro o k ho hnext
    obtain ⟨tx', hmem, ho'⟩ := (h.indexed.next o k).mp hnext
    have hk := (hm.next o k).mpr ⟨tx', h.mapTx hmem, ho'⟩
    have hself := (hm.next o (tx.getHash hash)).mpr ⟨tx, hm.mem_of_contains hT htx hin, ho⟩
    exact Option.some.inj (hk.symm.trans hself)

theorem PoolIndexed.remove (hT : TxidsDiffer hash T) (hm : PoolIndexed hash T m) (htx : T tx) :
    Removed hash T m (m.remove hash tx) := by
  unfold CTxMemPool.remove
  split
  · rename_i hin
    exact (Removed.refl hm).eraseTx hT hm htx hin
  · exact Removed.refl hm

theorem notMem_mapTx_remove (hm : PoolIndexed hash T m) (h : UInt256) :
    (h, tx) ∉ (m.remove hash tx).mapTx := by
  intro hmem
  unfold CTxMemPool.remove at hmem
  split at hmem
  · obtain ⟨hold, hne⟩ := List.mem_filter.mp hmem
    exact absurd (hm.filed _ _ hold).1 (by simpa using hne)
  · rename_i hout
    rw [(hm.filed _ _ hmem).1] at hmem
    exact hout (contains_iff.mpr ⟨_, hmem⟩)

/-- The induction is on the depth; the spenders go first, and what they leave still fits. -/
theorem PoolIndexed.removeRecursive (hT : TxidsDiffer hash T) (n : Nat) (hm : PoolIndexed hash T m)
    (htx : T tx) : Removed hash T m (CTxMemPool.removeRecursive hash n m tx) := by
  induction n generalizing m tx with
  | zero => exact Removed.refl hm
  | succ n ih =>
    simp only [CTxMemPool.removeRecursive]
    split
    · rename_i hin
      apply Removed.eraseTx hT hm htx hin
      refine List.foldlRecOn (motive := Removed hash T m) _ _ (Removed.refl hm) ?_
      intro m' hm' i _
      split
      · rename_i spender hspender
        obtain ⟨h, -, hlookup⟩ := Option.bind_eq_some_iff.mp hspender
        exact hm'.trans (ih hm'.indexed (hm'.indexed.filed _ _ (lookup_mem hlookup)).2)
      · exact hm'
    · exact Removed.refl hm

theorem notMem_removeRecursive (hT : TxidsDiffer hash T) (n : Nat) (hm : PoolIndexed hash T m)
    (htx : T tx) (h : UInt256) :
    (h, tx) ∉ (CTxMemPool.removeRecursive hash (n + 1) m tx).mapTx := by
  intro hmem
  have hkept := hm.removeRecursive hT (n + 1) htx
  have hhash := (hkept.indexed.filed _ _ hmem).1
  rw [hhash] at hmem
  have hin := contains_iff.mpr ⟨_, hkept.mapTx hmem⟩
  simp only [CTxMemPool.removeRecursive, hin, if_true] at hmem
  exact notMem_mapTx_eraseTx _ _ hmem

/-- The round of `removeConflicts` for one outpoint. -/
theorem PoolIndexed.removeSpender (hT : TxidsDiffer hash T) (hm : PoolIndexed hash T m) (o : COutPoint)
    {m' : CTxMemPool}
    (hround : (match (m.mapNextTx o).bind m.lookup with
      | some txConflict =>
        if txConflict = tx then m
        else CTxMemPool.removeRecursive hash (m.mapTx.length + 1) m txConflict
      | none => m) = m') :
    Removed hash T m m' ∧ ∀ h tx', (h, tx') ∈ m'.mapTx → tx' ≠ tx → ¬ tx'.HasPrevout o := by
  cases hspender : (m.mapNextTx o).bind m.lookup with
  | none =>
    rw [hspender] at hround
    obtain rfl : m = m' := hround
    refine ⟨Removed.refl hm, ?_⟩
    intro h tx' hmem _ ho
    obtain ⟨tx'', hlookup⟩ := Option.isSome_iff_exists.mp (contains_iff.mpr ⟨tx', hmem⟩)
    rw [(hm.next o h).mpr ⟨tx', hmem, ho⟩, Option.bind_some, hlookup] at hspender
    cases hspender
  | some txConflict =>
    obtain ⟨h, hnext, hlookup⟩ := Option.bind_eq_some_iff.mp hspender
    have hmem := lookup_mem hlookup
    -- the index leads to the only spender
    have honly : ∀ h' tx', (h', tx') ∈ m.mapTx → tx'.HasPrevout o → tx' = txConflict := by
      intro h' tx' hmem' ho
      obtain ⟨tx'', hmem'', ho''⟩ := (hm.next o h).mp hnext
      rw [hm.unique hT hmem' hmem'' ho ho'']
      obtain ⟨hhash, htx⟩ := hm.filed _ _ hmem
      rw [hhash] at hmem''
      exact hm.eq_of_hash hT htx hmem''
    rw [hspender] at hround
    simp only at hround
    split at hround
    · rename_i hself
      obtain rfl : m = m' := hround
      refine ⟨Removed.refl hm, ?_⟩
      intro h' tx' hmem' hne ho
      exact hne ((honly h' tx' hmem' ho).trans hself)
    · subst hround
      have htx := (hm.filed _ _ hmem).2
      have hremoved := hm.removeRecursive hT (m.mapTx.length + 1) htx
      refine ⟨hremoved, ?_⟩
      intro h' tx' hmem' _ ho
      obtain rfl := honly h' tx' (hremoved.mapTx hmem') ho
      exact notMem_removeRecursive hT _ hm htx h' hmem'

/-- After `removeConflicts` no other transaction spends what `tx` spends. -/
theorem PoolIndexed.removeConflicts (hT : TxidsDiffer hash T) (hm : PoolIndexed hash T m)
    (tx : CTransaction) :
    Removed hash T m (m.removeConflicts hash tx) ∧
      ∀ h tx', (h, tx') ∈ (m.removeConflicts hash tx).mapTx → tx' ≠ tx →
        ∀ o, tx.HasPrevout o → ¬ tx'.HasPrevout o := by
  have hfold : ∀ (l : List CTxIn) (m : CTxMemPool), PoolIndexed hash T m →
      Removed hash T m (l.foldl (fun m txin =>
        match (m.mapNextTx txin.prevout).bind m.lookup with
        | some txConflict =>
          if txConflict = tx then m
          else CTxMemPool.removeRecursive hash (m.mapTx.length + 1) m txConflict
        | none => m) m) ∧
      ∀ h tx', (h, tx') ∈ (l.foldl (fun m txin =>
        match (m.mapNextTx txin.prevout).bind m.lookup with
        | some txConflict =>
          if txConflict = tx then m
          else CTxMemPool.removeRecursive hash (m.mapTx.length + 1) m txConflict
        | none => m) m).mapTx → tx' ≠ tx → ∀ txin ∈ l, ¬ tx'.HasPrevout txin.prevout := by
    intro l
    induction l with
    | nil =>
      intro m hm
      exact ⟨Removed.refl hm, by simp⟩
    | cons txin l ih =>
      intro m hm
      obtain ⟨hround, hgone⟩ := hm.removeSpender hT txin.prevout rfl
      obtain ⟨hrest, hrestGone⟩ := ih _ hround.indexed
      refine ⟨hround.trans hrest, ?_⟩
      intro h tx' hmem hne txin' hin
      rcases List.mem_cons.mp hin with rfl | hin
      · exact hgone h tx' (hrest.mapTx hmem) hne
      · exact hrestGone h tx' hmem hne txin' hin
  obtain ⟨hremoved, hgone⟩ := hfold tx.vin m hm
  refine ⟨hremoved, ?_⟩
  rintro h tx' hmem hne o ⟨txin, hin, rfl⟩
  exact hgone h tx' hmem hne txin hin

end Index

section Blocks

variable {hash : HashFn} {T : CTransaction → Prop} {m : CTxMemPool}

/-- What `SetBestChainInner` leaves: the transactions that are not in the block. -/
theorem PoolIndexed.removeAll (hT : TxidsDiffer hash T) (vtx : List CTransaction) (hvtx : ∀ tx ∈ vtx, T tx)
    (hm : PoolIndexed hash T m) :
    Removed hash T m (vtx.foldl (CTxMemPool.remove · hash) m) ∧
      ∀ h tx, (h, tx) ∈ (vtx.foldl (CTxMemPool.remove · hash) m).mapTx ↔
        (h, tx) ∈ m.mapTx ∧ tx ∉ vtx := by
  induction vtx generalizing m with
  | nil => exact ⟨Removed.refl hm, by simp⟩
  | cons d vtx ih =>
    have hd := hvtx d List.mem_cons_self
    have hround := hm.remove hT hd
    obtain ⟨hrest, hleft⟩ := ih (fun tx htx => hvtx tx (List.mem_cons_of_mem d htx)) hround.indexed
    refine ⟨hround.trans hrest, ?_⟩
    intro h tx
    rw [List.foldl_cons, hleft h tx, List.mem_cons, not_or]
    constructor
    · rintro ⟨hmem, hout⟩
      refine ⟨hround.mapTx hmem, ?_, hout⟩
      rintro rfl
      exact notMem_mapTx_remove hm h hmem
    · rintro ⟨hmem, hne, hout⟩
      refine ⟨?_, hout⟩
      unfold CTxMemPool.remove
      split
      · refine List.mem_filter.mpr ⟨hmem, ?_⟩
        rw [bne_iff_ne]
        rintro rfl
        exact hne (hm.eq_of_hash hT hd hmem)
      · exact hmem

/-- What `Reorganize` does for the connected transactions. -/
theorem PoolIndexed.deleteAll (hT : TxidsDiffer hash T) (vDelete : List CTransaction)
    (hdelete : ∀ tx ∈ vDelete, T tx) (hm : PoolIndexed hash T m) :
    Removed hash T m (vDelete.foldl (fun pool tx => (pool.remove hash tx).removeConflicts hash tx) m) ∧
      ∀ h tx, (h, tx) ∈
          (vDelete.foldl (fun pool tx => (pool.remove hash tx).removeConflicts hash tx) m).mapTx →
        ∀ d ∈ vDelete, tx ≠ d → ∀ o, d.HasPrevout o → ¬ tx.HasPrevout o := by
  induction vDelete generalizing m with
  | nil => exact ⟨Removed.refl hm, by simp⟩
  | cons d vDelete ih =>
    have hd := hdelete d List.mem_cons_self
    have hround := hm.remove hT hd
    obtain ⟨hconflicts, hgone⟩ := hround.indexed.removeConflicts hT d
    obtain ⟨hrest, hrestGone⟩ := ih (fun tx htx => hdelete tx (List.mem_cons_of_mem d htx))
      hconflicts.indexed
    refine ⟨(hround.trans hconflicts).trans hrest, ?_⟩
    intro h tx hmem d' hd'
    rcases List.mem_cons.mp hd' with rfl | hd'
    · exact hgone h tx (hrest.mapTx hmem)
    · exact hrestGone h tx hmem d' hd'

theorem PoolIndexed.acceptAll (p : ChainParams) (verdict : CTxMemPool → CTransaction → Bool)
    (l : List CTransaction) (hl : ∀ tx ∈ l, T tx) (hm : PoolIndexed hash T m) :
    PoolIndexed hash T (l.foldl (fun pool tx =>
      pool.acceptToMemoryPool p hash tx (verdict pool tx)) m) := by
  induction l generalizing m with
  | nil => exact hm
  | cons tx l ih =>
    apply ih (fun tx' htx' => hl tx' (List.mem_cons_of_mem tx htx'))
    exact hm.acceptToMemoryPool p (hl tx List.mem_cons_self) _

end Blocks

section Run

variable {Pt L : Type} (env : NodeEnv Pt L) (T : CTransaction → Prop)

/-- The transactions of the stored blocks are among these. -/
def Stored : Prop := ∀ pindex block, env.readFromDisk pindex = some block → ∀ tx ∈ block.vtx, T tx

/-- The nodes that a run with these transactions reaches. It starts with an empty pool on any chain, and
what is not the pool may change at any time. -/
inductive PoolRun : Node L → Prop
  | start (n : Node L) (hempty : n.pool = CTxMemPool.empty) : PoolRun n
  | other {n n' : Node L} (hn : PoolRun n) (hpool : n'.pool = n.pool) : PoolRun n'
  | accept {n : Node L} (hn : PoolRun n) (tx : CTransaction) (htx : T tx) (fRest : Bool) :
    PoolRun { n with pool := n.pool.acceptToMemoryPool env.p env.C.hash tx fRest }
  | keyImages {n : Node L} (hn : PoolRun n) (mapKeyImage : Bytes → Option CKeyImageSpent) :
    PoolRun { n with pool := { n.pool with mapKeyImage } }
  | remove {n : Node L} (hn : PoolRun n) (tx : CTransaction) (htx : T tx) :
    PoolRun { n with pool := n.pool.remove env.C.hash tx }
  | removeConflicts {n : Node L} (hn : PoolRun n) (tx : CTransaction) :
    PoolRun { n with pool := n.pool.removeConflicts env.C.hash tx }
  | extend {n : Node L} (hn : PoolRun n) (block : CBlock) (pindexNew : CBlockIndex)
    (hvtx : ∀ tx ∈ block.vtx, T tx) : PoolRun (setBestChainInner env n block pindexNew).1
  | reorganize {n : Node L} (hn : PoolRun n) (pindexNew : CBlockIndex) (hstored : Stored env T) :
    PoolRun (reorganize env n pindexNew).1

variable {env T}

theorem Stored.resurrected (hstored : Stored env T) (vDisconnect : List CBlockIndex) :
    ∀ tx ∈ resurrected env vDisconnect, T tx := by
  intro tx htx
  simp only [AliasWallet.resurrected, List.mem_flatMap] at htx
  obtain ⟨pindex, -, htx⟩ := htx
  split at htx
  · have hblock := (List.mem_filter.mp htx).1
    cases hread : env.readFromDisk pindex with
    | none => simp [hread] at hblock
    | some block => exact hstored pindex block hread tx (by simpa [hread] using hblock)
  · simp at htx

theorem mem_deleted {vConnect : List CBlockIndex} {tx : CTransaction} :
    tx ∈ deleted env vConnect ↔
      ∃ pindex ∈ vConnect, ∃ block, env.readFromDisk pindex = some block ∧ tx ∈ block.vtx := by
  simp only [deleted, List.mem_flatMap]
  refine exists_congr fun pindex => and_congr_right fun _ => ?_
  cases env.readFromDisk pindex <;> simp

theorem Stored.deleted (hstored : Stored env T) (vConnect : List CBlockIndex) :
    ∀ tx ∈ deleted env vConnect, T tx := by
  intro tx htx
  obtain ⟨pindex, -, block, hread, htx⟩ := mem_deleted.mp htx
  exact hstored pindex block hread tx htx

/-- The pool after a reorganisation. -/
theorem Stored.reorganizePool (hT : TxidsDiffer env.C.hash T) (hstored : Stored env T) (loc : L) {pool : CTxMemPool}
    (hpool : PoolIndexed env.C.hash T pool) (vDisconnect vConnect : List CBlockIndex) :
    PoolIndexed env.C.hash T (reorganizePool env loc pool vDisconnect vConnect) ∧
      ∀ h tx, (h, tx) ∈ (reorganizePool env loc pool vDisconnect vConnect).mapTx →
        ∀ d ∈ AliasWallet.deleted env vConnect, tx ≠ d → ∀ o, d.HasPrevout o → ¬ tx.HasPrevout o := by
  have haccept := hpool.acceptAll env.p (fun pool tx => env.wallet.acceptToMemoryPool loc pool tx)
    (AliasWallet.resurrected env vDisconnect) (hstored.resurrected vDisconnect)
  obtain ⟨hremoved, hgone⟩ := haccept.deleteAll hT (AliasWallet.deleted env vConnect)
    (hstored.deleted vConnect)
  exact ⟨hremoved.indexed, hgone⟩

theorem PoolRun.indexed (hT : TxidsDiffer env.C.hash T) {n : Node L} (hn : PoolRun env T n) :
    PoolIndexed env.C.hash T n.pool := by
  induction hn with
  | start n hempty =>
    rw [hempty]
    exact poolIndexed_empty
  | other hn hpool ih =>
    rw [hpool]
    exact ih
  | accept hn tx htx fRest ih => exact ih.acceptToMemoryPool env.p htx fRest
  | keyImages hn mapKeyImage ih => exact ⟨ih.filed, ih.next⟩
  | remove hn tx htx ih => exact (ih.remove hT htx).indexed
  | removeConflicts hn tx ih => exact (ih.removeConflicts hT tx).1.indexed
  | @extend n hn block pindexNew hvtx ih =>
    rcases setBestChainInner_cases env n block pindexNew with ⟨s, -, hcall⟩ | ⟨-, loc, hcall⟩
    · rw [hcall]
      exact (ih.removeAll hT block.vtx hvtx).1.indexed
    · rw [hcall]
      exact ih
  | @reorganize n hn pindexNew hstored ih =>
    rcases reorganize_cases env n pindexNew with ⟨pfork, s, -, -, hcall⟩ | ⟨-, s, hcall⟩
    · rw [hcall]
      exact (hstored.reorganizePool hT s.loc ih _ _).1
    · rw [hcall]
      exact ih

/-- In every run the index leads from exactly the outpoints that pooled transactions name, anonymous
inputs included, to the transaction; each is filed under its hash, and no two share an outpoint. -/
theorem mapNextTx_exact (env : NodeEnv Pt L) (T : CTransaction → Prop) (hT : TxidsDiffer env.C.hash T) (n : Node L)
    (hn : PoolRun env T n) :
    (∀ o h, n.pool.mapNextTx o = some h ↔ ∃ tx, (h, tx) ∈ n.pool.mapTx ∧ tx.HasPrevout o) ∧
      (∀ h tx, (h, tx) ∈ n.pool.mapTx → h = env.txid tx) ∧
      ∀ h tx h' tx', (h, tx) ∈ n.pool.mapTx → (h', tx') ∈ n.pool.mapTx → tx ≠ tx' →
        ∀ o, tx.HasPrevout o → ¬ tx'.HasPrevout o := by
  have hm := hn.indexed hT
  refine ⟨hm.next, fun h tx hmem => (hm.filed h tx hmem).1, ?_⟩
  intro h tx h' tx' hmem hmem' hne o ho ho'
  exact hne (hm.unique hT hmem hmem' ho ho')

end Run

section Conflicts

variable {Pt L : Type} {env : NodeEnv Pt L} {T : CTransaction → Prop} {n : Node L}

/-- No pooled transaction spends what another one of the block spends. -/
def ConflictFree (pool : CTxMemPool) (vtx : List CTransaction) : Prop :=
  ∀ h tx, (h, tx) ∈ pool.mapTx → ∀ d ∈ vtx, tx ≠ d → ∀ o, d.HasPrevout o → ¬ tx.HasPrevout o

/-- The same before the block is connected, for those that do not come with it. -/
def NoRival (pool : CTxMemPool) (vtx : List CTransaction) : Prop :=
  ∀ h tx, (h, tx) ∈ pool.mapTx → tx ∉ vtx → ∀ d ∈ vtx, ∀ o, d.HasPrevout o → ¬ tx.HasPrevout o

theorem setBestChainInner_conflictFree_iff (hT : TxidsDiffer env.C.hash T) (hn : PoolRun env T n) (block : CBlock)
    (pindexNew : CBlockIndex) (n' : Node L) (hvtx : ∀ tx ∈ block.vtx, T tx)
    (hcall : setBestChainInner env n block pindexNew = (n', true)) :
    ConflictFree n'.pool block.vtx ↔ NoRival n.pool block.vtx := by
  have hleft : ∀ h tx, (h, tx) ∈ n'.pool.mapTx ↔ (h, tx) ∈ n.pool.mapTx ∧ tx ∉ block.vtx := by
    rcases setBestChainInner_cases env n block pindexNew with ⟨s, -, hdone⟩ | ⟨-, loc, hdone⟩
    · rw [hdone, Prod.mk.injEq] at hcall
      rw [← hcall.1]
      exact ((hn.indexed hT).removeAll hT block.vtx hvtx).2
    · rw [hdone, Prod.mk.injEq] at hcall
      cases hcall.2
  constructor
  · intro hfree h tx hmem hout d hd
    exact hfree h tx ((hleft h tx).mpr ⟨hmem, hout⟩) d hd fun heq => hout (heq ▸ hd)
  · intro hrival h tx hmem d hd _
    obtain ⟨hmem, hout⟩ := (hleft h tx).mp hmem
    exact hrival h tx hmem hout d hd

theorem reorganize_conflictFree (hT : TxidsDiffer env.C.hash T) (hstored : Stored env T)
    (hn : PoolRun env T n) (pindexNew pfork : CBlockIndex) (n' : Node L)
    (hfork : findFork n.chain.pindexBest pindexNew = some pfork)
    (hcall : reorganize env n pindexNew = (n', true)) (pindex : CBlockIndex)
    (hconnect : pindex ∈ branchAbove pindexNew pfork) (block : CBlock)
    (hread : env.readFromDisk pindex = some block) : ConflictFree n'.pool block.vtx := by
  rcases reorganize_cases env n pindexNew with ⟨pfork', s, hfork', -, hdone⟩ | ⟨-, s, hdone⟩
  · obtain rfl : pfork = pfork' := Option.some.inj (hfork.symm.trans hfork')
    rw [hdone, Prod.mk.injEq] at hcall
    rw [← hcall.1]
    intro h tx hmem d hd
    apply (hstored.reorganizePool hT s.loc (hn.indexed hT) _ _).2 h tx hmem d
    exact mem_deleted.mpr ⟨pindex, List.mem_reverse.mpr hconnect, block, hread, hd⟩
  · rw [hdone, Prod.mk.injEq] at hcall
    cases hcall.2

/-- A reorganisation leaves no conflict with the blocks that it connects. A block that extends the best
chain leaves none exactly when the pool had none before. -/
theorem tipMove_conflictFree_iff (env : NodeEnv Pt L) (T : CTransaction → Prop)
    (hT : TxidsDiffer env.C.hash T) (n : Node L) (hn : PoolRun env T n) :
    (Stored env T → ∀ pindexNew pfork n', findFork n.chain.pindexBest pindexNew = some pfork →
      reorganize env n pindexNew = (n', true) →
      ∀ pindex ∈ branchAbove pindexNew pfork, ∀ block, env.readFromDisk pindex = some block →
        ConflictFree n'.pool block.vtx) ∧
    ∀ block pindexNew n', (∀ tx ∈ block.vtx, T tx) →
      setBestChainInner env n block pindexNew = (n', true) →
      (ConflictFree n'.pool block.vtx ↔ NoRival n.pool block.vtx) := by
  constructor
  · intro hstored pindexNew pfork n' hfork hcall pindex hconnect block hread
    exact reorganize_conflictFree hT hstored hn pindexNew pfork n' hfork hcall pindex hconnect block hread
  · intro block pindexNew n' hvtx hcall
    exact setBestChainInner_conflictFree_iff hT hn block pindexNew n' hvtx hcall

end Conflicts

section Scene

private theorem eq_mk_true {α : Type} {r : α × Bool} (h : r.2 = true) : r = (r.1, true) :=
  Prod.ext rfl h

theorem PoolRun.newBest {Pt L : Type} {env : NodeEnv Pt L} {T : CTransaction → Prop} {n : Node L}
    (hn : PoolRun env T n) (pindexNew : CBlockIndex) :
    PoolRun env T (AliasWallet.newBest env n pindexNew) := hn.other rfl

/-- The coin that block 2 mints from goes to a key instead. -/
def rivalMint : CTransaction :=
  { mintTx with nVersion := 1, vout := [⟨1999999 * COIN, payToPubKeyHash 1⟩] }

/-- The transactions of the blocks 1 and 2, and that one. -/
def rivalTxs : List CTransaction := (minedChainBlock 1).vtx ++ (minedChainBlock 2).vtx ++ [rivalMint]

private theorem firstBlock_rivalTxs (tx : CTransaction) (htx : tx ∈ (minedChainBlock 1).vtx) :
    tx ∈ rivalTxs :=
  List.mem_append_left _ (List.mem_append_left _ htx)

private theorem secondBlock_rivalTxs (tx : CTransaction) (htx : tx ∈ (minedChainBlock 2).vtx) :
    tx ∈ rivalTxs :=
  List.mem_append_left _ (List.mem_append_right _ htx)

private theorem mintTx_rivalTxs : mintTx ∈ rivalTxs := secondBlock_rivalTxs _ (by decide +kernel)

private theorem rivalTxs_differ : TxidsDiffer sha256d (· ∈ rivalTxs) := by
  have hnodup : (rivalTxs.map (CTransaction.getHash sha256d)).Nodup := by
    rw [rivalTxs, minedChainBlock_eq_eval, sha256d_eq_eval]
    decide +kernel
  intro tx tx' htx htx' heq
  exact List.inj_on_of_nodup_map hnodup htx htx' heq

def oneBlockIndex : CBlockIndex :=
  newIndex (testNode stoppedFile) rootNode.chain (minedChainBlock 1) 1 (minedPos 1)

/-- The node with block 1 on top of the genesis block. -/
def oneBlockNode : Node Unit :=
  newBest (testNode stoppedFile)
    (setBestChainInner (testNode stoppedFile) stoppedNode (minedChainBlock 1) oneBlockIndex).1 oneBlockIndex

def twoBlockIndex : CBlockIndex :=
  newIndex (testNode stoppedFile) oneBlockNode.chain (minedChainBlock 2) 1 (minedPos 2)

/-- Block 2 is filed while the pool has taken a transaction. -/
def pooledNode (tx : CTransaction) : Node Unit :=
  insertIndex { oneBlockNode with pool := oneBlockNode.pool.acceptToMemoryPool testNetParams sha256d tx true }
    twoBlockIndex

private theorem pooledNode_run (tx : CTransaction) (htx : tx ∈ rivalTxs) :
    PoolRun (testNode stoppedFile) (· ∈ rivalTxs) (pooledNode tx) := by
  have hgenesis : stoppedNode.pool = CTxMemPool.empty := by
    have hroot : (insertIndex startNode startIndex).chain.pindexGenesisBlock = [] ∧
        testGenesis.getHash (testNode stoppedFile).H =
          (testNode stoppedFile).p.hashGenesisBlock := ⟨rfl, by decide +kernel⟩
    simp only [stoppedNode, rootNode, setBestChain, if_pos hroot]
    rfl
  have hstart : PoolRun (testNode stoppedFile) (· ∈ rivalTxs) stoppedNode := PoolRun.start _ hgenesis
  have hfirst : PoolRun (testNode stoppedFile) (· ∈ rivalTxs) oneBlockNode :=
    (hstart.extend (minedChainBlock 1) oneBlockIndex firstBlock_rivalTxs).newBest oneBlockIndex
  exact PoolRun.other (hfirst.accept tx htx true) rfl

/-- The other transaction stays in the pool when block 2 extends the chain. -/
theorem rivalMint_left :
    ¬ ∀ T n, TxidsDiffer sha256d T → PoolRun (testNode stoppedFile) T n →
      ∀ block pindexNew n', (∀ tx ∈ block.vtx, T tx) →
        setBestChainInner (testNode stoppedFile) n block pindexNew = (n', true) →
          ConflictFree n'.pool block.vtx := by
  intro hall
  have hcall : (setBestChainInner (testNode stoppedFile) (pooledNode rivalMint) (minedChainBlock 2)
        twoBlockIndex).2 = true ∧
      (rivalMint.getHash sha256d, rivalMint) ∈ (setBestChainInner (testNode stoppedFile)
        (pooledNode rivalMint) (minedChainBlock 2) twoBlockIndex).1.pool.mapTx := by
    simp only [pooledNode, twoBlockIndex, oneBlockNode, oneBlockIndex, stoppedNode, rootNode, startIndex,
      stoppedFile, overpaidSecond, testNode_eq_eval, minedFile_eq_eval, minedChainBlock_eq_eval,
      minedBlock_eq_eval, sha256d_eq_eval]
    decide +kernel
  have hfree := hall _ _ rivalTxs_differ
    (pooledNode_run rivalMint (List.mem_append_right _ List.mem_cons_self)) (minedChainBlock 2)
    twoBlockIndex _ secondBlock_rivalTxs (eq_mk_true hcall.1)
  exact hfree _ rivalMint hcall.2 mintTx (by decide) (by decide)
    ⟨0xc88b2cc84fdff2b2962f35f1fa253e8443a7f28e7ad673459b14b961a02ee95f, 0⟩ (by decide) (by decide)

/-- When the pool holds the transaction of block 2 itself, nothing is left. -/
theorem pooledMint_conflictFree :
    ConflictFree (setBestChainInner (testNode stoppedFile) (pooledNode mintTx) (minedChainBlock 2)
      twoBlockIndex).1.pool (minedChainBlock 2).vtx := by
  have hcall : (setBestChainInner (testNode stoppedFile) (pooledNode mintTx) (minedChainBlock 2)
        twoBlockIndex).2 = true ∧
      ∀ e ∈ (pooledNode mintTx).pool.mapTx, e.2 ∈ (minedChainBlock 2).vtx := by
    simp only [pooledNode, twoBlockIndex, oneBlockNode, oneBlockIndex, stoppedNode, rootNode, startIndex,
      stoppedFile, overpaidSecond, testNode_eq_eval, minedFile_eq_eval, minedChainBlock_eq_eval,
      minedBlock_eq_eval, sha256d_eq_eval]
    decide +kernel
  have hrun := pooledNode_run mintTx mintTx_rivalTxs
  apply ((tipMove_conflictFree_iff (testNode stoppedFile) _ rivalTxs_differ _ hrun).2 (minedChainBlock 2)
    twoBlockIndex _
    secondBlock_rivalTxs (eq_mk_true hcall.1)).mpr
  intro h tx hmem hout
  exact absurd (hcall.2 (h, tx) hmem) hout

/-- The index of that pool leads from the output that the transaction spends to the transaction. -/
theorem pooledMint_indexed :
    (pooledNode mintTx).pool.mapNextTx
        ⟨0xc88b2cc84fdff2b2962f35f1fa253e8443a7f28e7ad673459b14b961a02ee95f, 0⟩ =
      some (mintTx.getHash sha256d) := by
  have hexact := mapNextTx_exact (testNode stoppedFile) _ rivalTxs_differ _
    (pooledNode_run mintTx mintTx_rivalTxs)
  have hmem : (mintTx.getHash sha256d, mintTx) ∈ (pooledNode mintTx).pool.mapTx := by
    simp only [pooledNode, twoBlockIndex, oneBlockNode, oneBlockIndex, stoppedNode, rootNode, startIndex,
      stoppedFile, overpaidSecond, testNode_eq_eval, minedFile_eq_eval, minedChainBlock_eq_eval,
      minedBlock_eq_eval, sha256d_eq_eval]
    decide +kernel
  exact (hexact.1 _ _).mpr ⟨mintTx, hmem, by decide⟩

/-- The node of the twelve blocks. -/
def minedTip : Node Unit := ⟨minedDisk, CTxMemPool.empty, singleChain (minedIndex 12) 1530002000, (),
  fun _ => ⟨0, 0, 0⟩⟩

/-- The same node once it has taken the anonymous spend. -/
def spendPooled : Node Unit :=
  { minedTip with pool := minedTip.pool.acceptToMemoryPool testNetParams sha256d firstSpend true }

/-- The index also has the outpoint that stands for the key image of an anonymous input. -/
theorem firstSpend_indexed :
    ¬ ∀ T n, TxidsDiffer sha256d T → PoolRun (testNode minedFile) T n →
      ∀ o, (n.pool.mapNextTx o).isSome ↔
        ∃ h tx, (h, tx) ∈ n.pool.mapTx ∧ ∃ txin ∈ tx.vin, ¬ txin.isAnonInput ∧ txin.prevout = o := by
  intro hall
  have hdiffer : TxidsDiffer sha256d (· = firstSpend) := by
    rintro tx tx' rfl rfl _
    rfl
  have hstart : PoolRun (testNode minedFile) (· = firstSpend) minedTip := PoolRun.start _ rfl
  have hrun : PoolRun (testNode minedFile) (· = firstSpend) spendPooled :=
    hstart.accept firstSpend rfl true
  have hpool : (spendPooled.pool.mapNextTx
        ⟨0xd7f33abc04cb76adb34c19d5b48c0b80d8e57209c2641e753e5b2ff8d2c24b03, 0x1001b⟩).isSome ∧
      ∀ e ∈ spendPooled.pool.mapTx, ∀ txin ∈ e.2.vin, txin.isAnonInput := by
    decide +kernel
  obtain ⟨h, tx, hmem, txin, hin, hclear, -⟩ := (hall _ _ hdiffer hrun _).mp hpool.1
  exact hclear (hpool.2 (h, tx) hmem txin hin)

end Scene

end AliasWallet
