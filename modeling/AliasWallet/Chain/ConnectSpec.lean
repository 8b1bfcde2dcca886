import AliasWallet.Chain.ConnectBlock
import AliasWallet.Lib.Fold

/-!
# What connecting a block has checked

Inversion lemmas for the loops of `ConnectInputs` and `ConnectBlock`: from a successful call back to
the checks on each input and each transaction.
-/

namespace AliasWallet
open Lib

section Fetch

variable {Pt L : Type} (env : NodeEnv Pt L) (pool : CTxMemPool)
  (readTxIndex : UInt256 → Option CTxIndex) (tx : CTransaction) (mapTestPool : MapTestPool)

/-- What `FetchInputs` finds for a block comes from the proposed changes or, where there is none, from
the index. -/
theorem fetchInputs_entries (P : UInt256 → CTxIndex × CTransaction → Prop) (inputs : MapPrevTx)
    (hentry : ∀ hash e txPrev, (mapTestPool hash).or (readTxIndex hash) = some e →
      readTxPrev env pool hash e = some txPrev → P hash (e, txPrev))
    (h : fetchInputs env pool readTxIndex true tx mapTestPool = some inputs) :
    AllEntries P inputs := by
  unfold fetchInputs at h
  by_cases hbase : tx.isCoinBase
  · simp only [hbase, if_true, Option.pure_def, Option.some.injEq] at h
    subst h
    exact AllEntries.none
  · simp only [hbase, Bool.false_eq_true, if_false, Option.bind_eq_bind, Option.bind_eq_some_iff,
      Option.ite_none_right_eq_some, Option.some.injEq] at h
    obtain ⟨inputs', hloop, -, rfl⟩ := h
    refine foldlM_preserves (AllEntries P) tx.vin _ inputs' AllEntries.none ?_ hloop
    intro t txin _ t' ht hround
    simp only [fetchInput, if_true] at hround
    by_cases hdone : tx.skipsInput txin || (t txin.prevout.hash).isSome
    · rw [if_pos hdone, Option.some.injEq] at hround
      rwa [← hround]
    · rw [if_neg hdone] at hround
      cases hfound : (mapTestPool txin.prevout.hash).or (readTxIndex txin.prevout.hash) with
      | none => simp [hfound] at hround
      | some txindex =>
        simp only [hfound, Option.bind_eq_bind, Option.bind_eq_some_iff, Option.pure_def,
          Option.some.injEq] at hround
        obtain ⟨txPrev, hread, rfl⟩ := hround
        exact ht.update _ (hentry _ txindex txPrev hfound hread)

/-- The entries that `FetchInputs` finds for a block have the positions of the proposed changes or,
where there is none, of the index. -/
theorem fetchInputs_pos (P : UInt256 → CDiskTxPos → Prop) (inputs : MapPrevTx)
    (hindex : ∀ hash e, mapTestPool hash = none → readTxIndex hash = some e → P hash e.pos)
    (hmap : AllEntries (fun hash e => P hash e.pos) mapTestPool)
    (h : fetchInputs env pool readTxIndex true tx mapTestPool = some inputs) :
    AllEntries (fun hash e => P hash e.1.pos) inputs := by
  refine fetchInputs_entries env pool readTxIndex tx mapTestPool (fun hash e => P hash e.1.pos) inputs ?_ h
  intro hash e txPrev hfound _
  cases Option.or_eq_some_iff.mp hfound with
  | inl hqueued => exact hmap _ _ hqueued
  | inr hstored => exact hindex _ _ hstored.1 hstored.2

end Fetch

section Inputs

variable {Pt L : Type} (env : NodeEnv Pt L) (c : ChainState) (tx : CTransaction) (fBlock : Bool)
  (flags : ScriptFlags) (posThisTx : CDiskTxPos)

/-- A round of the second loop of `ConnectInputs` on a transparent input. -/
theorem spendInput_eq_some (s s' : MapPrevTx × MapTestPool) (txin : CTxIn) (i : Nat)
    (hskip : ¬ tx.skipsInput txin)
    (h : spendInput env c tx fBlock flags posThisTx s (txin, i) = some s') :
    ∃ txindex txPrev, s.1 txin.prevout.hash = some (txindex, txPrev) ∧
      (∃ spent, txindex.vSpent[txin.prevout.n.toNat]? = some spent ∧ spent.isNull) ∧
      (checksScripts env c fBlock → verifySignature env.p env.C tx i flags txPrev) ∧
      s' = (Function.update s.1 txin.prevout.hash (some ({ txindex with
          vSpent := txindex.vSpent.set txin.prevout.n.toNat posThisTx }, txPrev)),
        if fBlock then Function.update s.2 txin.prevout.hash (some { txindex with
          vSpent := txindex.vSpent.set txin.prevout.n.toNat posThisTx }) else s.2) := by
  simp only [spendInput, hskip, Bool.false_eq_true, if_false, Option.bind_eq_bind,
    Option.bind_eq_some_iff, Prod.exists, Option.pure_def, Option.bind_none,
    Option.ite_none_left_eq_some, not_not, not_and, Option.some.injEq] at h
  obtain ⟨txindex, txPrev, hprev, spent, hspent, hnull, hverify, rfl⟩ := h
  exact ⟨txindex, txPrev, hprev, ⟨spent, hspent, hnull⟩, hverify, rfl⟩

theorem spendInput_of_skipsInput (s : MapPrevTx × MapTestPool) (txin : CTxIn) (i : Nat)
    (hskip : tx.skipsInput txin) :
    spendInput env c tx fBlock flags posThisTx s (txin, i) = some s := by
  simp [spendInput, hskip]

/-- The second loop replaces index entries only. -/
theorem spendInput_txPrev (s s' : MapPrevTx × MapTestPool) (e : CTxIn × Nat)
    (h : spendInput env c tx fBlock flags posThisTx s e = some s') (hash : UInt256) :
    (s'.1 hash).map Prod.snd = (s.1 hash).map Prod.snd := by
  by_cases hskip : tx.skipsInput e.1
  · rw [spendInput_of_skipsInput env c tx fBlock flags posThisTx s e.1 e.2 hskip] at h
    cases h
    rfl
  · obtain ⟨txindex, txPrev, hprev, -, -, rfl⟩ :=
      spendInput_eq_some env c tx fBlock flags posThisTx s s' e.1 e.2 hskip h
    by_cases hhash : hash = e.1.prevout.hash
    · subst hhash
      simp [hprev]
    · simp [hhash]

/-- A property of positions passes from the fetched entries to the proposed changes. -/
theorem connectInputs_pos (P : UInt256 → CDiskTxPos → Prop) (pindexBlock : CBlockIndex)
    (view : AnonView) (inputs : MapPrevTx) (mapTestPool mapTestPool' : MapTestPool)
    (hinputs : AllEntries (fun hash e => P hash e.1.pos) inputs)
    (hmap : AllEntries (fun hash e => P hash e.pos) mapTestPool)
    (h : connectInputs env c pindexBlock tx view inputs mapTestPool posThisTx fBlock flags =
      some mapTestPool') : AllEntries (fun hash e => P hash e.pos) mapTestPool' := by
  by_cases hbase : tx.isCoinBase
  · simp only [connectInputs, hbase, if_true, Option.pure_def, Option.some.injEq] at h
    subst h
    exact hmap
  · simp only [connectInputs, hbase, if_false, Option.bind_eq_bind, Option.bind_eq_some_iff,
      Bool.false_eq_true, Prod.exists, Option.ite_none_right_eq_some, Option.some.injEq] at h
    obtain ⟨-, -, inputs', pool', hloop, -, -, -, rfl⟩ := h
    have hinv := foldlM_preserves (fun t : MapPrevTx × MapTestPool =>
      AllEntries (fun hash e => P hash e.1.pos) t.1 ∧ AllEntries (fun hash e => P hash e.pos) t.2)
      tx.vin.zipIdx
      (inputs, mapTestPool) (inputs', pool') ⟨hinputs, hmap⟩ ?_ hloop
    · exact hinv.2
    · intro t x _ t' ht hround
      by_cases hskip : tx.skipsInput x.1
      · rw [spendInput_of_skipsInput env c tx fBlock flags posThisTx t x.1 x.2 hskip] at hround
        cases hround
        exact ht
      · obtain ⟨txindex, txPrev, hprev, -, -, rfl⟩ :=
          spendInput_eq_some env c tx fBlock flags posThisTx t t' x.1 x.2 hskip hround
        have hpos : P x.1.prevout.hash txindex.pos := ht.1 _ _ hprev
        refine ⟨ht.1.update _ hpos, ?_⟩
        cases fBlock with
        | false => exact ht.2
        | true => exact ht.2.update _ hpos

/-- No proposed change is taken back. -/
theorem connectInputs_isSome (pindexBlock : CBlockIndex) (view : AnonView) (inputs : MapPrevTx)
    (mapTestPool mapTestPool' : MapTestPool)
    (h : connectInputs env c pindexBlock tx view inputs mapTestPool posThisTx fBlock flags =
      some mapTestPool') (hash : UInt256) (hsome : (mapTestPool hash).isSome) :
    (mapTestPool' hash).isSome := by
  by_cases hbase : tx.isCoinBase
  · simp only [connectInputs, hbase, if_true, Option.pure_def, Option.some.injEq] at h
    rwa [← h]
  · simp only [connectInputs, hbase, if_false, Option.bind_eq_bind, Option.bind_eq_some_iff,
      Bool.false_eq_true, Prod.exists, Option.ite_none_right_eq_some, Option.some.injEq] at h
    obtain ⟨-, -, inputs', pool', hloop, -, -, -, rfl⟩ := h
    refine foldlM_preserves (fun t : MapPrevTx × MapTestPool => (t.2 hash).isSome) tx.vin.zipIdx
      (inputs, mapTestPool) (inputs', pool') hsome ?_ hloop
    intro t x _ t' ht hround
    by_cases hskip : tx.skipsInput x.1
    · rw [spendInput_of_skipsInput env c tx fBlock flags posThisTx t x.1 x.2 hskip] at hround
      cases hround
      exact ht
    · obtain ⟨txindex, txPrev, -, -, -, rfl⟩ :=
        spendInput_eq_some env c tx fBlock flags posThisTx t t' x.1 x.2 hskip hround
      cases fBlock with
      | false => exact ht
      | true =>
        by_cases hhash : hash = x.1.prevout.hash
        · subst hhash
          simp
        · simpa [hhash] using ht

theorem anonValueIn_isSome (view : AnonView) :
    (anonValueIn env tx view).isSome ↔ (tx.nVersion = ANON_TXN_VERSION →
      (checkAnonInputs env.p env.E env.C.hash view tx true).isOk) := by
  unfold anonValueIn
  by_cases hversion : tx.nVersion = ANON_TXN_VERSION
  · cases hcheck : checkAnonInputs env.p env.E env.C.hash view tx true with
    | error e => simp [hversion, Except.toOption, Except.isOk, Except.toBool]
    | ok nSum => simp [hversion, Except.toOption, Except.isOk, Except.toBool]
  · simp [hversion]

/-- With scripts on, `ConnectInputs` has verified each transparent input against the fetched
previous transaction. -/
theorem connectInputs_verified (pindexBlock : CBlockIndex) (view : AnonView) (inputs : MapPrevTx)
    (mapTestPool mapTestPool' : MapTestPool) (hbase : ¬ tx.isCoinBase)
    (hscripts : checksScripts env c fBlock)
    (h : connectInputs env c pindexBlock tx view inputs mapTestPool posThisTx fBlock flags =
      some mapTestPool') (i : Nat) (txin : CTxIn) (hi : tx.vin[i]? = some txin)
    (hskip : ¬ tx.skipsInput txin) :
    ∃ txindex txPrev, inputs txin.prevout.hash = some (txindex, txPrev) ∧
      verifySignature env.p env.C tx i flags txPrev := by
  simp only [connectInputs, hbase, if_false, Option.bind_eq_bind, Option.bind_eq_some_iff,
    Bool.false_eq_true, Prod.exists] at h
  obtain ⟨-, -, inputs', pool', hloop, -⟩ := h
  have hmem : (txin, i) ∈ tx.vin.zipIdx := List.mem_zipIdx_iff_getElem?.mpr hi
  obtain ⟨pre, post, hsplit⟩ := List.append_of_mem hmem
  rw [hsplit] at hloop
  obtain ⟨s, s', hpre, hround, -⟩ := (foldlM_eq_some_split pre post (txin, i) _ _).mp hloop
  have hsame : ∀ hash, (s.1 hash).map Prod.snd = (inputs hash).map Prod.snd :=
    foldlM_preserves (fun t => ∀ hash, (t.1 hash).map Prod.snd = (inputs hash).map Prod.snd) pre
      (inputs, mapTestPool) s (fun _ => rfl)
      (fun t e _ t' ht hstep hash =>
        (spendInput_txPrev env c tx fBlock flags posThisTx t t' e hstep hash).trans (ht hash)) hpre
  obtain ⟨txindex, txPrev, hprev, -, hverify, -⟩ :=
    spendInput_eq_some env c tx fBlock flags posThisTx s s' txin i hskip hround
  have hfetched := hsame txin.prevout.hash
  rw [hprev] at hfetched
  cases hinput : inputs txin.prevout.hash with
  | none => simp [hinput] at hfetched
  | some e =>
    obtain rfl : txPrev = e.2 := by simpa [hinput] using hfetched
    exact ⟨e.1, e.2, rfl, hverify hscripts⟩

end Inputs

section Block

variable {Pt L : Type} (env : NodeEnv Pt L) (c : ChainState) (pool : CTxMemPool) (s : Session L)
  (block : CBlock) (pindex : CBlockIndex) (fJustCheck : Bool)

/-- What a round of `ConnectBlock` has checked of a transaction with inputs. -/
structure TxConnected (tx : CTransaction) (t : BlockTotals) (inputs : MapPrevTx)
    (mapQueuedChanges : MapTestPool) : Prop where
  fetched : fetchInputs env pool s.readTxIndex true tx t.mapQueuedChanges = some inputs
  anonChecked : tx.nVersion = ANON_TXN_VERSION →
    (checkAnonInputs env.p env.E env.C.hash (sessionView env c pool s) tx true).isOk
  connected : connectInputs env c pindex tx (sessionView env c pool s) inputs t.mapQueuedChanges
    (posThisTx pindex t.nTxPos) true (blockScriptFlags env.p (CBlockIndex.nHeight pindex)) =
      some mapQueuedChanges

theorem connectTx_eq_some (t t' : BlockTotals) (tx : CTransaction)
    (h : connectTx env c pool s pindex fJustCheck t tx = some t') :
    ¬ overwritesUnspent s (env.txid tx) ∧ ∃ q,
      t'.mapQueuedChanges = Function.update q (env.txid tx)
        (some (CTxIndex.new (posThisTx pindex t.nTxPos) tx.vout.length)) ∧
      (tx.isCoinBase ∧ q = t.mapQueuedChanges ∨
        ¬ tx.isCoinBase ∧ ∃ inputs, TxConnected env c pool s pindex tx t inputs q) := by
  simp only [connectTx, Option.bind_eq_bind, Option.bind_none, Option.ite_none_left_eq_some,
    Option.pure_def] at h
  obtain ⟨hover, -, h⟩ := h
  refine ⟨hover, ?_⟩
  by_cases hbase : tx.isCoinBase
  · rw [if_pos hbase, Option.bind_some, Option.some.injEq] at h
    subst h
    exact ⟨t.mapQueuedChanges, rfl, Or.inl ⟨hbase, rfl⟩⟩
  · rw [if_neg hbase, Option.bind_eq_some_iff] at h
    obtain ⟨t₁, hround, h⟩ := h
    rw [Option.some.injEq] at h
    subst h
    simp only [connectTxInputs, Option.bind_eq_bind, Option.bind_none, Option.ite_none_left_eq_some,
      Option.bind_eq_some_iff, Option.pure_def] at hround
    obtain ⟨inputs, hfetch, -, nTxAnonIn, hanon, q, hconnect, hround⟩ := hround
    rw [Option.some.injEq] at hround
    subst hround
    have hchecked := (anonValueIn_isSome env tx (sessionView env c pool s)).mp (by simp [hanon])
    exact ⟨q, rfl, Or.inr ⟨hbase, inputs, hfetch, hchecked, hconnect⟩⟩

/-- Where a proposed entry of another transaction comes from. -/
theorem connectTx_queued (t t' : BlockTotals) (tx : CTransaction)
    (h : connectTx env c pool s pindex fJustCheck t tx = some t') (hash : UInt256) (e' : CTxIndex)
    (he' : t'.mapQueuedChanges hash = some e') (hne : hash ≠ env.txid tx) :
    (∃ e, t.mapQueuedChanges hash = some e ∧ e'.pos = e.pos) ∨
      t.mapQueuedChanges hash = none ∧ ∃ e, s.readTxIndex hash = some e ∧ e'.pos = e.pos := by
  obtain ⟨-, q, hq, hcases⟩ := connectTx_eq_some env c pool s pindex fJustCheck t t' tx h
  rw [hq, Function.update_of_ne hne] at he'
  cases hcases with
  | inl hbase =>
    rw [hbase.2] at he'
    exact Or.inl ⟨e', he', rfl⟩
  | inr hinputs =>
    obtain ⟨-, inputs, hconnected⟩ := hinputs
    let P : UInt256 → CDiskTxPos → Prop := fun hash pos =>
      (∃ e, t.mapQueuedChanges hash = some e ∧ pos = e.pos) ∨
        t.mapQueuedChanges hash = none ∧ ∃ e, s.readTxIndex hash = some e ∧ pos = e.pos
    have hmap : AllEntries (fun hash e => P hash e.pos) t.mapQueuedChanges :=
      fun hash e he => Or.inl ⟨e, he, rfl⟩
    have hfetched := fetchInputs_pos env pool s.readTxIndex tx t.mapQueuedChanges P inputs
      (fun hash e hnone he => Or.inr ⟨hnone, e, he, rfl⟩) hmap hconnected.fetched
    exact connectInputs_pos env c tx true _ _ P pindex _ inputs _ q hfetched hmap hconnected.connected
      hash e' he'

/-- A proposed entry keeps its position. -/
theorem connectTx_keeps (t t' : BlockTotals) (tx : CTransaction)
    (h : connectTx env c pool s pindex fJustCheck t tx = some t') (hash : UInt256) (e : CTxIndex)
    (he : t.mapQueuedChanges hash = some e) (hne : hash ≠ env.txid tx) :
    ∃ e', t'.mapQueuedChanges hash = some e' ∧ e'.pos = e.pos := by
  have hsome : (t'.mapQueuedChanges hash).isSome := by
    obtain ⟨-, q, hq, hcases⟩ := connectTx_eq_some env c pool s pindex fJustCheck t t' tx h
    rw [hq, Function.update_of_ne hne]
    cases hcases with
    | inl hbase => simp [hbase.2, he]
    | inr hinputs =>
      obtain ⟨-, inputs, hconnected⟩ := hinputs
      exact connectInputs_isSome env c tx true _ _ pindex _ inputs _ q hconnected.connected hash
        (by simp [he])
  obtain ⟨e', he'⟩ := Option.isSome_iff_exists.mp hsome
  refine ⟨e', he', ?_⟩
  cases connectTx_queued env c pool s pindex fJustCheck t t' tx h hash e' he' hne with
  | inl hqueued =>
    obtain ⟨e₁, he₁, hpos⟩ := hqueued
    rwa [show e = e₁ from Option.some.inj (he.symm.trans he₁)]
  | inr hstored => simp [he] at hstored

/-- The checks do not look at the wallet's own records. -/
theorem checkTransactions_loc (loc : L) :
    checkTransactions env c pool { s with loc } block pindex fJustCheck =
      checkTransactions env c pool s block pindex fJustCheck := rfl

/-- The answer of `ConnectBlock` is that of its checks. -/
theorem connectBlock_accepts :
    (connectBlock env c pool fJustCheck s block pindex).2 =
      (checkBlock env.p env.H c.nAdjustedTime c.nBestHeight (!fJustCheck) (!fJustCheck) block &&
        (checkTransactions env c pool s block pindex fJustCheck).isSome) := by
  unfold connectBlock
  simp only [checkTransactions_loc]
  cases checkBlock env.p env.H c.nAdjustedTime c.nBestHeight (!fJustCheck) (!fJustCheck) block with
  | false => simp
  | true =>
    cases checkTransactions env c pool s block pindex fJustCheck with
    | none => simp
    | some t => cases fJustCheck <;> simp

/-- The transactions of a connected block have different hashes. -/
theorem connectBlock_nodup (h : (connectBlock env c pool fJustCheck s block pindex).2 = true) :
    (block.vtx.map env.txid).Nodup := by
  rw [connectBlock_accepts, Bool.and_eq_true] at h
  have hcheck := h.1
  simp only [checkBlock, Bool.and_eq_true, decide_eq_true_eq] at hcheck
  exact hcheck.1.1.2

/-- `ConnectBlock` records a block that passes its checks, and otherwise leaves all but the wallet's
cache as it was. -/
theorem connectBlock_cases :
    (∃ t, checkTransactions env c pool s block pindex false = some t ∧
      connectBlock env c pool false s block pindex = (recordBlock env c pool { s with
        loc := env.wallet.cacheAnonStats s.loc s.disk (CBlockIndex.nHeight pindex.tail) }
        block pindex t, true)) ∨
      ∃ loc, connectBlock env c pool false s block pindex = ({ s with loc }, false) := by
  unfold connectBlock
  simp only [checkTransactions_loc]
  by_cases hcheck : checkBlock env.p env.H c.nAdjustedTime c.nBestHeight (!false) (!false) block
  · rw [if_neg (not_not.mpr hcheck)]
    cases htxs : checkTransactions env c pool s block pindex false with
    | none => exact Or.inr ⟨_, rfl⟩
    | some t => exact Or.inl ⟨t, rfl, rfl⟩
  · rw [if_pos hcheck]
    exact Or.inr ⟨s.loc, rfl⟩

/-- The state of the loop of `ConnectBlock` before a transaction of the block. -/
def ReachesTx (tx : CTransaction) (t : BlockTotals) : Prop :=
  ∃ pre post, block.vtx = pre ++ tx :: post ∧
    pre.foldlM (connectTx env c pool s pindex fJustCheck) (initTotals block pindex fJustCheck) = some t

theorem checkTransactions_reaches (h : (checkTransactions env c pool s block pindex fJustCheck).isSome)
    (tx : CTransaction) (t : BlockTotals) (ht : ReachesTx env c pool s block pindex fJustCheck tx t) :
    ∃ t', connectTx env c pool s pindex fJustCheck t tx = some t' := by
  obtain ⟨r, hr⟩ := Option.isSome_iff_exists.mp h
  simp only [checkTransactions, Option.bind_eq_bind, Option.bind_eq_some_iff] at hr
  obtain ⟨r', hfold, -⟩ := hr
  obtain ⟨pre, post, hsplit, hpre⟩ := ht
  rw [hsplit] at hfold
  obtain ⟨t₁, t', ht₁, hround, -⟩ := (foldlM_eq_some_split pre post tx _ _).mp hfold
  obtain rfl : t = t₁ := Option.some.inj (hpre.symm.trans ht₁)
  exact ⟨t', hround⟩

/-- The anonymous inputs of each transaction of the block passed their check, on the records of before
the block. -/
theorem checkTransactions_anonChecked
    (h : (checkTransactions env c pool s block pindex fJustCheck).isSome) (tx : CTransaction)
    (htx : tx ∈ block.vtx) (hbase : ¬ tx.isCoinBase) (hversion : tx.nVersion = ANON_TXN_VERSION) :
    (checkAnonInputs env.p env.E env.C.hash (sessionView env c pool s) tx true).isOk := by
  obtain ⟨r, hr⟩ := Option.isSome_iff_exists.mp h
  simp only [checkTransactions, Option.bind_eq_bind, Option.bind_eq_some_iff] at hr
  obtain ⟨r', hfold, -⟩ := hr
  obtain ⟨pre, post, hsplit⟩ := List.append_of_mem htx
  rw [hsplit] at hfold
  obtain ⟨t, t', -, hround, -⟩ := (foldlM_eq_some_split pre post tx _ _).mp hfold
  obtain ⟨-, q, -, hcases⟩ := connectTx_eq_some env c pool s pindex fJustCheck t t' tx hround
  cases hcases with
  | inl hcoin => exact absurd hcoin.1 hbase
  | inr hinputs =>
    obtain ⟨-, inputs, hconnected⟩ := hinputs
    exact hconnected.anonChecked hversion

/-- The position is in the block that is connected. -/
def AtBlock (pos : CDiskTxPos) : Prop := ∃ nTxPos, pos = posThisTx pindex nTxPos

/-- The proposed entries of the block: those of its own transactions are in the block, all others
stay where they are. -/
structure Queued (t : BlockTotals) : Prop where
  own : ∀ tx ∈ block.vtx, ∃ e, t.mapQueuedChanges (env.txid tx) = some e ∧ AtBlock pindex e.pos
  others : ∀ hash e', t.mapQueuedChanges hash = some e' → hash ∉ block.vtx.map env.txid →
    ∃ e, s.readTxIndex hash = some e ∧ e'.pos = e.pos

theorem checkTransactions_queued (t : BlockTotals)
    (h : checkTransactions env c pool s block pindex fJustCheck = some t) :
    Queued env s block pindex t := by
  simp only [checkTransactions, Option.bind_eq_bind, Option.bind_eq_some_iff,
    Option.ite_none_right_eq_some, Option.some.injEq] at h
  obtain ⟨t', hfold, -, rfl⟩ := h
  constructor
  · intro tx htx
    obtain ⟨pre, post, hsplit⟩ := List.append_of_mem htx
    rw [hsplit] at hfold
    obtain ⟨t₁, t₂, -, hround, hpost⟩ := (foldlM_eq_some_split pre post tx _ _).mp hfold
    refine foldlM_preserves (fun t : BlockTotals =>
      ∃ e, t.mapQueuedChanges (env.txid tx) = some e ∧ AtBlock pindex e.pos) post t₂ t' ?_ ?_ hpost
    · obtain ⟨-, q, hq, -⟩ := connectTx_eq_some env c pool s pindex fJustCheck t₁ t₂ tx hround
      rw [hq, Function.update_self]
      exact ⟨_, rfl, t₁.nTxPos, rfl⟩
    · intro t x _ t'' ht hx
      obtain ⟨e, he, hpos⟩ := ht
      by_cases hsame : env.txid tx = env.txid x
      · obtain ⟨-, q, hq, -⟩ := connectTx_eq_some env c pool s pindex fJustCheck t t'' x hx
        rw [hq, hsame, Function.update_self]
        exact ⟨_, rfl, t.nTxPos, rfl⟩
      · obtain ⟨e', he', hkeep⟩ :=
          connectTx_keeps env c pool s pindex fJustCheck t t'' x hx _ e he hsame
        exact ⟨e', he', hkeep ▸ hpos⟩
  · intro hash e' he' hout
    refine foldlM_preserves (fun t : BlockTotals => ∀ e', t.mapQueuedChanges hash = some e' →
      ∃ e, s.readTxIndex hash = some e ∧ e'.pos = e.pos) block.vtx _ t' ?_ ?_ hfold e' he'
    · intro e he
      cases he
    · intro t x hx t'' ht hround e he
      have hne : hash ≠ env.txid x := fun heq => hout (heq ▸ List.mem_map_of_mem hx)
      cases connectTx_queued env c pool s pindex fJustCheck t t'' x hround hash e he hne with
      | inl hqueued =>
        obtain ⟨e₁, he₁, hpos⟩ := hqueued
        obtain ⟨e₂, he₂, hpos'⟩ := ht e₁ he₁
        exact ⟨e₂, he₂, hpos.trans hpos'⟩
      | inr hstored =>
        exact hstored.2

end Block

end AliasWallet
