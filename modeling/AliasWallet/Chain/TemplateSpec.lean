import AliasWallet.Chain.BlockTemplate
import AliasWallet.Chain.Supply
import AliasWallet.Wallet.Recording

/-!
# What a block template contains

The queue and the waiting list hold each pooled transaction at most once, and `mapTestPool` remembers
what the transactions of the template have spent. The one thing that nothing remembers is the key
images.
-/

namespace AliasWallet
open Lib

section Marks

variable {Pt L : Type} (env : NodeEnv Pt L) (c : ChainState) (index : UInt256 → Option CTxIndex)
  (tx : CTransaction) (flags : ScriptFlags) (pos : CDiskTxPos)

/-- The miner's loop is the one of a block with all scripts verified. -/
theorem spendInputMiner_spendInput (t t' : MapPrevTx × MapTestPool) (e : CTxIn × Nat)
    (h : spendInputMiner env tx flags pos t e = some t') :
    spendInput env c tx true flags pos t e = some t' := by
  by_cases hskip : tx.skipsInput e.1
  · simpa [spendInputMiner, spendInput, hskip] using h
  · simp only [spendInputMiner, hskip, Bool.false_eq_true, if_false, Option.bind_eq_bind,
      Option.bind_eq_some_iff, Prod.exists, Option.pure_def, Option.bind_none,
      Option.ite_none_left_eq_some, not_not, Option.some.injEq] at h
    obtain ⟨txindex, txPrev, hprev, spent, hspent, hnull, hverify, rfl⟩ := h
    simp [spendInput, hskip, hprev, hspent, hnull, hverify]

theorem connectInputsMiner_connectInputs (pindexBlock : CBlockIndex) (view : AnonView)
    (inputs : MapPrevTx) (q q' : MapTestPool)
    (h : connectInputsMiner env pindexBlock tx view inputs q pos flags = some q') :
    connectInputs env c pindexBlock tx view inputs q pos true flags = some q' := by
  by_cases hbase : tx.isCoinBase
  · simpa [connectInputsMiner, connectInputs, hbase] using h
  · simp only [connectInputsMiner, hbase, if_false, Option.bind_eq_bind, Option.bind_eq_some_iff,
      Bool.false_eq_true, Prod.exists, Option.ite_none_right_eq_some, Option.some.injEq] at h
    obtain ⟨nValueIn, hvalues, inputs', q'', hloop, nSumAnon, hanon, hfees, rfl⟩ := h
    have hloop' : tx.vin.zipIdx.foldlM (spendInput env c tx true flags pos) (inputs, q) =
        some (inputs', q'') := by
      revert hloop
      generalize (inputs, q) = t
      generalize tx.vin.zipIdx = l
      induction l generalizing t with
      | nil => exact id
      | cons x l ih =>
        simp only [List.foldlM_cons, Option.bind_eq_bind, Option.bind_eq_some_iff]
        rintro ⟨t', hround, hrest⟩
        exact ⟨t', spendInputMiner_spendInput env c tx flags pos t t' x hround, ih t' hrest⟩
    simp [connectInputs, hbase, hvalues, hloop', hanon, hfees]

/-- The outpoint is marked as spent in the proposed changes. -/
def MarkedSpent (q : MapTestPool) (o : COutPoint) : Prop :=
  ∃ e spent, q o.hash = some e ∧ e.vSpent[o.n.toNat]? = some spent ∧ ¬ spent.isNull

/-- The fetched entries are those of the pending index. -/
def Agrees (t : MapPrevTx × MapTestPool) : Prop :=
  AllEntries (fun hash e => pending index t.2 hash = some e.1) t.1

theorem Agrees.update {index : UInt256 → Option CTxIndex} {t : MapPrevTx × MapTestPool}
    (ht : Agrees index t) (hash : UInt256) (e : CTxIndex) (txPrev : CTransaction) :
    Agrees index (Function.update t.1 hash (some (e, txPrev)), Function.update t.2 hash (some e)) := by
  intro hash' e' he'
  rw [pending_update]
  dsimp only at he'
  by_cases hhash : hash' = hash
  · subst hhash
    rw [Function.update_self, Option.some.injEq] at he'
    rw [Function.update_self, ← he']
  · rw [Function.update_of_ne hhash] at he' ⊢
    exact ht hash' e' he'

/-- One spent mark. -/
theorem spendInput_marks (t t' : MapPrevTx × MapTestPool) (txin : CTxIn) (i : Nat)
    (ht : Agrees index t) (hskip : ¬ tx.skipsInput txin) (hpos : ¬ pos.isNull)
    (h : spendInput env c tx true flags pos t (txin, i) = some t') :
    Agrees index t' ∧ ¬ MarkedSpent t.2 txin.prevout ∧ MarkedSpent t'.2 txin.prevout ∧
      ∀ o, MarkedSpent t.2 o → MarkedSpent t'.2 o := by
  obtain ⟨e, txPrev, hprev, ⟨spent, hspent, hnull⟩, -, rfl⟩ :=
    spendInput_eq_some env c tx true flags pos t t' txin i hskip h
  have hcurrent : pending index t.2 txin.prevout.hash = some e := ht _ _ hprev
  have hentry : ∀ e', t.2 txin.prevout.hash = some e' → e' = e := by
    intro e' he'
    rw [pending, he', Option.some_or, Option.some.injEq] at hcurrent
    exact hcurrent
  have hlt := (List.getElem?_eq_some_iff.mp hspent).1
  simp only [if_true]
  refine ⟨ht.update _ _ _, ?_, ?_, ?_⟩
  · rintro ⟨e', spent', he', hspent', hmark⟩
    rw [hentry e' he', hspent, Option.some.injEq] at hspent'
    exact hmark (hspent' ▸ hnull)
  · exact ⟨_, pos, Function.update_self _ _ _, by simp [hlt], hpos⟩
  · rintro o ⟨e', spent', he', hspent', hmark⟩
    by_cases hhash : o.hash = txin.prevout.hash
    · rw [hhash] at he'
      rw [hentry e' he'] at hspent'
      rw [MarkedSpent, hhash]
      by_cases hn : txin.prevout.n.toNat = o.n.toNat
      · exact ⟨_, pos, Function.update_self _ _ _, by simp [← hn, hlt], hpos⟩
      · exact ⟨_, spent', Function.update_self _ _ _, by simpa [List.getElem?_set_ne hn] using hspent',
          hmark⟩
    · exact ⟨e', spent', by simpa [hhash] using he', hspent', hmark⟩

/-- The transparent outpoints that a transaction spends. -/
def CTransaction.spentOutPoints (tx : CTransaction) : List COutPoint :=
  tx.transparentInputs.map CTxIn.prevout

/-- The marks of one transaction: its outpoints differ and were not marked before. -/
theorem spendInputs_marks (l : List (CTxIn × Nat)) (t t' : MapPrevTx × MapTestPool)
    (ht : Agrees index t) (hpos : ¬ pos.isNull)
    (h : l.foldlM (spendInput env c tx true flags pos) t = some t') :
    let outs := ((l.map Prod.fst).filter fun txin => !tx.skipsInput txin).map CTxIn.prevout
    outs.Nodup ∧ (∀ o ∈ outs, ¬ MarkedSpent t.2 o ∧ MarkedSpent t'.2 o) ∧
      ∀ o, MarkedSpent t.2 o → MarkedSpent t'.2 o := by
  induction l generalizing t with
  | nil =>
    simp only [List.foldlM_nil, Option.pure_def, Option.some.injEq] at h
    subst h
    simp
  | cons x l ih =>
    simp only [List.foldlM_cons, Option.bind_eq_bind, Option.bind_eq_some_iff] at h
    obtain ⟨t₁, hround, hrest⟩ := h
    by_cases hskip : tx.skipsInput x.1
    · rw [spendInput_of_skipsInput env c tx true flags pos t x.1 x.2 hskip, Option.some.injEq] at hround
      subst hround
      simpa [hskip] using ih t ht hrest
    · obtain ⟨hagrees, hfree, hmarked, hkept⟩ :=
        spendInput_marks env c index tx flags pos t t₁ x.1 x.2 ht hskip hpos hround
      obtain ⟨hnodup, hall, hkept'⟩ := ih t₁ hagrees hrest
      simp only [List.map_cons, hskip, List.filter_cons, Bool.not_false, if_true, List.nodup_cons]
      refine ⟨⟨fun hmem => (hall _ hmem).1 hmarked, hnodup⟩, ?_, fun o ho => hkept' o (hkept o ho)⟩
      intro o ho
      cases List.mem_cons.mp ho with
      | inl heq =>
        rw [heq]
        exact ⟨hfree, hkept' _ hmarked⟩
      | inr hmem =>
        exact ⟨fun hmark => (hall o hmem).1 (hkept o hmark), (hall o hmem).2⟩

end Marks

section Fees

variable {Pt L : Type} (env : NodeEnv Pt L) (c : ChainState) (pool : CTxMemPool) (disk : Disk)

/-- The transaction under a hash: the indexed one, or the pooled one. -/
def prevTx (hash : UInt256) : Option CTransaction :=
  match disk.txIndex hash with
  | some e => env.readTx e.pos
  | none => pool.lookup hash

/-- The previous transactions, as the functions on inputs take them. -/
def prevTxs : MapPrevTx := fun hash => (prevTx env pool disk hash).map fun tx => (CTxIndex.new .null 0, tx)

/-- The inputs of a transaction, transparent and anonymous, less its outputs. -/
def txFee (tx : CTransaction) : Int64 :=
  getValueIn (prevTxs env pool disk) tx - tx.getValueOut + (anonSum env c pool disk tx).getD 0

/-- The signature operations of a transaction, with those behind script hashes. -/
def txSigOps (tx : CTransaction) : Nat :=
  tx.getLegacySigOpCount + getP2SHSigOpCount (prevTxs env pool disk) tx

/-- Every transparent input finds the same output in both maps. -/
def SameOutputs (inputs inputs' : MapPrevTx) (tx : CTransaction) : Prop :=
  ∀ txin ∈ tx.transparentInputs, getOutputFor inputs txin = getOutputFor inputs' txin

theorem SameOutputs.valueIn {inputs inputs' : MapPrevTx} {tx : CTransaction}
    (h : SameOutputs inputs inputs' tx) : getValueIn inputs tx = getValueIn inputs' tx := by
  unfold getValueIn
  by_cases hbase : tx.isCoinBase
  · rw [if_pos hbase, if_pos hbase]
  · rw [if_neg hbase, if_neg hbase]
    congr 1
    apply List.map_congr_left
    intro txin hin
    rw [h txin hin]

theorem SameOutputs.sigOps {inputs inputs' : MapPrevTx} {tx : CTransaction}
    (h : SameOutputs inputs inputs' tx) : getP2SHSigOpCount inputs tx = getP2SHSigOpCount inputs' tx := by
  unfold getP2SHSigOpCount
  by_cases hbase : tx.isCoinBase
  · rw [if_pos hbase, if_pos hbase]
  · rw [if_neg hbase, if_neg hbase]
    congr 1
    apply List.map_congr_left
    intro txin hin
    rw [h txin hin]

theorem getOutputFor_prevTxs (txin : CTxIn) : getOutputFor (prevTxs env pool disk) txin =
    (prevTx env pool disk txin.prevout.hash).bind fun tx => tx.vout[txin.prevout.n.toNat]? := by
  cases hprev : prevTx env pool disk txin.prevout.hash with
  | none => simp [getOutputFor, prevTxs, hprev]
  | some tx => simp [getOutputFor, prevTxs, hprev]

/-- An output that is read from disk. -/
theorem getOutputFor_of_readFromTxdb {txin : CTxIn} {txindex : CTxIndex} {txout : CTxOut}
    (h : readFromTxdb env disk txin.prevout = some (txindex, txout)) :
    getOutputFor (prevTxs env pool disk) txin = some txout := by
  simp only [readFromTxdb, Option.bind_eq_bind, Option.bind_eq_some_iff, Option.pure_def,
    Option.some.injEq, Prod.mk.injEq] at h
  obtain ⟨e, he, tx, hread, txout', hout, rfl, rfl⟩ := h
  rw [getOutputFor_prevTxs, prevTx, he]
  simp [hread, hout]

end Fees

section Queue

variable {Pt L D : Type} (env : NodeEnv Pt L) (c : ChainState) (pool : CTxMemPool) (disk : Disk)

/-- The transactions that `CreateNewBlock` looks at. -/
def considered (tx : CTransaction) : Bool :=
  !tx.isCoinBase && !tx.isCoinStake && tx.isFinal c.nBestHeight c.nAdjustedTime

/-- The transactions that still wait for others. -/
def waiting (vOrphan : List (Option (COrphan D))) : List CTransaction :=
  vOrphan.filterMap fun o => o.bind fun o => if o.setDependsOn.isEmpty then none else some o.ptx

theorem waiting_append (l l' : List (Option (COrphan D))) :
    waiting (l ++ l') = waiting l ++ waiting l' := List.filterMap_append

theorem waiting_singleton (o : COrphan D) (h : o.setDependsOn ≠ []) : waiting [some o] = [o.ptx] := by
  simp [waiting, h]

theorem waiting_singleton_free (o : COrphan D) (h : o.setDependsOn = []) : waiting [some o] = [] := by
  simp [waiting, h]

/-- The queue, the waiting list and the template hold each of `txs` at most once. The fee in the queue
is right or zero, and that of a waiting transaction is zero. -/
structure QueueInv (txs vtx : List CTransaction) (vecPriority : List (TxPriority D))
    (vOrphan : List (Option (COrphan D))) : Prop where
  once : (vtx ++ vecPriority.map TxPriority.ptx ++ waiting vOrphan).Subperm txs
  queued : ∀ e ∈ vecPriority, considered c e.ptx ∧
    (e.nFee = 0 ∨ e.nFee = txFee env c pool disk e.ptx ∧ (anonSum env c pool disk e.ptx).isSome)
  alive : ∀ o ∈ vOrphan, ∃ o', o = some o' ∧ considered c o'.ptx ∧ o'.nFee = 0

variable {env c pool disk} {txs vtx : List CTransaction} {vecPriority : List (TxPriority D)}
  {vOrphan : List (Option (COrphan D))}

theorem QueueInv.more (h : QueueInv env c pool disk txs vtx vecPriority vOrphan) (tx : CTransaction) :
    QueueInv env c pool disk (txs ++ [tx]) vtx vecPriority vOrphan :=
  ⟨h.once.trans (List.sublist_append_left txs [tx]).subperm, h.queued, h.alive⟩

/-- A transaction enters the queue. -/
theorem QueueInv.enqueue (h : QueueInv env c pool disk txs vtx vecPriority vOrphan) (e : TxPriority D)
    (he : considered c e.ptx ∧
      (e.nFee = 0 ∨ e.nFee = txFee env c pool disk e.ptx ∧ (anonSum env c pool disk e.ptx).isSome)) :
    QueueInv env c pool disk (txs ++ [e.ptx]) vtx (vecPriority ++ [e]) vOrphan := by
  refine ⟨?_, ?_, h.alive⟩
  · have hperm : (vtx ++ (vecPriority ++ [e]).map TxPriority.ptx ++ waiting vOrphan).Perm
        ((vtx ++ vecPriority.map TxPriority.ptx ++ waiting vOrphan) ++ [e.ptx]) := by
      rw [List.map_append, List.map_singleton]
      simp only [List.append_assoc]
      exact (List.perm_append_comm.append_left _).append_left _
    exact hperm.subperm.trans (h.once.append (List.Subperm.refl [e.ptx]))
  · intro e' he'
    cases List.mem_append.mp he' with
    | inl hold => exact h.queued e' hold
    | inr hnew =>
      rw [List.mem_singleton.mp hnew]
      exact he

/-- A transaction enters the waiting list. -/
theorem QueueInv.wait (h : QueueInv env c pool disk txs vtx vecPriority vOrphan) (o : COrphan D)
    (hconsidered : considered c o.ptx) (hwaits : o.setDependsOn ≠ []) (hfee : o.nFee = 0) :
    QueueInv env c pool disk (txs ++ [o.ptx]) vtx vecPriority (vOrphan ++ [some o]) := by
  refine ⟨?_, h.queued, ?_⟩
  · rw [waiting_append, waiting_singleton o hwaits, ← List.append_assoc]
    exact h.once.append (List.Subperm.refl [o.ptx])
  · intro o' ho'
    cases List.mem_append.mp ho' with
    | inl hold => exact h.alive o' hold
    | inr hnew => exact ⟨o, List.mem_singleton.mp hnew, hconsidered, hfee⟩

theorem QueueInv.perm (h : QueueInv env c pool disk txs vtx vecPriority vOrphan)
    {vecPriority' : List (TxPriority D)} (hperm : vecPriority'.Perm vecPriority) :
    QueueInv env c pool disk txs vtx vecPriority' vOrphan := by
  refine ⟨?_, fun e he => h.queued e (hperm.mem_iff.mp he), h.alive⟩
  exact (((hperm.map TxPriority.ptx).append_left vtx).append_right _).subperm.trans h.once

/-- The front of the queue is skipped. -/
theorem QueueInv.skip {e : TxPriority D}
    (h : QueueInv env c pool disk txs vtx (e :: vecPriority) vOrphan) :
    QueueInv env c pool disk txs vtx vecPriority vOrphan := by
  refine ⟨?_, fun e' he' => h.queued e' (List.mem_cons_of_mem e he'), h.alive⟩
  refine List.Subperm.trans (List.Sublist.subperm ?_) h.once
  exact ((List.sublist_cons_self _ _).append_left vtx).append_right _

/-- The front of the queue goes into the template. -/
theorem QueueInv.take {e : TxPriority D}
    (h : QueueInv env c pool disk txs vtx (e :: vecPriority) vOrphan) :
    QueueInv env c pool disk txs (vtx ++ [e.ptx]) vecPriority vOrphan := by
  refine ⟨?_, fun e' he' => h.queued e' (List.mem_cons_of_mem e he'), h.alive⟩
  have honce := h.once
  rw [List.map_cons] at honce
  simpa using honce

/-- Every pointer leads into the waiting list. -/
def PointersValid (mapDependers : UInt256 → List Nat) (vOrphan : List (Option (COrphan D))) : Prop :=
  ∀ hash, ∀ porphan ∈ mapDependers hash, porphan < vOrphan.length

end Queue

section Collect

variable {Pt L D : Type} (env : NodeEnv Pt L) (c : ChainState) (pool : CTxMemPool) (disk : Disk)
  (F : DoubleOps D) (tx : CTransaction)

/-- The scan of the inputs is defined: an input waits only for an output that exists, and behind one
that waits no input is missing. -/
def scanDefined : Bool → List CTxIn → Bool
  | _, [] => true
  | fWaits, txin :: vin =>
    if tx.skipsInput txin || (readFromTxdb env disk txin.prevout).isSome then scanDefined fWaits vin
    else
      match pool.lookup txin.prevout.hash with
      | none => !fWaits
      | some txPrev => decide (txin.prevout.n.toNat < txPrev.vout.length) && scanDefined true vin

/-- The scan of `tx` on top of the waiting list `base`. -/
def ScanAt (base : List (Option (COrphan D))) (st : InputScan D) : Prop :=
  st.porphan = none ∧ st.vOrphan = base ∨
    st.porphan = some base.length ∧
      ∃ o, st.vOrphan = base ++ [some o] ∧ o.ptx = tx ∧ o.setDependsOn ≠ [] ∧ o.nFee = 0

theorem modify_append_singleton {A : Type} (l : List A) (a : A) (f : A → A) :
    (l ++ [a]).modify l.length f = l ++ [f a] := by
  induction l with
  | nil => rfl
  | cons x l ih => simpa using ih

theorem waitFor_scanAt (base : List (Option (COrphan D))) (st : InputScan D) (hash : UInt256)
    (h : ScanAt tx base st) :
    (st.waitFor F tx hash).porphan = some base.length ∧ ScanAt tx base (st.waitFor F tx hash) := by
  have hinsert : ∀ l : List UInt256, l.insert hash ≠ [] := fun l =>
    List.ne_nil_of_mem List.mem_insert_self
  cases h with
  | inl hnone =>
    obtain ⟨hporphan, hbase⟩ := hnone
    have hid : (st.waitFor F tx hash).porphan = some base.length := by
      simp [InputScan.waitFor, hporphan, hbase]
    have hlist : (st.waitFor F tx hash).vOrphan =
        base ++ [some ⟨tx, List.insert hash [], F.ofInt 0, F.ofInt 0, 0⟩] := by
      simp [InputScan.waitFor, hporphan, hbase, modify_append_singleton, dependOn]
    exact ⟨hid, Or.inr ⟨hid, _, hlist, rfl, hinsert [], rfl⟩⟩
  | inr hsome =>
    obtain ⟨hporphan, o, hold, hptx, -, hfee⟩ := hsome
    have hid : (st.waitFor F tx hash).porphan = some base.length := by
      simp [InputScan.waitFor, hporphan]
    have hlist : (st.waitFor F tx hash).vOrphan =
        base ++ [some { o with setDependsOn := o.setDependsOn.insert hash }] := by
      simp [InputScan.waitFor, hporphan, hold, modify_append_singleton, dependOn]
    exact ⟨hid, Or.inr ⟨hid, _, hlist, hptx, hinsert o.setDependsOn, hfee⟩⟩

/-- What the scan of the inputs yields, where it is defined. -/
structure Scanned (base : List (Option (COrphan D))) (vin : List CTxIn) (st st' : InputScan D)
    (fMissingInputs : Bool) : Prop where
  scanAt : ScanAt tx base st'
  pointers : ∀ hash, ∀ porphan ∈ st'.mapDependers hash,
    porphan ∈ st.mapDependers hash ∨ st'.porphan = some porphan
  waits : st'.porphan = none → st.porphan = none
  total : fMissingInputs = false → st'.porphan = none → st'.nTotalIn = st.nTotalIn +
    ((vin.filter fun txin => !tx.skipsInput txin).map fun txin =>
      ((getOutputFor (prevTxs env pool disk) txin).map CTxOut.nValue).getD 0).sum

theorem scanInputs_spec (base : List (Option (COrphan D))) (vin : List CTxIn) (st : InputScan D)
    (hat : ScanAt tx base st) (hdefined : scanDefined env pool disk tx st.porphan.isSome vin) :
    ∃ st' fMissingInputs, scanInputs env c pool disk F tx vin st = some (st', fMissingInputs) ∧
      Scanned env pool disk tx base vin st st' fMissingInputs := by
  induction vin generalizing st with
  | nil =>
    refine ⟨st, false, rfl, hat, fun _ _ h => Or.inl h, id, ?_⟩
    intro _ _
    simp
  | cons txin vin ih =>
    unfold scanDefined at hdefined
    unfold scanInputs
    by_cases hskip : tx.skipsInput txin
    · rw [hskip, Bool.true_or, if_pos rfl] at hdefined
      obtain ⟨st', f, hscan, hscanned⟩ := ih st hat hdefined
      refine ⟨st', f, by rw [if_pos hskip]; exact hscan, hscanned.scanAt, hscanned.pointers,
        hscanned.waits, ?_⟩
      simpa [hskip] using hscanned.total
    · rw [if_neg hskip]
      cases hread : readFromTxdb env disk txin.prevout with
      | some entry =>
        obtain ⟨txindex, txout⟩ := entry
        simp only [hread, Option.isSome_some, Bool.or_true, if_true] at hdefined
        obtain ⟨st', f, hscan, hscanned⟩ := ih { st with
          nTotalIn := st.nTotalIn + txout.nValue
          dPriority := F.add st.dPriority (F.mul (F.ofInt txout.nValue.toInt)
            (F.ofInt (env.getDepthInMainChain c txindex))) } hat hdefined
        refine ⟨st', f, hscan, hscanned.scanAt, hscanned.pointers, hscanned.waits, ?_⟩
        intro hfound hnone
        rw [hscanned.total hfound hnone]
        simp only [hskip, List.filter_cons, Bool.not_false, if_true, List.map_cons, List.sum_cons,
          getOutputFor_of_readFromTxdb env pool disk hread, Option.map_some, Option.getD_some]
        grind
      | none =>
        simp only [hread, hskip, Option.isSome_none, Bool.or_self, Bool.false_eq_true, if_false] at hdefined
        cases hlookup : pool.lookup txin.prevout.hash with
        | none =>
          have hporphan : st.porphan = none := by simpa [hlookup] using hdefined
          refine ⟨st, true, ?_, hat, fun _ _ h => Or.inl h, id, ?_⟩
          · simp only [hporphan]
            rw [← hporphan]
          · intro hfound
            cases hfound
        | some txPrev =>
          simp only [hlookup, Bool.and_eq_true, decide_eq_true_eq] at hdefined
          obtain ⟨hwaits, hat'⟩ := waitFor_scanAt F tx base st txin.prevout.hash hat
          have hdefined' : scanDefined env pool disk tx
              (st.waitFor F tx txin.prevout.hash).porphan.isSome vin := by
            rw [hwaits]
            exact hdefined.2
          obtain ⟨st', f, hscan, hscanned⟩ := ih { st.waitFor F tx txin.prevout.hash with
            nTotalIn := st.nTotalIn + (txPrev.vout.get ⟨_, hdefined.1⟩).nValue } hat' hdefined'
          have hlast : st'.porphan = some base.length := by
            cases hscanned.scanAt with
            | inl hnone =>
              have hcontra := hscanned.waits hnone.1
              dsimp only at hcontra
              rw [hwaits] at hcontra
              cases hcontra
            | inr hsome => exact hsome.1
          refine ⟨st', f, ?_, hscanned.scanAt, ?_, ?_, ?_⟩
          · simp only [List.getElem?_eq_getElem hdefined.1]
            exact hscan
          · intro hash porphan hmem
            cases hscanned.pointers hash porphan hmem with
            | inr hnew => exact Or.inr hnew
            | inl hold =>
              simp only [InputScan.waitFor] at hold
              by_cases hhash : hash = txin.prevout.hash
              · subst hhash
                rw [Function.update_self, List.mem_append, List.mem_singleton] at hold
                refine hold.imp_right fun heq => ?_
                have hid : st.porphan.getD st.vOrphan.length = base.length := by
                  have hwaits' := hwaits
                  simpa [InputScan.waitFor] using hwaits'
                rw [heq, hid, hlast]
              · rw [Function.update_of_ne hhash] at hold
                exact Or.inl hold
          · intro hnone
            rw [hlast] at hnone
            cases hnone
          · intro _ hnone
            rw [hlast] at hnone
            cases hnone

/-- One round of the loop over the pool. -/
theorem collectTx_spec (done : List CTransaction) (st : Collected D)
    (hinv : QueueInv env c pool disk done [] st.vecPriority st.vOrphan)
    (hpointers : PointersValid st.mapDependers st.vOrphan)
    (hdefined : considered c tx → scanDefined env pool disk tx false tx.vin) :
    ∃ st', collectTx env c pool disk F st tx = some st' ∧
      QueueInv env c pool disk (done ++ [tx]) [] st'.vecPriority st'.vOrphan ∧
      PointersValid st'.mapDependers st'.vOrphan := by
  unfold collectTx
  by_cases hconsidered : considered c tx
  · have htx := hconsidered
    simp only [considered, Bool.and_eq_true, Bool.not_eq_true'] at htx
    obtain ⟨⟨hbase, hstake⟩, hfinal⟩ := htx
    simp only [hbase, hstake, hfinal, Bool.or_self, Bool.not_true, Bool.false_eq_true, if_false]
    obtain ⟨scan, fMissing, hscan, hscanned⟩ := scanInputs_spec env c pool disk F tx st.vOrphan tx.vin
      ⟨none, F.ofInt 0, 0, st.vOrphan, st.mapDependers⟩ (Or.inl ⟨rfl, rfl⟩) (hdefined hconsidered)
    rw [hscan, Option.bind_eq_bind, Option.bind_some]
    have hpointers' : ∀ vOrphan : List (Option (COrphan D)), vOrphan.length = scan.vOrphan.length →
        PointersValid scan.mapDependers vOrphan := by
      intro vOrphan hlength hash porphan hmem
      rw [hlength]
      cases hscanned.pointers hash porphan hmem with
      | inl hold =>
        have hlt := hpointers hash porphan hold
        cases hscanned.scanAt with
        | inl hnone => rwa [hnone.2]
        | inr hsome =>
          obtain ⟨-, o, hlist, -⟩ := hsome
          rw [hlist, List.length_append]
          exact Nat.lt_add_right _ hlt
      | inr hnew =>
        cases hscanned.scanAt with
        | inl hnone =>
          rw [hnone.1] at hnew
          cases hnew
        | inr hsome =>
          obtain ⟨hid, o, hlist, -⟩ := hsome
          obtain rfl : porphan = st.vOrphan.length := Option.some.inj (hnew.symm.trans hid)
          simp [hlist]
    cases hscanned.scanAt with
    | inl hnone =>
      obtain ⟨hid, hlist⟩ := hnone
      have hkept : QueueInv env c pool disk (done ++ [tx]) [] st.vecPriority scan.vOrphan := by
        rw [hlist]
        exact hinv.more tx
      cases hanon : anonSum env c pool disk tx with
      | none => exact ⟨_, rfl, hkept, hpointers' _ rfl⟩
      | some nSumAnon =>
        cases fMissing with
        | true => exact ⟨_, rfl, hkept, hpointers' _ rfl⟩
        | false =>
          simp only [hid, Bool.false_eq_true, if_false]
          refine ⟨_, rfl, ?_, hpointers' _ rfl⟩
          rw [hlist]
          have htotal : scan.nTotalIn = getValueIn (prevTxs env pool disk) tx := by
            rw [hscanned.total rfl hid, getValueIn, if_neg (by simp [hbase])]
            exact Int64.zero_add _
          have hfee : scan.nTotalIn + nSumAnon - tx.getValueOut = txFee env c pool disk tx := by
            simp only [txFee, hanon, htotal, Option.getD_some]
            grind
          have hsome : (anonSum env c pool disk tx).isSome := by simp [hanon]
          generalize F.div (F.ofInt (scan.nTotalIn + nSumAnon - tx.getValueOut).toInt) _ = dFeePerKb
          exact hinv.enqueue ⟨_, dFeePerKb, _, tx⟩ ⟨hconsidered, Or.inr ⟨hfee, hsome⟩⟩
    | inr hsome =>
      obtain ⟨hid, o, hlist, rfl, hwaits, hfee⟩ := hsome
      have hkept : QueueInv env c pool disk (done ++ [o.ptx]) [] st.vecPriority scan.vOrphan := by
        rw [hlist]
        exact hinv.wait o hconsidered hwaits hfee
      cases hanon : anonSum env c pool disk o.ptx with
      | none => exact ⟨_, rfl, hkept, hpointers' _ rfl⟩
      | some nSumAnon =>
        cases fMissing with
        | true => exact ⟨_, rfl, hkept, hpointers' _ rfl⟩
        | false =>
          simp only [hid, Bool.false_eq_true, if_false]
          refine ⟨_, rfl, ?_, hpointers' _ (by simp)⟩
          simp only [hlist, modify_append_singleton, Option.map_some]
          generalize F.div (F.ofInt (scan.nTotalIn + nSumAnon - o.ptx.getValueOut).toInt) _ = dFeePerKb
          generalize F.div scan.dPriority _ = dPriority
          exact hinv.wait { o with dPriority, dFeePerKb } hconsidered hwaits hfee
  · have hskip : (tx.isCoinBase || tx.isCoinStake || !tx.isFinal c.nBestHeight c.nAdjustedTime) = true := by
      simp only [considered, Bool.and_eq_true, Bool.not_eq_true', not_and, Bool.not_eq_true] at hconsidered
      cases hbase : tx.isCoinBase with
      | true => rfl
      | false =>
        cases hstake : tx.isCoinStake with
        | true => rfl
        | false => simp [hconsidered ⟨hbase, hstake⟩]
    rw [if_pos hskip]
    exact ⟨st, rfl, hinv.more tx, hpointers⟩

theorem collectPool_spec
    (hdefined : ∀ tx ∈ pool.mapTx.map Prod.snd, considered c tx → scanDefined env pool disk tx false tx.vin) :
    ∃ st, collectPool env c pool disk F = some st ∧
      QueueInv env c pool disk (pool.mapTx.map Prod.snd) [] st.vecPriority st.vOrphan ∧
      PointersValid st.mapDependers st.vOrphan := by
  refine foldlM_total (fun done (st : Collected D) =>
    QueueInv env c pool disk done [] st.vecPriority st.vOrphan ∧
      PointersValid st.mapDependers st.vOrphan) _ _ ?_ ?_
  · refine ⟨⟨?_, ?_, ?_⟩, ?_⟩
    · exact List.Subperm.refl []
    · intro e he
      cases he
    · intro o ho
      cases ho
    · intro hash porphan hmem
      cases hmem
  · intro done tx rest hsplit st hst
    exact collectTx_spec env c pool disk F tx done st hst.1 hst.2 (hdefined tx (by simp [hsplit]))

end Collect

section Release

variable {Pt L D : Type} (env : NodeEnv Pt L) (c : ChainState) (pool : CTxMemPool) (disk : Disk)
  (F : DoubleOps D) (heap : HeapOps (TxPriority D)) (txs : List CTransaction) (hash : UInt256)

theorem perm_move {A : Type} [DecidableEq A] (l₁ l₂ l₃ l₄ : List A) (a : A) :
    (l₁ ++ (a :: l₂) ++ (l₃ ++ l₄)).Perm (l₁ ++ l₂ ++ (l₃ ++ a :: l₄)) := by
  rw [List.perm_iff_count]
  intro x
  simp only [List.count_append, List.count_cons]
  omega

/-- What a release changes: entries move from the waiting list to the queue. -/
structure Released (st st' : TemplateState D) : Prop where
  queue : QueueInv env c pool disk txs st.vtx st'.vecPriority st'.vOrphan
  orphans : st'.vOrphan.length = st.vOrphan.length
  pending : st'.vecPriority.length + (waiting st'.vOrphan).length =
    st.vecPriority.length + (waiting st.vOrphan).length
  rest : st' = { st with vecPriority := st'.vecPriority, vOrphan := st'.vOrphan }

theorem Released.trans {st st' st'' : TemplateState D} (h : Released env c pool disk txs st st')
    (h' : Released env c pool disk txs st' st'') : Released env c pool disk txs st st'' := by
  have hvtx : st'.vtx = st.vtx := by rw [h.rest]
  refine ⟨hvtx ▸ h'.queue, h'.orphans.trans h.orphans, h'.pending.trans h.pending, ?_⟩
  rw [h'.rest, h.rest]

theorem releaseDepender_spec (st : TemplateState D) (porphan : Nat)
    (hinv : QueueInv env c pool disk txs st.vtx st.vecPriority st.vOrphan)
    (hlt : porphan < st.vOrphan.length) :
    ∃ st', releaseDepender F heap hash st porphan = some st' ∧ Released env c pool disk txs st st' := by
  obtain ⟨o, ho, hconsidered, hfee⟩ := hinv.alive _ (List.getElem_mem hlt)
  have hread : st.vOrphan[porphan]? = some (some o) := by rw [List.getElem?_eq_getElem hlt, ho]
  have hsplit : st.vOrphan = st.vOrphan.take porphan ++ some o :: st.vOrphan.drop (porphan + 1) := by
    rw [← ho, List.cons_getElem_drop_succ, List.take_append_drop]
  have hset : ∀ o', st.vOrphan.set porphan o' =
      st.vOrphan.take porphan ++ o' :: st.vOrphan.drop (porphan + 1) := by
    intro o'
    rw [List.set_eq_take_append_cons_drop, if_pos hlt]
  have halive : ∀ o', considered c o'.ptx → o'.nFee = 0 → ∀ x ∈ st.vOrphan.set porphan (some o'),
      ∃ y, x = some y ∧ considered c y.ptx ∧ y.nFee = 0 := by
    intro o' hcons hzero x hx
    cases List.mem_or_eq_of_mem_set hx with
    | inl hold => exact hinv.alive x hold
    | inr hnew => exact ⟨o', hnew, hcons, hzero⟩
  unfold releaseDepender
  rw [hread]
  dsimp only
  by_cases hempty : o.setDependsOn = []
  · rw [hempty]
    exact ⟨st, rfl, hinv, rfl, rfl, rfl⟩
  · rw [if_neg (by simpa using hempty)]
    have hold : waiting st.vOrphan = waiting (st.vOrphan.take porphan) ++
        o.ptx :: waiting (st.vOrphan.drop (porphan + 1)) := by
      conv_lhs => rw [hsplit, ← List.singleton_append, waiting_append, waiting_append,
        waiting_singleton o hempty]
      rfl
    by_cases hlast : o.setDependsOn.filter (· != hash) = []
    · have hnew : waiting (st.vOrphan.set porphan
          (some { o with setDependsOn := o.setDependsOn.filter (· != hash) })) =
            waiting (st.vOrphan.take porphan) ++ waiting (st.vOrphan.drop (porphan + 1)) := by
        rw [hset, ← List.singleton_append, waiting_append, waiting_append,
          waiting_singleton_free _ hlast]
        rfl
      rw [if_pos (by simp [hlast])]
      have hpush := heap.pushHeap_perm (txPriorityCompare F st.fSortedByFee) st.vecPriority
        ⟨o.dPriority, o.dFeePerKb, o.nFee, o.ptx⟩
      refine ⟨_, rfl, ⟨?_, ?_, halive _ hconsidered hfee⟩, List.length_set, ?_, rfl⟩
      · rw [hnew]
        have hmap := hpush.map TxPriority.ptx
        rw [List.map_cons] at hmap
        have hperm := (hmap.append_left st.vtx).append_right
          (waiting (st.vOrphan.take porphan) ++ waiting (st.vOrphan.drop (porphan + 1)))
        have honce := hinv.once
        rw [hold] at honce
        exact (hperm.trans (perm_move _ _ _ _ _)).subperm.trans honce
      · intro e he
        cases List.mem_cons.mp (hpush.mem_iff.mp he) with
        | inl heq =>
          rw [heq]
          exact ⟨hconsidered, Or.inl hfee⟩
        | inr hmem => exact hinv.queued e hmem
      · rw [hnew, hold, hpush.length_eq]
        simp only [List.length_append, List.length_cons]
        omega
    · have hnew : waiting (st.vOrphan.set porphan
          (some { o with setDependsOn := o.setDependsOn.filter (· != hash) })) = waiting st.vOrphan := by
        rw [hold, hset, ← List.singleton_append, waiting_append, waiting_append,
          waiting_singleton _ hlast]
        rfl
      rw [if_neg (by simpa using hlast)]
      refine ⟨_, rfl, ⟨?_, hinv.queued, halive _ hconsidered hfee⟩, List.length_set, ?_, rfl⟩
      · rw [hnew]
        exact hinv.once
      · rw [hnew]

/-- All pointers of `mapDependers[hash]`. -/
theorem releaseDependers_spec (dependers : List Nat) (st : TemplateState D)
    (hinv : QueueInv env c pool disk txs st.vtx st.vecPriority st.vOrphan)
    (hpointers : ∀ porphan ∈ dependers, porphan < st.vOrphan.length) :
    ∃ st', dependers.foldlM (releaseDepender F heap hash) st = some st' ∧
      Released env c pool disk txs st st' := by
  refine foldlM_total (fun _ st' => Released env c pool disk txs st st') dependers st
    ⟨hinv, rfl, rfl, rfl⟩ ?_
  intro done porphan rest hsplit t ht
  have hvtx : t.vtx = st.vtx := by rw [ht.rest]
  have hlt : porphan < t.vOrphan.length := by
    rw [ht.orphans]
    exact hpointers porphan (by simp [hsplit])
  obtain ⟨t', hround, ht'⟩ := releaseDepender_spec env c pool disk F heap txs hash t porphan
    (hvtx ▸ ht.queue) hlt
  exact ⟨t', hround, ht.trans env c pool disk txs ht'⟩

end Release

section Ledger

variable {Pt L D : Type} (env : NodeEnv Pt L) (c : ChainState) (pool : CTxMemPool) (disk : Disk)
  (limits : BlockLimits)

/-- Where an entry of `mapTestPool` belongs: to an indexed transaction, or to one of the template. -/
def Located (vtx : List CTransaction) (hash : UInt256) (pos : CDiskTxPos) : Prop :=
  (∃ e, disk.txIndex hash = some e ∧ pos = e.pos) ∨
    disk.txIndex hash = none ∧ pos = CDiskTxPos.inMemoryPool ∧ hash ∈ vtx.map env.txid

/-- What holds of the template in every round. -/
structure TemplateInv (st : TemplateState D) : Prop where
  located : AllEntries (fun hash e => Located env disk st.vtx hash e.pos) st.mapTestPool
  marked : ∀ o ∈ st.vtx.flatMap CTransaction.spentOutPoints, MarkedSpent st.mapTestPool o
  once : (st.vtx.flatMap CTransaction.spentOutPoints).Nodup
  ordered : ∀ pre tx post, st.vtx = pre ++ tx :: post → ∀ txin ∈ tx.transparentInputs,
    (disk.txIndex txin.prevout.hash).isSome ∨ txin.prevout.hash ∈ pre.map env.txid
  checked : ∀ tx ∈ st.vtx, considered c tx ∧ (anonSum env c pool disk tx).isSome
  nFees : st.nFees = (st.vtx.map (txFee env c pool disk)).sum
  nBlockSize : st.nBlockSize = 1000 + (st.vtx.map CTransaction.size).sum
  nBlockSigOps : st.nBlockSigOps = 100 + (st.vtx.map (txSigOps env pool disk)).sum
  sizeBelow : st.vtx ≠ [] → st.nBlockSize < limits.nBlockMaxSize
  sigOpsBelow : st.nBlockSigOps < MAX_BLOCK_SIGOPS
  paying : ∀ tx ∈ st.vtx, ∃ nBlockSize, getMinFeeAt env.p nBlockSize ≤ txFee env c pool disk tx

variable {env disk} in
theorem Located.append {vtx : List CTransaction} {hash : UInt256} {pos : CDiskTxPos}
    (h : Located env disk vtx hash pos) (tx : CTransaction) : Located env disk (vtx ++ [tx]) hash pos := by
  refine h.imp_right fun hnew => ⟨hnew.1, hnew.2.1, ?_⟩
  rw [List.map_append]
  exact List.mem_append_left _ hnew.2.2

/-- What the miner fetches for a transaction. -/
theorem fetchInputs_template (tx : CTransaction) (vtx : List CTransaction) (q : MapTestPool)
    (inputs : MapPrevTx)
    (hdisk : AllEntries (fun _ e => e.pos ≠ CDiskTxPos.inMemoryPool) disk.txIndex)
    (hlocated : AllEntries (fun hash e => Located env disk vtx hash e.pos) q)
    (h : fetchInputs env pool disk.txIndex true tx q = some inputs) :
    AllEntries (fun hash e => pending disk.txIndex q hash = some e.1 ∧
      Located env disk vtx hash e.1.pos ∧ prevTx env pool disk hash = some e.2) inputs := by
  refine fetchInputs_entries env pool disk.txIndex tx q _ inputs ?_ h
  intro hash e txPrev hfound hread
  have hplace : Located env disk vtx hash e.pos := by
    cases Option.or_eq_some_iff.mp hfound with
    | inl hqueued => exact hlocated hash e hqueued
    | inr hstored => exact Or.inl ⟨e, hstored.2, rfl⟩
  refine ⟨hfound, hplace, ?_⟩
  unfold readTxPrev at hread
  cases hplace with
  | inl hindexed =>
    obtain ⟨e₀, he₀, hpos⟩ := hindexed
    rw [if_neg (hpos ▸ hdisk hash e₀ he₀), hpos] at hread
    rw [prevTx, he₀]
    exact hread
  | inr hpooled =>
    rw [if_pos hpooled.2.1] at hread
    rw [prevTx, hpooled.1]
    exact hread

/-- `FetchInputs` has found every transparent input. -/
theorem fetchInputs_found (readTxIndex : UInt256 → Option CTxIndex) (tx : CTransaction) (q : MapTestPool)
    (inputs : MapPrevTx) (hbase : ¬ tx.isCoinBase)
    (h : fetchInputs env pool readTxIndex true tx q = some inputs) :
    ∀ txin ∈ tx.transparentInputs, ∃ e, inputs txin.prevout.hash = some e := by
  simp only [fetchInputs, hbase, Bool.false_eq_true, if_false, Option.bind_eq_bind,
    Option.bind_eq_some_iff, Option.ite_none_right_eq_some, Option.some.injEq, List.all_eq_true] at h
  obtain ⟨inputs', -, hrange, rfl⟩ := h
  intro txin hin
  rw [CTransaction.transparentInputs, List.mem_filter] at hin
  have hfound := hrange txin hin.1
  cases hread : inputs' txin.prevout.hash with
  | none =>
    have hskip : tx.skipsInput txin = false := by simpa using hin.2
    simp [prevoutInRange, hread, hskip] at hfound
  | some e => exact ⟨e, rfl⟩

theorem sameOutputs_of_fetched {tx : CTransaction} {inputs : MapPrevTx}
    (hfound : ∀ txin ∈ tx.transparentInputs, ∃ e, inputs txin.prevout.hash = some e)
    (hprev : AllEntries (fun hash e => prevTx env pool disk hash = some e.2) inputs) :
    SameOutputs inputs (prevTxs env pool disk) tx := by
  intro txin hin
  obtain ⟨e, he⟩ := hfound txin hin
  rw [getOutputFor_prevTxs, hprev _ e he]
  simp [getOutputFor, he]

/-- What the miner has tested of a transaction that it takes. -/
structure TemplateTx (st : TemplateState D) (e : TxPriority D) (inputs : MapPrevTx) (q : MapTestPool)
    (nTxSigOps : Nat) (nFee : Int64) : Prop where
  fetched : fetchInputs env pool disk.txIndex true e.ptx st.mapTestPool = some inputs
  fee : templateFee env c pool disk inputs e = some nFee
  minFee : getMinFeeAt env.p st.nBlockSize ≤ nFee
  sigOps : nTxSigOps = e.ptx.getLegacySigOpCount + getP2SHSigOpCount inputs e.ptx
  sigOpsBelow : st.nBlockSigOps + nTxSigOps < MAX_BLOCK_SIGOPS
  connected : connectInputsMiner env c.pindexBest e.ptx (env.anonView c pool disk disk.txIndex) inputs
    st.mapTestPool CDiskTxPos.inMemoryPool mandatoryScriptFlags = some q

theorem connectTemplateTx_eq_some (st : TemplateState D) (e : TxPriority D) (r : MapTestPool × Nat × Int64)
    (h : connectTemplateTx env c pool disk st e = some r) :
    ∃ inputs q, TemplateTx env c pool disk st e inputs q r.2.1 r.2.2 ∧
      r.1 = Function.update q (env.txid e.ptx)
        (some (CTxIndex.new CDiskTxPos.inMemoryPool e.ptx.vout.length)) := by
  simp only [connectTemplateTx, Option.bind_eq_bind, Option.bind_none, Option.bind_eq_some_iff,
    Option.ite_none_left_eq_some, Option.pure_def, Option.some.injEq, not_le, Int64.not_lt] at h
  obtain ⟨inputs, hfetch, nFee, hfee, hmin, hsigOps, q, hconnect, rfl⟩ := h
  exact ⟨inputs, q, ⟨hfetch, hfee, hmin, rfl, by omega, hconnect⟩, rfl⟩

variable {env c pool disk} {st : TemplateState D} {e : TxPriority D} {inputs : MapPrevTx}
  {q : MapTestPool} {nTxSigOps : Nat} {nFee : Int64}

/-- The fee that is added is that of the transaction, and its anonymous inputs have passed. -/
theorem TemplateTx.fee_eq (h : TemplateTx env c pool disk st e inputs q nTxSigOps nFee)
    (hsame : SameOutputs inputs (prevTxs env pool disk) e.ptx)
    (hentry : e.nFee = 0 ∨
      e.nFee = txFee env c pool disk e.ptx ∧ (anonSum env c pool disk e.ptx).isSome) :
    nFee = txFee env c pool disk e.ptx ∧ (anonSum env c pool disk e.ptx).isSome := by
  have hfee := h.fee
  unfold templateFee at hfee
  by_cases hzero : e.nFee = 0
  · rw [if_pos hzero, Option.map_eq_some_iff] at hfee
    obtain ⟨nSumAnon, hanon, hfee⟩ := hfee
    refine ⟨?_, by simp [hanon]⟩
    rw [← hfee, hsame.valueIn, txFee, hanon, Option.getD_some]
  · rw [if_neg hzero, Option.some.injEq] at hfee
    obtain ⟨hright, hanon⟩ := hentry.resolve_left hzero
    exact ⟨hfee.symm.trans hright, hanon⟩

/-- The outpoints of the transaction differ, were not spent by the template, and are marked now. -/
theorem TemplateTx.marks (h : TemplateTx env c pool disk st e inputs q nTxSigOps nFee)
    (hbase : ¬ e.ptx.isCoinBase)
    (hagrees : Agrees disk.txIndex (inputs, st.mapTestPool)) :
    e.ptx.spentOutPoints.Nodup ∧
      (∀ o ∈ e.ptx.spentOutPoints, ¬ MarkedSpent st.mapTestPool o ∧ MarkedSpent q o) ∧
      ∀ o, MarkedSpent st.mapTestPool o → MarkedSpent q o := by
  have hconnect := connectInputsMiner_connectInputs env c e.ptx mandatoryScriptFlags
    CDiskTxPos.inMemoryPool c.pindexBest _ inputs st.mapTestPool q h.connected
  simp only [connectInputs, hbase, if_false, Option.bind_eq_bind, Option.bind_eq_some_iff,
    Bool.false_eq_true, Prod.exists, Option.ite_none_right_eq_some, Option.some.injEq] at hconnect
  obtain ⟨-, -, inputs', q', hloop, -, -, -, rfl⟩ := hconnect
  have hmarks := spendInputs_marks env c disk.txIndex e.ptx _ _ e.ptx.vin.zipIdx _ _ hagrees (by decide) hloop
  rw [List.zipIdx_map_fst] at hmarks
  exact hmarks

theorem TemplateTx.located (h : TemplateTx env c pool disk st e inputs q nTxSigOps nFee)
    (hlocated : AllEntries (fun hash e => Located env disk st.vtx hash e.pos) st.mapTestPool) :
    AllEntries (fun hash e => Located env disk st.vtx hash e.pos) q := by
  have hconnect := connectInputsMiner_connectInputs env c e.ptx mandatoryScriptFlags
    CDiskTxPos.inMemoryPool c.pindexBest _ inputs st.mapTestPool q h.connected
  have hinputs := fetchInputs_pos env pool disk.txIndex e.ptx st.mapTestPool (Located env disk st.vtx) inputs
    (fun hash e _ he => Or.inl ⟨e, he, rfl⟩) hlocated h.fetched
  exact connectInputs_pos env c e.ptx true _ _ (Located env disk st.vtx) c.pindexBest _ inputs _ q hinputs
    hlocated hconnect

/-- A transaction is added to the template. -/
theorem TemplateInv.add (hinv : TemplateInv env c pool disk limits st)
    (h : TemplateTx env c pool disk st e inputs q nTxSigOps nFee)
    (hdisk : AllEntries (fun _ e => e.pos ≠ CDiskTxPos.inMemoryPool) disk.txIndex)
    (hnew : env.txid e.ptx ∉ st.vtx.map env.txid) (hfresh : disk.txIndex (env.txid e.ptx) = none)
    (hconsidered : considered c e.ptx)
    (hentry : e.nFee = 0 ∨
      e.nFee = txFee env c pool disk e.ptx ∧ (anonSum env c pool disk e.ptx).isSome)
    (hsize : st.nBlockSize + e.ptx.size < limits.nBlockMaxSize) :
    TemplateInv env c pool disk limits { st with
      mapTestPool := Function.update q (env.txid e.ptx)
        (some (CTxIndex.new CDiskTxPos.inMemoryPool e.ptx.vout.length))
      vtx := st.vtx ++ [e.ptx]
      nBlockSize := st.nBlockSize + e.ptx.size
      nBlockSigOps := st.nBlockSigOps + nTxSigOps
      nFees := st.nFees + nFee } := by
  have hbase : ¬ e.ptx.isCoinBase := by
    simp only [considered, Bool.and_eq_true, Bool.not_eq_true'] at hconsidered
    simp [hconsidered.1.1]
  have hfetched := fetchInputs_template env pool disk e.ptx st.vtx _ inputs hdisk hinv.located h.fetched
  have hfound := fetchInputs_found env pool disk.txIndex e.ptx _ inputs hbase h.fetched
  have hsame := sameOutputs_of_fetched env pool disk hfound (fun hash e' he' => (hfetched hash e' he').2.2)
  obtain ⟨hfee, hanon⟩ := h.fee_eq hsame hentry
  obtain ⟨hnodup, hmarks, hkept⟩ := h.marks hbase fun hash e' he' => (hfetched hash e' he').1
  -- an input comes from the index or from an earlier transaction
  have hsource : ∀ txin ∈ e.ptx.transparentInputs, (disk.txIndex txin.prevout.hash).isSome ∨
      txin.prevout.hash ∈ st.vtx.map env.txid := by
    intro txin hin
    obtain ⟨e', he'⟩ := hfound txin hin
    refine (hfetched _ e' he').2.1.imp ?_ fun hpooled => hpooled.2.2
    rintro ⟨e₀, he₀, -⟩
    simp [he₀]
  have hother : ∀ hash, (disk.txIndex hash).isSome ∨ hash ∈ st.vtx.map env.txid →
      hash ≠ env.txid e.ptx := by
    rintro hash hcases rfl
    cases hcases with
    | inl hindexed =>
      rw [hfresh] at hindexed
      cases hindexed
    | inr hdone => exact hnew hdone
  have hspent : ∀ o ∈ st.vtx.flatMap CTransaction.spentOutPoints, o.hash ≠ env.txid e.ptx := by
    intro o ho
    obtain ⟨tx, htx, hin⟩ := List.mem_flatMap.mp ho
    obtain ⟨txin, hmem, rfl⟩ := List.mem_map.mp hin
    obtain ⟨pre, post, hsplit⟩ := List.append_of_mem htx
    refine hother _ ((hinv.ordered pre tx post hsplit txin hmem).imp_right fun hpre => ?_)
    rw [hsplit, List.map_append]
    exact List.mem_append_left _ hpre
  have hown : ∀ o ∈ e.ptx.spentOutPoints, o.hash ≠ env.txid e.ptx := by
    intro o ho
    obtain ⟨txin, hmem, rfl⟩ := List.mem_map.mp ho
    exact hother _ (hsource txin hmem)
  have hupdate : ∀ o, o.hash ≠ env.txid e.ptx → MarkedSpent q o →
      MarkedSpent (Function.update q (env.txid e.ptx)
        (some (CTxIndex.new CDiskTxPos.inMemoryPool e.ptx.vout.length))) o := by
    rintro o hne ⟨e', spent, he', hmark⟩
    exact ⟨e', spent, by rwa [Function.update_of_ne hne], hmark⟩
  constructor
  · refine AllEntries.update (fun hash e' he' => (h.located hinv.located hash e' he').append e.ptx) _ ?_
    exact Or.inr ⟨hfresh, rfl, by simp⟩
  · intro o ho
    rw [List.flatMap_append, List.mem_append, List.flatMap_singleton] at ho
    cases ho with
    | inl hold => exact hupdate o (hspent o hold) (hkept o (hinv.marked o hold))
    | inr hins => exact hupdate o (hown o hins) (hmarks o hins).2
  · rw [List.flatMap_append, List.flatMap_singleton, List.nodup_append]
    refine ⟨hinv.once, hnodup, ?_⟩
    rintro o hold o' hins rfl
    exact (hmarks o hins).1 (hinv.marked o hold)
  · intro pre tx post hsplit txin hin
    rcases List.append_eq_append_iff.mp hsplit with ⟨l, hpre, hrest⟩ | ⟨l, hvtx, hrest⟩
    · cases l with
      | nil =>
        obtain ⟨rfl, -⟩ := List.cons_eq_cons.mp hrest
        rw [hpre, List.append_nil]
        exact hsource txin hin
      | cons y l => simp at hrest
    · cases l with
      | nil =>
        obtain ⟨rfl, -⟩ := List.cons_eq_cons.mp hrest
        rw [List.append_nil] at hvtx
        rw [← hvtx]
        exact hsource txin hin
      | cons y l =>
        obtain ⟨rfl, -⟩ := List.cons_eq_cons.mp hrest
        exact hinv.ordered pre tx l hvtx txin hin
  · intro tx htx
    cases List.mem_append.mp htx with
    | inl hold => exact hinv.checked tx hold
    | inr hlast =>
      rw [List.mem_singleton.mp hlast]
      exact ⟨hconsidered, hanon⟩
  · dsimp only
    rw [hinv.nFees, hfee, List.map_append, List.sum_append, List.map_singleton, List.sum_singleton]
  · dsimp only
    rw [hinv.nBlockSize, List.map_append, List.sum_append, List.map_singleton, List.sum_singleton,
      Nat.add_assoc]
  · dsimp only
    rw [hinv.nBlockSigOps, h.sigOps, hsame.sigOps, List.map_append, List.sum_append, List.map_singleton,
      List.sum_singleton, txSigOps, Nat.add_assoc]
  · intro _
    exact hsize
  · exact h.sigOpsBelow
  · intro tx htx
    cases List.mem_append.mp htx with
    | inl hold => exact hinv.paying tx hold
    | inr hlast =>
      rw [List.mem_singleton.mp hlast]
      exact ⟨st.nBlockSize, hfee ▸ h.minFee⟩

end Ledger

section Template

variable {Pt L D : Type} (env : NodeEnv Pt L) (c : ChainState) (pool : CTxMemPool) (disk : Disk)
  (F : DoubleOps D) (heap : HeapOps (TxPriority D)) (limits : BlockLimits)

/-- The pool that `CreateNewBlock` reads: filed by hash, with nothing that is in the index already, and
with inputs that the scan can follow. -/
structure PoolSound : Prop where
  filed : ∀ e ∈ pool.mapTx, e.1 = env.txid e.2
  distinct : (pool.mapTx.map Prod.fst).Nodup
  fresh : ∀ e ∈ pool.mapTx, disk.txIndex e.1 = none
  defined : ∀ e ∈ pool.mapTx, considered c e.2 → scanDefined env pool disk e.2 false e.2.vin
  onDisk : AllEntries (fun _ e => e.pos ≠ CDiskTxPos.inMemoryPool) disk.txIndex

variable {env c pool disk}

theorem PoolSound.txids (h : PoolSound env c pool disk) :
    ((pool.mapTx.map Prod.snd).map env.txid).Nodup := by
  have hkeys : (pool.mapTx.map Prod.snd).map env.txid = pool.mapTx.map Prod.fst := by
    rw [List.map_map]
    apply List.map_congr_left
    intro e he
    exact (h.filed e he).symm
  rw [hkeys]
  exact h.distinct

theorem PoolSound.notIndexed (h : PoolSound env c pool disk) {tx : CTransaction}
    (htx : tx ∈ pool.mapTx.map Prod.snd) : disk.txIndex (env.txid tx) = none := by
  obtain ⟨e, he, rfl⟩ := List.mem_map.mp htx
  rw [← h.filed e he]
  exact h.fresh e he

variable (env c pool disk)

/-- What holds of the whole state in every round. -/
structure RoundInv (mapDependers : UInt256 → List Nat) (st : TemplateState D) : Prop where
  queue : QueueInv env c pool disk (pool.mapTx.map Prod.snd) st.vtx st.vecPriority st.vOrphan
  pointers : PointersValid mapDependers st.vOrphan
  template : TemplateInv env c pool disk limits st

/-- The transactions that can still come. -/
def TemplateState.left (st : TemplateState D) : Nat := st.vecPriority.length + (waiting st.vOrphan).length

theorem sortByFee_eq (st : TemplateState D) (e : TxPriority D) :
    ∃ fSortedByFee vecPriority, vecPriority.Perm st.vecPriority ∧
      sortByFee F heap limits st e = { st with fSortedByFee, vecPriority } := by
  unfold sortByFee
  split
  · exact ⟨true, _, heap.makeHeap_perm _ _, rfl⟩
  · exact ⟨st.fSortedByFee, st.vecPriority, List.Perm.refl _, rfl⟩

theorem nodup_map_of_subperm {A B : Type} (f : A → B) {l l' : List A} (h : l.Subperm l')
    (hnodup : (l'.map f).Nodup) : (l.map f).Nodup := by
  obtain ⟨l'', hperm, hsub⟩ := h
  exact (hperm.map f).nodup_iff.mp (hnodup.sublist (hsub.map f))

theorem templateRound_spec (hpool : PoolSound env c pool disk) (mapDependers : UInt256 → List Nat)
    (st : TemplateState D) (e : TxPriority D)
    (hqueue : QueueInv env c pool disk (pool.mapTx.map Prod.snd) st.vtx (e :: st.vecPriority) st.vOrphan)
    (hpointers : PointersValid mapDependers st.vOrphan)
    (htemplate : TemplateInv env c pool disk limits st) :
    ∃ st', templateRound env c pool disk F heap limits mapDependers st e = some st' ∧
      RoundInv env c pool disk limits mapDependers st' ∧ st'.left = st.left := by
  unfold templateRound
  by_cases hlimits : withinLimits env c F limits st e
  · rw [if_neg (not_not.mpr hlimits)]
    obtain ⟨fSortedByFee, vecPriority, hperm, hsort⟩ := sortByFee_eq F heap limits st e
    rw [hsort]
    have hqueue' := hqueue.perm (hperm.cons e)
    have hleft : vecPriority.length = st.vecPriority.length := hperm.length_eq
    have htemplate' : TemplateInv env c pool disk limits { st with fSortedByFee, vecPriority } := by
      obtain ⟨h1, h2, h3, h4, h5, h6, h7, h8, h9, h10, h11⟩ := htemplate
      exact ⟨h1, h2, h3, h4, h5, h6, h7, h8, h9, h10, h11⟩
    dsimp only
    cases hconnect : connectTemplateTx env c pool disk { st with fSortedByFee, vecPriority } e with
    | none =>
      refine ⟨_, rfl, ⟨hqueue'.skip, hpointers, htemplate'⟩, ?_⟩
      simp [TemplateState.left, hleft]
    | some r =>
      obtain ⟨mapTestPool, nTxSigOps, nFee⟩ := r
      obtain ⟨inputs, q, htx, hq⟩ := connectTemplateTx_eq_some env c pool disk _ e _ hconnect
      obtain ⟨hconsidered, hentry⟩ := hqueue.queued e List.mem_cons_self
      -- the transaction is pooled and not in the template yet
      have htxids : ((st.vtx ++ e.ptx :: (st.vecPriority.map TxPriority.ptx ++ waiting st.vOrphan)).map
          env.txid).Nodup := by
        have honce := hqueue.once
        rw [List.map_cons, List.append_assoc, List.cons_append] at honce
        exact nodup_map_of_subperm env.txid honce hpool.txids
      have hnew : env.txid e.ptx ∉ st.vtx.map env.txid := by
        rw [List.map_append, List.map_cons] at htxids
        intro hdone
        exact (List.nodup_append.mp htxids).2.2 _ hdone _ List.mem_cons_self rfl
      have hmem : e.ptx ∈ pool.mapTx.map Prod.snd := hqueue.once.subset (by simp)
      have hsize : st.nBlockSize + e.ptx.size < limits.nBlockMaxSize := by
        simp only [withinLimits, Bool.and_eq_true, decide_eq_true_eq] at hlimits
        exact hlimits.1.1.1
      have hadd := htemplate'.add limits htx hpool.onDisk hnew (hpool.notIndexed hmem) hconsidered hentry
        hsize
      dsimp only at hq
      rw [← hq] at hadd
      obtain ⟨st', hrelease, hreleased⟩ := releaseDependers_spec env c pool disk F heap
        (pool.mapTx.map Prod.snd) (env.txid e.ptx) (mapDependers (env.txid e.ptx))
        { st with
          fSortedByFee
          vecPriority
          mapTestPool
          vtx := st.vtx ++ [e.ptx]
          nBlockSize := st.nBlockSize + e.ptx.size
          nBlockSigOps := st.nBlockSigOps + nTxSigOps
          nFees := st.nFees + nFee } hqueue'.take (hpointers (env.txid e.ptx))
      refine ⟨st', hrelease, ⟨?_, ?_, ?_⟩, ?_⟩
      · have hvtx : st'.vtx = st.vtx ++ [e.ptx] := by rw [hreleased.rest]
        rw [hvtx]
        exact hreleased.queue
      · intro hash porphan hptr
        rw [hreleased.orphans]
        exact hpointers hash porphan hptr
      · rw [hreleased.rest]
        obtain ⟨h1, h2, h3, h4, h5, h6, h7, h8, h9, h10, h11⟩ := hadd
        exact ⟨h1, h2, h3, h4, h5, h6, h7, h8, h9, h10, h11⟩
      · rw [TemplateState.left, hreleased.pending, TemplateState.left]
        simp [hleft]
  · rw [if_pos hlimits]
    exact ⟨st, rfl, ⟨hqueue.skip, hpointers, htemplate⟩, rfl⟩

/-- The loop ends with an empty queue, where the rounds suffice for all that can still come. -/
theorem templateLoop_spec (hpool : PoolSound env c pool disk) (mapDependers : UInt256 → List Nat) (n : Nat)
    (st : TemplateState D) (hinv : RoundInv env c pool disk limits mapDependers st) (hleft : st.left ≤ n) :
    ∃ st', templateLoop env c pool disk F heap limits mapDependers n st = some st' ∧
      RoundInv env c pool disk limits mapDependers st' ∧ st'.vecPriority = [] := by
  induction n generalizing st with
  | zero =>
    refine ⟨st, rfl, hinv, ?_⟩
    unfold TemplateState.left at hleft
    exact List.eq_nil_of_length_eq_zero (by omega)
  | succ n ih =>
    unfold templateLoop
    cases hqueue : st.vecPriority with
    | nil => exact ⟨st, rfl, hinv, hqueue⟩
    | cons e rest =>
      have hpop := heap.popHeap_perm (txPriorityCompare F st.fSortedByFee) e rest
      have hqueue' := hinv.queue
      rw [hqueue] at hqueue'
      have htemplate : TemplateInv env c pool disk limits { st with
          vecPriority := heap.popHeap (txPriorityCompare F st.fSortedByFee) e rest } := by
        obtain ⟨h1, h2, h3, h4, h5, h6, h7, h8, h9, h10, h11⟩ := hinv.template
        exact ⟨h1, h2, h3, h4, h5, h6, h7, h8, h9, h10, h11⟩
      obtain ⟨st₁, hround, hinv₁, hleft₁⟩ := templateRound_spec env c pool disk F heap limits hpool
        mapDependers { st with
          vecPriority := heap.popHeap (txPriorityCompare F st.fSortedByFee) e rest } e
        (hqueue'.perm (hpop.cons e)) hinv.pointers htemplate
      have hless : st₁.left ≤ n := by
        rw [hleft₁]
        simp only [TemplateState.left, hqueue, List.length_cons] at hleft ⊢
        rw [hpop.length_eq]
        omega
      obtain ⟨st', hloop, hinv', hempty⟩ := ih st₁ hinv₁ hless
      refine ⟨st', ?_, hinv', hempty⟩
      simp only [Option.bind_eq_bind, hround, Option.bind_some]
      exact hloop

/-- The transactions of a template, each taken from the pool at most once, with an empty queue at the
end. -/
theorem collectTransactions_spec (hpool : PoolSound env c pool disk) :
    ∃ st, collectTransactions env c pool disk F heap limits = some st ∧
      TemplateInv env c pool disk limits st ∧ st.vtx.Subperm (pool.mapTx.map Prod.snd) ∧
      st.vecPriority = [] := by
  obtain ⟨collected, hcollect, hqueue, hpointers⟩ := collectPool_spec env c pool disk F (by
    intro tx htx hconsidered
    obtain ⟨e, he, rfl⟩ := List.mem_map.mp htx
    exact hpool.defined e he hconsidered)
  have hheap := heap.makeHeap_perm (txPriorityCompare F (limits.nBlockPrioritySize == 0)) collected.vecPriority
  have hstart : TemplateInv env c pool disk limits (D := D) {
      vecPriority := heap.makeHeap (txPriorityCompare F (limits.nBlockPrioritySize == 0))
        collected.vecPriority
      vOrphan := collected.vOrphan
      fSortedByFee := limits.nBlockPrioritySize == 0
      mapTestPool := fun _ => none
      vtx := []
      nBlockSize := 1000
      nBlockSigOps := 100
      nFees := 0 } := by
    constructor
    · exact AllEntries.none
    · intro o ho
      cases ho
    · exact List.nodup_nil
    · intro pre tx post hsplit
      simp at hsplit
    · intro tx htx
      cases htx
    · rfl
    · rfl
    · rfl
    · intro hne
      exact absurd rfl hne
    · exact (by decide : 100 < MAX_BLOCK_SIGOPS)
    · intro tx htx
      cases htx
  have hleft : collected.vecPriority.length + (waiting collected.vOrphan).length ≤ pool.mapTx.length := by
    have hlength := hqueue.once.length_le
    simpa using hlength
  obtain ⟨st, hloop, hinv, hempty⟩ := templateLoop_spec env c pool disk F heap limits hpool
    collected.mapDependers pool.mapTx.length _ ⟨hqueue.perm hheap, hpointers, hstart⟩ (by
      rw [TemplateState.left, hheap.length_eq]
      exact hleft)
  refine ⟨st, ?_, hinv.template, ?_, hempty⟩
  · simp only [collectTransactions, hcollect, Option.bind_eq_bind, Option.bind_some]
    exact hloop
  · refine List.Subperm.trans (List.Sublist.subperm ?_) hinv.queue.once
    rw [List.append_assoc]
    exact List.sublist_append_left _ _

/-- The transactions that the miner may take: looked at, and with anonymous inputs that pass. -/
def eligible (tx : CTransaction) : Bool := considered c tx && (anonSum env c pool disk tx).isSome

/-- No key image occurs twice among the transactions that the miner may take. -/
def ImagesDiffer : Prop :=
  (((pool.mapTx.map Prod.snd).filter (eligible env c pool disk)).flatMap CTransaction.spentImages).Nodup

/-- A valid choice of transactions behind the coinbase, with the fees that are reported for it. -/
structure ValidTemplate (vtx : List CTransaction) (nFees : Int64) : Prop where
  distinct : vtx.Nodup
  ordered : ∀ pre tx post, vtx = pre ++ tx :: post → ∀ txin ∈ tx.transparentInputs, ∀ txPrev ∈ vtx,
    env.txid txPrev = txin.prevout.hash → txPrev ∈ pre
  spentOnce : (vtx.flatMap CTransaction.spentOutPoints).Nodup
  imagesOnce : (vtx.flatMap CTransaction.spentImages).Nodup
  size : (vtx.map CTransaction.size).sum < limits.nBlockMaxSize
  sigOps : (vtx.map (txSigOps env pool disk)).sum < MAX_BLOCK_SIGOPS
  fees : nFees = (vtx.map (txFee env c pool disk)).sum

theorem TemplateInv.valid {st : TemplateState D} (hinv : TemplateInv env c pool disk limits st)
    (hpool : PoolSound env c pool disk) (himages : ImagesDiffer env c pool disk)
    (hsub : st.vtx.Subperm (pool.mapTx.map Prod.snd)) :
    ValidTemplate env c pool disk limits st.vtx st.nFees := by
  have htxids : (st.vtx.map env.txid).Nodup := nodup_map_of_subperm env.txid hsub hpool.txids
  constructor
  · exact htxids.of_map env.txid
  · intro pre tx post hsplit txin hin txPrev hprev hhash
    have hfresh := hpool.notIndexed (hsub.subset hprev)
    rw [hhash] at hfresh
    have hsource := (hinv.ordered pre tx post hsplit txin hin).resolve_left (by simp [hfresh])
    obtain ⟨txPrev', hpre, hsame⟩ := List.mem_map.mp hsource
    have hmem : txPrev' ∈ st.vtx := by
      rw [hsplit]
      exact List.mem_append_left _ hpre
    rwa [List.inj_on_of_nodup_map htxids hprev hmem (hhash.trans hsame.symm)]
  · exact hinv.once
  · have hfilter : st.vtx.filter (eligible env c pool disk) = st.vtx := by
      rw [List.filter_eq_self]
      intro tx htx
      rw [eligible, Bool.and_eq_true]
      exact hinv.checked tx htx
    have hsub' := hsub.filter (eligible env c pool disk)
    rw [hfilter] at hsub'
    obtain ⟨l, hperm, hl⟩ := hsub'
    exact (hperm.flatMap_right CTransaction.spentImages).nodup_iff.mp
      (himages.sublist (hl.flatMap _))
  · by_cases hempty : st.vtx = []
    · rw [hempty]
      exact Nat.lt_of_lt_of_le (by decide) limits.clamped
    · have hbelow := hinv.sizeBelow hempty
      rw [hinv.nBlockSize] at hbelow
      omega
  · have hbelow := hinv.sigOpsBelow
    rw [hinv.nBlockSigOps] at hbelow
    omega
  · exact hinv.nFees

/-- The template that `CreateNewBlock` returns. -/
theorem createNewBlock_valid (hpool : PoolSound env c pool disk) (himages : ImagesDiffer env c pool disk)
    (fProofOfStake : Bool) (nBits : UInt32) (scriptSig scriptPubKey : Bytes) :
    ∃ block nFees, createNewBlock env c pool disk F heap limits fProofOfStake nBits scriptSig scriptPubKey =
        some (block, nFees) ∧
      ValidTemplate env c pool disk limits block.vtx.tail nFees := by
  obtain ⟨st, hcollect, hinv, hsub, -⟩ := collectTransactions_spec env c pool disk F heap limits hpool
  simp only [createNewBlock, hcollect, Option.bind_eq_bind, Option.bind_some]
  exact ⟨_, _, rfl, hinv.valid env c pool disk limits hpool himages hsub⟩

end Template

section Rivals

/-- The priorities as exact quotients. -/
def quotients : DoubleOps ℚ where
  ofInt n := n
  add a b := a + b
  mul a b := a * b
  div a b := a / b
  lt a b := decide (a < b)
  eq a b := decide (a = b)

/-- A queue without an order, as any heap of at most one entry. -/
def plainQueue : HeapOps (TxPriority ℚ) where
  makeHeap _ l := l
  pushHeap _ l e := e :: l
  popHeap _ _ l := l
  makeHeap_perm _ l := List.Perm.refl l
  pushHeap_perm _ l e := List.Perm.refl (e :: l)
  popHeap_perm _ _ l := List.Perm.refl l

/-- Spends of one coin whose inputs differ in a byte that no test reads. -/
def rivalSpend (low : UInt32) : CTransaction where
  nVersion := ANON_TXN_VERSION
  nTime := 1540000500
  vin := [restakedInput low]
  vout := [⟨499990000, payToPubKeyHash 1⟩]
  nLockTime := 0

def poolOf (txs : List CTransaction) : CTxMemPool :=
  txs.foldr (fun tx pool => pool.acceptToMemoryPool regTestParams sha256d tx true) CTxMemPool.empty

def oldCoinTemplate (txs : List CTransaction) : Option (CBlock × Int64) :=
  createNewBlock (fileNode regTestParams []) (singleChain oldCoinIndex 1540001000) (poolOf txs)
    (oldCoinSession [oldCoinImage]).disk quotients plainQueue (BlockLimits.ofArgs 250000 0 27000) true 0 [] []


theorem poolOf_sound (env : NodeEnv Secp256k1.Point Unit) (c : ChainState) (disk : Disk)
    (txs : List CTransaction) (hhash : env.C.hash = sha256d)
    (hpool : (poolOf txs).mapTx = txs.map fun tx => (tx.getHash sha256d, tx))
    (hdiffer : (txs.map fun tx => tx.getHash sha256d).Nodup)
    (hanon : ∀ tx ∈ txs, ∀ txin ∈ tx.vin, tx.skipsInput txin)
    (hfresh : ∀ tx ∈ txs, disk.txIndex (tx.getHash sha256d) = none)
    (honDisk : AllEntries (fun _ e => e.pos ≠ CDiskTxPos.inMemoryPool) disk.txIndex) :
    PoolSound env c (poolOf txs) disk := by
  constructor
  · intro e he
    rw [hpool] at he
    obtain ⟨tx, -, rfl⟩ := List.mem_map.mp he
    rw [NodeEnv.txid, hhash]
  · rwa [hpool, List.map_map]
  · intro e he
    rw [hpool] at he
    obtain ⟨tx, htx, rfl⟩ := List.mem_map.mp he
    exact hfresh tx htx
  · intro e he _
    rw [hpool] at he
    obtain ⟨tx, htx, rfl⟩ := List.mem_map.mp he
    have hskip := hanon tx htx
    dsimp only
    generalize tx.vin = vin at hskip
    induction vin with
    | nil => rfl
    | cons txin vin ih =>
      rw [List.forall_mem_cons] at hskip
      rw [scanDefined, hskip.1, Bool.true_or, if_pos rfl]
      exact ih hskip.2
  · exact honDisk

/-- Both spends of the coin stand in the pool, and the template takes both. -/
theorem rivalSpends_template :
    PoolSound (fileNode regTestParams []) (singleChain oldCoinIndex 1540001000)
        (poolOf [rivalSpend 0, rivalSpend 1]) (oldCoinSession [oldCoinImage]).disk ∧
      ∃ block nFees, oldCoinTemplate [rivalSpend 0, rivalSpend 1] = some (block, nFees) ∧
        ¬ (block.vtx.tail.flatMap CTransaction.spentImages).Nodup := by
  have hrun : (let r := oldCoinTemplate [rivalSpend 0, rivalSpend 1]
      r.elim false fun r => !decide (r.1.vtx.tail.flatMap CTransaction.spentImages).Nodup) = true := by
    simp only [oldCoinTemplate, poolOf, fileNode_eq_eval, sha256d_eq_eval]
    decide +kernel
  refine ⟨poolOf_sound _ _ _ _ rfl (by decide +kernel) (by decide +kernel) (by decide +kernel)
    (fun _ _ => rfl) AllEntries.none, ?_⟩
  dsimp only at hrun
  cases h : oldCoinTemplate [rivalSpend 0, rivalSpend 1] with
  | none =>
    rw [h] at hrun
    cases hrun
  | some r =>
    rw [h] at hrun
    exact ⟨r.1, r.2, rfl, by simpa using hrun⟩

/-- Where only one of them is pooled, the template is valid. -/
theorem singleSpend_template :
    ∃ block nFees, oldCoinTemplate [rivalSpend 0] = some (block, nFees) ∧
      ValidTemplate (fileNode regTestParams []) (singleChain oldCoinIndex 1540001000)
        (poolOf [rivalSpend 0]) (oldCoinSession [oldCoinImage]).disk (BlockLimits.ofArgs 250000 0 27000)
        block.vtx.tail nFees := by
  have hpool : (poolOf [rivalSpend 0]).mapTx = [rivalSpend 0].map fun tx => (tx.getHash sha256d, tx) := by
    decide +kernel
  apply createNewBlock_valid
  · exact poolOf_sound _ _ _ _ rfl hpool (by decide +kernel) (by decide +kernel) (fun _ _ => rfl)
      AllEntries.none
  · have hall : ((poolOf [rivalSpend 0]).mapTx.map Prod.snd).flatMap CTransaction.spentImages =
        (rivalSpend 0).spentImages := by
      rw [hpool, List.map_map, List.map_singleton, List.flatMap_singleton, Function.comp_apply]
    refine List.Nodup.sublist (List.filter_sublist.flatMap _) ?_
    rw [hall]
    decide +kernel

end Rivals

end AliasWallet
