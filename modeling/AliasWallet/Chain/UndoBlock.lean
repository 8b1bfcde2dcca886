import AliasWallet.Chain.ChainRecords
import AliasWallet.Chain.ConcreteNode

/-!
# Disconnecting a block that was just connected

Both functions are followed mark by mark: which outputs of the index a block marks as spent, and which
marks `DisconnectBlock` clears again. The two sets differ on inputs that only look anonymous.
-/

namespace AliasWallet
open Lib

section Marks

/-- All of an index entry but its marks. -/
def shape (m : UInt256 → Option CTxIndex) (h : UInt256) : Option (CDiskTxPos × Nat) :=
  (m h).map fun e => (e.pos, e.vSpent.length)

/-- The mark of an output. -/
def slot (m : UInt256 → Option CTxIndex) (h : UInt256) (n : Nat) : Option CDiskTxPos :=
  (m h).bind fun e => e.vSpent[n]?

/-- The index with the mark of one output set. -/
def mark (m : UInt256 → Option CTxIndex) (h : UInt256) (n : Nat) (pos : CDiskTxPos) :
    UInt256 → Option CTxIndex :=
  Function.update m h ((m h).map fun e => { e with vSpent := e.vSpent.set n pos })

variable (m m' : UInt256 → Option CTxIndex)

/-- An entry is its shape and its marks. -/
theorem entry_ext (h : UInt256) (hshape : shape m h = shape m' h)
    (hslot : ∀ n, slot m h n = slot m' h n) : m h = m' h := by
  unfold shape at hshape
  unfold slot at hslot
  cases hm : m h with
  | none =>
    cases hm' : m' h with
    | none => rfl
    | some e' => simp [hm, hm'] at hshape
  | some e =>
    cases hm' : m' h with
    | none => simp [hm, hm'] at hshape
    | some e' =>
      simp only [hm, hm', Option.map_some, Option.some.injEq, Prod.mk.injEq] at hshape
      simp only [hm, hm', Option.bind_some] at hslot
      obtain ⟨pos, vSpent⟩ := e
      obtain ⟨pos', vSpent'⟩ := e'
      simp only [Option.some.injEq, CTxIndex.mk.injEq]
      exact ⟨hshape.1, List.ext_getElem? hslot⟩

@[simp] theorem shape_mark (h h' : UInt256) (n : Nat) (pos : CDiskTxPos) :
    shape (mark m h n pos) h' = shape m h' := by
  unfold shape mark
  by_cases hh : h' = h
  · subst hh
    cases m h' with
    | none => simp
    | some e => simp
  · simp [hh]

theorem slot_mark (h h' : UInt256) (n n' : Nat) (pos : CDiskTxPos) :
    slot (mark m h n pos) h' n' =
      if h' = h ∧ n' = n then (slot m h n).map fun _ => pos else slot m h' n' := by
  unfold slot mark
  by_cases hh : h' = h
  · subst hh
    cases m h' with
    | none => simp
    | some e =>
      by_cases hn : n' = n
      · subst hn
        simp only [Function.update_self, Option.map_some, Option.bind_some, and_self, if_true]
        rw [List.getElem?_set_self']
        cases e.vSpent[n']? with
        | none => rfl
        | some x => rfl
      · simp [hn, List.getElem?_set_ne (Ne.symm hn)]
  · simp [hh]

/-- A mark exists where the entry is long enough. -/
theorem slot_isSome (h : UInt256) (n : Nat) :
    (slot m h n).isSome ↔ ∃ pos len, shape m h = some (pos, len) ∧ n < len := by
  unfold slot shape
  cases m h with
  | none => simp
  | some e => simp

theorem shape_update (h h' : UInt256) (v : Option CTxIndex) (hne : h' ≠ h) :
    shape (Function.update m h v) h' = shape m h' := by
  rw [shape, Function.update_of_ne hne, shape]

theorem slot_update (h h' : UInt256) (n : Nat) (v : Option CTxIndex) (hne : h' ≠ h) :
    slot (Function.update m h v) h' n = slot m h' n := by
  rw [slot, Function.update_of_ne hne, slot]

/-- From `m` to `m'` the outputs in `spent`, free before, are marked with a position, and nothing else
changes. -/
structure Marked (spent : UInt256 → Nat → Prop) (pos : CDiskTxPos) (m m' : UInt256 → Option CTxIndex) :
    Prop where
  shape_eq : ∀ h, shape m' h = shape m h
  marked : ∀ h n, spent h n → slot m' h n = some pos
  free : ∀ h n, spent h n → ∃ x, slot m h n = some x ∧ x.isNull
  others : ∀ h n, ¬ spent h n → slot m' h n = slot m h n

namespace Marked

variable {spent spent' : UInt256 → Nat → Prop} (pos : CDiskTxPos) {m m' m'' : UInt256 → Option CTxIndex}

theorem refl (m : UInt256 → Option CTxIndex) : Marked (fun _ _ => False) pos m m :=
  ⟨fun _ => rfl, fun _ _ h => h.elim, fun _ _ h => h.elim, fun _ _ _ => rfl⟩

theorem single (m : UInt256 → Option CTxIndex) (h : UInt256) (n : Nat) (x : CDiskTxPos)
    (hslot : slot m h n = some x) (hnull : x.isNull) :
    Marked (fun h' n' => h' = h ∧ n' = n) pos m (mark m h n pos) := by
  constructor
  · intro h'
    exact shape_mark m h h' n pos
  · intro h' n' hthis
    rw [slot_mark, if_pos hthis, hslot]
    rfl
  · intro h' n' hthis
    rw [hthis.1, hthis.2]
    exact ⟨x, hslot, hnull⟩
  · intro h' n' hnot
    rw [slot_mark, if_neg hnot]

variable {pos}

theorem trans (h : Marked spent pos m m') (h' : Marked spent' pos m' m'') :
    Marked (fun k n => spent k n ∨ spent' k n) pos m m'' := by
  constructor
  · intro k
    exact (h'.shape_eq k).trans (h.shape_eq k)
  · intro k n hspent
    by_cases hlater : spent' k n
    · exact h'.marked k n hlater
    · rw [h'.others k n hlater]
      exact h.marked k n (hspent.resolve_right hlater)
  · intro k n hspent
    by_cases hfirst : spent k n
    · exact h.free k n hfirst
    · rw [← h.others k n hfirst]
      exact h'.free k n (hspent.resolve_left hfirst)
  · intro k n hnot
    rw [h'.others k n fun hlater => hnot (Or.inr hlater)]
    exact h.others k n fun hfirst => hnot (Or.inl hfirst)

theorem congr (h : Marked spent pos m m') (heq : ∀ k n, spent k n ↔ spent' k n) :
    Marked spent' pos m m' := by
  have hsame : spent = spent' := by
    funext k n
    exact propext (heq k n)
  rwa [← hsame]

end Marked

end Marks

section Connect

variable {Pt L : Type} (env : NodeEnv Pt L) (c : ChainState) (pool : CTxMemPool) (s : Session L)
  (pindex : CBlockIndex)

/-- The transaction marks the output as spent. -/
def CTransaction.Spends (tx : CTransaction) (h : UInt256) (n : Nat) : Prop :=
  ¬ tx.isCoinBase ∧ ∃ txin ∈ tx.vin, ¬ tx.skipsInput txin ∧ txin.prevout.hash = h ∧
    txin.prevout.n.toNat = n

/-- The index as the proposed changes leave it. -/
def proposed (q : MapTestPool) : UInt256 → Option CTxIndex := fun h => (q h).or (s.readTxIndex h)

private theorem proposed_update (q : MapTestPool) (h : UInt256) (e : CTxIndex) :
    proposed s (Function.update q h (some e)) = Function.update (proposed s q) h (some e) := by
  funext h'
  unfold proposed
  by_cases hh : h' = h
  · subst hh
    simp
  · simp [hh]

/-- The fetched entries are those of the index with the proposed changes. -/
theorem fetchInputs_proposed (tx : CTransaction) (q : MapTestPool) (inputs : MapPrevTx)
    (h : fetchInputs env pool s.readTxIndex true tx q = some inputs) :
    AllEntries (fun hash e => proposed s q hash = some e.1) inputs := by
  unfold fetchInputs at h
  by_cases hbase : tx.isCoinBase
  · simp only [hbase, if_true, Option.pure_def, Option.some.injEq] at h
    rw [← h]
    exact AllEntries.none
  · simp only [hbase, Bool.false_eq_true, if_false, Option.bind_eq_bind, Option.bind_eq_some_iff,
      Option.ite_none_right_eq_some, Option.some.injEq] at h
    obtain ⟨inputs', hloop, -, rfl⟩ := h
    refine foldlM_preserves (AllEntries fun hash e => proposed s q hash = some e.1) tx.vin _ inputs'
      AllEntries.none ?_ hloop
    intro t txin _ t' ht hround
    simp only [fetchInput, if_true] at hround
    by_cases hdone : tx.skipsInput txin || (t txin.prevout.hash).isSome
    · rw [if_pos hdone, Option.some.injEq] at hround
      rwa [← hround]
    · rw [if_neg hdone] at hround
      cases hentry : (q txin.prevout.hash).or (s.readTxIndex txin.prevout.hash) with
      | none => simp [hentry] at hround
      | some txindex =>
        simp only [hentry, Option.bind_eq_bind, Option.bind_eq_some_iff, Option.pure_def,
          Option.some.injEq] at hround
        obtain ⟨txPrev, -, rfl⟩ := hround
        exact ht.update _ hentry

/-- The second loop of `ConnectInputs`, mark by mark. -/
theorem spendInputs_marked (tx : CTransaction) (flags : ScriptFlags) (pos : CDiskTxPos)
    (l : List (CTxIn × Nat)) (t t' : MapPrevTx × MapTestPool)
    (hfetched : AllEntries (fun hash e => proposed s t.2 hash = some e.1) t.1)
    (hloop : l.foldlM (spendInput env c tx true flags pos) t = some t') :
    Marked (fun h n => ∃ e ∈ l, ¬ tx.skipsInput e.1 ∧ e.1.prevout.hash = h ∧ e.1.prevout.n.toNat = n)
      pos (proposed s t.2) (proposed s t'.2) := by
  induction l generalizing t with
  | nil =>
    simp only [List.foldlM_nil, Option.pure_def, Option.some.injEq] at hloop
    rw [← hloop]
    apply (Marked.refl pos (proposed s t.2)).congr
    simp
  | cons e l ih =>
    obtain ⟨t₀, t₁, ht₀, hround, hrest⟩ := (foldlM_eq_some_split [] l e t t').mp hloop
    obtain rfl : t = t₀ := by simpa using ht₀
    by_cases hskip : tx.skipsInput e.1
    · rw [spendInput_of_skipsInput env c tx true flags pos t e.1 e.2 hskip, Option.some.injEq] at hround
      subst hround
      apply (ih t hfetched hrest).congr
      simp [hskip]
    · obtain ⟨txindex, txPrev, hprev, ⟨x, hx, hnull⟩, -, rfl⟩ :=
        spendInput_eq_some env c tx true flags pos t t₁ e.1 e.2 hskip hround
      have hentry : proposed s t.2 e.1.prevout.hash = some txindex := hfetched _ _ hprev
      -- the round marks one output, in the index as in the fetched entries
      have hmark : proposed s (Function.update t.2 e.1.prevout.hash (some { txindex with
          vSpent := txindex.vSpent.set e.1.prevout.n.toNat pos })) =
          mark (proposed s t.2) e.1.prevout.hash e.1.prevout.n.toNat pos := by
        rw [proposed_update, mark, hentry]
        rfl
      have hslot : slot (proposed s t.2) e.1.prevout.hash e.1.prevout.n.toNat = some x := by
        simp [slot, hentry, hx]
      have hone := Marked.single pos (proposed s t.2) _ _ x hslot hnull
      have hl := ih _ (fun h v hv => ?_) hrest
      · simp only [if_true, hmark] at hl
        apply (hone.trans hl).congr
        intro h n
        simp only [List.mem_cons, exists_eq_or_imp, hskip, Bool.false_eq_true, not_false_eq_true,
          true_and]
        exact or_congr_left (and_congr eq_comm eq_comm)
      · simp only [if_true, proposed_update]
        simp only at hv
        by_cases hh : h = e.1.prevout.hash
        · subst hh
          rw [Function.update_self, Option.some.injEq] at hv
          rw [Function.update_self, ← hv]
        · rw [Function.update_of_ne hh] at hv ⊢
          exact hfetched h v hv

/-- A round of `ConnectBlock`, mark by mark. -/
theorem connectTx_marked (fJustCheck : Bool) (t t' : BlockTotals) (tx : CTransaction)
    (h : connectTx env c pool s pindex fJustCheck t tx = some t') :
    ∃ q, Marked tx.Spends (posThisTx pindex t.nTxPos) (proposed s t.mapQueuedChanges) (proposed s q) ∧
      proposed s t'.mapQueuedChanges = Function.update (proposed s q) (env.txid tx)
        (some (CTxIndex.new (posThisTx pindex t.nTxPos) tx.vout.length)) := by
  obtain ⟨-, q, hq, hcases⟩ := connectTx_eq_some env c pool s pindex fJustCheck t t' tx h
  refine ⟨q, ?_, by rw [hq, proposed_update]⟩
  cases hcases with
  | inl hcoin =>
    rw [hcoin.2]
    apply (Marked.refl _ (proposed s t.mapQueuedChanges)).congr
    simp [CTransaction.Spends, hcoin.1]
  | inr hinputs =>
    obtain ⟨hbase, inputs, hconnected⟩ := hinputs
    have hfetched := fetchInputs_proposed env pool s tx t.mapQueuedChanges inputs hconnected.fetched
    have hloop := hconnected.connected
    simp only [connectInputs, hbase, Bool.false_eq_true, if_false, Option.bind_eq_bind,
      Option.bind_eq_some_iff, Prod.exists, Option.ite_none_right_eq_some, Option.some.injEq] at hloop
    obtain ⟨-, -, inputs', q', hloop, -, -, -, rfl⟩ := hloop
    apply (spendInputs_marked env c s tx _ _ tx.vin.zipIdx _ _ hfetched hloop).congr
    intro h n
    constructor
    · intro hspent
      obtain ⟨e, he, hout⟩ := hspent
      have hmem : e.1 ∈ tx.vin := by
        have hget := List.mem_zipIdx_iff_getElem?.mp he
        exact List.mem_of_getElem? hget
      exact ⟨hbase, e.1, hmem, hout⟩
    · intro hspent
      obtain ⟨-, txin, hmem, hout⟩ := hspent
      obtain ⟨i, hi⟩ := List.mem_iff_getElem?.mp hmem
      exact ⟨(txin, i), List.mem_zipIdx_iff_getElem?.mpr hi, hout⟩

/-- What the first transactions of a block have done to the index `m₀`. -/
structure BlockMarked (pre : List CTransaction) (m₀ m : UInt256 → Option CTxIndex) : Prop where
  shape_eq : ∀ h, h ∉ pre.map env.txid → shape m h = shape m₀ h
  marked : ∀ h n, h ∉ pre.map env.txid → (∃ tx ∈ pre, tx.Spends h n) →
    (∃ nTxPos, slot m h n = some (posThisTx pindex nTxPos)) ∧ ∃ x, slot m₀ h n = some x ∧ x.isNull
  others : ∀ h n, h ∉ pre.map env.txid → (¬ ∃ tx ∈ pre, tx.Spends h n) → slot m h n = slot m₀ h n
  inRange : ∀ tx ∈ pre, ∀ h n, tx.Spends h n → (slot m h n).isSome

theorem BlockMarked.nil (m₀ : UInt256 → Option CTxIndex) : BlockMarked env pindex [] m₀ m₀ := by
  refine ⟨fun _ _ => rfl, ?_, fun _ _ _ _ => rfl, ?_⟩
  · intro h n _ hspent
    obtain ⟨tx, htx, -⟩ := hspent
    cases htx
  · intro tx htx
    cases htx

/-- A transaction whose hash is new to the block overwrites no free output, so that neither it nor one
before it in the block spends what its hash stands for. -/
theorem BlockMarked.apart {pre : List CTransaction} {m₀ m m₁ : UInt256 → Option CTxIndex}
    (hpre : BlockMarked env pindex pre m₀ m) (tx : CTransaction) (nTxPos : UInt32)
    (hnew : env.txid tx ∉ pre.map env.txid)
    (hspent : ∀ n x, slot m₀ (env.txid tx) n = some x → ¬ x.isNull)
    (hmarked : Marked tx.Spends (posThisTx pindex nTxPos) m m₁) :
    ∀ tx' ∈ pre ++ [tx], ∀ n, ¬ tx'.Spends (env.txid tx) n := by
  have hbefore : ∀ n, ¬ ∃ tx' ∈ pre, tx'.Spends (env.txid tx) n := by
    intro n hbefore
    obtain ⟨-, x, hx, hnull⟩ := hpre.marked _ n hnew hbefore
    exact hspent n x hx hnull
  intro tx' htx' n hspends
  cases List.mem_append.mp htx' with
  | inl hmem => exact hbefore n ⟨tx', hmem, hspends⟩
  | inr hmem =>
    rw [List.mem_singleton.mp hmem] at hspends
    obtain ⟨x, hx, hnull⟩ := hmarked.free _ n hspends
    rw [hpre.others _ n hnew (hbefore n)] at hx
    exact hspent n x hx hnull

/-- One more transaction, whose hash is new to the block. -/
theorem BlockMarked.snoc {pre : List CTransaction} {m₀ m m₁ : UInt256 → Option CTxIndex}
    (hpre : BlockMarked env pindex pre m₀ m) (tx : CTransaction) (nTxPos : UInt32) (e : CTxIndex)
    (hnew : env.txid tx ∉ pre.map env.txid)
    (hspent : ∀ n x, slot m₀ (env.txid tx) n = some x → ¬ x.isNull)
    (hmarked : Marked tx.Spends (posThisTx pindex nTxPos) m m₁) :
    BlockMarked env pindex (pre ++ [tx]) m₀ (Function.update m₁ (env.txid tx) (some e)) := by
  have hapart := hpre.apart env pindex tx nTxPos hnew hspent hmarked
  have hout : ∀ h, h ∉ (pre ++ [tx]).map env.txid → h ∉ pre.map env.txid ∧ h ≠ env.txid tx := by
    intro h hh
    simpa [not_or] using hh
  constructor
  · intro h hh
    obtain ⟨hold, hne⟩ := hout h hh
    rw [shape_update _ _ _ _ hne, hmarked.shape_eq]
    exact hpre.shape_eq h hold
  · intro h n hh hspent
    obtain ⟨hold, hne⟩ := hout h hh
    rw [slot_update _ _ _ _ _ hne]
    by_cases hthis : tx.Spends h n
    · refine ⟨⟨nTxPos, hmarked.marked h n hthis⟩, ?_⟩
      by_cases hbefore : ∃ tx' ∈ pre, tx'.Spends h n
      · exact (hpre.marked h n hold hbefore).2
      · rw [← hpre.others h n hold hbefore]
        exact hmarked.free h n hthis
    · rw [hmarked.others h n hthis]
      apply hpre.marked h n hold
      obtain ⟨tx', htx', hspends⟩ := hspent
      cases List.mem_append.mp htx' with
      | inl hmem => exact ⟨tx', hmem, hspends⟩
      | inr hmem =>
        rw [List.mem_singleton.mp hmem] at hspends
        exact absurd hspends hthis
  · intro h n hh hspent
    obtain ⟨hold, hne⟩ := hout h hh
    rw [slot_update _ _ _ _ _ hne, hmarked.others h n, hpre.others h n hold]
    · intro hbefore
      obtain ⟨tx', hmem, hspends⟩ := hbefore
      exact hspent ⟨tx', List.mem_append_left _ hmem, hspends⟩
    · intro hthis
      exact hspent ⟨tx, List.mem_append_right _ (List.mem_singleton_self tx), hthis⟩
  · intro tx' htx' h n hspends
    have hsome : (slot m h n).isSome ∧ h ≠ env.txid tx := by
      cases List.mem_append.mp htx' with
      | inl hmem =>
        refine ⟨hpre.inRange tx' hmem h n hspends, ?_⟩
        rintro rfl
        exact hapart tx' htx' n hspends
      | inr hmem =>
        rw [List.mem_singleton.mp hmem] at hspends
        obtain ⟨x, hx, -⟩ := hmarked.free h n hspends
        refine ⟨by rw [hx]; rfl, ?_⟩
        rintro rfl
        exact hapart tx (by simp) n hspends
    rw [slot_update _ _ _ _ _ hsome.2, slot_isSome, hmarked.shape_eq]
    exact (slot_isSome m h n).mp hsome.1

/-- The entry that a transaction of a connected block overwrites has no free output. -/
theorem slot_of_not_overwrites (hashTx : UInt256) (h : ¬ overwritesUnspent s hashTx) (n : Nat) (x : CDiskTxPos)
    (hx : slot s.readTxIndex hashTx n = some x) : ¬ x.isNull := by
  unfold slot at hx
  unfold overwritesUnspent at h
  cases hentry : s.readTxIndex hashTx with
  | none => simp [hentry] at hx
  | some e =>
    simp only [hentry, Option.bind_some] at hx
    intro hnull
    apply h
    simp only [hentry]
    exact List.any_eq_true.mpr ⟨x, List.mem_of_getElem? hx, hnull⟩

/-- The loop of `ConnectBlock`, mark by mark. -/
theorem connectTxs_marked (fJustCheck : Bool) (l pre : List CTransaction) (t t' : BlockTotals)
    (hnodup : ((pre ++ l).map env.txid).Nodup)
    (hpre : BlockMarked env pindex pre s.readTxIndex (proposed s t.mapQueuedChanges))
    (h : l.foldlM (connectTx env c pool s pindex fJustCheck) t = some t') :
    BlockMarked env pindex (pre ++ l) s.readTxIndex (proposed s t'.mapQueuedChanges) := by
  induction l generalizing pre t with
  | nil =>
    simp only [List.foldlM_nil, Option.pure_def, Option.some.injEq] at h
    rwa [List.append_nil, ← h]
  | cons tx l ih =>
    obtain ⟨t₀, t₁, ht₀, hround, hrest⟩ := (foldlM_eq_some_split [] l tx t t').mp h
    obtain rfl : t = t₀ := by simpa using ht₀
    obtain ⟨q, hmarked, hproposed⟩ := connectTx_marked env c pool s pindex fJustCheck t t₁ tx hround
    have hnew : env.txid tx ∉ pre.map env.txid := by
      rw [List.map_append, List.nodup_append] at hnodup
      intro hmem
      exact hnodup.2.2 _ hmem _ (List.mem_map_of_mem List.mem_cons_self) rfl
    obtain ⟨hover, -⟩ := connectTx_eq_some env c pool s pindex fJustCheck t t₁ tx hround
    have hsnoc := hpre.snoc env pindex tx t.nTxPos
      (CTxIndex.new (posThisTx pindex t.nTxPos) tx.vout.length) hnew
      (slot_of_not_overwrites s _ hover) hmarked
    rw [← hproposed] at hsnoc
    rw [List.append_cons] at hnodup ⊢
    exact ih (pre ++ [tx]) t₁ hnodup hsnoc hrest

end Connect

section Disconnect

variable {Pt L : Type} (env : NodeEnv Pt L)

/-- The transaction clears the mark of the output when it is disconnected. -/
def CTransaction.Clears (tx : CTransaction) (h : UInt256) (n : Nat) : Prop :=
  ¬ tx.isCoinBase ∧ ∃ txin ∈ tx.vin, ¬ txin.isAnonInput ∧ txin.prevout.hash = h ∧
    txin.prevout.n.toNat = n

theorem CTransaction.Clears.spends {tx : CTransaction} {h : UInt256} {n : Nat} (hclears : tx.Clears h n) :
    tx.Spends h n := by
  obtain ⟨hbase, txin, hmem, hplain, hout⟩ := hclears
  refine ⟨hbase, txin, hmem, ?_, hout⟩
  simp [CTransaction.skipsInput, hplain]

/-- From `m` to `m'` the marks in `cleared` are null, and nothing else changes. -/
structure Cleared (cleared : UInt256 → Nat → Prop) (m m' : UInt256 → Option CTxIndex) : Prop where
  shape_eq : ∀ h, shape m' h = shape m h
  null : ∀ h n, cleared h n → slot m' h n = (slot m h n).map fun _ => CDiskTxPos.null
  others : ∀ h n, ¬ cleared h n → slot m' h n = slot m h n

namespace Cleared

variable {cleared cleared' : UInt256 → Nat → Prop} {m m' m'' : UInt256 → Option CTxIndex}

theorem refl (m : UInt256 → Option CTxIndex) : Cleared (fun _ _ => False) m m :=
  ⟨fun _ => rfl, fun _ _ h => h.elim, fun _ _ _ => rfl⟩

theorem single (m : UInt256 → Option CTxIndex) (h : UInt256) (n : Nat) :
    Cleared (fun h' n' => h' = h ∧ n' = n) m (mark m h n CDiskTxPos.null) := by
  constructor
  · intro h'
    exact shape_mark m h h' n _
  · intro h' n' hthis
    rw [slot_mark, if_pos hthis, hthis.1, hthis.2]
  · intro h' n' hnot
    rw [slot_mark, if_neg hnot]

theorem trans (h : Cleared cleared m m') (h' : Cleared cleared' m' m'') :
    Cleared (fun k n => cleared k n ∨ cleared' k n) m m'' := by
  constructor
  · intro k
    exact (h'.shape_eq k).trans (h.shape_eq k)
  · intro k n hcleared
    by_cases hlater : cleared' k n
    · rw [h'.null k n hlater]
      by_cases hfirst : cleared k n
      · rw [h.null k n hfirst, Option.map_map]
        rfl
      · rw [h.others k n hfirst]
    · rw [h'.others k n hlater]
      exact h.null k n (hcleared.resolve_right hlater)
  · intro k n hnot
    rw [h'.others k n fun hlater => hnot (Or.inr hlater)]
    exact h.others k n fun hfirst => hnot (Or.inl hfirst)

theorem congr (h : Cleared cleared m m') (heq : ∀ k n, cleared k n ↔ cleared' k n) :
    Cleared cleared' m m' := by
  have hsame : cleared = cleared' := by
    funext k n
    exact propext (heq k n)
  rwa [← hsame]

end Cleared

/-- One input of `DisconnectInputs`. -/
theorem disconnectInput_cleared (txIndex : UInt256 → Option CTxIndex) (txin : CTxIn)
    (b b₁ : Patch UInt256 CTxIndex) (h : disconnectInput txIndex b txin = some b₁) :
    Cleared (fun h n => ¬ txin.isAnonInput ∧ txin.prevout.hash = h ∧ txin.prevout.n.toNat = n)
      (b.read txIndex) (b₁.read txIndex) := by
  unfold disconnectInput at h
  by_cases hanon : txin.isAnonInput
  · rw [if_pos hanon, Option.some.injEq] at h
    rw [← h]
    apply (Cleared.refl (b.read txIndex)).congr
    simp [hanon]
  · rw [if_neg hanon] at h
    have hone := Cleared.single (b.read txIndex) txin.prevout.hash txin.prevout.n.toNat
    have hthis : ∀ h n, (h = txin.prevout.hash ∧ n = txin.prevout.n.toNat) ↔
        ¬ txin.isAnonInput ∧ txin.prevout.hash = h ∧ txin.prevout.n.toNat = n := by
      intro h n
      simp only [hanon, Bool.false_eq_true, not_false_eq_true, true_and]
      exact and_congr eq_comm eq_comm
    cases hentry : b.read txIndex txin.prevout.hash with
    | none =>
      simp only [hentry, Option.some.injEq] at h
      have hsame : mark (b.read txIndex) txin.prevout.hash txin.prevout.n.toNat CDiskTxPos.null =
          b.read txIndex := by
        rw [mark, hentry, Option.map_none, ← hentry, Function.update_eq_self]
      rw [hsame] at hone
      rw [← h]
      exact hone.congr hthis
    | some txindex =>
      simp only [hentry, Option.ite_none_left_eq_some, Option.some.injEq] at h
      rw [← h.2, Patch.read_write]
      rw [mark, hentry] at hone
      exact hone.congr hthis

/-- An input goes through where the entry is not too short. -/
theorem disconnectInput_isSome (txIndex : UInt256 → Option CTxIndex) (txin : CTxIn)
    (b : Patch UInt256 CTxIndex)
    (hrange : ¬ txin.isAnonInput → ∀ pos len,
      shape (b.read txIndex) txin.prevout.hash = some (pos, len) → txin.prevout.n.toNat < len) :
    ∃ b₁, disconnectInput txIndex b txin = some b₁ := by
  unfold disconnectInput
  by_cases hanon : txin.isAnonInput
  · exact ⟨b, if_pos hanon⟩
  · rw [if_neg hanon]
    cases hentry : b.read txIndex txin.prevout.hash with
    | none => exact ⟨b, rfl⟩
    | some txindex =>
      have hlt := hrange hanon txindex.pos txindex.vSpent.length (by simp [shape, hentry])
      exact ⟨_, if_neg (by omega)⟩

/-- The inputs of `DisconnectInputs`, mark by mark. -/
theorem disconnectInputs_cleared (txIndex : UInt256 → Option CTxIndex) (l : List CTxIn)
    (b b' : Patch UInt256 CTxIndex) (h : l.foldlM (disconnectInput txIndex) b = some b') :
    Cleared (fun h n => ∃ txin ∈ l, ¬ txin.isAnonInput ∧ txin.prevout.hash = h ∧
      txin.prevout.n.toNat = n) (b.read txIndex) (b'.read txIndex) := by
  induction l generalizing b with
  | nil =>
    simp only [List.foldlM_nil, Option.pure_def, Option.some.injEq] at h
    rw [← h]
    apply (Cleared.refl (b.read txIndex)).congr
    simp
  | cons txin l ih =>
    obtain ⟨b₀, b₁, hb₀, hround, hrest⟩ := (foldlM_eq_some_split [] l txin b b').mp h
    obtain rfl : b = b₀ := by simpa using hb₀
    apply ((disconnectInput_cleared txIndex txin b b₁ hround).trans (ih b₁ hrest)).congr
    simp

/-- They go through where no entry is too short. -/
theorem disconnectInputs_isSome (txIndex : UInt256 → Option CTxIndex) (l : List CTxIn)
    (b : Patch UInt256 CTxIndex)
    (hrange : ∀ txin ∈ l, ¬ txin.isAnonInput → ∀ pos len,
      shape (b.read txIndex) txin.prevout.hash = some (pos, len) → txin.prevout.n.toNat < len) :
    ∃ b', l.foldlM (disconnectInput txIndex) b = some b' := by
  induction l generalizing b with
  | nil => exact ⟨b, rfl⟩
  | cons txin l ih =>
    obtain ⟨b₁, hb₁⟩ := disconnectInput_isSome txIndex txin b (hrange txin List.mem_cons_self)
    have hcleared := disconnectInput_cleared txIndex txin b b₁ hb₁
    obtain ⟨b', hb'⟩ := ih b₁ fun txin' hmem hplain pos len hshape =>
      hrange txin' (List.mem_cons_of_mem txin hmem) hplain pos len (by rwa [← hcleared.shape_eq])
    exact ⟨b', by simp [List.foldlM_cons, hb₁, hb']⟩

/-- `DisconnectInputs`, mark by mark. -/
theorem disconnectTx_cleared (hash : HashFn) (txIndex : UInt256 → Option CTxIndex) (tx : CTransaction)
    (b b' : Patch UInt256 CTxIndex) (h : disconnectInputs hash txIndex tx b = some b') :
    ∃ m, Cleared tx.Clears (b.read txIndex) m ∧
      b'.read txIndex = Function.update m (tx.getHash hash) none := by
  unfold disconnectInputs at h
  by_cases hbase : tx.isCoinBase
  · simp only [hbase, if_true, Option.bind_eq_bind, Option.bind_some, Option.pure_def,
      Option.some.injEq] at h
    rw [← h]
    refine ⟨b.read txIndex, ?_, Patch.read_erase b txIndex _⟩
    apply (Cleared.refl (b.read txIndex)).congr
    simp [CTransaction.Clears, hbase]
  · simp only [hbase, Bool.false_eq_true, if_false, Option.bind_eq_bind, Option.bind_eq_some_iff,
      Option.pure_def, Option.some.injEq] at h
    obtain ⟨b₁, hloop, rfl⟩ := h
    refine ⟨b₁.read txIndex, ?_, Patch.read_erase b₁ txIndex _⟩
    apply (disconnectInputs_cleared txIndex tx.vin b b₁ hloop).congr
    simp [CTransaction.Clears, hbase]

theorem disconnectTx_isSome (hash : HashFn) (txIndex : UInt256 → Option CTxIndex) (tx : CTransaction)
    (b : Patch UInt256 CTxIndex)
    (hrange : ∀ h n, tx.Clears h n → ∀ pos len, shape (b.read txIndex) h = some (pos, len) → n < len) :
    ∃ b', disconnectInputs hash txIndex tx b = some b' := by
  unfold disconnectInputs
  by_cases hbase : tx.isCoinBase
  · simp only [hbase, if_true, Option.bind_eq_bind, Option.bind_some, Option.pure_def]
    exact ⟨_, rfl⟩
  · obtain ⟨b₁, hloop⟩ := disconnectInputs_isSome txIndex tx.vin b
      fun txin hmem hplain => hrange _ _ ⟨hbase, txin, hmem, hplain, rfl, rfl⟩
    simp only [hbase, Bool.false_eq_true, if_false, hloop, Option.bind_eq_bind, Option.bind_some,
      Option.pure_def]
    exact ⟨_, rfl⟩

/-- What disconnecting the transactions `done` has done to the index `m₀`. -/
structure BlockCleared (done : List CTransaction) (m₀ m : UInt256 → Option CTxIndex) : Prop where
  erased : ∀ tx ∈ done, m (env.txid tx) = none
  shape_eq : ∀ h, h ∉ done.map env.txid → shape m h = shape m₀ h
  null : ∀ h n, h ∉ done.map env.txid → (∃ tx ∈ done, tx.Clears h n) →
    slot m h n = (slot m₀ h n).map fun _ => CDiskTxPos.null
  others : ∀ h n, h ∉ done.map env.txid → (¬ ∃ tx ∈ done, tx.Clears h n) → slot m h n = slot m₀ h n

theorem BlockCleared.nil (m₀ : UInt256 → Option CTxIndex) : BlockCleared env [] m₀ m₀ := by
  refine ⟨?_, fun _ _ => rfl, ?_, fun _ _ _ _ => rfl⟩
  · intro tx htx
    cases htx
  · intro h n _ hcleared
    obtain ⟨tx, htx, -⟩ := hcleared
    cases htx

theorem BlockCleared.snoc {done : List CTransaction} {m₀ m m₁ : UInt256 → Option CTxIndex}
    (hdone : BlockCleared env done m₀ m) (tx : CTransaction) (hcleared : Cleared tx.Clears m m₁) :
    BlockCleared env (done ++ [tx]) m₀ (Function.update m₁ (env.txid tx) none) := by
  have hout : ∀ h, h ∉ (done ++ [tx]).map env.txid → h ∉ done.map env.txid ∧ h ≠ env.txid tx := by
    intro h hh
    simpa [not_or] using hh
  have hsplit : ∀ h n, (∃ tx' ∈ done ++ [tx], tx'.Clears h n) ↔
      (∃ tx' ∈ done, tx'.Clears h n) ∨ tx.Clears h n := by
    intro h n
    simp [or_and_right, exists_or]
  constructor
  · intro tx' htx'
    by_cases hsame : env.txid tx' = env.txid tx
    · rw [hsame, Function.update_self]
    · rw [Function.update_of_ne hsame]
      have hold : m (env.txid tx') = none := by
        cases List.mem_append.mp htx' with
        | inl hmem => exact hdone.erased tx' hmem
        | inr hmem =>
          rw [List.mem_singleton.mp hmem] at hsame
          exact absurd rfl hsame
      have hshape := hcleared.shape_eq (env.txid tx')
      simpa [shape, hold] using hshape
  · intro h hh
    obtain ⟨hold, hne⟩ := hout h hh
    rw [shape_update _ _ _ _ hne, hcleared.shape_eq]
    exact hdone.shape_eq h hold
  · intro h n hh hclears
    obtain ⟨hold, hne⟩ := hout h hh
    rw [slot_update _ _ _ _ _ hne]
    by_cases hbefore : ∃ tx' ∈ done, tx'.Clears h n
    · have hnull := hdone.null h n hold hbefore
      by_cases hthis : tx.Clears h n
      · rw [hcleared.null h n hthis, hnull, Option.map_map]
        rfl
      · rw [hcleared.others h n hthis]
        exact hnull
    · have hthis := ((hsplit h n).mp hclears).resolve_left hbefore
      rw [hcleared.null h n hthis, hdone.others h n hold hbefore]
  · intro h n hh hnot
    obtain ⟨hold, hne⟩ := hout h hh
    rw [hsplit, not_or] at hnot
    rw [slot_update _ _ _ _ _ hne, hcleared.others h n hnot.2]
    exact hdone.others h n hold hnot.1

/-- The loop of `DisconnectBlock`, mark by mark. -/
theorem disconnectTxs_cleared (txIndex : UInt256 → Option CTxIndex) (l done : List CTransaction)
    (m₀ : UInt256 → Option CTxIndex) (b b' : Patch UInt256 CTxIndex)
    (hdone : BlockCleared env done m₀ (b.read txIndex))
    (h : l.foldlM (fun b tx => disconnectInputs env.C.hash txIndex tx b) b = some b') :
    BlockCleared env (done ++ l) m₀ (b'.read txIndex) := by
  induction l generalizing done b with
  | nil =>
    simp only [List.foldlM_nil, Option.pure_def, Option.some.injEq] at h
    rwa [List.append_nil, ← h]
  | cons tx l ih =>
    obtain ⟨b₀, b₁, hb₀, hround, hrest⟩ := (foldlM_eq_some_split [] l tx b b').mp h
    obtain rfl : b = b₀ := by simpa using hb₀
    obtain ⟨m, hcleared, hread⟩ := disconnectTx_cleared env.C.hash txIndex tx b b₁ hround
    have hsnoc := hdone.snoc env tx hcleared
    rw [NodeEnv.txid, ← hread] at hsnoc
    rw [List.append_cons]
    exact ih (done ++ [tx]) b₁ hsnoc hrest

/-- It goes through where the index has room for all its marks. -/
theorem disconnectTxs_isSome (txIndex : UInt256 → Option CTxIndex) (l done : List CTransaction)
    (m₀ : UInt256 → Option CTxIndex) (b : Patch UInt256 CTxIndex)
    (hrange : ∀ tx ∈ l, ∀ h n, tx.Clears h n → (slot m₀ h n).isSome)
    (hdone : BlockCleared env done m₀ (b.read txIndex)) :
    ∃ b', l.foldlM (fun b tx => disconnectInputs env.C.hash txIndex tx b) b = some b' := by
  induction l generalizing done b with
  | nil => exact ⟨b, rfl⟩
  | cons tx l ih =>
    have hroom : ∀ h n, tx.Clears h n → ∀ pos len,
        shape (b.read txIndex) h = some (pos, len) → n < len := by
      intro h n hclears pos len hshape
      by_cases hout : h ∈ done.map env.txid
      · obtain ⟨tx', hmem, rfl⟩ := List.mem_map.mp hout
        simp [shape, hdone.erased tx' hmem] at hshape
      · rw [hdone.shape_eq h hout] at hshape
        obtain ⟨pos', len', hshape', hlt⟩ := (slot_isSome m₀ h n).mp
          (hrange tx List.mem_cons_self h n hclears)
        rw [hshape, Option.some.injEq, Prod.mk.injEq] at hshape'
        rw [hshape'.2]
        exact hlt
    obtain ⟨b₁, hround⟩ := disconnectTx_isSome env.C.hash txIndex tx b hroom
    have hfirst := disconnectTxs_cleared env txIndex [tx] done m₀ b b₁ hdone (by simp [hround])
    obtain ⟨b', hloop⟩ := ih (done ++ [tx]) b₁
      (fun tx' hmem => hrange tx' (List.mem_cons_of_mem tx hmem)) hfirst
    exact ⟨b', by simp [List.foldlM_cons, hround, hloop]⟩

end Disconnect

section Block

variable {Pt L : Type} (env : NodeEnv Pt L) (c : ChainState) (pool pool' : CTxMemPool) (s s' : Session L)
  (block : CBlock) (pindex : CBlockIndex)

/-- Each output of the index that the block spends has the null position as its mark, and is spent by
an input that does not look like an anonymous one. -/
def Undoable : Prop :=
  ∀ tx ∈ block.vtx, ¬ tx.isCoinBase → ∀ txin ∈ tx.vin, ¬ tx.skipsInput txin →
    ∀ e, s.readTxIndex txin.prevout.hash = some e →
      e.vSpent[txin.prevout.n.toNat]? = some CDiskTxPos.null ∧
        ∃ tx' ∈ block.vtx, ¬ tx'.isCoinBase ∧ ∃ txin' ∈ tx'.vin, ¬ txin'.isAnonInput ∧
          txin'.prevout = txin.prevout

theorem undoable_iff :
    Undoable s block ↔ ∀ h n, (s.readTxIndex h).isSome → (∃ tx ∈ block.vtx, tx.Spends h n) →
      slot s.readTxIndex h n = some CDiskTxPos.null ∧ ∃ tx ∈ block.vtx, tx.Clears h n := by
  constructor
  · intro hundo h n hsome hspent
    obtain ⟨tx, htx, hbase, txin, hmem, hskip, rfl, rfl⟩ := hspent
    obtain ⟨e, he⟩ := Option.isSome_iff_exists.mp hsome
    obtain ⟨hnull, tx', htx', hbase', txin', hmem', hplain, hout⟩ :=
      hundo tx htx hbase txin hmem hskip e he
    refine ⟨by simp [slot, he, hnull], tx', htx', hbase', txin', hmem', hplain, ?_, ?_⟩
    · rw [hout]
    · rw [hout]
  · intro hall tx htx hbase txin hmem hskip e he
    obtain ⟨hnull, tx', htx', hbase', txin', hmem', hplain, hhash, hn⟩ :=
      hall txin.prevout.hash txin.prevout.n.toNat (by simp [he]) ⟨tx, htx, hbase, txin, hmem, hskip, rfl, rfl⟩
    refine ⟨by simpa [slot, he] using hnull, tx', htx', hbase', txin', hmem', hplain, ?_⟩
    cases hout : txin'.prevout
    cases hout' : txin.prevout
    simp only [hout, hout'] at hhash hn
    rw [hhash, UInt32.toNat_inj.mp hn]

/-- `DisconnectBlock` on what `ConnectBlock` left takes every change of the index back exactly when the
block is undoable. -/
theorem disconnectBlock_restores_iff
    (hstats : ∀ loc, (env.wallet.removeAnonStats loc (CBlockIndex.nHeight pindex)).isSome)
    (hpos : ¬ (posThisTx pindex 0).isNull)
    (hfresh : ∀ tx ∈ block.vtx, s.readTxIndex (env.txid tx) = none)
    (h : connectBlock env c pool false s block pindex = (s', true)) :
    ((disconnectBlock env pool' s' block pindex).2 = true ∧
      (disconnectBlock env pool' s' block pindex).1.readTxIndex = s.readTxIndex) ↔ Undoable s block := by
  obtain ⟨t, ht, -, hread⟩ := connectBlock_result env c pool s s' block pindex h
  have hnodup : (block.vtx.map env.txid).Nodup :=
    connectBlock_nodup env c pool s block pindex false (by rw [h])
  simp only [checkTransactions, Option.bind_eq_bind, Option.bind_eq_some_iff,
    Option.ite_none_right_eq_some, Option.some.injEq] at ht
  obtain ⟨t', hloop, -, rfl⟩ := ht
  have hmarked := connectTxs_marked env c pool s pindex false block.vtx []
    (initTotals block pindex false) t' hnodup
    (BlockMarked.nil env pindex s.readTxIndex) hloop
  have hread' : proposed s t'.mapQueuedChanges = s'.readTxIndex := (funext hread).symm
  rw [List.nil_append, hread'] at hmarked
  obtain ⟨b', hdisconnect⟩ := disconnectTxs_isSome env s'.disk.txIndex block.vtx.reverse []
    s'.readTxIndex s'.batch.txIndex
    (fun tx htx h n hclears => hmarked.inRange tx (List.mem_reverse.mp htx) h n hclears.spends)
    (BlockCleared.nil env s'.readTxIndex)
  have hcleared := disconnectTxs_cleared env s'.disk.txIndex block.vtx.reverse [] s'.readTxIndex
    s'.batch.txIndex b' (BlockCleared.nil env s'.readTxIndex) hdisconnect
  obtain ⟨-, hindex, hok⟩ := disconnectBlock_result env pool' s' block pindex b' hdisconnect
  rw [hok, hindex, undoable_iff]
  simp only [hstats, true_and]
  have hmem : ∀ h, h ∉ ([] ++ block.vtx.reverse).map env.txid ↔ h ∉ block.vtx.map env.txid := by
    intro h
    simp
  have hclears : ∀ h n, (∃ tx ∈ [] ++ block.vtx.reverse, tx.Clears h n) ↔
      ∃ tx ∈ block.vtx, tx.Clears h n := by
    intro h n
    simp
  -- a hash of the block is in neither index, so only the others count
  have hnot : ∀ h, (s.readTxIndex h).isSome → h ∉ block.vtx.map env.txid := by
    intro h hsome hin
    obtain ⟨tx, htx, rfl⟩ := List.mem_map.mp hin
    rw [hfresh tx htx] at hsome
    cases hsome
  constructor
  · intro heq h n hsome hspent
    have hout := hnot h hsome
    obtain ⟨⟨nTxPos, hmark⟩, x, hx, hnull⟩ := hmarked.marked h n hout hspent
    have hslot : slot (b'.read s'.disk.txIndex) h n = some x := by
      rw [heq]
      exact hx
    by_cases hclear : ∃ tx ∈ block.vtx, tx.Clears h n
    · rw [hcleared.null h n ((hmem h).mpr hout) ((hclears h n).mpr hclear), hmark] at hslot
      rw [hx, ← hslot]
      exact ⟨rfl, hclear⟩
    · rw [hcleared.others h n ((hmem h).mpr hout) fun hc => hclear ((hclears h n).mp hc), hmark,
        Option.some.injEq] at hslot
      rw [← hslot] at hnull
      refine absurd ?_ hpos
      cases pindex with
      | nil => exact hnull
      | cons b pprev => exact hnull
  · intro hundo
    funext h
    by_cases hin : h ∈ block.vtx.map env.txid
    · obtain ⟨tx, htx, rfl⟩ := List.mem_map.mp hin
      rw [hfresh tx htx]
      exact hcleared.erased tx (by simpa using htx)
    · apply entry_ext
      · rw [hcleared.shape_eq h ((hmem h).mpr hin)]
        exact hmarked.shape_eq h hin
      · intro n
        by_cases hspent : ∃ tx ∈ block.vtx, tx.Spends h n
        · obtain ⟨⟨nTxPos, hmark⟩, x, hx, -⟩ := hmarked.marked h n hin hspent
          have hsome : (s.readTxIndex h).isSome := by
            cases hentry : s.readTxIndex h with
            | none => simp [slot, hentry] at hx
            | some e => rfl
          obtain ⟨hnull, hclear⟩ := hundo h n hsome hspent
          rw [hcleared.null h n ((hmem h).mpr hin) ((hclears h n).mpr hclear), hmark, hnull]
          rfl
        · have hclear : ¬ ∃ tx ∈ block.vtx, tx.Clears h n := by
            intro hclear
            obtain ⟨tx, htx, hc⟩ := hclear
            exact hspent ⟨tx, htx, hc.spends⟩
          rw [hcleared.others h n ((hmem h).mpr hin) fun hc => hclear ((hclears h n).mp hc)]
          exact hmarked.others h n hin hspent

end Block

section Scene

def paidTx : CTransaction where
  nVersion := 1
  nTime := minedTime 0
  vin := [⟨⟨1, 0⟩, [], 0xFFFFFFFF⟩]
  vout := [⟨COIN, [0x51]⟩]
  nLockTime := 0

def paidFile : BlockFile := [(8, sealedBlock 0 (minedTime 0) 0 [paidTx])]

/-- A spend of the payment; below the last checkpoint the `scriptSig` is never run. -/
def respend (scriptSig : Bytes) : CTransaction where
  nVersion := 1
  nTime := minedTime 1
  vin := [⟨⟨paidTx.getHash sha256d, 0⟩, scriptSig, 0xFFFFFFFF⟩]
  vout := [⟨COIN - 10000, [0x51]⟩]
  nLockTime := 0

def respendBlock (nNonce : UInt32) (scriptSig : Bytes) : CBlock :=
  minedBlock 0 1 0 0 nNonce [respend scriptSig]

/-- A `scriptSig` in the form of an anonymous input. -/
def lookalikeSig : Bytes := [OP_RETURN, OP_ANON_MARKER] ++ List.replicate 97 0

def paidIndex : CBlockIndex := [minedNode 1 8 0]

def respendIndex : CBlockIndex := minedNode 2 2008 1 :: paidIndex

/-- `ConnectBlock` on a node of the regression test network, far below the last checkpoint. -/
def respendConnect (block : CBlock) : Session Unit × Bool :=
  connectBlock (fileNode regTestParams paidFile) (singleChain paidIndex 1530002000) CTxMemPool.empty false
    (fileSession paidFile) block respendIndex

def respendDisconnect (block : CBlock) : Session Unit × Bool :=
  disconnectBlock (fileNode regTestParams paidFile) CTxMemPool.empty (respendConnect block).1 block
    respendIndex

private theorem respendBlock_fresh (nNonce : UInt32) (scriptSig : Bytes)
    (h : ((respendBlock nNonce scriptSig).vtx.all fun tx =>
      ((fileSession paidFile).readTxIndex ((fileNode regTestParams paidFile).txid tx)).isNone) = true) :
    ∀ tx ∈ (respendBlock nNonce scriptSig).vtx,
      (fileSession paidFile).readTxIndex ((fileNode regTestParams paidFile).txid tx) = none := by
  intro tx htx
  exact Option.isNone_iff_eq_none.mp (List.all_eq_true.mp h tx htx)

/-- The mark of an output that an input of anonymous form spends stays. -/
theorem lookalikeSig_notRestored :
    (∀ tx ∈ (respendBlock 0 lookalikeSig).vtx,
      (fileSession paidFile).readTxIndex ((fileNode regTestParams paidFile).txid tx) = none) ∧
      (respendConnect (respendBlock 0 lookalikeSig)).2 = true ∧
      (respendDisconnect (respendBlock 0 lookalikeSig)).1.readTxIndex ≠
        (fileSession paidFile).readTxIndex := by
  have hrun : ((respendConnect (respendBlock 0 lookalikeSig)).2,
      (respendDisconnect (respendBlock 0 lookalikeSig)).1.readTxIndex (paidTx.getHash sha256d)) =
      (true, some ⟨⟨1, 8, 89⟩, [⟨1, 2008, 2157⟩]⟩) := by
    simp only [respendDisconnect, respendConnect, respendBlock, respend, paidFile, fileSession, fileNode_eq_eval,
      sealedBlock_eq_eval, minedBlock_eq_eval, BlockFile.txIndex_eq_eval, sha256d_eq_eval]
    decide +kernel
  have hbefore : (fileSession paidFile).readTxIndex (paidTx.getHash sha256d) =
      some ⟨⟨1, 8, 89⟩, [CDiskTxPos.null]⟩ := by
    simp only [paidFile, fileSession, sealedBlock_eq_eval, BlockFile.txIndex_eq_eval, sha256d_eq_eval]
    decide +kernel
  obtain ⟨hok, hafter⟩ := Prod.mk.inj hrun
  refine ⟨respendBlock_fresh 0 lookalikeSig (by
    simp only [respendBlock, respend, paidFile, fileSession, fileNode_eq_eval, sealedBlock_eq_eval,
      minedBlock_eq_eval, BlockFile.txIndex_eq_eval, sha256d_eq_eval]
    decide +kernel), hok, fun heq => ?_⟩
  rw [heq, hbefore] at hafter
  revert hafter
  decide

/-- A plain spend is taken back. -/
theorem plainSpend_restored :
    (respendDisconnect (respendBlock 2 [])).2 = true ∧
      (respendDisconnect (respendBlock 2 [])).1.readTxIndex = (fileSession paidFile).readTxIndex := by
  have hok : (respendConnect (respendBlock 2 [])).2 = true := by
    simp only [respendConnect, respendBlock, respend, paidFile, fileSession, fileNode_eq_eval,
      sealedBlock_eq_eval, minedBlock_eq_eval, BlockFile.txIndex_eq_eval, sha256d_eq_eval]
    decide +kernel
  have hconnect : respendConnect (respendBlock 2 []) = ((respendConnect (respendBlock 2 [])).1, true) := by
    rw [← hok]
  refine (disconnectBlock_restores_iff (fileNode regTestParams paidFile)
    (singleChain paidIndex 1530002000) CTxMemPool.empty CTxMemPool.empty (fileSession paidFile)
    (respendConnect (respendBlock 2 [])).1 (respendBlock 2 []) respendIndex (fun _ => rfl) (by decide)
    (respendBlock_fresh 2 [] (by
      simp only [respendBlock, respend, paidFile, fileSession, fileNode_eq_eval, sealedBlock_eq_eval,
        minedBlock_eq_eval, BlockFile.txIndex_eq_eval, sha256d_eq_eval]
      decide +kernel)) hconnect).mpr ?_
  intro tx htx hbase txin hmem hskip e he
  have hentry : (fileSession paidFile).readTxIndex (paidTx.getHash sha256d) =
      some ⟨⟨1, 8, 89⟩, [CDiskTxPos.null]⟩ := by
    simp only [paidFile, fileSession, sealedBlock_eq_eval, BlockFile.txIndex_eq_eval, sha256d_eq_eval]
    decide +kernel
  have hvtx : (respendBlock 2 []).vtx = [minedCoinBase 1 0 0, respend []] := rfl
  rw [hvtx, List.mem_cons, List.mem_singleton] at htx
  rcases htx with rfl | rfl
  · exact absurd (by decide) hbase
  · obtain rfl := List.mem_singleton.mp hmem
    rw [hentry, Option.some.injEq] at he
    subst he
    refine ⟨rfl, respend [], ?_, by decide +kernel, _, List.mem_singleton_self _, by decide, rfl⟩
    rw [hvtx]
    exact List.mem_cons_of_mem _ (List.mem_singleton_self _)

end Scene

end AliasWallet
