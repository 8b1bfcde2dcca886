import Mathlib.Data.FinEnum
import AliasWallet.Lib.Ledger
import AliasWallet.Chain.ChainRecords
import AliasWallet.Chain.ValueConservation

/-!
# The recorded supply and the coins that exist

`ConnectBlock` keeps two counters in the block index. Their difference follows the unspent transparent
outputs of the transaction index through every connected block, as long as no coinbase pays an
anonymous output and no anonymous output is spent as a transparent one.
-/

namespace AliasWallet
open Lib

section Coins

variable {Pt L : Type} (env : NodeEnv Pt L)

/-- An output that belongs to the anonymous supply. -/
def CTransaction.paysAnon (tx : CTransaction) (txout : CTxOut) : Bool :=
  tx.nVersion == ANON_TXN_VERSION && txout.isAnonOutput

/-- What `ConnectBlock` adds to `nAnonOut` for a transaction with inputs. -/
def CTransaction.anonOut (tx : CTransaction) : Int64 :=
  if tx.nVersion = ANON_TXN_VERSION
  then ((tx.vout.filter CTxOut.isAnonOutput).map CTxOut.nValue).sum else 0

/-- The transparent outputs that are not marked spent. -/
def unspentOutputs (tx : CTransaction) (vSpent : List CDiskTxPos) : List CTxOut :=
  openPart (fun txout => !tx.paysAnon txout) CDiskTxPos.isNull tx.vout vSpent

def entryCoins (e : CTxIndex) : Int :=
  match env.readTx e.pos with
  | some tx => ((unspentOutputs tx e.vSpent).map fun txout => txout.nValue.toInt).sum
  | none => 0

/-- The sum of `nValue` over all transparent outputs not marked spent in the index. -/
def unspentCoins (index : UInt256 → Option CTxIndex) : Int := total (entryCoins env) index

/-- An entry whose transaction is on disk, with a mark for each output. -/
structure EntrySound (e : CTxIndex) : Prop where
  notPool : e.pos ≠ CDiskTxPos.inMemoryPool
  stored : ∃ tx, env.readTx e.pos = some tx ∧ e.vSpent.length = tx.vout.length ∧
    ∀ txout ∈ tx.vout, 0 ≤ txout.nValue

theorem EntrySound.coins_nonneg {e : CTxIndex} (h : EntrySound env e) : 0 ≤ entryCoins env e := by
  obtain ⟨tx, hread, -, hvalues⟩ := h.stored
  simp only [entryCoins, hread]
  apply List.sum_nonneg
  intro x hx
  obtain ⟨txout, hout, rfl⟩ := List.mem_map.mp hx
  exact toInt_nonneg (hvalues txout (mem_of_mem_openPart _ _ hout))

theorem EntrySound.set {e : CTxIndex} (h : EntrySound env e) (n : Nat) (pos : CDiskTxPos) :
    EntrySound env { e with vSpent := e.vSpent.set n pos } := by
  obtain ⟨tx, hread, hlength, hvalues⟩ := h.stored
  exact ⟨h.notPool, tx, hread, by simpa using hlength, hvalues⟩

theorem unspentCoins_nonneg {index : UInt256 → Option CTxIndex}
    (h : AllEntries (fun _ e => EntrySound env e) index) : 0 ≤ unspentCoins env index :=
  total_nonneg _ index fun hash e he => (h hash e he).coins_nonneg env

/-- An entry without null marks is worth nothing. -/
theorem entryCoins_of_spent {e : CTxIndex} (h : ¬ e.vSpent.any CDiskTxPos.isNull) :
    entryCoins env e = 0 := by
  unfold entryCoins
  split
  · rename_i tx hread
    rw [unspentOutputs, openPart_eq_nil]
    · rfl
    · intro pos hpos hnull
      exact h (List.any_eq_true.mpr ⟨pos, hpos, hnull⟩)
  · rfl

/-- A new entry is worth the transparent outputs of its transaction. -/
theorem entryCoins_new (tx : CTransaction) (pos : CDiskTxPos) (hread : env.readTx pos = some tx) :
    Int64.ofInt (entryCoins env (CTxIndex.new pos tx.vout.length)) = tx.getValueOut - tx.anonOut := by
  have hopen : unspentOutputs tx (List.replicate tx.vout.length CDiskTxPos.null) =
      tx.vout.filter fun txout => !tx.paysAnon txout :=
    openPart_replicate _ _ tx.vout CDiskTxPos.null rfl
  have hall : ((tx.vout.filter fun txout => !tx.paysAnon txout).map fun txout => txout.nValue.toInt).sum =
      tx.paidOut - ((tx.vout.filter tx.paysAnon).map fun txout => txout.nValue.toInt).sum := by
    unfold CTransaction.paidOut
    induction tx.vout with
    | nil => rfl
    | cons txout vout ih =>
      by_cases hanon : tx.paysAnon txout
      · simp only [hanon, List.filter_cons, Bool.not_true, if_true, Bool.false_eq_true, if_false,
          List.map_cons, List.sum_cons, ih]
        omega
      · simp only [hanon, List.filter_cons, Bool.not_false, if_true, Bool.false_eq_true, if_false,
          List.map_cons, List.sum_cons, ih]
        omega
  have hvalue : ∀ vout : List CTxOut, Int64.ofInt (vout.map fun txout => txout.nValue.toInt).sum =
      (vout.map CTxOut.nValue).sum := by
    intro vout
    rw [← ofInt_sum, List.map_map]
    rfl
  have hanon : ((tx.vout.filter tx.paysAnon).map CTxOut.nValue).sum = tx.anonOut := by
    unfold CTransaction.anonOut
    by_cases hversion : tx.nVersion = ANON_TXN_VERSION
    · have hsame : tx.paysAnon = CTxOut.isAnonOutput := by
        funext txout
        simp [CTransaction.paysAnon, hversion]
      rw [if_pos hversion, hsame]
    · have hnone : tx.paysAnon = fun _ => false := by
        funext txout
        simp [CTransaction.paysAnon, hversion]
      rw [if_neg hversion, hnone, List.filter_false]
      rfl
  simp only [entryCoins, CTxIndex.new, hread, hopen]
  rw [hall, Int64.ofInt_sub, hvalue, hanon, CTransaction.paidOut, hvalue, CTransaction.getValueOut]

/-- A spent mark takes the value of one transparent output away. -/
theorem entryCoins_set {e : CTxIndex} {tx : CTransaction} {txout : CTxOut} {n : Nat}
    {spent pos : CDiskTxPos} (hread : env.readTx e.pos = some tx) (hout : tx.vout[n]? = some txout)
    (htransparent : ¬ tx.paysAnon txout) (hspent : e.vSpent[n]? = some spent) (hnull : spent.isNull)
    (hpos : ¬ pos.isNull) :
    entryCoins env { e with vSpent := e.vSpent.set n pos } = entryCoins env e - txout.nValue.toInt := by
  simp only [entryCoins, hread]
  exact sum_openPart_set _ _ _ tx.vout e.vSpent n txout spent pos hout (by simpa using htransparent) hspent
    hnull hpos

end Coins

section Scripts

variable (p : ChainParams) (C : ScriptCrypto) (tx : CTransaction) (nIn : Nat) (flags : ScriptFlags)

/-- `OP_RETURN` ends a script. -/
theorem evalScript_return (stack : List Bytes) (rest : CScript) (flags : EvalFlags) :
    evalScript p C tx nIn flags stack (OP_RETURN :: rest) = none := by
  have hget : CScript.getOp (OP_RETURN :: rest) = some ⟨OP_RETURN, [], rest⟩ := rfl
  have hops : CScript.ops (OP_RETURN :: rest) = (⟨OP_RETURN, [], rest⟩ ::
      (CScript.opsFrom rest.length rest).1, (CScript.opsFrom rest.length rest).2) := by
    rw [CScript.ops, List.length_cons, CScript.opsFrom, hget]
    simp
  have hstep : ∀ st : EvalState, st.vfExec = [] →
      evalStep p C tx nIn flags ⟨OP_RETURN, [], rest⟩ st = none := by
    intro st hst
    have hexec : ∀ st, execOp p C tx nIn flags true ⟨OP_RETURN, [], rest⟩ st = none := by
      intro st
      rfl
    simp [evalStep, hst, hexec]
  unfold evalScript
  rw [hops]
  simp only [List.foldlM_cons, hstep]
  simp

/-- No script spends an anonymous output. -/
theorem verifySignature_anonOutput (txFrom : CTransaction) (txin : CTxIn) (txout : CTxOut)
    (hin : tx.vin[nIn]? = some txin) (hout : txFrom.vout[txin.prevout.n.toNat]? = some txout)
    (hanon : txout.isAnonOutput) : ¬ verifySignature p C tx nIn flags txFrom := by
  have hscript : ∃ rest, txout.scriptPubKey = OP_RETURN :: rest := by
    simp only [CTxOut.isAnonOutput, Bool.and_eq_true, beq_iff_eq] at hanon
    cases hkey : txout.scriptPubKey with
    | nil => simp [hkey] at hanon
    | cons op rest =>
      refine ⟨rest, ?_⟩
      have hop : op = OP_RETURN := by simpa [hkey] using hanon.1.2
      rw [hop]
  obtain ⟨rest, hrest⟩ := hscript
  have hfails : verifyScript p C tx nIn flags txin.scriptSig txout.scriptPubKey = false := by
    unfold verifyScript
    split
    · rfl
    · rw [hrest, evalsToTrue, evalScript_return]
      rfl
  simp [verifySignature, hin, hout, hfails]

end Scripts

section Inputs

variable {Pt L : Type} (env : NodeEnv Pt L) (index : UInt256 → Option CTxIndex)

/-- The index with the proposed changes. -/
def pending (q : MapTestPool) (hash : UInt256) : Option CTxIndex := (q hash).or (index hash)

theorem pending_update (q : MapTestPool) (hash : UInt256) (e : CTxIndex) :
    pending index (Function.update q hash (some e)) =
      Function.update (pending index q) hash (some e) := by
  funext hash'
  by_cases hhash : hash' = hash
  · subst hhash
    simp [pending]
  · simp [pending, hhash]

/-- The fetched transactions are those of the pending index. -/
structure Fetched (t : MapPrevTx × MapTestPool) : Prop where
  current : AllEntries (fun hash e => pending index t.2 hash = some e.1 ∧
    env.readTx e.1.pos = some e.2) t.1
  sound : AllEntries (fun _ e => EntrySound env e) (pending index t.2)

theorem fetchInputs_fetched (pool : CTxMemPool) (tx : CTransaction) (q : MapTestPool)
    (inputs : MapPrevTx) (hsound : AllEntries (fun _ e => EntrySound env e) (pending index q))
    (h : fetchInputs env pool index true tx q = some inputs) : Fetched env index (inputs, q) := by
  refine ⟨?_, hsound⟩
  refine fetchInputs_entries env pool index tx q _ inputs ?_ h
  intro hash e txPrev hfound hread
  rw [readTxPrev, if_neg (hsound hash e hfound).notPool] at hread
  exact ⟨hfound, hread⟩

variable (c : ChainState) (tx : CTransaction) (flags : ScriptFlags) (pos : CDiskTxPos)

/-- The input does not spend an anonymous output of the fetched transactions. -/
def SpendsTransparent (inputs : MapPrevTx) (txin : CTxIn) : Prop :=
  ∀ txPrev txout, (inputs txin.prevout.hash).map Prod.snd = some txPrev →
    txPrev.vout[txin.prevout.n.toNat]? = some txout → ¬ txPrev.paysAnon txout

/-- A spent mark on a transparent output. -/
theorem spendInput_coins (t t' : MapPrevTx × MapTestPool) (txin : CTxIn) (i : Nat)
    (ht : Fetched env index t) (hskip : ¬ tx.skipsInput txin) (hin : tx.vin[i]? = some txin)
    (hpos : ¬ pos.isNull)
    (htransparent : ¬ checksScripts env c true → SpendsTransparent t.1 txin)
    (h : spendInput env c tx true flags pos t (txin, i) = some t') :
    Fetched env index t' ∧ unspentCoins env (pending index t'.2) =
      unspentCoins env (pending index t.2) - spentValue t.1 txin := by
  obtain ⟨e, txPrev, hprev, ⟨spent, hspent, hnull⟩, hverify, rfl⟩ :=
    spendInput_eq_some env c tx true flags pos t t' txin i hskip h
  obtain ⟨hcurrent, hread⟩ : pending index t.2 txin.prevout.hash = some e ∧
      env.readTx e.pos = some txPrev := ht.current _ _ hprev
  have he := ht.sound _ _ hcurrent
  obtain ⟨txout, hout⟩ : ∃ txout, txPrev.vout[txin.prevout.n.toNat]? = some txout := by
    obtain ⟨txPrev', hread', hlength, -⟩ := he.stored
    obtain rfl : txPrev = txPrev' := Option.some.inj (hread.symm.trans hread')
    have hlt := (List.getElem?_eq_some_iff.mp hspent).1
    exact ⟨_, List.getElem?_eq_getElem (hlength ▸ hlt)⟩
  have hplain : ¬ txPrev.paysAnon txout := by
    by_cases hscripts : checksScripts env c true
    · intro hanon
      rw [CTransaction.paysAnon, Bool.and_eq_true] at hanon
      exact verifySignature_anonOutput env.p env.C tx i flags txPrev txin txout hin hout hanon.2
        (hverify hscripts)
    · exact htransparent hscripts txPrev txout (by rw [hprev]; rfl) hout
  have hvalue : spentValue t.1 txin = txout.nValue.toInt := by
    simp [spentValue, getOutputFor, hprev, hout]
  simp only [if_true]
  refine ⟨⟨?_, ?_⟩, ?_⟩
  · intro hash e' he'
    rw [pending_update]
    dsimp only at he'
    by_cases hhash : hash = txin.prevout.hash
    · subst hhash
      rw [Function.update_self, Option.some.injEq] at he'
      rw [Function.update_self, ← he']
      exact ⟨rfl, hread⟩
    · rw [Function.update_of_ne hhash] at he' ⊢
      exact ht.current hash e' he'
  · rw [pending_update]
    exact ht.sound.update _ (he.set env _ _)
  · have hentry := entryCoins_set env hread hout hplain hspent hnull hpos
    rw [pending_update, unspentCoins, total_update, hcurrent]
    simp only [worth, Option.map_some, Option.getD_some]
    rw [hentry, hvalue, unspentCoins]
    omega

theorem spentValue_congr {inputs inputs' : MapPrevTx} (txin : CTxIn)
    (h : (inputs' txin.prevout.hash).map Prod.snd = (inputs txin.prevout.hash).map Prod.snd) :
    spentValue inputs' txin = spentValue inputs txin := by
  have hoption : ∀ inputs : MapPrevTx, getOutputFor inputs txin =
      ((inputs txin.prevout.hash).map Prod.snd).bind fun txPrev => txPrev.vout[txin.prevout.n.toNat]? := by
    intro inputs
    cases hread : inputs txin.prevout.hash with
    | none => simp [getOutputFor, hread]
    | some e => simp [getOutputFor, hread]
  rw [spentValue, spentValue, hoption, hoption, h]

/-- The second loop of `ConnectInputs` takes the values of the transparent inputs away. -/
theorem spendInputs_coins (l : List (CTxIn × Nat)) (t t' : MapPrevTx × MapTestPool)
    (ht : Fetched env index t) (hpos : ¬ pos.isNull) (hin : ∀ x ∈ l, tx.vin[x.2]? = some x.1)
    (htransparent : ¬ checksScripts env c true →
      ∀ x ∈ l, ¬ tx.skipsInput x.1 → SpendsTransparent t.1 x.1)
    (h : l.foldlM (spendInput env c tx true flags pos) t = some t') :
    Fetched env index t' ∧ unspentCoins env (pending index t'.2) =
      unspentCoins env (pending index t.2) -
        (((l.map Prod.fst).filter fun txin => !tx.skipsInput txin).map (spentValue t.1)).sum := by
  induction l generalizing t with
  | nil =>
    simp only [List.foldlM_nil, Option.pure_def, Option.some.injEq] at h
    subst h
    simpa using ht
  | cons x l ih =>
    simp only [List.foldlM_cons, Option.bind_eq_bind, Option.bind_eq_some_iff] at h
    obtain ⟨t₁, hround, hrest⟩ := h
    have hsame := spendInput_txPrev env c tx true flags pos t t₁ x hround
    have hvalues : spentValue t₁.1 = spentValue t.1 := by
      funext txin
      exact spentValue_congr txin (hsame _)
    have htail : ¬ checksScripts env c true →
        ∀ y ∈ l, ¬ tx.skipsInput y.1 → SpendsTransparent t₁.1 y.1 := by
      intro hscripts y hy hskip txPrev txout hprev
      rw [hsame] at hprev
      exact htransparent hscripts y (List.mem_cons_of_mem x hy) hskip txPrev txout hprev
    have hstep : Fetched env index t₁ ∧ unspentCoins env (pending index t₁.2) =
        unspentCoins env (pending index t.2) - if tx.skipsInput x.1 then 0 else spentValue t.1 x.1 := by
      by_cases hskip : tx.skipsInput x.1
      · rw [spendInput_of_skipsInput env c tx true flags pos t x.1 x.2 hskip, Option.some.injEq] at hround
        subst hround
        simpa [hskip] using ht
      · rw [if_neg hskip]
        exact spendInput_coins env index c tx flags pos t t₁ x.1 x.2 ht hskip (hin x List.mem_cons_self)
          hpos (fun hscripts => htransparent hscripts x List.mem_cons_self hskip) hround
    obtain ⟨hlast, hcoins⟩ := ih t₁ hstep.1 (fun y hy => hin y (List.mem_cons_of_mem x hy)) htail hrest
    refine ⟨hlast, ?_⟩
    rw [hcoins, hstep.2, hvalues, List.map_cons]
    by_cases hskip : tx.skipsInput x.1
    · simp [hskip]
    · simp only [hskip, List.filter_cons, Bool.not_false, if_true, Bool.false_eq_true, if_false,
        List.map_cons, List.sum_cons]
      omega

/-- A changed entry was queued before or had an unspent output. -/
theorem spendInputs_touched (T : UInt256 → Prop) (l : List (CTxIn × Nat)) (t t' : MapPrevTx × MapTestPool)
    (ht : Fetched env index t) (hqueued : ∀ hash, (t.2 hash).isSome → T hash)
    (hunspent : ∀ hash e, index hash = some e → e.vSpent.any CDiskTxPos.isNull → T hash)
    (h : l.foldlM (spendInput env c tx true flags pos) t = some t') :
    ∀ hash, (t'.2 hash).isSome → T hash := by
  let Kept : MapPrevTx × MapTestPool → Prop := fun t =>
    (∀ hash e, t.1 hash = some e → T hash ∨ index hash = some e.1) ∧ ∀ hash, (t.2 hash).isSome → T hash
  have hstart : Kept t := by
    refine ⟨fun hash e he => ?_, hqueued⟩
    have hcurrent := (ht.current hash e he).1
    cases Option.or_eq_some_iff.mp hcurrent with
    | inl hin => exact Or.inl (hqueued hash (by simp [hin]))
    | inr hstored => exact Or.inr hstored.2
  refine (foldlM_preserves Kept l t t' hstart ?_ h).2
  intro t x _ t' hkept hround
  by_cases hskip : tx.skipsInput x.1
  · rw [spendInput_of_skipsInput env c tx true flags pos t x.1 x.2 hskip, Option.some.injEq] at hround
    rwa [← hround]
  · obtain ⟨e, txPrev, hprev, ⟨spent, hspent, hnull⟩, -, rfl⟩ :=
      spendInput_eq_some env c tx true flags pos t t' x.1 x.2 hskip hround
    have htouched : T x.1.prevout.hash := by
      cases hkept.1 _ _ hprev with
      | inl hdone => exact hdone
      | inr hstored =>
        exact hunspent _ e hstored (List.any_eq_true.mpr ⟨spent, List.mem_of_getElem? hspent, hnull⟩)
    simp only [if_true]
    constructor
    · intro hash e' he'
      by_cases hhash : hash = x.1.prevout.hash
      · exact Or.inl (hhash ▸ htouched)
      · exact hkept.1 hash e' (by simpa [hhash] using he')
    · intro hash hsome
      by_cases hhash : hash = x.1.prevout.hash
      · exact hhash ▸ htouched
      · exact hkept.2 hash (by simpa [hhash] using hsome)

end Inputs

section Block

variable {Pt L : Type} (env : NodeEnv Pt L) (c : ChainState) (pool : CTxMemPool) (s : Session L)
  (block : CBlock) (pindex : CBlockIndex)

/-- What a round of `ConnectBlock` adds to the sums. -/
structure TxAmounts (tx : CTransaction) (t t' : BlockTotals) (nTxValueIn nTxAnonIn nTxAnonOut : Int64) :
    Prop where
  nTxPos : t'.nTxPos = t.nTxPos + tx.size.toUInt32
  nValueIn : t'.nValueIn = t.nValueIn + nTxValueIn
  nValueOut : t'.nValueOut = t.nValueOut + tx.getValueOut
  nAnonIn : t'.nAnonIn = t.nAnonIn + nTxAnonIn
  nAnonOut : t'.nAnonOut = t.nAnonOut + nTxAnonOut
  nFees : t'.nFees = if tx.isCoinBase || tx.isCoinStake then t.nFees
    else t.nFees + (nTxValueIn - tx.getValueOut)
  nStakeReward : t'.nStakeReward = if tx.isCoinStake then tx.getValueOut - nTxValueIn else t.nStakeReward

theorem isCoinStake_of_isCoinBase (tx : CTransaction) (h : tx.isCoinBase) : tx.isCoinStake = false := by
  unfold CTransaction.isCoinBase at h
  unfold CTransaction.isCoinStake
  split at h
  · rename_i txin hvin
    rw [Bool.and_eq_true] at h
    rw [hvin]
    split
    · rename_i heq hvout
      simp only [List.cons.injEq] at heq
      rw [← heq.1, h.1]
      rfl
    · rfl
  · cases h

/-- A round of `ConnectBlock`, with its amounts. -/
theorem connectTx_amounts (t t' : BlockTotals) (tx : CTransaction)
    (h : connectTx env c pool s pindex false t tx = some t') :
    ¬ overwritesUnspent s (env.txid tx) ∧ ∃ q,
      t'.mapQueuedChanges = Function.update q (env.txid tx)
        (some (CTxIndex.new (posThisTx pindex t.nTxPos) tx.vout.length)) ∧
      (tx.isCoinBase ∧ q = t.mapQueuedChanges ∧ TxAmounts tx t t' 0 0 0 ∨
        ¬ tx.isCoinBase ∧ ∃ inputs nTxAnonIn, TxConnected env c pool s pindex tx t inputs q ∧
          TxAmounts tx t t' (getValueIn inputs tx + nTxAnonIn) nTxAnonIn tx.anonOut) := by
  simp only [connectTx, Option.bind_eq_bind, Option.bind_none, Option.ite_none_left_eq_some,
    Option.pure_def] at h
  obtain ⟨hover, -, h⟩ := h
  refine ⟨hover, ?_⟩
  by_cases hbase : tx.isCoinBase
  · rw [if_pos hbase, Option.bind_some, Option.some.injEq] at h
    subst h
    have hstake := isCoinStake_of_isCoinBase tx hbase
    refine ⟨t.mapQueuedChanges, rfl, Or.inl ⟨hbase, rfl, ?_⟩⟩
    constructor
    · rfl
    · simp
    · rfl
    · simp
    · simp
    · simp [hbase]
    · simp [hstake]
  · rw [if_neg hbase, Option.bind_eq_some_iff] at h
    obtain ⟨t₁, hround, h⟩ := h
    rw [Option.some.injEq] at h
    subst h
    simp only [connectTxInputs, Option.bind_eq_bind, Option.bind_none, Option.ite_none_left_eq_some,
      Option.bind_eq_some_iff, Option.pure_def] at hround
    obtain ⟨inputs, hfetch, -, nTxAnonIn, hanon, q, hconnect, hround⟩ := hround
    rw [Option.some.injEq] at hround
    subst hround
    have hchecked := (anonValueIn_isSome env tx (sessionView env c pool s)).mp (by simp [hanon])
    refine ⟨q, rfl, Or.inr ⟨hbase, inputs, nTxAnonIn, ⟨hfetch, hchecked, hconnect⟩, ?_⟩⟩
    constructor
    · rfl
    · rfl
    · rfl
    · rfl
    · rfl
    · simp [hbase]
    · rfl

/-- The transactions that an input can spend from: that of the index and those of the block. -/
def prevCandidates (hash : UInt256) : List CTransaction :=
  ((s.readTxIndex hash).bind fun e => env.readTx e.pos).toList ++
    block.vtx.filter fun tx => env.txid tx == hash

/-- A transparent input of the block that spends an anonymous output. -/
def spendsAnon (txin : CTxIn) : Bool :=
  (prevCandidates env s block txin.prevout.hash).any fun txPrev =>
    txPrev.vout[txin.prevout.n.toNat]?.any txPrev.paysAnon

/-- The loop of `ConnectBlock` behind the transactions `done`. -/
structure LoopSound (done : List CTransaction) (t : BlockTotals) : Prop where
  sound : AllEntries (fun _ e => EntrySound env e) (pending s.readTxIndex t.mapQueuedChanges)
  touched : ∀ hash, (t.mapQueuedChanges hash).isSome → hash ∈ done.map env.txid ∨
    ∃ e, s.readTxIndex hash = some e ∧ e.vSpent.any CDiskTxPos.isNull
  sourced : AllEntries (fun hash e => ∀ txPrev, env.readTx e.pos = some txPrev →
    txPrev ∈ prevCandidates env s block hash) t.mapQueuedChanges

theorem mem_prevCandidates_of_index {hash : UInt256} {e : CTxIndex} {txPrev : CTransaction}
    (he : s.readTxIndex hash = some e) (hread : env.readTx e.pos = some txPrev) :
    txPrev ∈ prevCandidates env s block hash := by
  simp [prevCandidates, he, hread]

/-- The coins that exist behind a round, wrapped. -/
def loopCoins (t : BlockTotals) : Int64 :=
  Int64.ofInt (unspentCoins env (pending s.readTxIndex t.mapQueuedChanges))

/-- What the sums of `ConnectBlock` say that the transparent supply grows by. -/
def BlockTotals.transparentRaise (t : BlockTotals) : Int64 :=
  t.nValueOut - t.nValueIn - (t.nAnonOut - t.nAnonIn)

/-- The part of a coinbase that `ConnectBlock` counts as transparent although it is not. -/
def CTransaction.miscounted (tx : CTransaction) : Int64 := if tx.isCoinBase then tx.anonOut else 0

/-- The inputs of a transaction of the block. -/
theorem connectInputs_coins (done : List CTransaction) (t : BlockTotals) (tx : CTransaction)
    (inputs : MapPrevTx) (q : MapTestPool) (ht : LoopSound env s block done t) (hbase : ¬ tx.isCoinBase)
    (hpos : ¬ (posThisTx pindex t.nTxPos).isNull)
    (hapart : checksScripts env c true ∨ ∀ txin ∈ tx.transparentInputs, ¬ spendsAnon env s block txin)
    (h : TxConnected env c pool s pindex tx t inputs q) :
    LoopSound env s block done { t with mapQueuedChanges := q } ∧
      Int64.ofInt (unspentCoins env (pending s.readTxIndex q)) = loopCoins env s t - getValueIn inputs tx := by
  have hfetched := fetchInputs_fetched env s.readTxIndex pool tx _ inputs ht.sound h.fetched
  have hconnect := h.connected
  simp only [connectInputs, hbase, if_false, Option.bind_eq_bind, Option.bind_eq_some_iff,
    Bool.false_eq_true, Prod.exists, Option.ite_none_right_eq_some, Option.some.injEq] at hconnect
  obtain ⟨-, -, inputs', q', hloop, -, -, -, rfl⟩ := hconnect
  have hin : ∀ x ∈ tx.vin.zipIdx, tx.vin[x.2]? = some x.1 := by
    intro x hx
    exact List.mem_zipIdx_iff_getElem?.mp hx
  have htransparent : ¬ checksScripts env c true →
      ∀ x ∈ tx.vin.zipIdx, ¬ tx.skipsInput x.1 → SpendsTransparent inputs x.1 := by
    intro hscripts x hx hskip txPrev txout hprev hout hanon
    obtain ⟨e, hinput, rfl⟩ := Option.map_eq_some_iff.mp hprev
    have hmem : x.1 ∈ tx.transparentInputs := by
      rw [CTransaction.transparentInputs, List.mem_filter]
      exact ⟨List.fst_mem_of_mem_zipIdx hx, by simpa using hskip⟩
    refine (hapart.resolve_left hscripts) x.1 hmem ?_
    obtain ⟨hcurrent, hread⟩ := hfetched.current _ _ hinput
    refine List.any_eq_true.mpr ⟨e.2, ?_, by simp [hout, hanon]⟩
    cases Option.or_eq_some_iff.mp hcurrent with
    | inl hqueued => exact ht.sourced _ _ hqueued e.2 hread
    | inr hstored => exact mem_prevCandidates_of_index env s block hstored.2 hread
  obtain ⟨hlast, hcoins⟩ := spendInputs_coins env s.readTxIndex c tx _ _ tx.vin.zipIdx _ _ hfetched hpos
    hin htransparent hloop
  refine ⟨⟨hlast.sound, ?_, ?_⟩, ?_⟩
  · refine spendInputs_touched env s.readTxIndex c tx _ _ _ tx.vin.zipIdx _ _ hfetched ht.touched ?_ hloop
    intro hash e he hnull
    exact Or.inr ⟨e, he, hnull⟩
  · refine connectInputs_pos env c tx true _ _ (fun hash pos => ∀ txPrev, env.readTx pos = some txPrev →
      txPrev ∈ prevCandidates env s block hash) pindex _ inputs _ _ ?_ ht.sourced h.connected
    refine fetchInputs_pos env pool s.readTxIndex tx t.mapQueuedChanges (fun hash pos =>
      ∀ txPrev, env.readTx pos = some txPrev → txPrev ∈ prevCandidates env s block hash) inputs ?_
      ht.sourced h.fetched
    intro hash e _ he txPrev hread
    exact mem_prevCandidates_of_index env s block he hread
  · have hvalue : Int64.ofInt (tx.transparentInputs.map (spentValue inputs)).sum =
        getValueIn inputs tx := by
      have hmap : tx.transparentInputs.map (spentValue inputs) = (tx.transparentInputs.map fun txin =>
          ((getOutputFor inputs txin).map CTxOut.nValue).getD 0).map Int64.toInt := by
        rw [List.map_map]
        apply List.map_congr_left
        intro txin _
        cases hout : getOutputFor inputs txin with
        | none => simp [spentValue, hout]
        | some txout => simp [spentValue, hout]
      rw [hmap, ofInt_sum, getValueIn, if_neg hbase]
    rw [hcoins, Int64.ofInt_sub, loopCoins, List.zipIdx_map_fst]
    exact congrArg _ hvalue

/-- The entry of a transaction of the block takes the place of one that is worth nothing. -/
theorem newEntry_coins (done : List CTransaction) (t : BlockTotals) (tx : CTransaction)
    (ht : LoopSound env s block done t) (hnew : env.txid tx ∉ done.map env.txid)
    (hover : ¬ overwritesUnspent s (env.txid tx)) (e : CTxIndex) :
    unspentCoins env (pending s.readTxIndex
        (Function.update t.mapQueuedChanges (env.txid tx) (some e))) =
      unspentCoins env (pending s.readTxIndex t.mapQueuedChanges) + entryCoins env e := by
  have hold : ∀ e₀, s.readTxIndex (env.txid tx) = some e₀ → ¬ e₀.vSpent.any CDiskTxPos.isNull := by
    intro e₀ he₀
    simpa [overwritesUnspent, he₀] using hover
  have hqueued : t.mapQueuedChanges (env.txid tx) = none := by
    by_contra hsome
    cases ht.touched _ (Option.isSome_iff_ne_none.mpr hsome) with
    | inl hdone => exact hnew hdone
    | inr hunspent =>
      obtain ⟨e₀, he₀, hnull⟩ := hunspent
      exact hold e₀ he₀ hnull
  have hworth : worth (entryCoins env) (pending s.readTxIndex t.mapQueuedChanges (env.txid tx)) = 0 := by
    rw [pending, hqueued, Option.none_or]
    cases he₀ : s.readTxIndex (env.txid tx) with
    | none => rfl
    | some e₀ => exact entryCoins_of_spent env (hold e₀ he₀)
  rw [pending_update, unspentCoins, total_update, hworth, unspentCoins]
  simp [worth]

/-- A round of `ConnectBlock`: the coins that exist change by what the sums say. -/
theorem connectTx_coins (done : List CTransaction) (t t' : BlockTotals) (tx : CTransaction)
    (ht : LoopSound env s block done t) (hmem : tx ∈ block.vtx)
    (hnew : env.txid tx ∉ done.map env.txid) (hread : env.readTx (posThisTx pindex t.nTxPos) = some tx)
    (hnull : ¬ (posThisTx pindex t.nTxPos).isNull)
    (hpool : posThisTx pindex t.nTxPos ≠ CDiskTxPos.inMemoryPool)
    (hvalues : ∀ txout ∈ tx.vout, 0 ≤ txout.nValue)
    (hapart : checksScripts env c true ∨ tx.isCoinBase ∨
      ∀ txin ∈ tx.transparentInputs, ¬ spendsAnon env s block txin)
    (h : connectTx env c pool s pindex false t tx = some t') :
    LoopSound env s block (done ++ [tx]) t' ∧ t'.nTxPos = t.nTxPos + tx.size.toUInt32 ∧
      loopCoins env s t' + tx.miscounted =
        loopCoins env s t + (t'.transparentRaise - t.transparentRaise) := by
  obtain ⟨hover, q, hq, hcases⟩ := connectTx_amounts env c pool s pindex t t' tx h
  -- the state between the inputs and the new entry
  have hinputs : LoopSound env s block done { t with mapQueuedChanges := q } ∧
      t'.nTxPos = t.nTxPos + tx.size.toUInt32 ∧
      Int64.ofInt (unspentCoins env (pending s.readTxIndex q)) + tx.getValueOut - tx.anonOut +
        tx.miscounted = loopCoins env s t + (t'.transparentRaise - t.transparentRaise) := by
    unfold BlockTotals.transparentRaise CTransaction.miscounted
    cases hcases with
    | inl hcoin =>
      obtain ⟨hbase, rfl, hamounts⟩ := hcoin
      refine ⟨ht, hamounts.nTxPos, ?_⟩
      rw [hamounts.nValueIn, hamounts.nValueOut, hamounts.nAnonIn, hamounts.nAnonOut, if_pos hbase,
        loopCoins]
      grind
    | inr hspend =>
      obtain ⟨hbase, inputs, nTxAnonIn, hconnected, hamounts⟩ := hspend
      have hapart' : checksScripts env c true ∨
          ∀ txin ∈ tx.transparentInputs, ¬ spendsAnon env s block txin :=
        hapart.imp_right fun h => h.resolve_left hbase
      obtain ⟨hsound, hcoins⟩ := connectInputs_coins env c pool s block pindex done t tx inputs q ht hbase
        hnull hapart' hconnected
      refine ⟨hsound, hamounts.nTxPos, ?_⟩
      rw [hamounts.nValueIn, hamounts.nValueOut, hamounts.nAnonIn, hamounts.nAnonOut, if_neg hbase, hcoins]
      grind
  obtain ⟨hsound, hnTxPos, hcoins⟩ := hinputs
  refine ⟨⟨?_, ?_, ?_⟩, hnTxPos, ?_⟩
  · rw [hq, pending_update]
    exact hsound.sound.update _ ⟨hpool, tx, hread, by simp [CTxIndex.new], hvalues⟩
  · intro hash hsome
    rw [List.map_append, List.mem_append]
    by_cases hhash : hash = env.txid tx
    · exact Or.inl (Or.inr (by simp [hhash]))
    · rw [hq, Function.update_of_ne hhash] at hsome
      exact (hsound.touched hash hsome).imp_left Or.inl
  · rw [hq]
    refine hsound.sourced.update _ ?_
    intro txPrev hprev
    obtain rfl : tx = txPrev := Option.some.inj (hread.symm.trans hprev)
    rw [prevCandidates, List.mem_append, List.mem_filter]
    exact Or.inr ⟨hmem, by simp⟩
  · have hentry := entryCoins_new env tx (posThisTx pindex t.nTxPos) hread
    have hcoins' := newEntry_coins env s block done _ tx hsound hnew hover
      (CTxIndex.new (posThisTx pindex t.nTxPos) tx.vout.length)
    rw [← hcoins, loopCoins, hq, hcoins', Int64.ofInt_add, hentry]
    grind

/-- The transactions are read back from the positions that `ConnectBlock` computes. -/
def TxsOnDisk : UInt32 → List CTransaction → Prop
  | _, [] => True
  | nTxPos, tx :: vtx =>
    env.readTx (posThisTx pindex nTxPos) = some tx ∧ TxsOnDisk (nTxPos + tx.size.toUInt32) vtx

/-- `WriteToDisk` has put the block where its entry in the block index says: behind the magic and the
size, so never at the beginning of a file. -/
structure BlockOnDisk : Prop where
  notNull : ¬ (posThisTx pindex 0).isNull
  notPool : (posThisTx pindex 0).nBlockPos ≠ 1
  readable : TxsOnDisk env pindex (initTotals block pindex false).nTxPos block.vtx

theorem posThisTx_nFile (nTxPos : UInt32) :
    (posThisTx pindex nTxPos).nFile = (posThisTx pindex 0).nFile := by
  cases pindex <;> rfl

theorem posThisTx_nBlockPos (nTxPos : UInt32) :
    (posThisTx pindex nTxPos).nBlockPos = (posThisTx pindex 0).nBlockPos := by
  cases pindex <;> rfl

theorem connectTxs_coins (hstored : BlockOnDisk env block pindex) (vtx done : List CTransaction)
    (t t' : BlockTotals) (ht : LoopSound env s block done t) (hmem : ∀ tx ∈ vtx, tx ∈ block.vtx)
    (hnodup : ((done ++ vtx).map env.txid).Nodup) (hread : TxsOnDisk env pindex t.nTxPos vtx)
    (hvalues : ∀ tx ∈ vtx, ∀ txout ∈ tx.vout, 0 ≤ txout.nValue)
    (hapart : ∀ tx ∈ vtx, checksScripts env c true ∨ tx.isCoinBase ∨
      ∀ txin ∈ tx.transparentInputs, ¬ spendsAnon env s block txin)
    (h : vtx.foldlM (connectTx env c pool s pindex false) t = some t') :
    LoopSound env s block (done ++ vtx) t' ∧ loopCoins env s t' + (vtx.map CTransaction.miscounted).sum =
      loopCoins env s t + (t'.transparentRaise - t.transparentRaise) := by
  induction vtx generalizing done t with
  | nil =>
    simp only [List.foldlM_nil, Option.pure_def, Option.some.injEq] at h
    subst h
    rw [List.append_nil]
    refine ⟨ht, ?_⟩
    simp
  | cons tx vtx ih =>
    simp only [List.foldlM_cons, Option.bind_eq_bind, Option.bind_eq_some_iff] at h
    obtain ⟨t₁, hround, hrest⟩ := h
    have hnull : ¬ (posThisTx pindex t.nTxPos).isNull := by
      rw [CDiskTxPos.isNull, posThisTx_nFile]
      exact hstored.notNull
    have hpool : posThisTx pindex t.nTxPos ≠ CDiskTxPos.inMemoryPool := by
      intro heq
      have hblockPos := posThisTx_nBlockPos pindex t.nTxPos
      rw [heq] at hblockPos
      exact hstored.notPool hblockPos.symm
    have hnew : env.txid tx ∉ done.map env.txid := by
      rw [List.map_append, List.map_cons] at hnodup
      intro hdone
      exact (List.nodup_append.mp hnodup).2.2 _ hdone _ List.mem_cons_self rfl
    obtain ⟨hsound, hnTxPos, hcoins⟩ := connectTx_coins env c pool s block pindex done t t₁ tx ht
      (hmem tx List.mem_cons_self) hnew hread.1 hnull hpool (hvalues tx List.mem_cons_self)
      (hapart tx List.mem_cons_self) hround
    have hrest' := ih (done ++ [tx]) t₁ hsound (fun tx' h' => hmem tx' (List.mem_cons_of_mem tx h'))
      (by simpa using hnodup) (hnTxPos ▸ hread.2) (fun tx' h' => hvalues tx' (List.mem_cons_of_mem tx h'))
      (fun tx' h' => hapart tx' (List.mem_cons_of_mem tx h')) hrest
    obtain ⟨hlast, hcoins'⟩ := hrest'
    rw [List.append_assoc] at hlast
    refine ⟨hlast, ?_⟩
    rw [List.map_cons, List.sum_cons]
    grind

/-- The transparent inputs of the block spend no anonymous output. -/
def spendsApart : Bool :=
  checksScripts env c true || block.vtx.all fun tx =>
    tx.isCoinBase || tx.transparentInputs.all fun txin => !spendsAnon env s block txin

theorem connectBlock_supply (s' : Session L) (t : BlockTotals)
    (h : connectBlock env c pool false s block pindex = (s', true))
    (ht : checkTransactions env c pool s block pindex false = some t) :
    s'.supply = connectSupply s.supply pindex t := by
  rcases connectBlock_cases env c pool s block pindex with ⟨t', ht', hrecord⟩ | ⟨loc, hfail⟩
  · obtain rfl : t = t' := Option.some.inj (ht.symm.trans ht')
    rw [hrecord, Prod.mk.injEq] at h
    rw [← h.1]
    rfl
  · rw [hfail, Prod.mk.injEq] at h
    exact absurd h.2 Bool.false_ne_true

/-- The totals of a block that passes, with the loop that leads to them. -/
theorem checkTransactions_loop (t : BlockTotals)
    (h : checkTransactions env c pool s block pindex false = some t) :
    block.vtx.foldlM (connectTx env c pool s pindex false) (initTotals block pindex false) = some t ∧
      checkReward env s block pindex t := by
  simp only [checkTransactions, Option.bind_eq_bind, Option.bind_eq_some_iff,
    Option.ite_none_right_eq_some, Option.some.injEq] at h
  obtain ⟨t', hfold, hreward, rfl⟩ := h
  exact ⟨hfold, hreward⟩

/-- A connected block: what it leaves unspent, against the two counters. -/
theorem connectBlock_coins (s' : Session L) (hstored : BlockOnDisk env block pindex)
    (hsound : AllEntries (fun _ e => EntrySound env e) s.readTxIndex)
    (hapart : spendsApart env c s block)
    (h : connectBlock env c pool false s block pindex = (s', true)) :
    AllEntries (fun _ e => EntrySound env e) s'.readTxIndex ∧
      ∃ t, checkTransactions env c pool s block pindex false = some t ∧
        Int64.ofInt (unspentCoins env s'.readTxIndex) + (block.vtx.map CTransaction.miscounted).sum =
          Int64.ofInt (unspentCoins env s.readTxIndex) + t.transparentRaise := by
  have haccepts := connectBlock_accepts env c pool s block pindex false
  have hnodup := connectBlock_nodup env c pool s block pindex false (by rw [h])
  rw [h, eq_comm, Bool.and_eq_true] at haccepts
  have hvalues := checkBlock_nonneg haccepts.1
  have hapart' : ∀ tx ∈ block.vtx, checksScripts env c true ∨ tx.isCoinBase ∨
      ∀ txin ∈ tx.transparentInputs, ¬ spendsAnon env s block txin := by
    intro tx htx
    simp only [spendsApart, Bool.or_eq_true, List.all_eq_true, Bool.not_eq_true'] at hapart
    refine hapart.imp_right fun hall => (hall tx htx).imp_right fun hins txin hin => ?_
    rw [hins txin hin]
    exact Bool.false_ne_true
  obtain ⟨t, ht, -, hread⟩ := connectBlock_result env c pool s s' block pindex h
  have hindex : s'.readTxIndex = pending s.readTxIndex t.mapQueuedChanges := funext hread
  obtain ⟨hfold, -⟩ := checkTransactions_loop env c pool s block pindex t ht
  have hinit : LoopSound env s block [] (initTotals block pindex false) := by
    refine ⟨hsound, ?_, AllEntries.none⟩
    intro hash hsome
    cases hsome
  obtain ⟨hlast, hcoins⟩ := connectTxs_coins env c pool s block pindex hstored block.vtx [] _ t hinit
    (fun _ htx => htx) hnodup hstored.readable hvalues hapart' hfold
  refine ⟨hindex ▸ hlast.sound, t, ht, ?_⟩
  have hzero : (initTotals block pindex false).transparentRaise = 0 := by
    simp [BlockTotals.transparentRaise, initTotals]
  have hstart : loopCoins env s (initTotals block pindex false) =
      Int64.ofInt (unspentCoins env s.readTxIndex) := rfl
  rw [hzero, hstart, loopCoins, ← hindex] at hcoins
  rw [hcoins]
  grind

end Block

section Stake

variable {Pt L : Type} (env : NodeEnv Pt L) (c : ChainState) (pool : CTxMemPool) (s : Session L)
  (block : CBlock) (pindex : CBlockIndex)

/-- What a block mints beyond the reward of its staker and the fees that it burns. -/
def BlockTotals.excess (t : BlockTotals) : Int64 := t.nValueOut - t.nValueIn + t.nFees - t.nStakeReward

theorem connectTx_excess (t t' : BlockTotals) (tx : CTransaction)
    (h : connectTx env c pool s pindex false t tx = some t') :
    t'.excess = t.excess +
      if tx.isCoinBase then tx.getValueOut else if tx.isCoinStake then t.nStakeReward else 0 := by
  obtain ⟨-, q, -, hcases⟩ := connectTx_amounts env c pool s pindex t t' tx h
  unfold BlockTotals.excess
  cases hcases with
  | inl hcoin =>
    obtain ⟨hbase, -, hamounts⟩ := hcoin
    rw [hamounts.nValueIn, hamounts.nValueOut, hamounts.nFees, hamounts.nStakeReward,
      isCoinStake_of_isCoinBase tx hbase, hbase]
    simp only [Bool.true_or, if_true, Bool.false_eq_true, if_false]
    grind
  | inr hspend =>
    obtain ⟨hbase, inputs, nTxAnonIn, -, hamounts⟩ := hspend
    rw [hamounts.nValueIn, hamounts.nValueOut, hamounts.nFees, hamounts.nStakeReward]
    by_cases hstake : tx.isCoinStake
    · simp only [hbase, hstake, Bool.or_true, if_true, Bool.false_eq_true, if_false]
      grind
    · simp only [hbase, hstake, Bool.or_false, Bool.false_eq_true, if_false]
      grind

theorem connectTxs_excess (vtx : List CTransaction) (t t' : BlockTotals)
    (hbase : ∀ tx ∈ vtx, ¬ tx.isCoinBase) (hstake : ∀ tx ∈ vtx, ¬ tx.isCoinStake)
    (h : vtx.foldlM (connectTx env c pool s pindex false) t = some t') : t'.excess = t.excess := by
  refine foldlM_preserves (fun r : BlockTotals => r.excess = t.excess) vtx t t' rfl ?_ h
  intro r tx htx r' hr hround
  rw [connectTx_excess env c pool s pindex r r' tx hround, if_neg (hbase tx htx), if_neg (hstake tx htx),
    hr]
  simp

/-- A staked block mints its reward less its fees. -/
theorem stakedBlock_raise (t : BlockTotals) (hshape : checkBlockShape block) (hpos : block.isProofOfStake)
    (h : block.vtx.foldlM (connectTx env c pool s pindex false) (initTotals block pindex false) = some t) :
    t.nValueOut - t.nValueIn = t.nStakeReward - t.nFees := by
  have hexcess : t.excess = 0 := by
    unfold checkBlockShape at hshape
    cases hvtx : block.vtx with
    | nil => simp [hvtx] at hshape
    | cons tx0 rest =>
      cases rest with
      | nil => simp [CBlock.isProofOfStake, hvtx] at hpos
      | cons tx1 rest =>
        have hstake : tx1.isCoinStake := by simpa [CBlock.isProofOfStake, hvtx] using hpos
        simp only [hvtx, hpos, Bool.and_eq_true, Bool.not_true, Bool.false_or, List.drop_succ_cons,
          List.drop_zero, List.all_eq_true, Bool.not_eq_true'] at hshape
        obtain ⟨⟨hbase0, hbase⟩, hempty, hstakes⟩ := hshape
        have hzero : tx0.getValueOut = 0 := by
          split at hempty
          · rename_i txout hvout
            simp only [CTxOut.isEmpty, Bool.and_eq_true, beq_iff_eq] at hempty
            simp [CTransaction.getValueOut, hvout, hempty.1]
          · cases hempty
        have hbase1 : tx1.isCoinBase = false := hbase tx1 List.mem_cons_self
        simp only [hvtx, List.foldlM_cons, Option.bind_eq_bind, Option.bind_eq_some_iff] at h
        obtain ⟨t₀, hround0, t₁, hround1, hrest⟩ := h
        have hreward : t₀.nStakeReward = 0 := by
          obtain ⟨-, q, -, hcases⟩ := connectTx_amounts env c pool s pindex _ t₀ tx0 hround0
          cases hcases with
          | inl hcoin =>
            rw [hcoin.2.2.nStakeReward, isCoinStake_of_isCoinBase tx0 hbase0]
            rfl
          | inr hspend => exact absurd hbase0 hspend.1
        rw [connectTxs_excess env c pool s pindex rest t₁ t
            (fun tx htx => by simp [hbase tx (List.mem_cons_of_mem tx1 htx)])
            (fun tx htx => by simp [hstakes tx htx]) hrest,
          connectTx_excess env c pool s pindex t₀ t₁ tx1 hround1,
          connectTx_excess env c pool s pindex _ t₀ tx0 hround0, hbase0, hbase1, hstake, hzero, hreward]
        simp [BlockTotals.excess, initTotals]
  unfold BlockTotals.excess at hexcess
  grind

/-- The coin age of a staked block, which is read before protocol V3 only. -/
def stakeCoinAge (pindexPrev : CBlockIndex) (tx1 : CTransaction) : Option Int64 :=
  if env.p.isProtocolV3 (CBlockIndex.nHeight pindexPrev) then some 0 else getCoinAge env s pindexPrev tx1

/-- The reward that `ConnectBlock` calculates for a staked block; `none` where `GetCoinAge` fails. -/
def calculatedStakeReward (nFees : Int64) : Option Int64 :=
  (block.vtx[1]?.bind (stakeCoinAge env s pindex.tail)).map fun nCoinAge =>
    if block.isProofOfAnonStake then getProofOfAnonStakeReward env.p pindex.tail nFees
    else getProofOfStakeReward env.p pindex.tail
      (s.supply (CBlockIndex.getBlockHash pindex.tail)).nMoneySupply nCoinAge nFees

theorem checkReward_stake (t : BlockTotals) (hpos : block.isProofOfStake)
    (h : checkReward env s block pindex t) :
    ∃ nReward, calculatedStakeReward env s block pindex t.nFees = some nReward ∧
      t.nStakeReward ≤ nReward := by
  unfold checkReward at h
  cases hvtx : block.vtx with
  | nil => simp [hvtx] at h
  | cons tx0 rest =>
    cases rest with
    | nil => simp [CBlock.isProofOfStake, hvtx] at hpos
    | cons tx1 rest =>
      simp only [hvtx, hpos, if_true, checkStakeReward] at h
      generalize hage : (if env.p.isProtocolV3 (CBlockIndex.nHeight pindex.tail) then some 0
        else getCoinAge env s pindex.tail tx1) = nCoinAge at h
      cases nCoinAge with
      | none => simp at h
      | some nCoinAge =>
        simp only [Bool.and_eq_true, decide_eq_true_eq] at h
        refine ⟨_, ?_, h.1⟩
        simp [calculatedStakeReward, stakeCoinAge, hvtx, hage]

end Stake

section Chain

variable {Pt L : Type} (env : NodeEnv Pt L)

/-- A chain of blocks connected by `ConnectBlock` on top of the genesis block, whose transaction is
never indexed. Every step meets `P`. -/
inductive ConnectedChain (P : ChainState → Session L → CBlock → Prop) : CBlockIndex → Session L → Prop
  | genesis (b : BlockNode) (s : Session L) (hindex : s.readTxIndex = fun _ => none)
      (hsupply : s.supply b.hash = ⟨0, 0, 0⟩) : ConnectedChain P [b] s
  | connect {pindex : CBlockIndex} {s s' : Session L} (c : ChainState) (pool : CTxMemPool) (block : CBlock)
      (b : BlockNode) (hchain : ConnectedChain P pindex s) (hstep : P c s block)
      (hstored : BlockOnDisk env block (b :: pindex))
      (hconnect : connectBlock env c pool false s block (b :: pindex) = (s', true)) :
      ConnectedChain P (b :: pindex) s'
  /-- Between two blocks, as at the commit, the index and the amounts of the tip stay. -/
  | between {pindex : CBlockIndex} {s s' : Session L} (hchain : ConnectedChain P pindex s)
      (hindex : s'.readTxIndex = s.readTxIndex)
      (hsupply : s'.supply (CBlockIndex.getBlockHash pindex) = s.supply (CBlockIndex.getBlockHash pindex)) :
      ConnectedChain P pindex s'

theorem ConnectedChain.ne_nil {P : ChainState → Session L → CBlock → Prop} {pindex : CBlockIndex}
    {s : Session L} (h : ConnectedChain env P pindex s) : pindex ≠ [] := by
  induction h with
  | genesis b s _ _ => exact List.cons_ne_nil b []
  | connect c pool block b _ _ _ _ _ => exact List.cons_ne_nil b _
  | between _ _ _ ih => exact ih

/-- No coinbase of the block pays an anonymous output, and no transparent input spends one where scripts
are not verified. -/
def keepsSuppliesApart (c : ChainState) (s : Session L) (block : CBlock) : Bool :=
  (block.vtx.all fun tx => !tx.isCoinBase || tx.anonOut == 0) && spendsApart env c s block

theorem miscounted_eq_zero {c : ChainState} {s : Session L} {block : CBlock}
    (h : keepsSuppliesApart env c s block) : (block.vtx.map CTransaction.miscounted).sum = 0 := by
  simp only [keepsSuppliesApart, Bool.and_eq_true, List.all_eq_true, Bool.or_eq_true, Bool.not_eq_true',
    beq_iff_eq] at h
  have hall : ∀ tx ∈ block.vtx, tx.miscounted = 0 := by
    intro tx htx
    unfold CTransaction.miscounted
    cases h.1 tx htx with
    | inl hbase => simp [hbase]
    | inr hnone => simp [hnone]
  revert hall
  induction block.vtx with
  | nil => exact fun _ => rfl
  | cons tx vtx ih =>
    intro hall
    rw [List.map_cons, List.sum_cons, hall tx List.mem_cons_self,
      ih fun tx' h' => hall tx' (List.mem_cons_of_mem tx h')]
    rfl

/-- The recorded amounts of the block that a chain ends with. -/
def tipSupply (pindex : CBlockIndex) (s : Session L) : Supply := s.supply (CBlockIndex.getBlockHash pindex)

theorem connectSupply_tip (supply : UInt256 → Supply) (b : BlockNode) (pindex : CBlockIndex)
    (t : BlockTotals) (hne : pindex ≠ []) :
    connectSupply supply (b :: pindex) t b.hash =
      { nMint := t.nValueOut - t.nValueIn + t.nFees
        nMoneySupply := (supply (CBlockIndex.getBlockHash pindex)).nMoneySupply + t.nValueOut - t.nValueIn
        nAnonSupply := (supply (CBlockIndex.getBlockHash pindex)).nAnonSupply + t.nAnonOut - t.nAnonIn } := by
  cases pindex with
  | nil => exact absurd rfl hne
  | cons b' pprev =>
    rw [connectSupply]
    exact Function.update_self _ _ _

/-- `nMoneySupply` less `nAnonSupply`. -/
def Supply.transparent (supply : Supply) : Int64 := supply.nMoneySupply - supply.nAnonSupply

/-- The invariant of a chain whose blocks keep the supplies apart. -/
theorem ConnectedChain.coins {P : ChainState → Session L → CBlock → Prop} {pindex : CBlockIndex}
    {s : Session L} (h : ConnectedChain env P pindex s)
    (hP : ∀ c s block, P c s block → keepsSuppliesApart env c s block) :
    AllEntries (fun _ e => EntrySound env e) s.readTxIndex ∧
      (tipSupply pindex s).transparent = Int64.ofInt (unspentCoins env s.readTxIndex) := by
  induction h with
  | genesis b s hindex hsupply =>
    have htip : tipSupply [b] s = ⟨0, 0, 0⟩ := hsupply
    rw [hindex, htip, unspentCoins, total_none]
    exact ⟨AllEntries.none, rfl⟩
  | between hchain hindex hsupply ih =>
    rw [hindex, tipSupply, hsupply]
    exact ih
  | @connect pindex s s' c pool block b hchain hstep hstored hconnect ih =>
    obtain ⟨hsound, hcoins⟩ := ih
    have hapart := hP c s block hstep
    have hspends : spendsApart env c s block := by
      rw [keepsSuppliesApart, Bool.and_eq_true] at hapart
      exact hapart.2
    obtain ⟨hsound', t, ht, hnew⟩ := connectBlock_coins env c pool s block (b :: pindex) s' hstored hsound
      hspends hconnect
    rw [miscounted_eq_zero env hapart] at hnew
    have hsupply := connectBlock_supply env c pool s block (b :: pindex) s' t hconnect ht
    have htip : tipSupply (b :: pindex) s' = connectSupply s.supply (b :: pindex) t b.hash := by
      rw [← hsupply]
      rfl
    refine ⟨hsound', ?_⟩
    rw [htip, connectSupply_tip s.supply b pindex t (hchain.ne_nil env), Supply.transparent]
    unfold Supply.transparent tipSupply at hcoins
    unfold BlockTotals.transparentRaise at hnew
    grind

/-- A staked block on top of a chain raises the supply by its reward less its fees at most, as long as
the new supply is in range. -/
theorem stakedBlock_supply {pindex : CBlockIndex} {s s' : Session L} (hne : pindex ≠ []) (c : ChainState)
    (pool : CTxMemPool) (block : CBlock) (b : BlockNode) (t : BlockTotals)
    (hconnect : connectBlock env c pool false s block (b :: pindex) = (s', true))
    (hpos : block.isProofOfStake)
    (ht : checkTransactions env c pool s block (b :: pindex) false = some t) :
    ∃ nReward, calculatedStakeReward env s block (b :: pindex) t.nFees = some nReward ∧
      (-2 ^ 63 ≤ (tipSupply pindex s).nMoneySupply.toInt + t.nStakeReward.toInt - t.nFees.toInt →
        (tipSupply pindex s).nMoneySupply.toInt + t.nStakeReward.toInt - t.nFees.toInt < 2 ^ 63 →
        (tipSupply (b :: pindex) s').nMoneySupply.toInt - (tipSupply pindex s).nMoneySupply.toInt ≤
          nReward.toInt - t.nFees.toInt) := by
  obtain ⟨hfold, hreward⟩ := checkTransactions_loop env c pool s block (b :: pindex) t ht
  obtain ⟨nReward, hcalc, hle⟩ := checkReward_stake env s block (b :: pindex) t hpos hreward
  have hshape : checkBlockShape block := by
    have haccepts := connectBlock_accepts env c pool s block (b :: pindex) false
    rw [hconnect, eq_comm, Bool.and_eq_true] at haccepts
    have hcheck := haccepts.1
    simp only [checkBlock, Bool.and_eq_true] at hcheck
    exact hcheck.1.1.1.1.2
  have hraise := stakedBlock_raise env c pool s block (b :: pindex) t hshape hpos hfold
  refine ⟨nReward, hcalc, fun hlow hhigh => ?_⟩
  have hsupply := connectBlock_supply env c pool s block (b :: pindex) s' t hconnect ht
  have htip : tipSupply (b :: pindex) s' = connectSupply s.supply (b :: pindex) t b.hash := by
    rw [← hsupply]
    rfl
  have hnew : (tipSupply (b :: pindex) s').nMoneySupply = Int64.ofInt
      ((tipSupply pindex s).nMoneySupply.toInt + t.nStakeReward.toInt - t.nFees.toInt) := by
    rw [htip, connectSupply_tip s.supply b pindex t hne, Int64.ofInt_sub, Int64.ofInt_add,
      Int64.ofInt_toInt, Int64.ofInt_toInt, Int64.ofInt_toInt, tipSupply]
    grind
  have hint := Int64.le_iff_toInt_le.mp hle
  rw [hnew, Int64.toInt_ofInt_of_le hlow hhigh]
  omega

/-- The recorded supply and the coins that exist. -/
theorem connectedChain_supply {P : ChainState → Session L → CBlock → Prop} {pindex : CBlockIndex}
    {s : Session L} (h : ConnectedChain env P pindex s) :
    ((∀ c s block, P c s block → keepsSuppliesApart env c s block) →
      unspentCoins env s.readTxIndex < 2 ^ 63 →
      (tipSupply pindex s).transparent.toInt = unspentCoins env s.readTxIndex) ∧
    ∀ c pool block b t s', connectBlock env c pool false s block (b :: pindex) = (s', true) →
      block.isProofOfStake → checkTransactions env c pool s block (b :: pindex) false = some t →
      ∃ nReward, calculatedStakeReward env s block (b :: pindex) t.nFees = some nReward ∧
        (-2 ^ 63 ≤ (tipSupply pindex s).nMoneySupply.toInt + t.nStakeReward.toInt - t.nFees.toInt →
          (tipSupply pindex s).nMoneySupply.toInt + t.nStakeReward.toInt - t.nFees.toInt < 2 ^ 63 →
          (tipSupply (b :: pindex) s').nMoneySupply.toInt - (tipSupply pindex s).nMoneySupply.toInt ≤
            nReward.toInt - t.nFees.toInt) := by
  constructor
  · intro hP hrange
    obtain ⟨hsound, hcoins⟩ := h.coins env hP
    have hnonneg := unspentCoins_nonneg env hsound
    rw [hcoins, Int64.toInt_ofInt_of_le (by omega) hrange]
  · intro c pool block b t s' hconnect hpos ht
    exact stakedBlock_supply env (h.ne_nil env) c pool block b t hconnect hpos ht

end Chain

section AnonCoinBase

variable {Pt L : Type} (env : NodeEnv Pt L)

/-- A block with nothing but a coinbase, on top of an empty index. -/
theorem coinBaseBlock_coins (c : ChainState) (pool : CTxMemPool) (s s' : Session L) (block : CBlock)
    (pindex : CBlockIndex) (tx0 : CTransaction) (hvtx : block.vtx = [tx0]) (hbase : tx0.isCoinBase)
    (hindex : s.readTxIndex = fun _ => none)
    (h : connectBlock env c pool false s block pindex = (s', true)) :
    unspentCoins env s'.readTxIndex = entryCoins env
      (CTxIndex.new (posThisTx pindex (initTotals block pindex false).nTxPos) tx0.vout.length) := by
  obtain ⟨t, ht, -, hread⟩ := connectBlock_result env c pool s s' block pindex h
  obtain ⟨hfold, -⟩ := checkTransactions_loop env c pool s block pindex t ht
  simp only [hvtx, List.foldlM_cons, List.foldlM_nil, Option.bind_eq_bind, Option.bind_eq_some_iff,
    Option.pure_def, Option.some.injEq] at hfold
  obtain ⟨t', hround, rfl⟩ := hfold
  obtain ⟨-, q, hq, hcases⟩ := connectTx_amounts env c pool s pindex _ t' tx0 hround
  obtain ⟨-, rfl, -⟩ := hcases.resolve_right fun hspend => hspend.1 hbase
  have hnew : s'.readTxIndex = Function.update (fun _ => none) (env.txid tx0)
      (some (CTxIndex.new (posThisTx pindex (initTotals block pindex false).nTxPos) tx0.vout.length)) := by
    rw [show s'.readTxIndex = pending s.readTxIndex t'.mapQueuedChanges from funext hread, hq,
      pending_update, hindex]
    rfl
  rw [hnew, unspentCoins, total_update, total_none]
  simp [worth]

/-- A coinbase that pays an anonymous coin of five. -/
def anonCoinBase : CTransaction where
  nVersion := ANON_TXN_VERSION
  nTime := minedTime 1
  vin := [⟨⟨0, 0xFFFFFFFF⟩, [2, 1, 0, 0], 0xFFFFFFFF⟩]
  vout := [⟨5 * COIN, [OP_RETURN, OP_ANON_MARKER, 33] ++ coinPk ++ [33] ++
      beBytes 33 0x024e5872a40c8e850bd227dc2aec0e3ceff05708c83bbb871484ac3db71c0a144f⟩]
  nLockTime := 0

def anonCoinBaseBlock : CBlock := sealedBlock (minedHash 0) (minedTime 1) 5 [anonCoinBase]

/-- The chain of the genesis block of the test network and a block. -/
def secondIndex (block : CBlock) : CBlockIndex :=
  minedNode (block.getHash ⟨sha256d, fun _ => 0⟩) (minedPos 1) 1 :: minedIndex 0

def connectSecond (file : BlockFile) (block : CBlock) : Session Unit × Bool :=
  connectBlock (testNode file) (singleChain (minedIndex 0) 1530002000) CTxMemPool.empty false
    (fileSession []) block (secondIndex block)

theorem connectSecond_chain (file : BlockFile) (P : ChainState → Session Unit → CBlock → Prop)
    (block : CBlock) (hP : P (singleChain (minedIndex 0) 1530002000) (fileSession []) block)
    (hdisk : BlockOnDisk (testNode file) block (secondIndex block))
    (hconnect : connectSecond file block = ((connectSecond file block).1, true)) :
    ConnectedChain (testNode file) P (secondIndex block) (connectSecond file block).1 := by
  have hgenesis : ConnectedChain (testNode file) P (minedIndex 0) (fileSession []) :=
    ConnectedChain.genesis _ _ rfl rfl
  exact hgenesis.connect (singleChain (minedIndex 0) 1530002000) CTxMemPool.empty block _ hP hdisk hconnect

def anonCoinBaseFile : BlockFile := [(minedPos 1, anonCoinBaseBlock)]

/-- The five coins are counted as transparent, and no transparent output exists. -/
theorem anonCoinBase_miscounted :
    ConnectedChain (testNode anonCoinBaseFile) (fun _ _ _ => True) (secondIndex anonCoinBaseBlock)
        (connectSecond anonCoinBaseFile anonCoinBaseBlock).1 ∧
      unspentCoins (testNode anonCoinBaseFile)
        (connectSecond anonCoinBaseFile anonCoinBaseBlock).1.readTxIndex = 0 ∧
      (tipSupply (secondIndex anonCoinBaseBlock)
        (connectSecond anonCoinBaseFile anonCoinBaseBlock).1).transparent.toInt = 500000000 := by
  have haccept : (connectSecond anonCoinBaseFile anonCoinBaseBlock).2 = true := by
    simp only [connectSecond, secondIndex, anonCoinBaseFile, anonCoinBaseBlock, testNode_eq_eval,
      sealedBlock_eq_eval, sha256d_eq_eval]
    decide +kernel
  have hconnect : connectSecond anonCoinBaseFile anonCoinBaseBlock =
      ((connectSecond anonCoinBaseFile anonCoinBaseBlock).1, true) := by
    rw [← haccept]
  have hdisk : BlockOnDisk (testNode anonCoinBaseFile) anonCoinBaseBlock
      (secondIndex anonCoinBaseBlock) := by
    refine ⟨by decide +kernel, by decide +kernel, ?_, trivial⟩
    decide +kernel
  refine ⟨connectSecond_chain _ _ _ trivial hdisk hconnect, ?_, ?_⟩
  · rw [coinBaseBlock_coins (testNode anonCoinBaseFile) _ _ _ _ anonCoinBaseBlock _ anonCoinBase rfl
      (by decide +kernel) rfl hconnect]
    decide +kernel
  · simp only [connectSecond, secondIndex, anonCoinBaseFile, anonCoinBaseBlock, testNode_eq_eval,
      sealedBlock_eq_eval, sha256d_eq_eval]
    decide +kernel

end AnonCoinBase

section FirstStake

/-- A coinstake that spends the coinbase of block 1. -/
def firstStakeTx : CTransaction where
  nVersion := 1
  nTime := minedTime 2
  vin := [⟨⟨0xc88b2cc84fdff2b2962f35f1fa253e8443a7f28e7ad673459b14b961a02ee95f, 0⟩, [0x51, 0x51],
    0xFFFFFFFF⟩]
  vout := [⟨0, []⟩, ⟨2000000 * COIN, [0x51]⟩]
  nLockTime := 0

def firstStakeBlock : CBlock := minedBlock (minedHash 1) 2 0 0 0 [firstStakeTx]

def firstStakeFile : BlockFile := [(minedPos 1, minedChainBlock 1), (minedPos 2, firstStakeBlock)]

def beforeStake : Session Unit := (connectSecond firstStakeFile (minedChainBlock 1)).1

def stakeIndex : CBlockIndex :=
  minedNode (firstStakeBlock.getHash ⟨sha256d, fun _ => 0⟩) (minedPos 2) 2 ::
    secondIndex (minedChainBlock 1)

def connectStake : Session Unit × Bool :=
  connectBlock (testNode firstStakeFile) (singleChain (minedIndex 1) 1530002000) CTxMemPool.empty false
    beforeStake firstStakeBlock stakeIndex

private theorem stakeTotals :
    ((checkTransactions (testNode firstStakeFile) (singleChain (minedIndex 1) 1530002000)
      CTxMemPool.empty beforeStake firstStakeBlock stakeIndex false).map fun t =>
        (t.nStakeReward, t.nFees)) = some (0, 0) := by
  simp only [stakeIndex, beforeStake, connectSecond, secondIndex, firstStakeFile, firstStakeBlock,
    testNode_eq_eval, minedChainBlock_eq_eval, minedBlock_eq_eval, sha256d_eq_eval]
  decide +kernel

private theorem stakeAccepted : connectStake.2 = true := by
  simp only [connectStake, stakeIndex, beforeStake, connectSecond, secondIndex, firstStakeFile, firstStakeBlock,
    testNode_eq_eval, minedChainBlock_eq_eval, minedBlock_eq_eval, sha256d_eq_eval]
  decide +kernel

/-- The first block of the test network pays two million coins, these are the coins that exist, and a
coinstake on top mints no more than its reward. -/
theorem firstStake_supply :
    (tipSupply (secondIndex (minedChainBlock 1)) beforeStake).transparent.toInt =
        unspentCoins (testNode firstStakeFile) beforeStake.readTxIndex ∧
    unspentCoins (testNode firstStakeFile) beforeStake.readTxIndex = 200000000000000 ∧
    ∃ nReward, calculatedStakeReward (testNode firstStakeFile) beforeStake firstStakeBlock stakeIndex 0 =
        some nReward ∧
      (tipSupply stakeIndex connectStake.1).nMoneySupply.toInt -
        (tipSupply (secondIndex (minedChainBlock 1)) beforeStake).nMoneySupply.toInt ≤ nReward.toInt := by
  have haccept : (connectSecond firstStakeFile (minedChainBlock 1)).2 = true := by
    simp only [connectSecond, secondIndex, firstStakeFile, firstStakeBlock, testNode_eq_eval,
      minedChainBlock_eq_eval, minedBlock_eq_eval, sha256d_eq_eval]
    decide +kernel
  have hbefore : beforeStake = (connectSecond firstStakeFile (minedChainBlock 1)).1 := by
    unfold beforeStake
    rfl
  have hconnect : connectSecond firstStakeFile (minedChainBlock 1) = (beforeStake, true) := by
    rw [hbefore, ← haccept]
  have hdisk : BlockOnDisk (testNode firstStakeFile) (minedChainBlock 1)
      (secondIndex (minedChainBlock 1)) := by
    refine ⟨by decide +kernel, by decide +kernel, ?_, trivial⟩
    decide +kernel
  have hcoins : unspentCoins (testNode firstStakeFile) beforeStake.readTxIndex = 200000000000000 := by
    rw [coinBaseBlock_coins (testNode firstStakeFile) _ _ _ _ (minedChainBlock 1) _
      (minedCoinBase 1 0 (2000000 * COIN)) rfl (by decide +kernel) rfl hconnect]
    decide +kernel
  have hchain := connectSecond_chain firstStakeFile (fun c s block =>
    keepsSuppliesApart (testNode firstStakeFile) c s block) (minedChainBlock 1) (by decide +kernel) hdisk
    hconnect
  have hsupply := connectedChain_supply (testNode firstStakeFile) hchain
  refine ⟨hsupply.1 (fun _ _ _ h => h) ?_, hcoins, ?_⟩
  · exact lt_of_eq_of_lt hcoins (by decide)
  · obtain ⟨t, ht, htotals⟩ := Option.map_eq_some_iff.mp stakeTotals
    rw [Prod.mk.injEq] at htotals
    have hstake : connectStake = (connectStake.1, true) := by
      rw [← stakeAccepted]
    obtain ⟨nReward, hreward, hraise⟩ := hsupply.2 _ _ firstStakeBlock _ t connectStake.1 hstake
      (by decide +kernel) ht
    rw [htotals.2] at hreward
    refine ⟨nReward, hreward, ?_⟩
    have hmoney : (tipSupply (secondIndex (minedChainBlock 1)) beforeStake).nMoneySupply =
        200000000000000 := by
      simp only [beforeStake, connectSecond, secondIndex, firstStakeFile, firstStakeBlock, testNode_eq_eval,
        minedChainBlock_eq_eval, minedBlock_eq_eval, sha256d_eq_eval]
      decide +kernel
    rw [htotals.1, htotals.2] at hraise
    have hzero : (0 : Int64).toInt = 0 := rfl
    have hvalue : (200000000000000 : Int64).toInt = 200000000000000 := by decide
    have hchainTip : tipSupply (secondIndex (minedChainBlock 1)) (connectSecond firstStakeFile
        (minedChainBlock 1)).1 = tipSupply (secondIndex (minedChainBlock 1)) beforeStake := rfl
    rw [hchainTip, hmoney, hvalue, hzero] at hraise
    rw [hmoney, hvalue]
    have hle : (tipSupply stakeIndex connectStake.1).nMoneySupply.toInt - 200000000000000 ≤
        nReward.toInt - 0 := hraise (by decide) (by decide)
    rwa [sub_zero] at hle

end FirstStake

end AliasWallet
