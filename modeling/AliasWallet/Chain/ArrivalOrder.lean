import AliasWallet.Chain.ConcreteNode
import AliasWallet.Chain.ConnectInputs
import AliasWallet.Chain.MerkleBlocks
import AliasWallet.Chain.OrphanTx
import AliasWallet.Wallet.CreateTransaction
import Mathlib.Data.Finset.Sort

/-!
# Arrival of dependent transactions (`tx` messages of a full node)

A transaction whose inputs are not known waits among the orphans. When one is accepted, the orphans that
wait for it are tried again, and those that wait for them.
-/

namespace AliasWallet
open Lib

def MAX_ORPHAN_TRANSACTIONS : UInt32 := 10000

/-- The rules for relay, and what the wallets change with a call of `SyncWithWallets`: their own state, the records of
anonymous outputs and the key images of the pool. -/
structure RelayOps (L : Type) where
  isStandard : CTransaction → Bool
  areInputsStandard : CTransaction → MapPrevTx → Bool
  nMinRelayTxFee : Int
  /-- The rate limiter lets a free transaction pass. -/
  freeAllowed : CTransaction → Bool
  syncWithWallets : CTransaction → L × (Bytes → Option CAnonOutput) × (Bytes → Option CKeyImageSpent) →
    L × (Bytes → Option CAnonOutput) × (Bytes → Option CKeyImageSpent)

/-- What `AcceptToMemoryPool` returns, with `pfMissingInputs`. -/
inductive AcceptVerdict
  | accepted
  | missingInputs
  | rejected
  deriving DecidableEq

/-- `synced` holds the transactions that `SyncWithWallets` was called for. -/
structure TxNode (L : Type) where
  disk : Disk
  pool : CTxMemPool
  loc : L
  orphans : OrphanMaps
  synced : List CTransaction

section Process

variable {Pt L : Type} (env : NodeEnv Pt L) (ops : RelayOps L) (c : ChainState)

namespace TxNode

/-- The tests of `AcceptToMemoryPool` on the fetched inputs. -/
def checkRelayInputs (n : TxNode L) (tx : CTransaction) (inputs : MapPrevTx) : Bool :=
  let view := env.anonView c n.pool n.disk n.disk.txIndex
  if ¬ ops.areInputsStandard tx inputs ∧ ¬ env.p.fTestNet then false
  else match anonValueIn env tx view with
    | none => false
    | some nSumAnon =>
      let nFees := getValueIn inputs tx - tx.getValueOut + nSumAnon
      if nFees.toInt < getMinFee ops.nMinRelayTxFee tx 1000 tx.size then false
      else if nFees.toInt < ops.nMinRelayTxFee ∧ ¬ ops.freeAllowed tx then false
      else (connectInputs env c c.pindexBest tx view inputs (fun _ => none) CDiskTxPos.inMemoryPool false
        MANDATORY_SCRIPT_VERIFY_FLAGS).isSome

/-- `AcceptToMemoryPool`. -/
def acceptToMemoryPool (n : TxNode L) (tx : CTransaction) : AcceptVerdict :=
  if ¬ tx.checkTransaction env.p ∨ tx.isCoinBase ∨ tx.isCoinStake ∨ ¬ ops.isStandard tx then .rejected
  else if n.pool.contains (env.txid tx) then .rejected
  else if ¬ tx.vin.all fun txin => (n.pool.mapNextTx txin.prevout).isNone then .rejected
  else if (n.disk.txIndex (env.txid tx)).isSome then .rejected
  else match tx.vin.foldlM (fetchInput env n.pool n.disk.txIndex false tx fun _ => none) (fun _ => none) with
    | none => .missingInputs
    | some inputs =>
      if ¬ tx.vin.all fun txin => tx.skipsInput txin || prevoutInRange inputs txin then .rejected
      else if n.checkRelayInputs env ops c tx inputs then .accepted
      else .rejected

/-- An accepted transaction is added to the pool. -/
def store (n : TxNode L) (tx : CTransaction) : TxNode L := { n with pool := n.pool.addUnchecked (env.txid tx) tx }

def syncWithWallets (n : TxNode L) (tx : CTransaction) : TxNode L :=
  let (loc, anonOutputs, mapKeyImage) := ops.syncWithWallets tx (n.loc, n.disk.anonOutputs, n.pool.mapKeyImage)
  { n with
    loc
    disk := { n.disk with anonOutputs }
    pool := { n.pool with mapKeyImage }
    synced := n.synced ++ [tx] }

/-- The loop over the orphans that wait for one transaction, with the queues; `tx` is that of the message. -/
def tryOrphans (tx : CTransaction) :
    List UInt256 → TxNode L × List UInt256 × List UInt256 → TxNode L × List UInt256 × List UInt256
  | [], st => st
  | orphanTxHash :: rest, (n, vWorkQueue, vEraseQueue) =>
    match n.orphans.mapOrphanTransactions.lookup orphanTxHash with
    | none => tryOrphans tx rest (n, vWorkQueue, vEraseQueue)
    | some orphanTx =>
      match n.acceptToMemoryPool env ops c orphanTx with
      | .accepted =>
        -- the wallets are called for the transaction of the message once more, and not for the orphan
        tryOrphans tx rest ((n.store env orphanTx).syncWithWallets ops tx, vWorkQueue ++ [orphanTxHash],
          vEraseQueue ++ [orphanTxHash])
      | .missingInputs => tryOrphans tx rest (n, vWorkQueue, vEraseQueue)
      | .rejected => tryOrphans tx rest (n, vWorkQueue, vEraseQueue ++ [orphanTxHash])

/-- The loop over what is left of `vWorkQueue`, in at most so many rounds. -/
def processQueue (tx : CTransaction) :
    Nat → List UInt256 → TxNode L → List UInt256 → Option (TxNode L × List UInt256)
  | _, [], n, vEraseQueue => some (n, vEraseQueue)
  | 0, _ :: _, _, _ => none
  | rounds + 1, hash :: rest, n, vEraseQueue =>
    let waiting := (prevSet n.orphans.mapOrphanTransactionsByPrev hash).sort (· ≤ ·)
    let (n, vWorkQueue, vEraseQueue) := tryOrphans env ops c tx waiting (n, rest, vEraseQueue)
    processQueue tx rounds vWorkQueue n vEraseQueue

/-- A `tx` message. An orphan is pushed at most once, so as many rounds as there are orphans are enough behind
the first. -/
def processTx (n : TxNode L) (message : CTransaction × (Nat → UInt256)) : Option (TxNode L) :=
  let (tx, randHash) := message
  match n.acceptToMemoryPool env ops c tx with
  | .accepted => do
    let n := (n.store env tx).syncWithWallets ops tx
    let (n, vEraseQueue) ← processQueue env ops c tx (n.orphans.mapOrphanTransactions.keys.length + 1) [env.txid tx] n
      [env.txid tx]
    return { n with orphans := vEraseQueue.foldl eraseOrphanTx n.orphans }
  | .missingInputs => do
    let m := (addOrphanTx env.C.hash n.orphans tx).1
    let (m, _) ← limitOrphanTxSize MAX_ORPHAN_TRANSACTIONS (m.mapOrphanTransactions.keys.length + 1) randHash 0 m
    return { n with orphans := m }
  | .rejected => some n

/-- A node without orphans that has called no wallet. -/
def Fresh (n : TxNode L) : Prop := n.orphans = ⟨∅, ∅⟩ ∧ n.synced = []

end TxNode

/-- The inputs of the transaction that refer to another one. -/
def CTransaction.SpendsFrom (tx : CTransaction) (hash : UInt256) : Prop :=
  ∃ txin ∈ tx.vin, ¬ tx.skipsInput txin ∧ txin.prevout.hash = hash

/-- The nodes that arise when transactions of a set are accepted and given to the wallets. -/
inductive Taken (txs : List CTransaction) (start : TxNode L) : TxNode L → Prop
  | start : Taken txs start start
  | take {n : TxNode L} {tx : CTransaction} (hn : Taken txs start n) (htx : tx ∈ txs)
      (haccepted : n.acceptToMemoryPool env ops c tx = .accepted) :
      Taken txs start ((n.store env tx).syncWithWallets ops tx)

/-- The transactions are new and have different txids; and each is accepted once the transactions of the set
that it spends from are, whichever of the others were accepted before it. -/
structure ValidSet (txs : List CTransaction) (start : TxNode L) : Prop where
  distinct : (txs.map env.txid).Nodup
  notPooled : ∀ tx ∈ txs, start.pool.contains (env.txid tx) = false
  notOnDisk : ∀ tx ∈ txs, start.disk.txIndex (env.txid tx) = none
  accepted : ∀ n, Taken env ops c txs start n → ∀ tx ∈ txs, n.pool.contains (env.txid tx) = false →
    (∀ parent ∈ txs, tx.SpendsFrom (env.txid parent) → n.pool.contains (env.txid parent)) →
      n.acceptToMemoryPool env ops c tx = .accepted

/-- Each transaction comes behind those of the set that it spends from. -/
def ParentsFirst (l : List CTransaction) : Prop :=
  ∀ pre tx post, l = pre ++ tx :: post → ∀ parent ∈ l, tx.SpendsFrom (env.txid parent) → parent ∈ pre

/-- The set is in the pool besides what was there, no orphan is left, and the wallets got exactly the set. -/
structure AllTaken (txs : List CTransaction) (start n : TxNode L) : Prop where
  pooled : ∀ hash tx, n.pool.lookup hash = some tx ↔
    start.pool.lookup hash = some tx ∨ tx ∈ txs ∧ env.txid tx = hash
  noOrphans : n.orphans = ⟨∅, ∅⟩
  synced : ∀ tx, tx ∈ n.synced ↔ tx ∈ txs

variable {env ops c} {n : TxNode L} {tx : CTransaction}

@[simp] theorem syncWithWallets_orphans (n : TxNode L) (tx : CTransaction) :
    (n.syncWithWallets ops tx).orphans = n.orphans := rfl

@[simp] theorem syncWithWallets_txIndex (n : TxNode L) (tx : CTransaction) :
    (n.syncWithWallets ops tx).disk.txIndex = n.disk.txIndex := rfl

@[simp] theorem syncWithWallets_synced (n : TxNode L) (tx : CTransaction) :
    (n.syncWithWallets ops tx).synced = n.synced ++ [tx] := rfl

theorem syncWithWallets_lookup (n : TxNode L) (tx : CTransaction) (h : UInt256) :
    (n.syncWithWallets ops tx).pool.lookup h = n.pool.lookup h := rfl

/-- The pool behind an accepted transaction that the wallets got another one for. -/
theorem taken_lookup (n : TxNode L) (tx tx' : CTransaction) (h : UInt256) :
    ((n.store env tx).syncWithWallets ops tx').pool.lookup h =
      if h = env.txid tx then some tx else n.pool.lookup h := by
  rw [syncWithWallets_lookup, TxNode.store, lookup_addUnchecked]

theorem taken_contains (n : TxNode L) (tx tx' : CTransaction) (h : UInt256) :
    ((n.store env tx).syncWithWallets ops tx').pool.contains h = true ↔
      h = env.txid tx ∨ n.pool.contains h = true := by
  rw [CTxMemPool.contains, taken_lookup, CTxMemPool.contains]
  by_cases heq : h = env.txid tx
  · simp [heq]
  · simp [heq]

/-- While a previous transaction is not known, no input of it is fetched. -/
theorem fetchInput_unknown {h : UInt256} {inputs inputs' : MapPrevTx} {txin : CTxIn}
    (hindex : n.disk.txIndex h = none) (hpool : n.pool.lookup h = none) (hinputs : inputs h = none)
    (hfetch : fetchInput env n.pool n.disk.txIndex false tx (fun _ => none) inputs txin = some inputs') :
    inputs' h = none ∧ (tx.skipsInput txin ∨ txin.prevout.hash ≠ h) := by
  rw [fetchInput] at hfetch
  split at hfetch
  case isTrue hgot =>
    obtain rfl := Option.some.inj hfetch
    refine ⟨hinputs, ?_⟩
    rcases Bool.or_eq_true_iff.mp hgot with hskips | hsome
    · exact Or.inl hskips
    · refine Or.inr fun heq => ?_
      rw [heq, hinputs] at hsome
      cases hsome
  case isFalse =>
    have hne : txin.prevout.hash ≠ h := by
      intro heq
      rw [heq, hindex, hpool] at hfetch
      exact absurd hfetch (by simp)
    refine ⟨?_, Or.inr hne⟩
    split at hfetch
    · rw [Option.bind_eq_bind, Option.bind_eq_some_iff] at hfetch
      obtain ⟨txPrev, -, heq⟩ := hfetch
      rw [← Option.some.inj heq, Function.update_of_ne hne.symm]
      exact hinputs
    · rw [if_neg (by decide), Option.bind_eq_bind, Option.bind_eq_some_iff] at hfetch
      obtain ⟨txPrev, -, heq⟩ := hfetch
      rw [← Option.some.inj heq, Function.update_of_ne hne.symm]
      exact hinputs

theorem fetchInputs_unknown {h : UInt256} (hindex : n.disk.txIndex h = none) (hpool : n.pool.lookup h = none)
    (vin : List CTxIn) (inputs inputs' : MapPrevTx) (hinputs : inputs h = none)
    (hfetch : vin.foldlM (fetchInput env n.pool n.disk.txIndex false tx fun _ => none) inputs = some inputs') :
    ∀ txin ∈ vin, tx.skipsInput txin ∨ txin.prevout.hash ≠ h := by
  induction vin generalizing inputs with
  | nil => exact fun txin hmem => absurd hmem List.not_mem_nil
  | cons txin vin ih =>
    rw [List.foldlM_cons, Option.bind_eq_bind, Option.bind_eq_some_iff] at hfetch
    obtain ⟨inputs₁, hfirst, hrest⟩ := hfetch
    obtain ⟨hkept, hthis⟩ := fetchInput_unknown hindex hpool hinputs hfirst
    exact List.forall_mem_cons.mpr ⟨hthis, ih inputs₁ hkept hrest⟩

/-- A transaction that spends from one which is not known is not accepted. -/
theorem not_accepted_of_unknown {h : UInt256} (hspends : tx.SpendsFrom h) (hindex : n.disk.txIndex h = none)
    (hpool : n.pool.contains h = false) : n.acceptToMemoryPool env ops c tx ≠ .accepted := by
  intro haccepted
  have hlookup : n.pool.lookup h = none := by simpa [CTxMemPool.contains] using hpool
  obtain ⟨txin, hmem, hreads, hhash⟩ := hspends
  rw [TxNode.acceptToMemoryPool] at haccepted
  split at haccepted
  · cases haccepted
  split at haccepted
  · cases haccepted
  split at haccepted
  · cases haccepted
  split at haccepted
  · cases haccepted
  split at haccepted
  · cases haccepted
  case h_2 inputs hfetch =>
    rcases fetchInputs_unknown hindex hlookup tx.vin _ inputs rfl hfetch txin hmem with hskips | hne
    · exact hreads hskips
    · exact hne hhash

/-- A transaction in the pool is not accepted again. -/
theorem accepted_not_pooled (haccepted : n.acceptToMemoryPool env ops c tx = .accepted) :
    n.pool.contains (env.txid tx) = false := by
  rw [TxNode.acceptToMemoryPool] at haccepted
  split at haccepted
  · cases haccepted
  split at haccepted
  · cases haccepted
  case isFalse hpooled => exact Bool.eq_false_iff.mpr hpooled

/-- An orphan is filed under its hash. -/
def FiledByHash (env : NodeEnv Pt L) (n : TxNode L) : Prop :=
  ∀ h tx, n.orphans.mapOrphanTransactions.lookup h = some tx → h = env.txid tx

/-- The orphans that are not in the pool. -/
def TxNode.waiting (n : TxNode L) : Nat :=
  (n.orphans.mapOrphanTransactions.keys.filter fun h => !n.pool.contains h).length

/-- What the work on the orphans leaves and adds: orphans go into the pool, and the wallets get the transaction of the
message. -/
structure OrphansTried (tx : CTransaction) (n n' : TxNode L) : Prop where
  orphans : n'.orphans = n.orphans
  index : n'.disk.txIndex = n.disk.txIndex
  pooled : ∀ h, n'.pool.contains h = true → n.pool.contains h = true ∨ h ∈ n.orphans.mapOrphanTransactions
  synced : ∀ x ∈ n'.synced, x ∈ n.synced ∨ x = tx

theorem OrphansTried.refl (tx : CTransaction) (n : TxNode L) : OrphansTried tx n n :=
  ⟨rfl, rfl, fun _ h => Or.inl h, fun _ h => Or.inl h⟩

theorem OrphansTried.trans {n' n'' : TxNode L} (h : OrphansTried tx n n') (h' : OrphansTried tx n' n'') :
    OrphansTried tx n n'' where
  orphans := h'.orphans.trans h.orphans
  index := h'.index.trans h.index
  pooled := by
    intro k hk
    rcases h'.pooled k hk with hbefore | hmem
    · exact h.pooled k hbefore
    · exact Or.inr (h.orphans ▸ hmem)
  synced := by
    intro x hx
    rcases h'.synced x hx with hbefore | heq
    · exact h.synced x hbefore
    · exact Or.inr heq

theorem OrphansTried.take {orphanTx : CTransaction} {h : UInt256}
    (hfound : n.orphans.mapOrphanTransactions.lookup h = some orphanTx) (hhash : h = env.txid orphanTx) :
    OrphansTried tx n ((n.store env orphanTx).syncWithWallets ops tx) where
  orphans := rfl
  index := rfl
  pooled := by
    intro k hk
    rcases (taken_contains n orphanTx tx k).mp hk with heq | hbefore
    · rw [heq, ← hhash]
      exact Or.inr (AList.lookup_isSome.mp (by rw [hfound]; rfl))
    · exact Or.inl hbefore
  synced := by
    intro x hx
    rcases List.mem_append.mp hx with hbefore | hthis
    · exact Or.inl hbefore
    · exact Or.inr (List.mem_singleton.mp hthis)

variable (ops tx) in
/-- An orphan that is accepted does not wait any more. -/
theorem waiting_take {orphanTx : CTransaction} {h : UInt256}
    (hfound : n.orphans.mapOrphanTransactions.lookup h = some orphanTx) (hhash : h = env.txid orphanTx)
    (hnew : n.pool.contains h = false) :
    ((n.store env orphanTx).syncWithWallets ops tx).waiting < n.waiting := by
  have hmem : h ∈ n.orphans.mapOrphanTransactions.keys :=
    AList.mem_keys.mp (AList.lookup_isSome.mp (by rw [hfound]; rfl))
  have hless : (n.orphans.mapOrphanTransactions.keys.filter fun k =>
      !((n.store env orphanTx).syncWithWallets ops tx).pool.contains k) =
      (n.orphans.mapOrphanTransactions.keys.filter fun k => !n.pool.contains k).filter (· ≠ h) := by
    rw [List.filter_filter]
    apply List.filter_congr
    intro k _
    rw [Bool.eq_iff_iff, Bool.not_eq_true', Bool.eq_false_iff, Ne, taken_contains, ← hhash]
    simp
  rw [TxNode.waiting, syncWithWallets_orphans, TxNode.waiting]
  have hshorter : ((n.orphans.mapOrphanTransactions.keys.filter fun k => !n.pool.contains k).filter (· ≠ h)).length <
      (n.orphans.mapOrphanTransactions.keys.filter fun k => !n.pool.contains k).length := by
    rw [List.length_filter_lt_length_iff_exists]
    exact ⟨h, List.mem_filter.mpr ⟨hmem, by simp [hnew]⟩, by simp⟩
  exact lt_of_eq_of_lt (congrArg List.length hless) hshorter

variable (ops c tx) in
theorem tryOrphans_tried (hashes : List UInt256) (n : TxNode L) (vWorkQueue vEraseQueue : List UInt256)
    (hfiled : FiledByHash env n) :
    OrphansTried tx n (TxNode.tryOrphans env ops c tx hashes (n, vWorkQueue, vEraseQueue)).1 ∧
      (TxNode.tryOrphans env ops c tx hashes (n, vWorkQueue, vEraseQueue)).2.1.length +
        (TxNode.tryOrphans env ops c tx hashes (n, vWorkQueue, vEraseQueue)).1.waiting ≤
          vWorkQueue.length + n.waiting := by
  induction hashes generalizing n vWorkQueue vEraseQueue with
  | nil => exact ⟨OrphansTried.refl tx n, Nat.le_refl _⟩
  | cons h rest ih =>
    rw [TxNode.tryOrphans]
    split
    · exact ih n vWorkQueue vEraseQueue hfiled
    case h_2 orphanTx hfound =>
      split
      case h_1 haccepted =>
        have hhash := hfiled h orphanTx hfound
        have hnew : n.pool.contains h = false := hhash ▸ accepted_not_pooled haccepted
        have htake : OrphansTried tx n ((n.store env orphanTx).syncWithWallets ops tx) :=
          OrphansTried.take hfound hhash
        have hless := waiting_take ops tx hfound hhash hnew
        obtain ⟨htried, hqueue⟩ := ih ((n.store env orphanTx).syncWithWallets ops tx) (vWorkQueue ++ [h])
          (vEraseQueue ++ [h]) hfiled
        refine ⟨htake.trans htried, hqueue.trans ?_⟩
        rw [List.length_append, List.length_singleton]
        omega
      · exact ih n vWorkQueue vEraseQueue hfiled
      · exact ih n vWorkQueue (vEraseQueue ++ [h]) hfiled

variable (env ops c tx) in
/-- The work on the orphans ends. -/
theorem processQueue_ends (rounds : Nat) (vWorkQueue : List UInt256) (n : TxNode L) (vEraseQueue : List UInt256)
    (hfiled : FiledByHash env n) (hrounds : vWorkQueue.length + n.waiting ≤ rounds) :
    ∃ n' vErase, TxNode.processQueue env ops c tx rounds vWorkQueue n vEraseQueue = some (n', vErase) ∧
      OrphansTried tx n n' := by
  induction rounds generalizing vWorkQueue n vEraseQueue with
  | zero =>
    obtain rfl : vWorkQueue = [] := List.eq_nil_of_length_eq_zero (by omega)
    exact ⟨n, vEraseQueue, rfl, OrphansTried.refl tx n⟩
  | succ rounds ih =>
    cases vWorkQueue with
    | nil => exact ⟨n, vEraseQueue, rfl, OrphansTried.refl tx n⟩
    | cons h rest =>
      rw [List.length_cons] at hrounds
      rw [TxNode.processQueue]
      obtain ⟨htried, hqueue⟩ := tryOrphans_tried ops c tx
        ((prevSet n.orphans.mapOrphanTransactionsByPrev h).sort (· ≤ ·)) n rest vEraseQueue hfiled
      rcases htry : TxNode.tryOrphans env ops c tx
        ((prevSet n.orphans.mapOrphanTransactionsByPrev h).sort (· ≤ ·))
        (n, rest, vEraseQueue) with ⟨n₁, vWork, vErase⟩
      rw [htry] at htried hqueue
      have hfiled' : FiledByHash env n₁ := fun k t hfound => hfiled k t (htried.orphans ▸ hfound)
      obtain ⟨n', vErase', hrun, htried'⟩ := ih vWork n₁ vErase hfiled' (Nat.le_trans hqueue (by omega))
      exact ⟨n', vErase', hrun, htried.trans htried'⟩

theorem lookup_eraseOrphanTx {m : OrphanMaps} {h k : UInt256} {t : CTransaction}
    (hfound : (eraseOrphanTx m h).mapOrphanTransactions.lookup k = some t) :
    m.mapOrphanTransactions.lookup k = some t := by
  rw [eraseOrphanTx] at hfound
  split at hfound
  · exact hfound
  · by_cases heq : k = h
    · rw [heq, AList.lookup_erase] at hfound
      cases hfound
    · rwa [AList.lookup_erase_ne heq] at hfound

theorem lookup_eraseAll (hashes : List UInt256) {m : OrphanMaps} {k : UInt256} {t : CTransaction}
    (hfound : (hashes.foldl eraseOrphanTx m).mapOrphanTransactions.lookup k = some t) :
    m.mapOrphanTransactions.lookup k = some t := by
  induction hashes generalizing m with
  | nil => exact hfound
  | cons h hashes ih => exact lookup_eraseOrphanTx (ih hfound)

theorem linked_eraseAll (hashes : List UInt256) {m : OrphanMaps} (hm : OrphansLinked m) :
    OrphansLinked (hashes.foldl eraseOrphanTx m) := by
  induction hashes generalizing m with
  | nil => exact hm
  | cons h hashes ih => exact ih (hm.eraseOrphanTx h)

theorem lookup_limitOrphanTxSize {nMaxOrphans nEvicted nEvicted' : UInt32} {rounds : Nat} {randHash : Nat → UInt256}
    {m m' : OrphanMaps} (hrun : limitOrphanTxSize nMaxOrphans rounds randHash nEvicted m = some (m', nEvicted'))
    {k : UInt256} {t : CTransaction} (hfound : m'.mapOrphanTransactions.lookup k = some t) :
    m.mapOrphanTransactions.lookup k = some t := by
  induction rounds generalizing randHash nEvicted m with
  | zero => cases hrun
  | succ rounds ih =>
    rw [limitOrphanTxSize] at hrun
    split at hrun
    · rw [Option.bind_eq_bind, Option.bind_eq_some_iff] at hrun
      obtain ⟨h, -, hrest⟩ := hrun
      exact lookup_eraseOrphanTx (ih hrest)
    · rw [(Prod.mk.inj (Option.some.inj hrun)).1]
      exact hfound

/-- After some messages the orphans and what is new in the pool are among them, and the wallets got no others. -/
structure Arrived (env : NodeEnv Pt L) (start : TxNode L) (done : List CTransaction) (n : TxNode L) : Prop where
  linked : OrphansLinked n.orphans
  filed : ∀ h t, n.orphans.mapOrphanTransactions.lookup h = some t → h = env.txid t ∧ t ∈ done
  index : n.disk.txIndex = start.disk.txIndex
  pooled : ∀ h, n.pool.contains h = true → start.pool.contains h = true ∨ ∃ t ∈ done, env.txid t = h
  synced : ∀ x ∈ n.synced, x ∈ done

variable (env) in
theorem Arrived.start {start : TxNode L} (h : start.Fresh) : Arrived env start [] start where
  linked := h.1 ▸ orphansLinked_empty
  filed := by
    intro k t hfound
    rw [h.1] at hfound
    cases hfound
  index := rfl
  pooled := fun _ h => Or.inl h
  synced := by
    intro x hx
    rw [h.2] at hx
    exact hx

variable {start : TxNode L} {done : List CTransaction}

theorem Arrived.later (h : Arrived env start done n) (tx : CTransaction) : Arrived env start (done ++ [tx]) n where
  linked := h.linked
  filed := fun k t hfound => ⟨(h.filed k t hfound).1, List.mem_append_left _ (h.filed k t hfound).2⟩
  index := h.index
  pooled := by
    intro k hk
    refine (h.pooled k hk).imp_right ?_
    intro hdone
    obtain ⟨t, ht, hhash⟩ := hdone
    exact ⟨t, List.mem_append_left _ ht, hhash⟩
  synced := fun x hx => List.mem_append_left _ (h.synced x hx)

theorem Arrived.accept (h : Arrived env start done n) (haccepted : n.acceptToMemoryPool env ops c tx = .accepted)
    (randHash : Nat → UInt256) :
    ∃ n', n.processTx env ops c (tx, randHash) = some n' ∧ Arrived env start (done ++ [tx]) n' ∧
      ∀ x ∈ n'.synced, x ∈ n.synced ∨ x = tx := by
  have hfiled : FiledByHash env ((n.store env tx).syncWithWallets ops tx) := fun k t hfound => (h.filed k t hfound).1
  have hwaiting : ((n.store env tx).syncWithWallets ops tx).waiting ≤ n.orphans.mapOrphanTransactions.keys.length :=
    List.length_filter_le _ _
  obtain ⟨n', vErase, hrun, htried⟩ := processQueue_ends env ops c tx
    (n.orphans.mapOrphanTransactions.keys.length + 1) [env.txid tx] _ [env.txid tx] hfiled
    (by rw [List.length_singleton]; omega)
  have hsynced : ∀ x ∈ n'.synced, x ∈ n.synced ∨ x = tx := by
    intro x hx
    rcases htried.synced x hx with hbefore | heq
    · exact (List.mem_append.mp hbefore).imp_right List.mem_singleton.mp
    · exact Or.inr heq
  refine ⟨{ n' with orphans := vErase.foldl eraseOrphanTx n'.orphans }, ?_, ?_, hsynced⟩
  · rw [TxNode.processTx, haccepted]
    dsimp only
    rw [syncWithWallets_orphans]
    exact (congrArg (Option.bind · _) hrun)
  · have horphans : n'.orphans = n.orphans := htried.orphans
    have hlater := h.later tx
    constructor
    · exact linked_eraseAll vErase (horphans ▸ h.linked)
    · intro k t hfound
      have hold := lookup_eraseAll vErase hfound
      rw [horphans] at hold
      exact hlater.filed k t hold
    · exact htried.index.trans h.index
    · intro k hk
      rcases htried.pooled k hk with hpool | hwaits
      · rcases (taken_contains n tx tx k).mp hpool with heq | hbefore
        · exact Or.inr ⟨tx, List.mem_append_right _ (List.mem_singleton_self _), heq.symm⟩
        · exact hlater.pooled k hbefore
      · obtain ⟨t, hfound⟩ := Option.isSome_iff_exists.mp (AList.lookup_isSome.mpr hwaits)
        obtain ⟨hhash, ht⟩ := hlater.filed k t hfound
        exact Or.inr ⟨t, ht, hhash.symm⟩
    · intro x hx
      rcases hsynced x hx with hold | heq
      · exact hlater.synced x hold
      · rw [heq]
        exact List.mem_append_right _ (List.mem_singleton_self _)

theorem Arrived.park (h : Arrived env start done n) (hmissing : n.acceptToMemoryPool env ops c tx = .missingInputs)
    (randHash : Nat → UInt256) :
    ∃ n', n.processTx env ops c (tx, randHash) = some n' ∧ Arrived env start (done ++ [tx]) n' ∧
      n'.synced = n.synced := by
  have hlinked := h.linked.addOrphanTx env.C.hash tx
  obtain ⟨m, nEvicted, hrun, hm, -⟩ := limitOrphanTxSize_ends MAX_ORPHAN_TRANSACTIONS _ randHash 0
    (addOrphanTx env.C.hash n.orphans tx).1 hlinked (Nat.lt_succ_self _)
  refine ⟨{ n with orphans := m }, ?_, ?_, rfl⟩
  · rw [TxNode.processTx, hmissing]
    exact congrArg (Option.bind · _) hrun
  · have hlater := h.later tx
    refine ⟨hm, ?_, hlater.index, hlater.pooled, hlater.synced⟩
    intro k t hfound
    have hold := lookup_limitOrphanTxSize hrun hfound
    rw [addOrphanTx] at hold
    split at hold
    · exact hlater.filed k t hold
    split at hold
    · exact hlater.filed k t hold
    · by_cases heq : k = tx.getHash env.C.hash
      · rw [heq, AList.lookup_insert] at hold
        obtain rfl := Option.some.inj hold
        exact ⟨heq, List.mem_append_right _ (List.mem_singleton_self _)⟩
      · rw [AList.lookup_insert_ne heq] at hold
        exact hlater.filed k t hold

variable (ops c) in
/-- A message is processed, and the wallets get its transaction only where that is accepted at once. -/
theorem Arrived.step (h : Arrived env start done n) (message : CTransaction × (Nat → UInt256)) :
    ∃ n', n.processTx env ops c message = some n' ∧ Arrived env start (done ++ [message.1]) n' ∧
      ∀ x ∈ n'.synced, x ∈ n.synced ∨ x = message.1 ∧ n.acceptToMemoryPool env ops c message.1 = .accepted := by
  obtain ⟨tx, randHash⟩ := message
  cases hverdict : n.acceptToMemoryPool env ops c tx with
  | accepted =>
    obtain ⟨n', hrun, harrived, hsynced⟩ := h.accept hverdict randHash
    exact ⟨n', hrun, harrived, fun x hx => (hsynced x hx).imp_right fun heq => ⟨heq, rfl⟩⟩
  | missingInputs =>
    obtain ⟨n', hrun, harrived, hsynced⟩ := h.park hverdict randHash
    exact ⟨n', hrun, harrived, fun x hx => Or.inl (hsynced ▸ hx)⟩
  | rejected =>
    refine ⟨n, ?_, h.later tx, fun x hx => Or.inl hx⟩
    rw [TxNode.processTx, hverdict]

variable (ops c) in
theorem Arrived.run (messages : List (CTransaction × (Nat → UInt256))) {n : TxNode L} {done : List CTransaction}
    (h : Arrived env start done n) :
    ∃ n', messages.foldlM (TxNode.processTx env ops c) n = some n' ∧
      Arrived env start (done ++ messages.map Prod.fst) n' ∧
      ∀ x ∈ n'.synced, x ∈ n.synced ∨ x ∈ messages.map Prod.fst := by
  induction messages generalizing n done with
  | nil => exact ⟨n, rfl, by simpa using h, fun x hx => Or.inl hx⟩
  | cons message messages ih =>
    obtain ⟨n₁, hstep, h₁, hsynced₁⟩ := h.step ops c message
    obtain ⟨n', hrun, h', hsynced⟩ := ih h₁
    refine ⟨n', ?_, ?_, ?_⟩
    · rw [List.foldlM_cons, hstep, Option.bind_eq_bind, Option.bind_some, hrun]
    · rw [List.map_cons, List.append_cons]
      exact h'
    · intro x hx
      rcases hsynced x hx with hbefore | hrest
      · rcases hsynced₁ x hbefore with hold | ⟨hthis, -⟩
        · exact Or.inl hold
        · exact Or.inr (hthis ▸ List.mem_cons_self)
      · exact Or.inr (List.mem_cons_of_mem _ hrest)

/-- Every message so far was accepted at once. -/
structure Direct (env : NodeEnv Pt L) (ops : RelayOps L) (c : ChainState) (txs : List CTransaction) (start : TxNode L)
    (pre : List CTransaction) (n : TxNode L) : Prop where
  taken : Taken env ops c txs start n
  noOrphans : n.orphans = ⟨∅, ∅⟩
  synced : n.synced = pre
  pooled : ∀ h t, n.pool.lookup h = some t ↔ start.pool.lookup h = some t ∨ t ∈ pre ∧ env.txid t = h

variable {txs pre : List CTransaction}

/-- Without orphans an accepted message leaves the node with its transaction. -/
theorem processTx_direct (haccepted : n.acceptToMemoryPool env ops c tx = .accepted) (horphans : n.orphans = ⟨∅, ∅⟩)
    (randHash : Nat → UInt256) :
    n.processTx env ops c (tx, randHash) = some ((n.store env tx).syncWithWallets ops tx) := by
  have hsame : ((n.store env tx).syncWithWallets ops tx).orphans = ⟨∅, ∅⟩ := horphans
  have hqueue : TxNode.processQueue env ops c tx 1 [env.txid tx] ((n.store env tx).syncWithWallets ops tx)
      [env.txid tx] = some ((n.store env tx).syncWithWallets ops tx, [env.txid tx]) := by
    have hnone : (prevSet (∅ : ByPrev) (env.txid tx)).sort (· ≤ ·) = [] := by
      simp [prevSet, AList.lookup_empty]
    rw [TxNode.processQueue, hsame]
    dsimp only
    rw [hnone]
    rfl
  rw [TxNode.processTx, haccepted]
  dsimp only
  rw [hsame]
  refine (congrArg (Option.bind · _) hqueue).trans ?_
  rw [Option.bind_some, hsame]
  have herase : [env.txid tx].foldl eraseOrphanTx (⟨∅, ∅⟩ : OrphanMaps) = ⟨∅, ∅⟩ := rfl
  rw [herase, ← hsame]
  rfl

theorem Direct.step (hvalid : ValidSet env ops c txs start) (h : Direct env ops c txs start pre n) (htx : tx ∈ txs)
    (hpre : pre ⊆ txs) (hnew : tx ∉ pre) (hparents : ∀ parent ∈ txs, tx.SpendsFrom (env.txid parent) → parent ∈ pre)
    (randHash : Nat → UInt256) :
    ∃ n', n.processTx env ops c (tx, randHash) = some n' ∧ Direct env ops c txs start (pre ++ [tx]) n' := by
  have hnotPooled : n.pool.contains (env.txid tx) = false := by
    rw [CTxMemPool.contains, Option.isSome_eq_false_iff, Option.isNone_iff_eq_none]
    cases hfound : n.pool.lookup (env.txid tx) with
    | none => rfl
    | some t =>
      exfalso
      rcases (h.pooled _ _).mp hfound with hstart | ⟨ht, hhash⟩
      · have hnot := hvalid.notPooled tx htx
        rw [CTxMemPool.contains, hstart] at hnot
        cases hnot
      · exact hnew (List.inj_on_of_nodup_map hvalid.distinct (hpre ht) htx hhash ▸ ht)
  have haccepted := hvalid.accepted n h.taken tx htx hnotPooled (by
    intro parent hparent hspends
    have hfound := (h.pooled (env.txid parent) parent).mpr (Or.inr ⟨hparents parent hparent hspends, rfl⟩)
    rw [CTxMemPool.contains, hfound]
    rfl)
  refine ⟨_, processTx_direct haccepted h.noOrphans randHash, h.taken.take htx haccepted, h.noOrphans, ?_, ?_⟩
  · rw [syncWithWallets_synced]
    exact congrArg (· ++ [tx]) h.synced
  · intro k t
    rw [taken_lookup]
    by_cases heq : k = env.txid tx
    · have hnone : start.pool.lookup k = none := by
        have hnot := hvalid.notPooled tx htx
        rw [heq]
        simpa [CTxMemPool.contains] using hnot
      rw [if_pos heq, hnone, Option.some.injEq]
      constructor
      · intro hthis
        exact Or.inr ⟨List.mem_append_right _ (List.mem_singleton.mpr hthis.symm), hthis ▸ heq.symm⟩
      · intro hor
        obtain ⟨ht, hhash⟩ := hor.resolve_left (by simp)
        rcases List.mem_append.mp ht with hold | hthis
        · exact absurd (List.inj_on_of_nodup_map hvalid.distinct (hpre hold) htx (hhash.trans heq) ▸ hold) hnew
        · exact (List.mem_singleton.mp hthis).symm
    · rw [if_neg heq, h.pooled k t]
      refine or_congr_right (and_congr_left fun hhash => ?_)
      rw [List.mem_append, List.mem_singleton]
      exact ⟨Or.inl, fun hor => hor.resolve_right fun hthis => heq (hthis ▸ hhash.symm)⟩

theorem Direct.run (hvalid : ValidSet env ops c txs start) {l : List CTransaction} (hl : l.Perm txs)
    (hparents : ParentsFirst env l) (messages : List (CTransaction × (Nat → UInt256))) (pre : List CTransaction)
    (n : TxNode L) (hsplit : l = pre ++ messages.map Prod.fst) (h : Direct env ops c txs start pre n) :
    ∃ n', messages.foldlM (TxNode.processTx env ops c) n = some n' ∧ Direct env ops c txs start l n' := by
  induction messages generalizing pre n with
  | nil => exact ⟨n, rfl, by simpa [hsplit] using h⟩
  | cons message messages ih =>
    obtain ⟨tx, randHash⟩ := message
    rw [List.map_cons] at hsplit
    have hnodup : l.Nodup := hl.nodup_iff.mpr (List.Nodup.of_map _ hvalid.distinct)
    have hnew : tx ∉ pre := by
      intro hold
      rw [hsplit, List.nodup_append] at hnodup
      exact hnodup.2.2 tx hold tx List.mem_cons_self rfl
    have hpre : pre ⊆ txs := fun t ht => hl.subset (hsplit ▸ List.mem_append_left _ ht)
    have htx : tx ∈ txs := hl.subset (hsplit ▸ List.mem_append_right _ List.mem_cons_self)
    obtain ⟨n₁, hstep, h₁⟩ := h.step hvalid htx hpre hnew
      (fun parent hparent => hparents pre tx _ hsplit parent (hl.symm.subset hparent)) randHash
    obtain ⟨n', hrun, h'⟩ := ih (pre ++ [tx]) n₁ (by rw [hsplit, List.append_cons]) h₁
    exact ⟨n', by rw [List.foldlM_cons, hstep, Option.bind_eq_bind, Option.bind_some, hrun], h'⟩

/-- Messages with a valid set in some order are all processed. They leave the set in the pool, no orphans, and
the whole set with the wallets if and only if every transaction comes behind those that it spends from. -/
theorem arrivalOrder_iff (env : NodeEnv Pt L) (ops : RelayOps L) (c : ChainState) (txs : List CTransaction)
    (start : TxNode L) (hfresh : start.Fresh) (hvalid : ValidSet env ops c txs start)
    (messages : List (CTransaction × (Nat → UInt256))) (hperm : (messages.map Prod.fst).Perm txs) :
    ∃ n, messages.foldlM (TxNode.processTx env ops c) start = some n ∧
      (AllTaken env txs start n ↔ ParentsFirst env (messages.map Prod.fst)) := by
  obtain ⟨n, hrun, -, -⟩ := (Arrived.start env hfresh).run ops c messages
  refine ⟨n, hrun, ?_, ?_⟩
  · intro htaken pre tx post hsplit parent hparent hspends
    by_contra hnot
    obtain ⟨before, rest, rfl, hbefore, hrest⟩ := List.map_eq_append_iff.mp hsplit
    obtain ⟨message, after, rfl, rfl, hafter⟩ := List.map_eq_cons_iff.mp hrest
    obtain ⟨n₁, hrun₁, h₁, -⟩ := (Arrived.start env hfresh).run ops c before
    obtain ⟨n₂, hstep, h₂, hsynced⟩ := h₁.step ops c message
    obtain ⟨n₃, hrun₃, -, hlater⟩ := h₂.run ops c after
    rw [List.foldlM_append, hrun₁, Option.bind_eq_bind, Option.bind_some, List.foldlM_cons, hstep,
      Option.bind_eq_bind, Option.bind_some, hrun₃] at hrun
    obtain rfl := Option.some.inj hrun
    rw [List.nil_append, hbefore] at h₁
    have htxs : ∀ t, t ∈ pre ++ message.1 :: post → t ∈ txs := by
      intro t ht
      exact hperm.subset (hsplit ▸ ht)
    have hnodup : (pre ++ message.1 :: post).Nodup :=
      hsplit ▸ hperm.nodup_iff.mpr (List.Nodup.of_map _ hvalid.distinct)
    have hparentIn : parent ∈ txs := hperm.subset hparent
    have hunknown : n₁.pool.contains (env.txid parent) = false := by
      rw [Bool.eq_false_iff]
      intro hpooled
      rcases h₁.pooled _ hpooled with hstart | ⟨t, ht, hhash⟩
      · exact absurd (hvalid.notPooled parent hparentIn) (by rw [hstart]; decide)
      · have heq := List.inj_on_of_nodup_map hvalid.distinct (htxs t (List.mem_append_left _ ht)) hparentIn hhash
        exact hnot (heq ▸ ht)
    have hrefused : n₁.acceptToMemoryPool env ops c message.1 ≠ .accepted :=
      not_accepted_of_unknown hspends (by rw [h₁.index]; exact hvalid.notOnDisk parent hparentIn) hunknown
    have hgot : message.1 ∈ n₃.synced :=
      (htaken.synced _).mpr (htxs _ (List.mem_append_right _ List.mem_cons_self))
    rw [List.nodup_append, List.nodup_cons] at hnodup
    rcases hlater _ hgot with hbeforePost | hpost
    · rcases hsynced _ hbeforePost with hold | ⟨-, haccepted⟩
      · exact hnodup.2.2 _ (h₁.synced _ hold) _ List.mem_cons_self rfl
      · exact hrefused haccepted
    · exact hnodup.2.1.1 (hafter ▸ hpost)
  · intro hparents
    have hdirect : Direct env ops c txs start [] start :=
      ⟨.start, hfresh.1, hfresh.2, fun h t => by simp⟩
    obtain ⟨n', hrun', h'⟩ := hdirect.run hvalid hperm hparents messages [] start rfl
    obtain rfl := Option.some.inj (hrun.symm.trans hrun')
    refine ⟨?_, h'.noOrphans, ?_⟩
    · intro h t
      rw [h'.pooled h t, hperm.mem_iff]
    · intro t
      rw [h'.synced, hperm.mem_iff]

end Process

section Chained

/-- A payment to everybody from output 0 of another transaction. -/
def chainedTx (nTime : UInt32) (prev : UInt256) (nValue : Int64) : CTransaction :=
  ⟨1, nTime, [⟨⟨prev, 0⟩, [], 0xFFFFFFFF⟩], [⟨nValue, [0x51]⟩], 0⟩

def fundTx : CTransaction := chainedTx 1600000000 7 (3 * COIN)

def lenderTx : CTransaction := chainedTx 1600000001 (fundTx.getHash evalSha256d) (2 * COIN)

def spenderTx : CTransaction := chainedTx 1600000002 (lenderTx.getHash evalSha256d) COIN

/-- A node with `fundTx` in its database. -/
def fundedNode : NodeEnv Secp256k1.Point Unit :=
  { evalFileNode regTestParams [] with readTx := fun _ => some fundTx }

def anyRelay : RelayOps Unit where
  isStandard _ := true
  areInputsStandard _ _ := true
  nMinRelayTxFee := 10000
  freeAllowed _ := true
  syncWithWallets _ s := s

def fundedChain : ChainState := singleChain (minedIndex 3) 1600000000

def fundedStart : TxNode Unit where
  disk := ⟨fun hash => if hash = fundTx.getHash evalSha256d then some (CTxIndex.new ⟨1, 0, 0⟩ 1) else none,
    fun _ => none, fun _ => none, none⟩
  pool := CTxMemPool.empty
  loc := ()
  orphans := ⟨∅, ∅⟩
  synced := []

/-- The node behind the lender, and behind both. -/
def lenderTaken : TxNode Unit := (fundedStart.store fundedNode lenderTx).syncWithWallets anyRelay lenderTx

def bothTaken : TxNode Unit := (lenderTaken.store fundedNode spenderTx).syncWithWallets anyRelay spenderTx

def inOrder (first second : CTransaction) : List (CTransaction × (Nat → UInt256)) :=
  [(first, fun _ => 0), (second, fun _ => 0)]

theorem fundedStart_accepts :
    fundedStart.acceptToMemoryPool fundedNode anyRelay fundedChain lenderTx = .accepted ∧
      fundedStart.acceptToMemoryPool fundedNode anyRelay fundedChain spenderTx = .missingInputs := by
  decide +kernel

theorem lenderTaken_accepts :
    lenderTaken.acceptToMemoryPool fundedNode anyRelay fundedChain lenderTx = .rejected ∧
      lenderTaken.acceptToMemoryPool fundedNode anyRelay fundedChain spenderTx = .accepted := by
  decide +kernel

theorem bothTaken_accepts :
    bothTaken.acceptToMemoryPool fundedNode anyRelay fundedChain lenderTx = .rejected ∧
      bothTaken.acceptToMemoryPool fundedNode anyRelay fundedChain spenderTx = .rejected := by
  decide +kernel

theorem taken_pair {n : TxNode Unit} (h : Taken fundedNode anyRelay fundedChain [lenderTx, spenderTx] fundedStart n) :
    n = fundedStart ∨ n = lenderTaken ∨ n = bothTaken := by
  induction h with
  | start => exact Or.inl rfl
  | take _ htx haccepted ih =>
    rw [List.mem_cons, List.mem_singleton] at htx
    rcases ih with rfl | rfl | rfl <;> rcases htx with rfl | rfl
    · exact Or.inr (Or.inl rfl)
    · rw [fundedStart_accepts.2] at haccepted
      cases haccepted
    · rw [lenderTaken_accepts.1] at haccepted
      cases haccepted
    · exact Or.inr (Or.inr rfl)
    · rw [bothTaken_accepts.1] at haccepted
      cases haccepted
    · rw [bothTaken_accepts.2] at haccepted
      cases haccepted

theorem pair_valid : ValidSet fundedNode anyRelay fundedChain [lenderTx, spenderTx] fundedStart where
  distinct := by decide +kernel
  notPooled := by
    simp only [List.forall_mem_cons]
    decide +kernel
  notOnDisk := by
    simp only [List.forall_mem_cons]
    decide +kernel
  accepted := by
    intro n hn tx htx hnew hparents
    rw [List.mem_cons, List.mem_singleton] at htx
    rcases taken_pair hn with rfl | rfl | rfl <;> rcases htx with rfl | rfl
    · exact fundedStart_accepts.1
    · have hspends : spenderTx.SpendsFrom (fundedNode.txid lenderTx) := by
        refine ⟨_, List.mem_singleton_self _, ?_⟩
        decide +kernel
      have hmissing : fundedStart.pool.contains (fundedNode.txid lenderTx) = false := by decide +kernel
      exact absurd (hparents lenderTx List.mem_cons_self hspends) (Bool.eq_false_iff.mp hmissing)
    · exact absurd hnew (by decide +kernel)
    · exact lenderTaken_accepts.2
    · exact absurd hnew (by decide +kernel)
    · exact absurd hnew (by decide +kernel)

theorem fundedStart_fresh : fundedStart.Fresh := ⟨rfl, rfl⟩

theorem arrivalOrder_iff_pair :
    ∃ n, (inOrder lenderTx spenderTx).foldlM (TxNode.processTx fundedNode anyRelay fundedChain) fundedStart = some n ∧
      (AllTaken fundedNode [lenderTx, spenderTx] fundedStart n ↔ ParentsFirst fundedNode [lenderTx, spenderTx]) :=
  arrivalOrder_iff fundedNode anyRelay fundedChain [lenderTx, spenderTx] fundedStart fundedStart_fresh pair_valid
    (inOrder lenderTx spenderTx) (List.Perm.refl _)

/-- The spender before the lender: both get into the pool and no orphan is left, but the wallets got the lender
twice and the spender never. -/
theorem spender_never_synced :
    ValidSet fundedNode anyRelay fundedChain [lenderTx, spenderTx] fundedStart ∧ fundedStart.Fresh ∧
      ((inOrder spenderTx lenderTx).map Prod.fst).Perm [lenderTx, spenderTx] ∧
        ∃ n, (inOrder spenderTx lenderTx).foldlM (TxNode.processTx fundedNode anyRelay fundedChain) fundedStart =
            some n ∧
          n.pool.lookup (fundedNode.txid spenderTx) = some spenderTx ∧ n.orphans.mapOrphanTransactions.keys = [] ∧
            n.synced = [lenderTx, lenderTx] ∧ ¬ AllTaken fundedNode [lenderTx, spenderTx] fundedStart n := by
  refine ⟨pair_valid, fundedStart_fresh, List.Perm.swap _ _ _, ?_⟩
  have hrun :
      ((inOrder spenderTx lenderTx).foldlM (TxNode.processTx fundedNode anyRelay fundedChain)
        fundedStart).map (fun n =>
          (n.pool.lookup (fundedNode.txid spenderTx), n.orphans.mapOrphanTransactions.keys, n.synced)) =
      some (some spenderTx, [], [lenderTx, lenderTx]) := by
    decide +kernel
  obtain ⟨n, hn, hview⟩ := Option.map_eq_some_iff.mp hrun
  obtain ⟨hpool, hrest⟩ := Prod.mk.inj hview
  obtain ⟨horphans, hsynced⟩ := Prod.mk.inj hrest
  refine ⟨n, hn, hpool, horphans, hsynced, ?_⟩
  intro htaken
  have hchild : spenderTx ∈ n.synced := (htaken.synced spenderTx).mpr (List.mem_cons_of_mem _ List.mem_cons_self)
  rw [hsynced] at hchild
  exact absurd hchild (by decide +kernel)

end Chained

end AliasWallet
