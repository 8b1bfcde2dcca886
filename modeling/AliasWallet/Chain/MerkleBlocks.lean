import AliasWallet.Chain.PartialMerkleTree
import AliasWallet.Chain.State

/-!
# Matched transactions of a light client (`ProcessMerkleBlock`, `tx` and `mblkt` messages)

A merkle block proves the txids that it reports. Their transactions are taken from the memory pool, from the
`tx` messages that follow, or from the message that holds the merkle block.
-/

namespace AliasWallet
open Lib

structure CMerkleBlock where
  header : CBlock
  txn : CPartialMerkleTree

/-- A merkle block whose transactions are waited for; `hashBlock` is the hash of its header. -/
structure CMerkleBlockIncoming where
  hashBlock : UInt256
  nProcessed : Nat
  vMatch : List UInt256
  deriving DecidableEq, Repr

/-- A call of `AddToWalletIfInvolvingMe`: the transaction, its hash and the hash of its block. -/
structure InvolvingCall where
  tx : CTransaction
  hash : UInt256
  pblock : Option UInt256
  deriving DecidableEq, Repr

/-- Headers are filed under their hashes. -/
def HeadersFiled (H : BlockHash) (headers : UInt256 → Option CBlock) : Prop :=
  ∀ h header, headers h = some header → header.getHash H = h

/-- The headers in memory and on disk. `nTimeRear` is the time of `pindexRear`, without which every header is in
memory. -/
structure HeaderIndex (H : BlockHash) where
  mapBlockThinIndex : UInt256 → Option CBlock
  readBlockThinIndex : UInt256 → Option CBlock
  nTimeRear : Option UInt32
  mapFiled : HeadersFiled H mapBlockThinIndex
  diskFiled : HeadersFiled H readBlockThinIndex

/-- The headers, the memory pool, the merkle blocks that wait and the calls of the wallets so far. -/
structure LightClient (H : BlockHash) where
  headers : HeaderIndex H
  mempool : CTxMemPool
  vIncomingMerkleBlocks : List CMerkleBlockIncoming
  walletCalls : List InvolvingCall

/-- What the processing of headers leads to: the headers afterwards, and the wallet transactions that go back to the
memory pool, with the verdict on each. -/
structure HeaderUpdate (H : BlockHash) where
  headers : HeaderIndex H
  vResurrect : List (CTransaction × Bool)

section Process

variable {H : BlockHash} (hash : HashFn) (p : ChainParams)

/-- `ProcessBlockThin`. -/
def LightClient.updateHeaders (n : LightClient H) (u : HeaderUpdate H) : LightClient H :=
  { n with
    headers := u.headers
    mempool := u.vResurrect.foldl (fun pool e => pool.acceptToMemoryPool p hash e.1 e.2) n.mempool }

/-- The index entry of a header, which is processed first where it can be new. -/
def LightClient.findHeader (n : LightClient H) (u : HeaderUpdate H) (header : CBlock) :
    LightClient H × Option CBlock :=
  let hashBlock := header.getHash H
  match n.headers.mapBlockThinIndex hashBlock with
  | some pBlockThinIndex => (n, some pBlockThinIndex)
  | none =>
    if n.headers.nTimeRear.any (header.nTime < ·) then (n, n.headers.readBlockThinIndex hashBlock)
    else
      let n := n.updateHeaders hash p u
      (n, n.headers.mapBlockThinIndex hashBlock)

/-- The txids that a merkle block proves, where its root is that of its header. -/
def provenMatches (mb : CMerkleBlock) (pBlockThinIndex : Option CBlock) : Option (List UInt256) := do
  let pBlockThinIndex ← pBlockThinIndex
  let (merkleroot, vMatch) ← extractMatches hash mb.txn
  if merkleroot = 0 ∨ merkleroot ≠ pBlockThinIndex.hashMerkleRoot then none else some vMatch

/-- The loop over the memory pool: it ends at the first match. -/
def LightClient.scanMempool (n : LightClient H) (hashBlock : UInt256) (vMatch : List UInt256) : LightClient H × Nat :=
  match vMatch.find? n.mempool.contains with
  | none => (n, 0)
  | some txid =>
    match n.mempool.lookup txid with
    | none => (n, 0)
    | some txMp =>
      ({ n with
        mempool := n.mempool.remove hash txMp
        walletCalls := n.walletCalls ++ [⟨txMp, txid, some hashBlock⟩] }, 1)

/-- `ProcessMerkleBlock` behind the lookup of the header, without what it does to the heights. -/
def LightClient.processMerkleBlock (n : LightClient H) (mb : CMerkleBlock) (pBlockThinIndex : Option CBlock)
    (pvTxns : Option (List CTransaction)) : LightClient H :=
  match provenMatches hash mb pBlockThinIndex with
  | none => n
  | some vMatch =>
    if vMatch.length < 1 then n
    else
      let hashBlock := mb.header.getHash H
      let (n, nProcessed) := n.scanMempool hash hashBlock vMatch
      match pvTxns with
      | some vTxns =>
        { n with walletCalls :=
            n.walletCalls ++ vTxns.map fun tx => ⟨tx, tx.getHash hash, some hashBlock⟩ }
      | none =>
        if nProcessed < vMatch.length then
          { n with vIncomingMerkleBlocks := n.vIncomingMerkleBlocks ++ [⟨hashBlock, nProcessed, vMatch⟩] }
        else n

/-- The loop over the merkle blocks that wait: the hash of the first one with the transaction, and what is left. -/
def matchIncoming (txHash : UInt256) : List CMerkleBlockIncoming → Option (UInt256 × List CMerkleBlockIncoming)
  | [] => none
  | mb :: rest =>
    if txHash ∈ mb.vMatch then
      let mb := { mb with nProcessed := mb.nProcessed + 1 }
      some (mb.hashBlock, if mb.nProcessed = mb.vMatch.length then rest else mb :: rest)
    else (matchIncoming txHash rest).map fun r => (r.1, mb :: r.2)

/-- A `tx` message. `fRest` is the verdict of the memory pool on what `acceptToMemoryPool` leaves open, `added` that of
the wallets. -/
def LightClient.processTx (n : LightClient H) (tx : CTransaction) (fRest added : Bool) : LightClient H :=
  let txHash := tx.getHash hash
  match matchIncoming txHash n.vIncomingMerkleBlocks with
  | some (blockhash, vIncomingMerkleBlocks) =>
    { n with
      vIncomingMerkleBlocks
      walletCalls := n.walletCalls ++ [⟨tx, txHash, some blockhash⟩] }
  | none =>
    let mempool := n.mempool.acceptToMemoryPool p hash tx fRest
    if !n.mempool.contains txHash && mempool.contains txHash then
      { n with
        mempool := if added then mempool else mempool.remove hash tx
        walletCalls := n.walletCalls ++ [⟨tx, txHash, none⟩] }
    else n

/-- What happens to the headers, the memory pool and the merkle blocks. A `mblkt` message is its elements one after the
other, each a merkle block with transactions. -/
inductive LightEvent (H : BlockHash)
  | headers (u : HeaderUpdate H)
  | merkleBlock (u : HeaderUpdate H) (mb : CMerkleBlock) (pvTxns : Option (List CTransaction))
  | tx (tx : CTransaction) (fRest added : Bool)

def LightClient.step (n : LightClient H) : LightEvent H → LightClient H
  | .headers u => n.updateHeaders hash p u
  | .merkleBlock u mb pvTxns =>
    let (n, pBlockThinIndex) := n.findHeader hash p u mb.header
    n.processMerkleBlock hash mb pBlockThinIndex pvTxns
  | .tx tx fRest added => n.processTx hash p tx fRest added

/-- Runs in which every event meets a condition, with the events in their order. -/
inductive MerkleRun (allowed : List (LightEvent H) → LightClient H → LightEvent H → Prop) (start : LightClient H) :
    List (LightEvent H) → LightClient H → Prop
  | start : MerkleRun allowed start [] start
  | event {events : List (LightEvent H)} {n : LightClient H} {event : LightEvent H} :
      MerkleRun allowed start events n → allowed events n event →
      MerkleRun allowed start (events ++ [event]) (n.step hash p event)

variable {hash p}

/-- One more event, by name. -/
theorem MerkleRun.then {allowed : List (LightEvent H) → LightClient H → LightEvent H → Prop} {start : LightClient H}
    {events : List (LightEvent H)} {n : LightClient H} (hrun : MerkleRun hash p allowed start events n)
    (event : LightEvent H) (hallowed : allowed events n event) :
    MerkleRun hash p allowed start (events ++ [event]) (n.step hash p event) :=
  hrun.event hallowed

end Process

section Credits

variable (H : BlockHash) (hash : HashFn)

/-- The merkle block proves these txids of the block with the hash. -/
def Proves (mb : CMerkleBlock) (hashBlock : UInt256) (vMatch : List UInt256) : Prop :=
  mb.header.getHash H = hashBlock ∧ ∃ header : CBlock, header.getHash H = hashBlock ∧ header.hashMerkleRoot ≠ 0 ∧
    extractMatches hash mb.txn = some (header.hashMerkleRoot, vMatch)

variable {H} {p : ChainParams} {n : LightClient H}

/-- Transactions are filed under their hashes. -/
def TxsFiled (pool : CTxMemPool) : Prop := ∀ txid tx, pool.lookup txid = some tx → tx.getHash hash = txid

/-- What a `mblkt` element sends along is among the txids that its merkle block proves. -/
def SentMatches : LightEvent H → Prop
  | .merkleBlock _ mb (some vTxns) => ∀ vMatch, Proves H hash mb (mb.header.getHash H) vMatch → vMatch ≠ [] →
      ∀ tx ∈ vTxns, tx.getHash hash ∈ vMatch
  | _ => True

/-- Some merkle block of the events proves the txid. -/
def ProvenBy (events : List (LightEvent H)) (hashBlock txid : UInt256) : Prop :=
  ∃ u mb pvTxns vMatch, LightEvent.merkleBlock u mb pvTxns ∈ events ∧ Proves H hash mb hashBlock vMatch ∧ txid ∈ vMatch

variable {hash}

theorem lookup_filter_ne {α : Type} (l : List (UInt256 × α)) (key k : UInt256) :
    (l.filter fun e => e.1 != key).lookup k = if k = key then none else l.lookup k := by
  induction l with
  | nil => simp
  | cons e l ih =>
    by_cases hkey : e.1 = key
    · rw [List.filter_cons_of_neg (by simp [hkey]), ih, List.lookup_cons]
      by_cases hk : k = key
      · rw [if_pos hk, if_pos hk]
      · have hdiff : (k == e.1) = false := by simp [hkey, hk]
        rw [if_neg hk, if_neg hk, hdiff]
    · rw [List.filter_cons_of_pos (by simp [hkey]), List.lookup_cons, List.lookup_cons, ih]
      by_cases hk : k = e.1
      · have hne : k ≠ key := fun h => hkey (hk ▸ h)
        simp [hk, hkey]
      · have hdiff : (k == e.1) = false := by simp [hk]
        rw [hdiff]

theorem lookup_addUnchecked (pool : CTxMemPool) (txid txid' : UInt256) (tx : CTransaction) :
    (pool.addUnchecked txid tx).lookup txid' = if txid' = txid then some tx else pool.lookup txid' := by
  rw [CTxMemPool.lookup, CTxMemPool.addUnchecked, List.lookup_cons, lookup_filter_ne]
  by_cases heq : txid' = txid
  · simp [heq]
  · have hdiff : (txid' == txid) = false := by simp [heq]
    rw [hdiff, if_neg heq, if_neg heq]
    rfl

theorem lookup_remove (pool : CTxMemPool) (tx : CTransaction) (txid : UInt256) :
    (pool.remove hash tx).lookup txid = if txid = tx.getHash hash then none else pool.lookup txid := by
  rw [CTxMemPool.remove]
  by_cases hin : pool.contains (tx.getHash hash) = true
  · rw [if_pos hin]
    exact lookup_filter_ne _ _ _
  · rw [if_neg hin]
    by_cases heq : txid = tx.getHash hash
    · rw [if_pos heq, heq]
      rw [CTxMemPool.contains, Bool.not_eq_true, Option.isSome_eq_false_iff, Option.isNone_iff_eq_none] at hin
      exact hin
    · rw [if_neg heq]

theorem TxsFiled.acceptToMemoryPool {pool : CTxMemPool} (h : TxsFiled hash pool) (tx : CTransaction) (fRest : Bool) :
    TxsFiled hash (pool.acceptToMemoryPool p hash tx fRest) := by
  rw [CTxMemPool.acceptToMemoryPool]
  split
  · intro txid tx' hfound
    rw [lookup_addUnchecked] at hfound
    split at hfound
    case isTrue heq => rw [← Option.some.inj hfound, heq]
    case isFalse => exact h txid tx' hfound
  · exact h

theorem TxsFiled.remove {pool : CTxMemPool} (h : TxsFiled hash pool) (tx : CTransaction) :
    TxsFiled hash (pool.remove hash tx) := by
  intro txid tx' hfound
  rw [lookup_remove] at hfound
  split at hfound
  · cases hfound
  · exact h txid tx' hfound

theorem TxsFiled.foldl {pool : CTxMemPool} (h : TxsFiled hash pool) (l : List (CTransaction × Bool)) :
    TxsFiled hash (l.foldl (fun pool e => pool.acceptToMemoryPool p hash e.1 e.2) pool) := by
  induction l generalizing pool with
  | nil => exact h
  | cons e l ih => exact ih (h.acceptToMemoryPool e.1 e.2)

theorem provenMatches_proves {mb : CMerkleBlock} {pBlockThinIndex : Option CBlock} {vMatch : List UInt256}
    (hfiled : ∀ header, pBlockThinIndex = some header → header.getHash H = mb.header.getHash H)
    (hproven : provenMatches hash mb pBlockThinIndex = some vMatch) :
    Proves H hash mb (mb.header.getHash H) vMatch := by
  rw [provenMatches, Option.bind_eq_bind, Option.bind_eq_some_iff] at hproven
  obtain ⟨header, hheader, hproven⟩ := hproven
  rw [Option.bind_eq_bind, Option.bind_eq_some_iff] at hproven
  obtain ⟨⟨merkleroot, vMatch'⟩, hextract, hproven⟩ := hproven
  dsimp only at hproven
  split at hproven
  · cases hproven
  case isFalse hroot =>
    rw [not_or, not_not] at hroot
    rw [Option.some.injEq] at hproven
    refine ⟨rfl, header, hfiled _ hheader, hroot.2 ▸ hroot.1, ?_⟩
    rw [hextract, hroot.2, hproven]

/-- The search for a header changes nothing or receives headers. -/
theorem LightClient.findHeader_preserves {Inv : LightClient H → Prop} {n : LightClient H} {u : HeaderUpdate H}
    (hsame : Inv n) (hupdate : Inv (n.updateHeaders hash p u)) (header : CBlock) :
    Inv (n.findHeader hash p u header).1 := by
  rw [LightClient.findHeader]
  dsimp only
  split
  · exact hsame
  · split
    · exact hsame
    · exact hupdate

/-- The entry that is found has the hash of the header. -/
theorem LightClient.findHeader_filed (n : LightClient H) (u : HeaderUpdate H) (header found : CBlock)
    (hfound : (n.findHeader hash p u header).2 = some found) : found.getHash H = header.getHash H := by
  rw [LightClient.findHeader] at hfound
  dsimp only at hfound
  split at hfound
  case h_1 pBlockThinIndex hmap => exact n.headers.mapFiled _ _ (hmap.trans hfound)
  case h_2 =>
    split at hfound
    · exact n.headers.diskFiled _ _ hfound
    · exact u.headers.mapFiled _ _ hfound

/-- What holds of the state of a light client after some events. -/
structure CreditsProven (hash : HashFn) (events : List (LightEvent H)) (n : LightClient H) : Prop where
  pool : TxsFiled hash n.mempool
  waiting : ∀ mb ∈ n.vIncomingMerkleBlocks, ∀ txid ∈ mb.vMatch, ProvenBy hash events mb.hashBlock txid
  calls : ∀ call ∈ n.walletCalls, call.hash = call.tx.getHash hash ∧
    ∀ hashBlock, call.pblock = some hashBlock → ProvenBy hash events hashBlock call.hash

theorem ProvenBy.later {events : List (LightEvent H)} {hashBlock txid : UInt256}
    (h : ProvenBy hash events hashBlock txid) (event : LightEvent H) :
    ProvenBy hash (events ++ [event]) hashBlock txid := by
  obtain ⟨u, mb, pvTxns, vMatch, hmem, hproves, hin⟩ := h
  exact ⟨u, mb, pvTxns, vMatch, List.mem_append_left _ hmem, hproves, hin⟩

theorem CreditsProven.later {events : List (LightEvent H)} (h : CreditsProven hash events n) (event : LightEvent H) :
    CreditsProven hash (events ++ [event]) n where
  pool := h.pool
  waiting := fun mb hmb txid htxid => (h.waiting mb hmb txid htxid).later event
  calls := fun call hcall => ⟨(h.calls call hcall).1, fun b hb => ((h.calls call hcall).2 b hb).later event⟩

theorem CreditsProven.updateHeaders {events : List (LightEvent H)} (h : CreditsProven hash events n)
    (u : HeaderUpdate H) : CreditsProven hash events (n.updateHeaders hash p u) where
  pool := h.pool.foldl u.vResurrect
  waiting := h.waiting
  calls := h.calls

theorem CreditsProven.findHeader {events : List (LightEvent H)} (h : CreditsProven hash events n) (u : HeaderUpdate H)
    (header : CBlock) : CreditsProven hash events (n.findHeader hash p u header).1 :=
  LightClient.findHeader_preserves h (h.updateHeaders u) header

/-- A further call with the hash of its transaction, for a txid that is proven or without a block. -/
theorem CreditsProven.addCall {events : List (LightEvent H)} (h : CreditsProven hash events n) (tx : CTransaction)
    (pblock : Option UInt256)
    (hproven : ∀ hashBlock, pblock = some hashBlock → ProvenBy hash events hashBlock (tx.getHash hash)) :
    CreditsProven hash events { n with walletCalls := n.walletCalls ++ [⟨tx, tx.getHash hash, pblock⟩] } where
  pool := h.pool
  waiting := h.waiting
  calls := by
    intro call hcall
    cases List.mem_append.mp hcall with
    | inl hold => exact h.calls call hold
    | inr hnew =>
      rw [List.mem_singleton.mp hnew]
      exact ⟨rfl, hproven⟩

/-- The loop over the memory pool adds at most the call for its first match. -/
theorem scanMempool_cases (n : LightClient H) (hpool : TxsFiled hash n.mempool) (hashBlock : UInt256)
    (vMatch : List UInt256) :
    (n.scanMempool hash hashBlock vMatch = (n, 0) ∧ ∀ txid ∈ vMatch, n.mempool.contains txid = false) ∨
      ∃ tx, n.mempool.lookup (tx.getHash hash) = some tx ∧ tx.getHash hash ∈ vMatch ∧
        n.scanMempool hash hashBlock vMatch = ({ n with
          mempool := n.mempool.remove hash tx
          walletCalls := n.walletCalls ++ [⟨tx, tx.getHash hash, some hashBlock⟩] }, 1) := by
  rw [LightClient.scanMempool]
  cases hfirst : vMatch.find? n.mempool.contains with
  | none =>
    refine Or.inl ⟨rfl, fun txid htxid => ?_⟩
    have hnot := List.find?_eq_none.mp hfirst txid htxid
    rwa [Bool.not_eq_true] at hnot
  | some txid =>
    have hcontains := List.find?_some hfirst
    rw [CTxMemPool.contains, Option.isSome_iff_exists] at hcontains
    obtain ⟨tx, htx⟩ := hcontains
    obtain rfl := hpool txid tx htx
    refine Or.inr ⟨tx, htx, List.mem_of_find?_eq_some hfirst, ?_⟩
    dsimp only
    rw [htx]

theorem CreditsProven.scanMempool {events : List (LightEvent H)} (h : CreditsProven hash events n) (hashBlock : UInt256)
    (vMatch : List UInt256) (hproven : ∀ txid ∈ vMatch, ProvenBy hash events hashBlock txid) :
    CreditsProven hash events (n.scanMempool hash hashBlock vMatch).1 := by
  rcases scanMempool_cases n h.pool hashBlock vMatch with ⟨heq, -⟩ | ⟨tx, -, hin, heq⟩
  · rw [heq]
    exact h
  · rw [heq]
    have hcall := h.addCall tx (some hashBlock) fun b hb => Option.some.inj hb ▸ hproven _ hin
    exact ⟨h.pool.remove tx, hcall.waiting, hcall.calls⟩

theorem CreditsProven.processMerkleBlock {events : List (LightEvent H)} (h : CreditsProven hash events n)
    (mb : CMerkleBlock) (pBlockThinIndex : Option CBlock) (pvTxns : Option (List CTransaction))
    (hfiled : ∀ header, pBlockThinIndex = some header → header.getHash H = mb.header.getHash H)
    (u : HeaderUpdate H) (hmem : .merkleBlock u mb pvTxns ∈ events)
    (hsent : SentMatches hash (.merkleBlock u mb pvTxns)) :
    CreditsProven hash events (n.processMerkleBlock hash mb pBlockThinIndex pvTxns) := by
  rw [LightClient.processMerkleBlock]
  cases hmatches : provenMatches hash mb pBlockThinIndex with
  | none => exact h
  | some vMatch =>
    have hproves := provenMatches_proves hfiled hmatches
    have hproven : ∀ txid ∈ vMatch, ProvenBy hash events (mb.header.getHash H) txid := fun txid htxid =>
      ⟨u, mb, pvTxns, vMatch, hmem, hproves, htxid⟩
    dsimp only
    split
    · exact h
    case isFalse hlen =>
      have hne : vMatch ≠ [] := by
        rintro rfl
        exact hlen (by decide)
      have hscan := h.scanMempool (mb.header.getHash H) vMatch hproven
      generalize n.scanMempool hash (mb.header.getHash H) vMatch = r at hscan ⊢
      obtain ⟨n', nProcessed⟩ := r
      cases pvTxns with
      | none =>
        dsimp only
        split
        · refine ⟨hscan.pool, fun w hw => ?_, hscan.calls⟩
          cases List.mem_append.mp hw with
          | inl hold => exact hscan.waiting w hold
          | inr hnew =>
            rw [List.mem_singleton.mp hnew]
            exact hproven
        · exact hscan
      | some vTxns =>
        refine ⟨hscan.pool, hscan.waiting, fun call hcall => ?_⟩
        cases List.mem_append.mp hcall with
        | inl hold => exact hscan.calls call hold
        | inr hnew =>
          obtain ⟨tx, htx, rfl⟩ := List.mem_map.mp hnew
          exact ⟨rfl, fun b hb => Option.some.inj hb ▸ hproven _ (hsent vMatch hproves hne tx htx)⟩

/-- The first merkle block that waits for the transaction, and the others as they were. -/
theorem matchIncoming_some {txHash blockhash : UInt256} {l l' : List CMerkleBlockIncoming}
    (h : matchIncoming txHash l = some (blockhash, l')) :
    ∃ before mb after, l = before ++ mb :: after ∧ (∀ w ∈ before, txHash ∉ w.vMatch) ∧ txHash ∈ mb.vMatch ∧
      blockhash = mb.hashBlock ∧ l' = before ++ (if mb.nProcessed + 1 = mb.vMatch.length then after
        else { mb with nProcessed := mb.nProcessed + 1 } :: after) := by
  induction l generalizing l' with
  | nil => cases h
  | cons mb rest ih =>
    rw [matchIncoming] at h
    by_cases hin : txHash ∈ mb.vMatch
    · rw [if_pos hin, Option.some.injEq, Prod.mk.injEq] at h
      exact ⟨[], mb, rest, rfl, fun w hw => absurd hw List.not_mem_nil, hin, h.1.symm, h.2.symm⟩
    · rw [if_neg hin, Option.map_eq_some_iff] at h
      obtain ⟨⟨b, l''⟩, hrest, heq⟩ := h
      obtain ⟨rfl, rfl⟩ := Prod.mk.inj heq
      obtain ⟨before, mb', after, rfl, hbefore, hmb', rfl, rfl⟩ := ih hrest
      refine ⟨mb :: before, mb', after, rfl, fun w hw => ?_, hmb', rfl, rfl⟩
      cases List.mem_cons.mp hw with
      | inl heq => rwa [heq]
      | inr hw => exact hbefore w hw

theorem matchIncoming_none {txHash : UInt256} {l : List CMerkleBlockIncoming} (h : matchIncoming txHash l = none) :
    ∀ w ∈ l, txHash ∉ w.vMatch := by
  induction l with
  | nil => exact fun w hw => absurd hw List.not_mem_nil
  | cons mb rest ih =>
    rw [matchIncoming] at h
    by_cases hin : txHash ∈ mb.vMatch
    · rw [if_pos hin] at h
      cases h
    · rw [if_neg hin, Option.map_eq_none_iff] at h
      exact List.forall_mem_cons.mpr ⟨hin, ih h⟩

theorem CreditsProven.processTx {events : List (LightEvent H)} (h : CreditsProven hash events n) (tx : CTransaction)
    (fRest added : Bool) : CreditsProven hash events (n.processTx hash p tx fRest added) := by
  rw [LightClient.processTx]
  cases hmatch : matchIncoming (tx.getHash hash) n.vIncomingMerkleBlocks with
  | some r =>
    obtain ⟨blockhash, l'⟩ := r
    obtain ⟨before, mb, after, hwaiting, -, hin, rfl, rfl⟩ := matchIncoming_some hmatch
    have hproven := h.waiting mb (hwaiting ▸ List.mem_append_right _ List.mem_cons_self) _ hin
    have hcall := h.addCall tx (some mb.hashBlock) fun b hb => Option.some.inj hb ▸ hproven
    refine ⟨h.pool, fun w hw => ?_, hcall.calls⟩
    cases List.mem_append.mp hw with
    | inl hbefore => exact h.waiting w (hwaiting ▸ List.mem_append_left _ hbefore)
    | inr hrest =>
      have hafter : ∀ w ∈ after, ∀ txid ∈ w.vMatch, ProvenBy hash events w.hashBlock txid := fun w hw =>
        h.waiting w (hwaiting ▸ List.mem_append_right _ (List.mem_cons_of_mem _ hw))
      split at hrest
      · exact hafter w hrest
      · cases List.mem_cons.mp hrest with
        | inl hfirst =>
          rw [hfirst]
          exact h.waiting mb (hwaiting ▸ List.mem_append_right _ List.mem_cons_self)
        | inr hrest => exact hafter w hrest
  | none =>
    have hcall := h.addCall tx none fun b hb => nomatch hb
    dsimp only
    split
    · refine ⟨?_, h.waiting, hcall.calls⟩
      have hpool := h.pool.acceptToMemoryPool (p := p) tx fRest
      cases added with
      | true => exact hpool
      | false => exact hpool.remove tx
    · exact h

theorem CreditsProven.step {events : List (LightEvent H)} (h : CreditsProven hash events n) (event : LightEvent H)
    (hsent : SentMatches hash event) : CreditsProven hash (events ++ [event]) (n.step hash p event) := by
  have hlater := h.later event
  cases event with
  | headers u => exact hlater.updateHeaders u
  | merkleBlock u mb pvTxns =>
    exact (hlater.findHeader u mb.header).processMerkleBlock mb _ pvTxns (n.findHeader_filed u mb.header) u
      (List.mem_append_right _ (List.mem_singleton_self _)) hsent
  | tx tx fRest added => exact hlater.processTx tx fRest added

/-- Every wallet call with a block is for a transaction that a merkle block of that header proves, as long as the
`mblkt` messages send only transactions that their merkle blocks prove. -/
theorem credits_proven {H : BlockHash} (hash : HashFn) (p : ChainParams) (start n : LightClient H)
    (events : List (LightEvent H)) (hpool : TxsFiled hash start.mempool)
    (hwaiting : start.vIncomingMerkleBlocks = []) (hcalls : start.walletCalls = [])
    (hrun : MerkleRun hash p (fun _ _ event => SentMatches hash event) start events n) :
    ∀ call ∈ n.walletCalls, ∀ hashBlock, call.pblock = some hashBlock →
      call.hash = call.tx.getHash hash ∧ ProvenBy hash events hashBlock call.hash := by
  have hinv : CreditsProven hash events n := by
    induction hrun with
    | start =>
      refine ⟨hpool, ?_, ?_⟩
      · rw [hwaiting]
        exact fun w hw => absurd hw List.not_mem_nil
      · rw [hcalls]
        exact fun call hcall => absurd hcall List.not_mem_nil
    | event _ hsent ih => exact ih.step _ hsent
  exact fun call hcall hashBlock hblock => ⟨(hinv.calls call hcall).1, (hinv.calls call hcall).2 hashBlock hblock⟩

/-- The sum of the bytes. -/
def sumHash : HashFn := fun bs => BitVec.ofNat 256 (bs.map UInt8.toNat).sum

/-- A transaction told apart by its time. -/
def timedTx (nTime : UInt32) : CTransaction := ⟨1, nTime, [], [], 0⟩

def matchHeader (hashMerkleRoot : UInt256) : CBlock where
  nVersion := 7
  hashPrevBlock := 0
  hashMerkleRoot := hashMerkleRoot
  nTime := 0
  nBits := 0
  nNonce := 0
  vtx := []
  vchBlockSig := []

/-- A merkle block for the only transaction of its block. -/
def singleMatch : CMerkleBlock := ⟨matchHeader 5, ⟨1, [true], [5], false⟩⟩

def matchHeaders (hashMerkleRoot h : UInt256) : Option CBlock :=
  if h = (matchHeader hashMerkleRoot).getHash ⟨sumHash, sumHash⟩ then some (matchHeader hashMerkleRoot) else none

theorem matchHeaders_filed (hashMerkleRoot : UInt256) :
    HeadersFiled ⟨sumHash, sumHash⟩ (matchHeaders hashMerkleRoot) := by
  intro h header hfound
  rw [matchHeaders] at hfound
  split at hfound
  case isTrue heq => rw [← Option.some.inj hfound, heq]
  case isFalse => cases hfound

/-- Only the header with the merkle root is known. -/
def matchIndex (hashMerkleRoot : UInt256) : HeaderIndex ⟨sumHash, sumHash⟩ where
  mapBlockThinIndex := matchHeaders hashMerkleRoot
  readBlockThinIndex := matchHeaders hashMerkleRoot
  nTimeRear := none
  mapFiled := matchHeaders_filed hashMerkleRoot
  diskFiled := matchHeaders_filed hashMerkleRoot

def matchStart (hashMerkleRoot : UInt256) : LightClient ⟨sumHash, sumHash⟩ :=
  ⟨matchIndex hashMerkleRoot, CTxMemPool.empty, [], []⟩

/-- The merkle block with some transactions. -/
def singleEvent (vTxns : List CTransaction) : LightEvent ⟨sumHash, sumHash⟩ :=
  .merkleBlock ⟨matchIndex 5, []⟩ singleMatch (some vTxns)

/-- The transaction that is proven. -/
theorem credits_proven_one : ∃ n : LightClient ⟨sumHash, sumHash⟩, n.walletCalls ≠ [] ∧ ∀ call ∈ n.walletCalls,
    ∀ hashBlock, call.pblock = some hashBlock → call.hash = call.tx.getHash sumHash ∧
      ProvenBy sumHash [singleEvent [timedTx 4]] hashBlock call.hash := by
  have hsent : SentMatches sumHash (singleEvent [timedTx 4]) := by
    intro vMatch hproves hne tx htx
    obtain ⟨-, header, -, -, hextract⟩ := hproves
    have heval : extractMatches sumHash singleMatch.txn = some (5, [5]) := by decide +kernel
    rw [heval, Option.some.injEq, Prod.mk.injEq] at hextract
    rw [← hextract.2, List.mem_singleton.mp htx]
    decide +kernel
  refine ⟨(matchStart 5).step sumHash regTestParams (singleEvent [timedTx 4]), by decide +kernel, ?_⟩
  exact credits_proven sumHash regTestParams (matchStart 5) _ _ (fun txid tx hfound => nomatch hfound) rfl rfl
    (.event .start hsent)

/-- A transaction that no merkle block proves, sent along with one. -/
theorem unproven_credit : ∃ (events : List (LightEvent ⟨sumHash, sumHash⟩)) (n : LightClient ⟨sumHash, sumHash⟩),
    MerkleRun sumHash regTestParams (fun _ _ _ => True) (matchStart 5) events n ∧
      ∃ call ∈ n.walletCalls, ∃ hashBlock, call.pblock = some hashBlock ∧
        ¬ ProvenBy sumHash events hashBlock call.hash := by
  have heval : extractMatches sumHash singleMatch.txn = some (5, [5]) := by decide +kernel
  refine ⟨_, _, MerkleRun.start.then (singleEvent [timedTx 5]) trivial,
    ⟨timedTx 5, 6, some (singleMatch.header.getHash ⟨sumHash, sumHash⟩)⟩, by decide +kernel, _, rfl, ?_⟩
  rintro ⟨u, mb, pvTxns, vMatch, hmem, ⟨-, header, -, -, hextract⟩, hin⟩
  rw [List.nil_append, List.mem_singleton, singleEvent, LightEvent.merkleBlock.injEq] at hmem
  rw [hmem.2.1, heval, Option.some.injEq, Prod.mk.injEq] at hextract
  rw [← hextract.2] at hin
  exact absurd hin (by decide)

end Credits

end AliasWallet
