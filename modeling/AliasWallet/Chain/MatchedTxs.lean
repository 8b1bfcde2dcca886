import AliasWallet.Chain.MerkleBlocks

/-!
# Matched transactions in every order of arrival

A merkle block that waits counts the transactions of its txids. The count is right where each of them comes once.
-/

namespace AliasWallet

section Arrival

variable {H : BlockHash} (hash : HashFn) (p : ChainParams)

/-- The hashes of the transactions of the `tx` messages. -/
def arrivedTxs (events : List (LightEvent H)) : List UInt256 :=
  events.filterMap fun event =>
    match event with
    | .tx tx _ _ => some (tx.getHash hash)
    | _ => none

/-- The merkle block that a `merkleblock` message brings, by its hash, with the txids that it proves. -/
def LightClient.verifies (n : LightClient H) : LightEvent H → List (UInt256 × List UInt256)
  | .headers _ => []
  | .merkleBlock u mb none =>
    match provenMatches hash mb (n.findHeader hash p u mb.header).2 with
    | some vMatch => [(mb.header.getHash H, vMatch)]
    | none => []
  | .merkleBlock _ _ (some _) => []
  | .tx _ _ _ => []

def LightClient.verified (n : LightClient H) : List (LightEvent H) → List (UInt256 × List UInt256)
  | [] => []
  | event :: events => n.verifies hash p event ++ (n.step hash p event).verified events

local instance lawfulTxids : LawfulBEq UInt256 := instLawfulBEq

/-- No transaction comes again while a merkle block waits for its txid. The txids of a new merkle block differ, no
other one waits for them, and those of them that came are those in the memory pool, at most one. -/
def ArrivesOnce (events : List (LightEvent H)) (n : LightClient H) : LightEvent H → Prop
  | .headers _ => True
  | .merkleBlock u mb none =>
    let (n, pBlockThinIndex) := n.findHeader hash p u mb.header
    ∀ vMatch, provenMatches hash mb pBlockThinIndex = some vMatch →
      vMatch.Nodup ∧ (∀ w ∈ n.vIncomingMerkleBlocks, w.vMatch.Disjoint vMatch) ∧
      (∀ txid ∈ vMatch, txid ∈ arrivedTxs hash events ↔ n.mempool.contains txid) ∧
      vMatch.countP (· ∈ arrivedTxs hash events) ≤ 1
  | .merkleBlock _ _ (some _) => True
  | .tx tx _ _ => ∀ w ∈ n.vIncomingMerkleBlocks, tx.getHash hash ∈ w.vMatch → tx.getHash hash ∉ arrivedTxs hash events

/-- The wallets were called for the transaction with the block. -/
def Credited (n : LightClient H) (hashBlock txid : UInt256) : Prop :=
  ∃ call ∈ n.walletCalls, call.hash = txid ∧ call.pblock = some hashBlock

/-- The merkle block waits for some of its txids, and what came of them has been credited. -/
structure Waits (arrived : List UInt256) (n : LightClient H) (w : CMerkleBlockIncoming) : Prop where
  nodup : w.vMatch.Nodup
  nProcessed : w.nProcessed = w.vMatch.countP (· ∈ arrived)
  lt : w.nProcessed < w.vMatch.length
  credited : ∀ txid ∈ w.vMatch, txid ∈ arrived → Credited n w.hashBlock txid

/-- What holds of the merkle blocks verified so far. -/
structure MatchesTracked (arrived : List UInt256) (verified : List (UInt256 × List UInt256)) (n : LightClient H) :
    Prop where
  pool : TxsFiled hash n.mempool
  waiting : ∀ w ∈ n.vIncomingMerkleBlocks, Waits arrived n w
  apart : (n.vIncomingMerkleBlocks.map CMerkleBlockIncoming.vMatch).Pairwise List.Disjoint
  waits : ∀ v ∈ verified, (∀ txid ∈ v.2, txid ∈ arrived) ∨
    ∃ w ∈ n.vIncomingMerkleBlocks, w.hashBlock = v.1 ∧ w.vMatch = v.2
  done : ∀ v ∈ verified, (∀ txid ∈ v.2, txid ∈ arrived) → ∀ txid ∈ v.2, Credited n v.1 txid

variable {hash p} {n n' : LightClient H} {arrived : List UInt256} {verified : List (UInt256 × List UInt256)}

theorem Credited.mono {hashBlock txid : UInt256} (h : Credited n hashBlock txid)
    (hcalls : n.walletCalls ⊆ n'.walletCalls) : Credited n' hashBlock txid := by
  obtain ⟨call, hcall, hhash, hblock⟩ := h
  exact ⟨call, hcalls hcall, hhash, hblock⟩

theorem Waits.mono {w : CMerkleBlockIncoming} (h : Waits arrived n w) (hcalls : n.walletCalls ⊆ n'.walletCalls) :
    Waits arrived n' w :=
  ⟨h.nodup, h.nProcessed, h.lt, fun txid hin harrived => (h.credited txid hin harrived).mono hcalls⟩

/-- The pool and further calls do not matter to the merkle blocks that wait. -/
theorem MatchesTracked.mono (h : MatchesTracked hash arrived verified n) (hpool : TxsFiled hash n'.mempool)
    (hsame : n'.vIncomingMerkleBlocks = n.vIncomingMerkleBlocks) (hcalls : n.walletCalls ⊆ n'.walletCalls) :
    MatchesTracked hash arrived verified n' where
  pool := hpool
  waiting := by
    rw [hsame]
    exact fun w hw => (h.waiting w hw).mono hcalls
  apart := by
    rw [hsame]
    exact h.apart
  waits := by
    rw [hsame]
    exact h.waits
  done := fun v hv hall txid hin => (h.done v hv hall txid hin).mono hcalls

theorem MatchesTracked.updateHeaders (h : MatchesTracked hash arrived verified n) (u : HeaderUpdate H) :
    MatchesTracked hash arrived verified (n.updateHeaders hash p u) :=
  h.mono (h.pool.foldl u.vResurrect) rfl (List.Subset.refl _)

theorem MatchesTracked.findHeader (h : MatchesTracked hash arrived verified n) (u : HeaderUpdate H)
    (header : CBlock) : MatchesTracked hash arrived verified (n.findHeader hash p u header).1 :=
  LightClient.findHeader_preserves h (h.updateHeaders u) header

theorem countP_arrived {vMatch : List UInt256} {txid : UInt256} (hnodup : vMatch.Nodup) (hin : txid ∈ vMatch)
    (hnew : txid ∉ arrived) : vMatch.countP (· ∈ arrived ++ [txid]) = vMatch.countP (· ∈ arrived) + 1 := by
  have hperm := List.perm_cons_erase hin
  rw [hperm.countP_eq, hperm.countP_eq, List.countP_cons_of_pos (by simp),
    List.countP_cons_of_neg (by simpa using hnew)]
  congr 1
  apply List.countP_congr
  intro t ht
  have hne : t ≠ txid := (hnodup.mem_erase_iff.mp ht).1
  simp [hne]

theorem Waits.other {w : CMerkleBlockIncoming} {txid : UInt256} (h : Waits arrived n w) (hnot : txid ∉ w.vMatch)
    (hcalls : n.walletCalls ⊆ n'.walletCalls) : Waits (arrived ++ [txid]) n' w where
  nodup := h.nodup
  nProcessed := by
    rw [h.nProcessed]
    apply List.countP_congr
    intro t ht
    have hne : t ≠ txid := fun heq => hnot (heq ▸ ht)
    simp [hne]
  lt := h.lt
  credited := by
    intro t ht harrived
    cases List.mem_append.mp harrived with
    | inl hold => exact (h.credited t ht hold).mono hcalls
    | inr hlast => exact absurd (List.mem_singleton.mp hlast ▸ ht) hnot

/-- What is complete with one more transaction was complete, or waited for it. -/
theorem MatchesTracked.done_arrived {txid : UInt256} (h : MatchesTracked hash arrived verified n)
    (hcalls : n.walletCalls ⊆ n'.walletCalls)
    (hnew : ∀ w ∈ n.vIncomingMerkleBlocks, txid ∈ w.vMatch → Credited n' w.hashBlock txid) :
    ∀ v ∈ verified, (∀ t ∈ v.2, t ∈ arrived ++ [txid]) → ∀ t ∈ v.2, Credited n' v.1 t := by
  intro v hv hall t ht
  by_cases hbefore : ∀ t ∈ v.2, t ∈ arrived
  · exact (h.done v hv hbefore t ht).mono hcalls
  · obtain ⟨w, hw, hhash, hmatch⟩ := (h.waits v hv).resolve_left hbefore
    rw [← hhash]
    rw [← hmatch] at ht
    cases List.mem_append.mp (hall t (hmatch ▸ ht)) with
    | inl hold => exact ((h.waiting w hw).credited t ht hold).mono hcalls
    | inr hlast =>
      obtain rfl := List.mem_singleton.mp hlast
      exact hnew w hw ht

/-- The merkle block that the transaction is for, with its count raised. -/
theorem Waits.counted {w : CMerkleBlockIncoming} {txid : UInt256} (h : Waits arrived n w) (hin : txid ∈ w.vMatch)
    (hfresh : txid ∉ arrived) (hcalls : n.walletCalls ⊆ n'.walletCalls) (hcredited : Credited n' w.hashBlock txid)
    (hleft : w.nProcessed + 1 ≠ w.vMatch.length) :
    Waits (arrived ++ [txid]) n' { w with nProcessed := w.nProcessed + 1 } where
  nodup := h.nodup
  nProcessed := by rw [countP_arrived h.nodup hin hfresh, ← h.nProcessed]
  lt := by
    have hlt := h.lt
    show w.nProcessed + 1 < w.vMatch.length
    omega
  credited := by
    intro t ht harrived
    cases List.mem_append.mp harrived with
    | inl hold => exact (h.credited t ht hold).mono hcalls
    | inr hlast =>
      rw [List.mem_singleton.mp hlast]
      exact hcredited

section Matched

variable {before after : List CMerkleBlockIncoming} {mb : CMerkleBlockIncoming} {txid : UInt256}

/-- The other merkle blocks do not wait for the transaction. -/
theorem MatchesTracked.notMem_others (h : MatchesTracked hash arrived verified n)
    (hwaiting : n.vIncomingMerkleBlocks = before ++ mb :: after) (hin : txid ∈ mb.vMatch) (w : CMerkleBlockIncoming)
    (hw : w ∈ before ∨ w ∈ after) : txid ∉ w.vMatch := by
  have hsplit := h.apart
  rw [hwaiting, List.map_append, List.map_cons, List.pairwise_append] at hsplit
  obtain ⟨-, hafter, hbefore⟩ := hsplit
  intro hmatch
  cases hw with
  | inl hw => exact hbefore _ (List.mem_map_of_mem hw) _ List.mem_cons_self hmatch hin
  | inr hw => exact List.rel_of_pairwise_cons hafter (List.mem_map_of_mem hw) hin hmatch

theorem MatchesTracked.waits_others (h : MatchesTracked hash arrived verified n)
    (hwaiting : n.vIncomingMerkleBlocks = before ++ mb :: after) (hin : txid ∈ mb.vMatch)
    (hcalls : n.walletCalls ⊆ n'.walletCalls) (w : CMerkleBlockIncoming) (hw : w ∈ before ∨ w ∈ after) :
    Waits (arrived ++ [txid]) n' w := by
  have hold : w ∈ n.vIncomingMerkleBlocks := by
    rw [hwaiting, List.mem_append, List.mem_cons]
    exact hw.imp_right Or.inr
  exact (h.waiting w hold).other (h.notMem_others hwaiting hin w hw) hcalls

theorem MatchesTracked.done_matched (h : MatchesTracked hash arrived verified n)
    (hwaiting : n.vIncomingMerkleBlocks = before ++ mb :: after) (hin : txid ∈ mb.vMatch)
    (hcalls : n.walletCalls ⊆ n'.walletCalls) (hcredited : Credited n' mb.hashBlock txid) :
    ∀ v ∈ verified, (∀ t ∈ v.2, t ∈ arrived ++ [txid]) → ∀ t ∈ v.2, Credited n' v.1 t := by
  refine h.done_arrived hcalls fun w hw hmatch => ?_
  rw [hwaiting, List.mem_append, List.mem_cons] at hw
  rcases hw with hw | rfl | hw
  · exact absurd hmatch (h.notMem_others hwaiting hin w (Or.inl hw))
  · exact hcredited
  · exact absurd hmatch (h.notMem_others hwaiting hin w (Or.inr hw))

/-- The transaction is the last one of its merkle block. -/
theorem MatchesTracked.matched_last (h : MatchesTracked hash arrived verified n)
    (hwaiting : n.vIncomingMerkleBlocks = before ++ mb :: after) (hin : txid ∈ mb.vMatch) (hfresh : txid ∉ arrived)
    (hpool : TxsFiled hash n'.mempool) (hcalls : n.walletCalls ⊆ n'.walletCalls)
    (hcredited : Credited n' mb.hashBlock txid) (hlast : mb.nProcessed + 1 = mb.vMatch.length)
    (hwaiting' : n'.vIncomingMerkleBlocks = before ++ after) :
    MatchesTracked hash (arrived ++ [txid]) verified n' := by
  have hmb := h.waiting mb (hwaiting ▸ List.mem_append_right _ List.mem_cons_self)
  refine ⟨hpool, ?_, ?_, fun v hv => ?_, h.done_matched hwaiting hin hcalls hcredited⟩
  · rw [hwaiting']
    exact fun w hw => h.waits_others hwaiting hin hcalls w (List.mem_append.mp hw)
  · have hsub := (List.sublist_cons_self mb after).append_left before
    rw [hwaiting']
    exact (hwaiting ▸ h.apart).sublist (hsub.map _)
  · rcases h.waits v hv with hall | ⟨w, hw, hhash, hmatch⟩
    · exact Or.inl fun t ht => List.mem_append_left _ (hall t ht)
    · rw [hwaiting, List.mem_append, List.mem_cons] at hw
      rw [hwaiting']
      rcases hw with hw | rfl | hw
      · exact Or.inr ⟨w, List.mem_append_left _ hw, hhash, hmatch⟩
      · have hcount := countP_arrived hmb.nodup hin hfresh
        rw [← hmb.nProcessed, hlast, List.countP_eq_length] at hcount
        exact Or.inl fun t ht => of_decide_eq_true (hcount t (hmatch ▸ ht))
      · exact Or.inr ⟨w, List.mem_append_right _ hw, hhash, hmatch⟩

/-- Its merkle block waits for more. -/
theorem MatchesTracked.matched_more (h : MatchesTracked hash arrived verified n)
    (hwaiting : n.vIncomingMerkleBlocks = before ++ mb :: after) (hin : txid ∈ mb.vMatch) (hfresh : txid ∉ arrived)
    (hpool : TxsFiled hash n'.mempool) (hcalls : n.walletCalls ⊆ n'.walletCalls)
    (hcredited : Credited n' mb.hashBlock txid) (hleft : mb.nProcessed + 1 ≠ mb.vMatch.length)
    (hwaiting' : n'.vIncomingMerkleBlocks = before ++ { mb with nProcessed := mb.nProcessed + 1 } :: after) :
    MatchesTracked hash (arrived ++ [txid]) verified n' := by
  have hmb := h.waiting mb (hwaiting ▸ List.mem_append_right _ List.mem_cons_self)
  refine ⟨hpool, ?_, ?_, fun v hv => ?_, h.done_matched hwaiting hin hcalls hcredited⟩
  · intro w hw
    rw [hwaiting', List.mem_append, List.mem_cons] at hw
    rcases hw with hw | rfl | hw
    · exact h.waits_others hwaiting hin hcalls w (Or.inl hw)
    · exact hmb.counted hin hfresh hcalls hcredited hleft
    · exact h.waits_others hwaiting hin hcalls w (Or.inr hw)
  · have hmap : n'.vIncomingMerkleBlocks.map CMerkleBlockIncoming.vMatch =
        n.vIncomingMerkleBlocks.map CMerkleBlockIncoming.vMatch := by
      rw [hwaiting', hwaiting, List.map_append, List.map_append, List.map_cons, List.map_cons]
    rw [hmap]
    exact h.apart
  · rcases h.waits v hv with hall | ⟨w, hw, hhash, hmatch⟩
    · exact Or.inl fun t ht => List.mem_append_left _ (hall t ht)
    · rw [hwaiting, List.mem_append, List.mem_cons] at hw
      rw [hwaiting']
      rcases hw with hw | rfl | hw
      · exact Or.inr ⟨w, List.mem_append_left _ hw, hhash, hmatch⟩
      · exact Or.inr ⟨_, List.mem_append_right _ List.mem_cons_self, hhash, hmatch⟩
      · exact Or.inr ⟨w, List.mem_append_right _ (List.mem_cons_of_mem _ hw), hhash, hmatch⟩

end Matched

/-- No merkle block waits for the transaction. -/
theorem MatchesTracked.unmatched {txid : UInt256} (h : MatchesTracked hash arrived verified n)
    (hnone : ∀ w ∈ n.vIncomingMerkleBlocks, txid ∉ w.vMatch) (hpool : TxsFiled hash n'.mempool)
    (hsame : n'.vIncomingMerkleBlocks = n.vIncomingMerkleBlocks) (hcalls : n.walletCalls ⊆ n'.walletCalls) :
    MatchesTracked hash (arrived ++ [txid]) verified n' where
  pool := hpool
  waiting := by
    rw [hsame]
    exact fun w hw => (h.waiting w hw).other (hnone w hw) hcalls
  apart := by
    rw [hsame]
    exact h.apart
  waits := by
    rw [hsame]
    exact fun v hv => (h.waits v hv).imp_left fun hall t ht => List.mem_append_left _ (hall t ht)
  done := h.done_arrived hcalls fun w hw hmatch => absurd hmatch (hnone w hw)

theorem MatchesTracked.processTx (h : MatchesTracked hash arrived verified n) (tx : CTransaction)
    (fRest added : Bool)
    (honce : ∀ w ∈ n.vIncomingMerkleBlocks, tx.getHash hash ∈ w.vMatch → tx.getHash hash ∉ arrived) :
    MatchesTracked hash (arrived ++ [tx.getHash hash]) verified (n.processTx hash p tx fRest added) := by
  rw [LightClient.processTx]
  cases hmatch : matchIncoming (tx.getHash hash) n.vIncomingMerkleBlocks with
  | some r =>
    obtain ⟨blockhash, l'⟩ := r
    obtain ⟨before, mb, after, hwaiting, -, hin, rfl, rfl⟩ := matchIncoming_some hmatch
    have hmb : mb ∈ n.vIncomingMerkleBlocks := hwaiting ▸ List.mem_append_right _ List.mem_cons_self
    have hcredited : Credited { n with
        vIncomingMerkleBlocks := before ++ (if mb.nProcessed + 1 = mb.vMatch.length then after
          else { mb with nProcessed := mb.nProcessed + 1 } :: after)
        walletCalls := n.walletCalls ++ [⟨tx, tx.getHash hash, some mb.hashBlock⟩] } mb.hashBlock (tx.getHash hash) :=
      ⟨_, List.mem_append_right _ (List.mem_singleton_self _), rfl, rfl⟩
    by_cases hlast : mb.nProcessed + 1 = mb.vMatch.length
    · exact h.matched_last hwaiting hin (honce mb hmb hin) h.pool (List.subset_append_left _ _) hcredited hlast
        (by rw [if_pos hlast])
    · exact h.matched_more hwaiting hin (honce mb hmb hin) h.pool (List.subset_append_left _ _) hcredited hlast
        (by rw [if_neg hlast])
  | none =>
    have hnone := matchIncoming_none hmatch
    dsimp only
    split
    · have hpool := h.pool.acceptToMemoryPool (p := p) tx fRest
      refine h.unmatched hnone ?_ rfl (List.subset_append_left _ _)
      cases added with
      | true => exact hpool
      | false => exact hpool.remove tx
    · exact h.unmatched hnone h.pool rfl (List.Subset.refl _)

/-- One more merkle block, which waits. -/
theorem MatchesTracked.push (h : MatchesTracked hash arrived verified n) (w : CMerkleBlockIncoming)
    (hw : Waits arrived n w) (hapart : ∀ w' ∈ n.vIncomingMerkleBlocks, w'.vMatch.Disjoint w.vMatch) :
    MatchesTracked hash arrived (verified ++ [(w.hashBlock, w.vMatch)])
      { n with vIncomingMerkleBlocks := n.vIncomingMerkleBlocks ++ [w] } where
  pool := h.pool
  waiting := by
    intro w' hw'
    cases List.mem_append.mp hw' with
    | inl hold => exact (h.waiting w' hold).mono (List.Subset.refl _)
    | inr hlast =>
      rw [List.mem_singleton.mp hlast]
      exact hw.mono (List.Subset.refl _)
  apart := by
    rw [List.map_append, List.pairwise_append]
    refine ⟨h.apart, List.pairwise_singleton _ _, fun l hl l' hl' => ?_⟩
    obtain ⟨w', hw', rfl⟩ := List.mem_map.mp hl
    rw [List.mem_singleton.mp hl']
    exact hapart w' hw'
  waits := by
    intro v hv
    cases List.mem_append.mp hv with
    | inl hold =>
      refine (h.waits v hold).imp_right fun hsome => ?_
      obtain ⟨w', hw', heq⟩ := hsome
      exact ⟨w', List.mem_append_left _ hw', heq⟩
    | inr hlast =>
      rw [List.mem_singleton.mp hlast]
      exact Or.inr ⟨w, List.mem_append_right _ (List.mem_singleton_self _), rfl, rfl⟩
  done := by
    intro v hv hall txid hin
    cases List.mem_append.mp hv with
    | inl hold => exact (h.done v hold hall txid hin).mono (List.Subset.refl _)
    | inr hlast =>
      obtain rfl := List.mem_singleton.mp hlast
      exact (hw.credited txid hin (hall txid hin)).mono (List.Subset.refl _)

/-- One more merkle block, which does not wait. -/
theorem MatchesTracked.finished (h : MatchesTracked hash arrived verified n) (v : UInt256 × List UInt256)
    (hall : ∀ txid ∈ v.2, txid ∈ arrived) (hcredited : ∀ txid ∈ v.2, Credited n v.1 txid) :
    MatchesTracked hash arrived (verified ++ [v]) n where
  pool := h.pool
  waiting := h.waiting
  apart := h.apart
  waits := by
    intro v' hv'
    cases List.mem_append.mp hv' with
    | inl hold => exact h.waits v' hold
    | inr hlast =>
      rw [List.mem_singleton.mp hlast]
      exact Or.inl hall
  done := by
    intro v' hv'
    cases List.mem_append.mp hv' with
    | inl hold => exact h.done v' hold
    | inr hlast =>
      rw [List.mem_singleton.mp hlast]
      exact fun _ => hcredited

theorem MatchesTracked.scanMempool (h : MatchesTracked hash arrived verified n) (hashBlock : UInt256)
    (vMatch : List UInt256) : MatchesTracked hash arrived verified (n.scanMempool hash hashBlock vMatch).1 := by
  rcases scanMempool_cases n h.pool hashBlock vMatch with ⟨heq, -⟩ | ⟨tx, -, -, heq⟩
  · rw [heq]
    exact h
  · rw [heq]
    exact h.mono (h.pool.remove tx) rfl (List.subset_append_left _ _)

/-- An element of a `mblkt` message. -/
theorem MatchesTracked.processMultiBlock (h : MatchesTracked hash arrived verified n) (mb : CMerkleBlock)
    (pBlockThinIndex : Option CBlock) (vTxns : List CTransaction) :
    MatchesTracked hash arrived verified (n.processMerkleBlock hash mb pBlockThinIndex (some vTxns)) := by
  rw [LightClient.processMerkleBlock]
  cases provenMatches hash mb pBlockThinIndex with
  | none => exact h
  | some vMatch =>
    dsimp only
    split
    · exact h
    · have hscan := h.scanMempool (mb.header.getHash H) vMatch
      exact hscan.mono hscan.pool rfl (List.subset_append_left _ _)

theorem eq_of_countP_le_one {vMatch : List UInt256} {t t' : UInt256} (hfew : vMatch.countP (· ∈ arrived) ≤ 1)
    (ht : t ∈ vMatch) (ht' : t' ∈ vMatch) (harrived : t ∈ arrived) (harrived' : t' ∈ arrived) : t = t' := by
  rw [List.countP_eq_length_filter] at hfew
  have hmem : t ∈ vMatch.filter (· ∈ arrived) := List.mem_filter.mpr ⟨ht, decide_eq_true harrived⟩
  have hmem' : t' ∈ vMatch.filter (· ∈ arrived) := List.mem_filter.mpr ⟨ht', decide_eq_true harrived'⟩
  cases hl : vMatch.filter (· ∈ arrived) with
  | nil =>
    rw [hl] at hmem
    exact absurd hmem List.not_mem_nil
  | cons x rest =>
    rw [hl, List.length_cons] at hfew
    have hrest : rest = [] := List.length_eq_zero_iff.mp (by omega)
    rw [hl, hrest, List.mem_singleton] at hmem hmem'
    rw [hmem, hmem']

theorem processMerkleBlock_unproven {mb : CMerkleBlock} {pBlockThinIndex : Option CBlock}
    (hnone : provenMatches hash mb pBlockThinIndex = none) (pvTxns : Option (List CTransaction)) :
    n.processMerkleBlock hash mb pBlockThinIndex pvTxns = n := by
  rw [LightClient.processMerkleBlock.eq_def, hnone]

theorem MatchesTracked.processMerkleBlock {mb : CMerkleBlock} {pBlockThinIndex : Option CBlock}
    {vMatch : List UInt256} (h : MatchesTracked hash arrived verified n)
    (hproven : provenMatches hash mb pBlockThinIndex = some vMatch)
    (hnodup : vMatch.Nodup) (hapart : ∀ w ∈ n.vIncomingMerkleBlocks, w.vMatch.Disjoint vMatch)
    (hpool : ∀ txid ∈ vMatch, txid ∈ arrived ↔ n.mempool.contains txid) (hfew : vMatch.countP (· ∈ arrived) ≤ 1) :
    MatchesTracked hash arrived (verified ++ [(mb.header.getHash H, vMatch)])
      (n.processMerkleBlock hash mb pBlockThinIndex none) := by
  rw [LightClient.processMerkleBlock, hproven]
  dsimp only
  by_cases hlen : vMatch.length < 1
  · rw [if_pos hlen]
    obtain rfl := List.length_eq_zero_iff.mp (Nat.lt_one_iff.mp hlen)
    exact h.finished _ (fun _ hin => absurd hin List.not_mem_nil) fun _ hin => absurd hin List.not_mem_nil
  · rw [if_neg hlen]
    rcases scanMempool_cases n h.pool (mb.header.getHash H) vMatch with ⟨heq, hnone⟩ | ⟨tx, hlookup, hin, heq⟩
    · have hfresh : ∀ txid ∈ vMatch, txid ∉ arrived := by
        intro txid htxid harrived
        have hcontains := (hpool txid htxid).mp harrived
        rw [hnone txid htxid] at hcontains
        cases hcontains
      have hpos : 0 < vMatch.length := Nat.not_lt.mp hlen
      rw [heq, if_pos hpos]
      refine h.push ⟨mb.header.getHash H, 0, vMatch⟩ ⟨hnodup, ?_, hpos, ?_⟩ hapart
      · refine (List.countP_eq_zero.mpr fun txid htxid => ?_).symm
        simpa using hfresh txid htxid
      · exact fun txid htxid harrived => absurd harrived (hfresh txid htxid)
    · have hscan := h.scanMempool (mb.header.getHash H) vMatch
      rw [heq] at hscan ⊢
      dsimp only at hscan ⊢
      have harrived : tx.getHash hash ∈ arrived := by
        refine (hpool _ hin).mpr ?_
        rw [CTxMemPool.contains, hlookup]
        rfl
      have hone : vMatch.countP (· ∈ arrived) = 1 :=
        Nat.le_antisymm hfew (List.countP_pos_iff.mpr ⟨_, hin, decide_eq_true harrived⟩)
      -- the only one that came is the one in the pool
      have honly : ∀ txid ∈ vMatch, txid ∈ arrived → txid = tx.getHash hash := fun txid htxid hcame =>
        eq_of_countP_le_one hfew htxid hin hcame harrived
      split
      case isTrue hleft =>
        refine hscan.push ⟨mb.header.getHash H, 1, vMatch⟩ ⟨hnodup, hone.symm, hleft, ?_⟩ hapart
        intro txid htxid hcame
        rw [honly txid htxid hcame]
        exact ⟨_, List.mem_append_right _ (List.mem_singleton_self _), rfl, rfl⟩
      case isFalse hleft =>
        have hlength : vMatch.countP (· ∈ arrived) = vMatch.length := by omega
        rw [List.countP_eq_length] at hlength
        refine hscan.finished _ (fun txid htxid => of_decide_eq_true (hlength txid htxid)) fun txid htxid => ?_
        rw [honly txid htxid (of_decide_eq_true (hlength txid htxid))]
        exact ⟨_, List.mem_append_right _ (List.mem_singleton_self _), rfl, rfl⟩

theorem MatchesTracked.step {events : List (LightEvent H)}
    (h : MatchesTracked hash (arrivedTxs hash events) verified n) (event : LightEvent H)
    (honce : ArrivesOnce hash p events n event) :
    MatchesTracked hash (arrivedTxs hash (events ++ [event])) (verified ++ n.verifies hash p event)
      (n.step hash p event) := by
  have harrived : arrivedTxs hash (events ++ [event]) = arrivedTxs hash events ++ arrivedTxs hash [event] :=
    List.filterMap_append
  rw [harrived]
  cases event with
  | headers u =>
    rw [LightClient.verifies, List.append_nil]
    have hupdate := h.updateHeaders (p := p) u
    rwa [← List.append_nil (arrivedTxs hash events)] at hupdate
  | merkleBlock u mb pvTxns =>
    have hfind := h.findHeader (p := p) u mb.header
    cases pvTxns with
    | some vTxns =>
      rw [LightClient.verifies, List.append_nil]
      have hblock := hfind.processMultiBlock mb (n.findHeader hash p u mb.header).2 vTxns
      rwa [← List.append_nil (arrivedTxs hash events)] at hblock
    | none =>
      have hblock : MatchesTracked hash (arrivedTxs hash events)
          (verified ++ n.verifies hash p (.merkleBlock u mb none)) (n.step hash p (.merkleBlock u mb none)) := by
        rw [LightClient.verifies]
        cases hproven : provenMatches hash mb (n.findHeader hash p u mb.header).2 with
        | none =>
          have hsame := processMerkleBlock_unproven (n := (n.findHeader hash p u mb.header).1) hproven none
          rw [← hsame] at hfind
          rw [List.append_nil]
          exact hfind
        | some vMatch =>
          obtain ⟨hnodup, hapart, hpool, hfew⟩ := honce vMatch hproven
          exact hfind.processMerkleBlock hproven hnodup hapart hpool hfew
      rwa [← List.append_nil (arrivedTxs hash events)] at hblock
  | tx tx fRest added =>
    rw [LightClient.verifies, List.append_nil]
    exact h.processTx tx fRest added honce

theorem verified_append (n : LightClient H) (events : List (LightEvent H)) (event : LightEvent H) :
    n.verified hash p (events ++ [event]) =
      n.verified hash p events ++ (events.foldl (fun n event => n.step hash p event) n).verifies hash p event := by
  induction events generalizing n with
  | nil => exact List.append_nil _
  | cons first events ih =>
    rw [List.cons_append, LightClient.verified, LightClient.verified, ih, List.append_assoc, List.foldl_cons]

theorem MerkleRun.eq_foldl {allowed : List (LightEvent H) → LightClient H → LightEvent H → Prop}
    {start : LightClient H} {events : List (LightEvent H)} (hrun : MerkleRun hash p allowed start events n) :
    n = events.foldl (fun n event => n.step hash p event) start := by
  induction hrun with
  | start => rfl
  | event _ _ ih => rw [List.foldl_append, ← ih, List.foldl_cons, List.foldl_nil]

theorem MerkleRun.tracked {start : LightClient H} {events : List (LightEvent H)} (hpool : TxsFiled hash start.mempool)
    (hwaiting : start.vIncomingMerkleBlocks = []) (hrun : MerkleRun hash p (ArrivesOnce hash p) start events n) :
    MatchesTracked hash (arrivedTxs hash events) (start.verified hash p events) n := by
  induction hrun with
  | start =>
    refine ⟨hpool, ?_, ?_, fun v hv => absurd hv List.not_mem_nil, fun v hv => absurd hv List.not_mem_nil⟩
    · rw [hwaiting]
      exact fun w hw => absurd hw List.not_mem_nil
    · rw [hwaiting]
      exact List.Pairwise.nil
  | event hbefore honce ih =>
    rw [verified_append, ← hbefore.eq_foldl]
    exact ih.step _ honce

/-- Every merkle block that is verified waits exactly until all its transactions came, and by then they are credited,
as long as each of them comes once. -/
theorem matches_credited {H : BlockHash} (hash : HashFn) (p : ChainParams) (start n : LightClient H)
    (events : List (LightEvent H)) (hpool : TxsFiled hash start.mempool) (hwaiting : start.vIncomingMerkleBlocks = [])
    (hrun : MerkleRun hash p (ArrivesOnce hash p) start events n) :
    ∀ v ∈ start.verified hash p events,
      ((∀ txid ∈ v.2, txid ∈ arrivedTxs hash events) → ∀ txid ∈ v.2, Credited n v.1 txid) ∧
      ((∃ w ∈ n.vIncomingMerkleBlocks, w.hashBlock = v.1 ∧ w.vMatch = v.2) ↔
        ¬ ∀ txid ∈ v.2, txid ∈ arrivedTxs hash events) := by
  have h := hrun.tracked hpool hwaiting
  refine fun v hv => ⟨h.done v hv, fun hwaits hall => ?_, fun hmissing => (h.waits v hv).resolve_left hmissing⟩
  obtain ⟨w, hw, -, hmatch⟩ := hwaits
  have hw := h.waiting w hw
  have hcount : w.vMatch.countP (· ∈ arrivedTxs hash events) = w.vMatch.length :=
    List.countP_eq_length.mpr fun txid htxid => decide_eq_true (hall txid (hmatch ▸ htxid))
  exact absurd hw.lt (by rw [hw.nProcessed, hcount]; exact Nat.lt_irrefl _)

/-- A merkle block for two transactions. -/
def pairMatch : CMerkleBlock := ⟨matchHeader 11, ⟨2, [true, true, true], [5, 6], false⟩⟩

/-- The merkle block, and then transactions with these times. -/
def pairEvents (times : List UInt32) : List (LightEvent ⟨sumHash, sumHash⟩) :=
  .merkleBlock ⟨matchIndex 11, []⟩ pairMatch none :: times.map fun nTime => .tx (timedTx nTime) false false

/-- Both transactions come. -/
theorem matches_credited_both : ∃ n : LightClient ⟨sumHash, sumHash⟩, n.vIncomingMerkleBlocks = [] ∧
    (matchStart 11).verified sumHash regTestParams (pairEvents [4, 5]) ≠ [] ∧
    ∀ v ∈ (matchStart 11).verified sumHash regTestParams (pairEvents [4, 5]),
      ((∀ txid ∈ v.2, txid ∈ arrivedTxs sumHash (pairEvents [4, 5])) → ∀ txid ∈ v.2, Credited n v.1 txid) ∧
      ((∃ w ∈ n.vIncomingMerkleBlocks, w.hashBlock = v.1 ∧ w.vMatch = v.2) ↔
        ¬ ∀ txid ∈ v.2, txid ∈ arrivedTxs sumHash (pairEvents [4, 5])) := by
  let n₁ := (matchStart 11).step sumHash regTestParams (.merkleBlock ⟨matchIndex 11, []⟩ pairMatch none)
  let n₂ := n₁.step sumHash regTestParams (.tx (timedTx 4) false false)
  have hfirst :
      ArrivesOnce sumHash regTestParams [] (matchStart 11) (.merkleBlock ⟨matchIndex 11, []⟩ pairMatch none) := by
    intro vMatch hproven
    have heval : provenMatches sumHash pairMatch (matchHeaders 11 (pairMatch.header.getHash ⟨sumHash, sumHash⟩)) =
        some [5, 6] := by decide +kernel
    obtain rfl := Option.some.inj (hproven.symm.trans heval)
    refine ⟨by decide, fun w hw => absurd hw List.not_mem_nil, fun txid _ => ⟨fun h => absurd h List.not_mem_nil, ?_⟩,
      by decide +kernel⟩
    exact fun h => nomatch h
  have hsecond : ArrivesOnce sumHash regTestParams (pairEvents []) n₁ (.tx (timedTx 4) false false) := by
    unfold ArrivesOnce
    decide +kernel
  have hthird : ArrivesOnce sumHash regTestParams (pairEvents [4]) n₂ (.tx (timedTx 5) false false) := by
    unfold ArrivesOnce
    decide +kernel
  refine ⟨n₂.step sumHash regTestParams (.tx (timedTx 5) false false), by decide +kernel, by decide +kernel, ?_⟩
  exact matches_credited sumHash regTestParams (matchStart 11) _ (pairEvents [4, 5])
    (fun txid tx hfound => nomatch hfound) rfl (.event (.event (.event .start hfirst) hsecond) hthird)

/-- The first transaction comes twice and is taken for the second one, which is not credited when it comes. -/
theorem repeated_match : ∃ (events : List (LightEvent ⟨sumHash, sumHash⟩)) (n : LightClient ⟨sumHash, sumHash⟩),
    MerkleRun sumHash regTestParams (fun _ _ _ => True) (matchStart 11) events n ∧
      ∃ v ∈ (matchStart 11).verified sumHash regTestParams events,
        (∀ txid ∈ v.2, txid ∈ arrivedTxs sumHash events) ∧ ∃ txid ∈ v.2, ¬ Credited n v.1 txid := by
  refine ⟨pairEvents [4, 4, 5], _,
    (((MerkleRun.start.then (.merkleBlock ⟨matchIndex 11, []⟩ pairMatch none) trivial).then
      (.tx (timedTx 4) false false) trivial).then (.tx (timedTx 4) false false) trivial).then
      (.tx (timedTx 5) false false) trivial, (18, [5, 6]), by decide +kernel, ?_, 6, by decide, ?_⟩
  · simp only [List.forall_mem_cons, List.not_mem_nil, false_imp_iff, implies_true, and_true]
    decide +kernel
  · unfold Credited
    decide +kernel

end Arrival

end AliasWallet
