import AliasWallet.Core.Transaction
import Mathlib.Data.List.AList
import Mathlib.Data.List.MinMax

/-!
# Orphan transactions (`AddOrphanTx`, `EraseOrphanTx`, `LimitOrphanTxSize`)

Transactions whose inputs are not known yet wait under their hash, and under each parent the hashes that
wait for it. A map is a list of entries with different keys; its order is the one of the keys.
-/

namespace AliasWallet
open Lib

structure OrphanMaps where
  mapOrphanTransactions : AList fun _ : UInt256 => CTransaction
  mapOrphanTransactionsByPrev : AList fun _ : UInt256 => Finset UInt256

section Operations

abbrev ByPrev := AList fun _ : UInt256 => Finset UInt256

/-- The set that `operator[]` refers to. -/
def prevSet (byPrev : ByPrev) (prevHash : UInt256) : Finset UInt256 := (byPrev.lookup prevHash).getD ∅

def insertPrev (h : UInt256) (byPrev : ByPrev) (txin : CTxIn) : ByPrev :=
  byPrev.insert txin.prevout.hash (insert h (prevSet byPrev txin.prevout.hash))

def erasePrev (h : UInt256) (byPrev : ByPrev) (txin : CTxIn) : ByPrev :=
  let byPrev := byPrev.insert txin.prevout.hash ((prevSet byPrev txin.prevout.hash).erase h)
  if prevSet byPrev txin.prevout.hash = ∅ then byPrev.erase txin.prevout.hash else byPrev

variable (hash : HashFn)

def addOrphanTx (m : OrphanMaps) (tx : CTransaction) : OrphanMaps × Bool :=
  let h := tx.getHash hash
  if h ∈ m.mapOrphanTransactions then (m, false)
  else if tx.bytes.length > 5000 then (m, false)
  else
    ({ mapOrphanTransactions := m.mapOrphanTransactions.insert h tx
       mapOrphanTransactionsByPrev := tx.vin.foldl (insertPrev h) m.mapOrphanTransactionsByPrev }, true)

def eraseOrphanTx (m : OrphanMaps) (h : UInt256) : OrphanMaps :=
  match m.mapOrphanTransactions.lookup h with
  | none => m
  | some tx =>
    { mapOrphanTransactions := m.mapOrphanTransactions.erase h
      mapOrphanTransactionsByPrev := tx.vin.foldl (erasePrev h) m.mapOrphanTransactionsByPrev }

/-- The first key from `randomhash` on, and else the first one; null is the end of an empty map. -/
def evictedHash (m : OrphanMaps) (randomhash : UInt256) : Option UInt256 :=
  let keys := m.mapOrphanTransactions.keys
  match (keys.filter fun h => randomhash.toNat ≤ h.toNat).argmin BitVec.toNat with
  | some h => some h
  | none => keys.argmin BitVec.toNat

/-- `LimitOrphanTxSize` with the random hashes it draws; it may take that many rounds. -/
def limitOrphanTxSize (nMaxOrphans : UInt32) :
    Nat → (Nat → UInt256) → UInt32 → OrphanMaps → Option (OrphanMaps × UInt32)
  | 0, _, _, _ => none
  | rounds + 1, randHash, nEvicted, m =>
    if m.mapOrphanTransactions.keys.length > nMaxOrphans.toNat then do
      let h ← evictedHash m (randHash 0)
      limitOrphanTxSize nMaxOrphans rounds (fun k => randHash (k + 1)) (nEvicted + 1) (eraseOrphanTx m h)
    else some (m, nEvicted)

end Operations

section Sets

variable (h : UInt256)

/-- Every set that is kept has a hash in it. -/
def NoEmptySet (byPrev : ByPrev) : Prop := ∀ prevHash s, byPrev.lookup prevHash = some s → s ≠ ∅

theorem prevSet_insert (byPrev : ByPrev) (prevHash prevHash' : UInt256) (s : Finset UInt256) :
    prevSet (byPrev.insert prevHash s) prevHash' = if prevHash' = prevHash then s else prevSet byPrev prevHash' := by
  by_cases heq : prevHash' = prevHash
  · subst heq
    rw [if_pos rfl, prevSet, AList.lookup_insert, Option.getD_some]
  · rw [if_neg heq, prevSet, AList.lookup_insert_ne heq, prevSet]

theorem prevSet_erase (byPrev : ByPrev) (prevHash prevHash' : UInt256) :
    prevSet (byPrev.erase prevHash) prevHash' = if prevHash' = prevHash then ∅ else prevSet byPrev prevHash' := by
  by_cases heq : prevHash' = prevHash
  · subst heq
    rw [if_pos rfl, prevSet, AList.lookup_erase, Option.getD_none]
  · rw [if_neg heq, prevSet, AList.lookup_erase_ne heq, prevSet]

theorem prevSet_insertPrev (byPrev : ByPrev) (txin : CTxIn) (prevHash : UInt256) :
    prevSet (insertPrev h byPrev txin) prevHash =
      if prevHash = txin.prevout.hash then insert h (prevSet byPrev prevHash) else prevSet byPrev prevHash := by
  rw [insertPrev, prevSet_insert]
  by_cases heq : prevHash = txin.prevout.hash
  · rw [if_pos heq, if_pos heq, heq]
  · rw [if_neg heq, if_neg heq]

theorem prevSet_erasePrev (byPrev : ByPrev) (txin : CTxIn) (prevHash : UInt256) :
    prevSet (erasePrev h byPrev txin) prevHash =
      if prevHash = txin.prevout.hash then (prevSet byPrev prevHash).erase h else prevSet byPrev prevHash := by
  rw [erasePrev, prevSet_insert, if_pos rfl]
  by_cases heq : prevHash = txin.prevout.hash
  · subst heq
    rw [if_pos rfl]
    split
    · next hempty => rw [prevSet_erase, if_pos rfl, hempty]
    · rw [prevSet_insert, if_pos rfl]
  · rw [if_neg heq]
    split
    · rw [prevSet_erase, if_neg heq, prevSet_insert, if_neg heq]
    · rw [prevSet_insert, if_neg heq]

theorem NoEmptySet.insert {byPrev : ByPrev} (hbyPrev : NoEmptySet byPrev) (prevHash : UInt256) (s : Finset UInt256)
    (hs : s ≠ ∅) : NoEmptySet (byPrev.insert prevHash s) := by
  intro prevHash' s' hfound
  by_cases heq : prevHash' = prevHash
  · subst heq
    rw [AList.lookup_insert, Option.some.injEq] at hfound
    rwa [← hfound]
  · rw [AList.lookup_insert_ne heq] at hfound
    exact hbyPrev prevHash' s' hfound

theorem NoEmptySet.insertPrev {byPrev : ByPrev} (hbyPrev : NoEmptySet byPrev) (txin : CTxIn) :
    NoEmptySet (insertPrev h byPrev txin) :=
  hbyPrev.insert _ _ (Finset.insert_ne_empty _ _)

theorem NoEmptySet.erasePrev {byPrev : ByPrev} (hbyPrev : NoEmptySet byPrev) (txin : CTxIn) :
    NoEmptySet (erasePrev h byPrev txin) := by
  rw [AliasWallet.erasePrev]
  split
  · intro prevHash s hfound
    by_cases heq : prevHash = txin.prevout.hash
    · rw [heq, AList.lookup_erase] at hfound
      exact absurd hfound (Option.some_ne_none s).symm
    · rw [AList.lookup_erase_ne heq, AList.lookup_insert_ne heq] at hfound
      exact hbyPrev prevHash s hfound
  · next hkept =>
    rw [prevSet_insert, if_pos rfl] at hkept
    exact hbyPrev.insert _ _ hkept

/-- Repeated parents make no difference: the hash is in the set of each parent. -/
theorem foldl_insertPrev (vin : List CTxIn) (byPrev : ByPrev) (hbyPrev : NoEmptySet byPrev) :
    NoEmptySet (vin.foldl (insertPrev h) byPrev) ∧
      ∀ prevHash k, k ∈ prevSet (vin.foldl (insertPrev h) byPrev) prevHash ↔
        k ∈ prevSet byPrev prevHash ∨ k = h ∧ ∃ txin ∈ vin, txin.prevout.hash = prevHash := by
  induction vin generalizing byPrev with
  | nil => exact ⟨hbyPrev, fun prevHash k => by simp⟩
  | cons txin vin ih =>
    obtain ⟨hkept, hmem⟩ := ih (insertPrev h byPrev txin) (hbyPrev.insertPrev h txin)
    refine ⟨hkept, fun prevHash k => ?_⟩
    rw [List.foldl_cons, hmem, prevSet_insertPrev]
    by_cases heq : prevHash = txin.prevout.hash
    · rw [if_pos heq, Finset.mem_insert]
      have hthis : ∃ txin' ∈ txin :: vin, txin'.prevout.hash = prevHash := ⟨txin, List.mem_cons_self, heq.symm⟩
      constructor
      · rintro ((hk | hk) | ⟨hk, -⟩)
        · exact Or.inr ⟨hk, hthis⟩
        · exact Or.inl hk
        · exact Or.inr ⟨hk, hthis⟩
      · rintro (hk | ⟨hk, -⟩)
        · exact Or.inl (Or.inr hk)
        · exact Or.inl (Or.inl hk)
    · rw [if_neg heq]
      have hother : (∃ txin' ∈ txin :: vin, txin'.prevout.hash = prevHash) ↔
          ∃ txin' ∈ vin, txin'.prevout.hash = prevHash := by
        simp only [List.mem_cons, exists_eq_or_imp, Ne.symm heq, false_or]
      rw [hother]

theorem foldl_erasePrev (vin : List CTxIn) (byPrev : ByPrev) (hbyPrev : NoEmptySet byPrev) :
    NoEmptySet (vin.foldl (erasePrev h) byPrev) ∧
      ∀ prevHash k, k ∈ prevSet (vin.foldl (erasePrev h) byPrev) prevHash ↔
        k ∈ prevSet byPrev prevHash ∧ ¬ (k = h ∧ ∃ txin ∈ vin, txin.prevout.hash = prevHash) := by
  induction vin generalizing byPrev with
  | nil => exact ⟨hbyPrev, fun prevHash k => by simp⟩
  | cons txin vin ih =>
    obtain ⟨hkept, hmem⟩ := ih (erasePrev h byPrev txin) (hbyPrev.erasePrev h txin)
    refine ⟨hkept, fun prevHash k => ?_⟩
    rw [List.foldl_cons, hmem, prevSet_erasePrev]
    by_cases heq : prevHash = txin.prevout.hash
    · rw [if_pos heq, Finset.mem_erase]
      have hthis : ∃ txin' ∈ txin :: vin, txin'.prevout.hash = prevHash := ⟨txin, List.mem_cons_self, heq.symm⟩
      constructor
      · rintro ⟨⟨hne, hk⟩, -⟩
        exact ⟨hk, fun h => hne h.1⟩
      · rintro ⟨hk, hnot⟩
        have hne : k ≠ h := fun heq => hnot ⟨heq, hthis⟩
        exact ⟨⟨hne, hk⟩, fun h => hne h.1⟩
    · rw [if_neg heq]
      have hother : (∃ txin' ∈ txin :: vin, txin'.prevout.hash = prevHash) ↔
          ∃ txin' ∈ vin, txin'.prevout.hash = prevHash := by
        simp only [List.mem_cons, exists_eq_or_imp, Ne.symm heq, false_or]
      rw [hother]

end Sets

section Runs

variable (hash : HashFn)

/-- A hash waits for exactly the parents of its transaction. -/
structure OrphansLinked (m : OrphanMaps) : Prop where
  linked : ∀ prevHash h, h ∈ prevSet m.mapOrphanTransactionsByPrev prevHash ↔
    ∃ tx, m.mapOrphanTransactions.lookup h = some tx ∧ ∃ txin ∈ tx.vin, txin.prevout.hash = prevHash
  noEmpty : NoEmptySet m.mapOrphanTransactionsByPrev

theorem OrphansLinked.addOrphanTx {m : OrphanMaps} (hm : OrphansLinked m) (tx : CTransaction) :
    OrphansLinked (addOrphanTx hash m tx).1 := by
  rw [AliasWallet.addOrphanTx]
  by_cases hknown : tx.getHash hash ∈ m.mapOrphanTransactions
  · rw [if_pos hknown]
    exact hm
  rw [if_neg hknown]
  split
  · exact hm
  · obtain ⟨hkept, hmem⟩ := foldl_insertPrev (tx.getHash hash) tx.vin m.mapOrphanTransactionsByPrev hm.noEmpty
    refine ⟨fun prevHash k => ?_, hkept⟩
    rw [hmem, hm.linked]
    by_cases heq : k = tx.getHash hash
    · subst heq
      rw [AList.lookup_insert, AList.lookup_eq_none.mpr hknown]
      simp
    · rw [AList.lookup_insert_ne heq]
      simp only [heq, false_and, or_false]

theorem OrphansLinked.eraseOrphanTx {m : OrphanMaps} (hm : OrphansLinked m) (h : UInt256) :
    OrphansLinked (eraseOrphanTx m h) := by
  rw [AliasWallet.eraseOrphanTx]
  cases hfound : m.mapOrphanTransactions.lookup h with
  | none => exact hm
  | some tx =>
    obtain ⟨hkept, hmem⟩ := foldl_erasePrev h tx.vin m.mapOrphanTransactionsByPrev hm.noEmpty
    refine ⟨fun prevHash k => ?_, hkept⟩
    rw [hmem, hm.linked]
    by_cases heq : k = h
    · subst heq
      rw [AList.lookup_erase, hfound]
      simp
    · rw [AList.lookup_erase_ne heq]
      simp only [heq, false_and, not_false_eq_true, and_true]

theorem evictedHash_mem {m : OrphanMaps} (randomhash : UInt256) (hne : 0 < m.mapOrphanTransactions.keys.length) :
    ∃ h, evictedHash m randomhash = some h ∧ h ∈ m.mapOrphanTransactions := by
  rw [evictedHash]
  cases hlower : (m.mapOrphanTransactions.keys.filter fun h => randomhash.toNat ≤ h.toNat).argmin BitVec.toNat with
  | some h => exact ⟨h, rfl, AList.mem_keys.mpr (List.mem_of_mem_filter (List.argmin_mem hlower))⟩
  | none =>
    cases hbegin : m.mapOrphanTransactions.keys.argmin BitVec.toNat with
    | some h => exact ⟨h, rfl, AList.mem_keys.mpr (List.argmin_mem hbegin)⟩
    | none =>
      rw [List.argmin_eq_none.mp hbegin, List.length_nil] at hne
      exact absurd hne (Nat.lt_irrefl 0)

theorem eraseOrphanTx_length {m : OrphanMaps} {h : UInt256} (hmem : h ∈ m.mapOrphanTransactions) :
    (eraseOrphanTx m h).mapOrphanTransactions.keys.length = m.mapOrphanTransactions.keys.length - 1 := by
  obtain ⟨tx, hfound⟩ := Option.isSome_iff_exists.mp (AList.lookup_isSome.mpr hmem)
  rw [eraseOrphanTx, hfound]
  dsimp only
  rw [AList.keys_erase, List.length_erase_of_mem (AList.mem_keys.mp hmem)]

/-- The evictions end, and no more orphans are left than asked for. -/
theorem limitOrphanTxSize_ends (nMaxOrphans : UInt32) (rounds : Nat) (randHash : Nat → UInt256) (nEvicted : UInt32)
    (m : OrphanMaps) (hm : OrphansLinked m) (hrounds : m.mapOrphanTransactions.keys.length < rounds) :
    ∃ m' nEvicted', limitOrphanTxSize nMaxOrphans rounds randHash nEvicted m = some (m', nEvicted') ∧
      OrphansLinked m' ∧ m'.mapOrphanTransactions.keys.length ≤ nMaxOrphans.toNat := by
  induction rounds generalizing randHash nEvicted m with
  | zero => exact absurd hrounds (Nat.not_lt_zero _)
  | succ rounds ih =>
    rw [limitOrphanTxSize]
    by_cases hmore : m.mapOrphanTransactions.keys.length > nMaxOrphans.toNat
    · obtain ⟨h, hevicted, hmem⟩ := evictedHash_mem (m := m) (randHash 0) (by omega)
      rw [if_pos hmore, hevicted, Option.bind_eq_bind, Option.bind_some]
      exact ih _ _ _ (hm.eraseOrphanTx h) (by rw [eraseOrphanTx_length hmem]; omega)
    · rw [if_neg hmore]
      exact ⟨m, nEvicted, rfl, hm, by omega⟩

inductive OrphanCall
  | add (tx : CTransaction)
  | erase (h : UInt256)
  | limit (nMaxOrphans : UInt32) (randHash : Nat → UInt256)

def orphanStep (m : OrphanMaps) : OrphanCall → Option OrphanMaps
  | .add tx => some (addOrphanTx hash m tx).1
  | .erase h => some (eraseOrphanTx m h)
  | .limit nMaxOrphans randHash =>
    (limitOrphanTxSize nMaxOrphans (m.mapOrphanTransactions.keys.length + 1) randHash 0 m).map Prod.fst

theorem OrphansLinked.step {m : OrphanMaps} (hm : OrphansLinked m) (call : OrphanCall) :
    ∃ m', orphanStep hash m call = some m' ∧ OrphansLinked m' := by
  cases call with
  | add tx => exact ⟨_, rfl, hm.addOrphanTx hash tx⟩
  | erase h => exact ⟨_, rfl, hm.eraseOrphanTx h⟩
  | limit nMaxOrphans randHash =>
    obtain ⟨m', nEvicted, hrun, hm', -⟩ :=
      limitOrphanTxSize_ends nMaxOrphans _ randHash 0 m hm (Nat.lt_succ_self _)
    exact ⟨m', by rw [orphanStep, hrun]; rfl, hm'⟩

theorem OrphansLinked.run {m : OrphanMaps} (hm : OrphansLinked m) (calls : List OrphanCall) :
    ∃ m', calls.foldlM (orphanStep hash) m = some m' ∧ OrphansLinked m' := by
  induction calls generalizing m with
  | nil => exact ⟨m, rfl, hm⟩
  | cons call calls ih =>
    obtain ⟨m₁, hstep, hm₁⟩ := hm.step hash call
    obtain ⟨m', hrun, hm'⟩ := ih hm₁
    exact ⟨m', by rw [List.foldlM_cons, hstep, Option.bind_eq_bind, Option.bind_some, hrun], hm'⟩

theorem orphansLinked_empty : OrphansLinked ⟨∅, ∅⟩ where
  linked := by simp [prevSet]
  noEmpty := by simp [NoEmptySet]

/-- After any calls the two maps describe the same transactions, and a limit is kept. -/
theorem orphanRun_consistent (calls : List OrphanCall) :
    ∃ m, calls.foldlM (orphanStep hash) ⟨∅, ∅⟩ = some m ∧
      (∀ prevHash h, (∃ s, m.mapOrphanTransactionsByPrev.lookup prevHash = some s ∧ h ∈ s) ↔
        ∃ tx, m.mapOrphanTransactions.lookup h = some tx ∧ ∃ txin ∈ tx.vin, txin.prevout.hash = prevHash) ∧
      (∀ prevHash s, m.mapOrphanTransactionsByPrev.lookup prevHash = some s → s ≠ ∅) ∧
      ∀ (nMaxOrphans : UInt32) (randHash : Nat → UInt256) (rounds : Nat),
        m.mapOrphanTransactions.keys.length < rounds →
        ∃ m' nEvicted, limitOrphanTxSize nMaxOrphans rounds randHash 0 m = some (m', nEvicted) ∧
          m'.mapOrphanTransactions.keys.length ≤ nMaxOrphans.toNat := by
  obtain ⟨m, hrun, hm⟩ := orphansLinked_empty.run hash calls
  refine ⟨m, hrun, fun prevHash h => ?_, hm.noEmpty, fun nMaxOrphans randHash rounds hrounds => ?_⟩
  · rw [← hm.linked, prevSet]
    cases m.mapOrphanTransactionsByPrev.lookup prevHash with
    | none => simp
    | some s => simp
  · obtain ⟨m', nEvicted, hlimit, -, hsize⟩ := limitOrphanTxSize_ends nMaxOrphans rounds randHash 0 m hm hrounds
    exact ⟨m', nEvicted, hlimit, hsize⟩

end Runs

end AliasWallet
