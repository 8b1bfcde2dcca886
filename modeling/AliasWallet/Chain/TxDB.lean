import AliasWallet.Chain.State

/-!
# The transaction database

`CTxDB` of `txdb-leveldb.h`: reads and writes at the disk, or through the batch of an open database
transaction. Keys and values are the serialised streams.
-/

namespace AliasWallet

open Lib

/-- What `leveldb::DB::Get` answers. -/
inductive GetStatus where
  | ok (value : Bytes)
  | notFound
  | failure
  deriving DecidableEq, Repr

/-- The contents of a `leveldb::DB`. -/
abbrev LevelDB := Bytes → GetStatus

/-- A record of a `leveldb::WriteBatch`. -/
inductive BatchEntry where
  | put (key value : Bytes)
  | delete (key : Bytes)
  deriving DecidableEq, Repr

/-- `leveldb::DB::Put` and `Delete`. -/
def LevelDB.record (pdb : LevelDB) : BatchEntry → LevelDB
  | .put key value => Function.update pdb key (.ok value)
  | .delete key => Function.update pdb key .notFound

/-- `leveldb::DB::Write`: the records of the batch, in the order in which they were added. -/
def LevelDB.write (pdb : LevelDB) (batch : List BatchEntry) : LevelDB := batch.foldl LevelDB.record pdb

structure CTxDB where
  pdb : LevelDB
  activeBatch : Option (List BatchEntry)
  fReadOnly : Bool

/-- What the handler of the batch has seen. -/
structure CBatchScanner where
  needle : Bytes
  deleted : Bool
  foundValue : Bytes
  foundEntry : Bool

def CBatchScanner.handle (s : CBatchScanner) : BatchEntry → CBatchScanner
  | .put key value =>
    if key = s.needle then { s with foundEntry := true, deleted := false, foundValue := value } else s
  | .delete key => if key = s.needle then { s with foundEntry := true, deleted := true } else s

/-- `ScanBatch`: the scanner after `Iterate`, with an empty string behind `value`. -/
def scanBatch (batch : List BatchEntry) (key : Bytes) : CBatchScanner :=
  batch.foldl CBatchScanner.handle ⟨key, false, [], false⟩

namespace CTxDB

variable {T : Type}

/-- The value at a key of the disk, as far as `Get` is fine. -/
def readDisk (unserialize : Bytes → Option T) (db : CTxDB) (key : Bytes) : Option T :=
  match db.pdb key with
  | .ok value => unserialize value
  | .notFound => none
  | .failure => none

/-- `Read`: nothing where it returns false. -/
def read (unserialize : Bytes → Option T) (db : CTxDB) (key : Bytes) : Option T :=
  match db.activeBatch with
  | some batch =>
    let scan := scanBatch batch key
    if scan.deleted then none
    else if scan.foundEntry then unserialize scan.foundValue
    else db.readDisk unserialize key
  | none => db.readDisk unserialize key

/-- `Exists`. -/
def existsKey (db : CTxDB) (key : Bytes) : Bool :=
  let inBatch := match db.activeBatch with
    | some batch => (scanBatch batch key).foundEntry && !(scanBatch batch key).deleted
    | none => false
  inBatch || db.pdb key ≠ .notFound

/-- What `Write` and `Erase` share: nothing where the assertion fails, and the result otherwise. The
status of leveldb is read only outside of a database transaction. -/
def change (status : Bool) (db : CTxDB) (entry : BatchEntry) : Option (Bool × CTxDB) :=
  if db.fReadOnly then none
  else match db.activeBatch with
    | some batch => some (true, { db with activeBatch := some (batch ++ [entry]) })
    | none => some (status, if status then { db with pdb := db.pdb.record entry } else db)

def write (status : Bool) (db : CTxDB) (key value : Bytes) : Option (Bool × CTxDB) :=
  db.change status (.put key value)

def erase (status : Bool) (db : CTxDB) (key : Bytes) : Option (Bool × CTxDB) :=
  db.change status (.delete key)

def txnBegin (db : CTxDB) : Option CTxDB :=
  if db.activeBatch.isSome then none else some { db with activeBatch := some [] }

def txnCommit (status : Bool) (db : CTxDB) : Option (Bool × CTxDB) :=
  match db.activeBatch with
  | some batch =>
    some (status, { db with pdb := if status then db.pdb.write batch else db.pdb, activeBatch := none })
  | none => none

/-- One call of `Write` or `Erase`, with leveldb fine. -/
def call (db : CTxDB) : BatchEntry → Option CTxDB
  | .put key value => (db.write true key value).map Prod.snd
  | .delete key => (db.erase true key).map Prod.snd

def calls (db : CTxDB) (entries : List BatchEntry) : Option CTxDB := entries.foldlM call db

theorem call_eq (db : CTxDB) (entry : BatchEntry) :
    db.call entry = (db.change true entry).map Prod.snd := by
  cases entry <;> rfl

/-- In a database transaction the calls pile up in the batch. -/
theorem calls_batch (db : CTxDB) (hw : db.fReadOnly = false) (batch entries : List BatchEntry) :
    calls { db with activeBatch := some batch } entries =
      some { db with activeBatch := some (batch ++ entries) } := by
  induction entries generalizing batch with
  | nil => simp [calls]
  | cons entry entries ih =>
    have htail := ih (batch ++ [entry])
    simp only [calls] at htail ⊢
    rw [List.foldlM_cons, call_eq]
    simpa [change, hw] using htail

/-- Without one they go to the disk. -/
theorem calls_direct (db : CTxDB) (hw : db.fReadOnly = false) (hb : db.activeBatch = none)
    (entries : List BatchEntry) :
    calls db entries = some { db with pdb := db.pdb.write entries } := by
  induction entries generalizing db with
  | nil => simp [calls, LevelDB.write]
  | cons entry entries ih =>
    have htail := ih { db with pdb := db.pdb.record entry } hw hb
    simp only [calls] at htail ⊢
    rw [List.foldlM_cons, call_eq]
    simpa [change, hw, hb, LevelDB.write] using htail

end CTxDB

/-- The batch as pending changes: the last word on each key. -/
def pendingPatch (batch : List BatchEntry) : Patch Bytes Bytes :=
  batch.foldl (fun p entry => match entry with
    | .put key value => p.write key value
    | .delete key => p.erase key) Patch.empty

@[simp] theorem pendingPatch_nil (key : Bytes) : pendingPatch [] key = none := rfl

@[simp] theorem pendingPatch_put (batch : List BatchEntry) (k v key : Bytes) :
    pendingPatch (batch ++ [.put k v]) key = if key = k then some (some v) else pendingPatch batch key := by
  simp [pendingPatch, Patch.write, Function.update_apply]

@[simp] theorem pendingPatch_delete (batch : List BatchEntry) (k key : Bytes) :
    pendingPatch (batch ++ [.delete k]) key = if key = k then some none else pendingPatch batch key := by
  simp [pendingPatch, Patch.erase, Function.update_apply]

/-- A key is erased in the pending changes only by an erasure in the batch. -/
theorem delete_mem_of_pendingPatch (batch : List BatchEntry) (key : Bytes)
    (h : pendingPatch batch key = some none) : .delete key ∈ batch := by
  induction batch using List.reverseRecOn with
  | nil => simp at h
  | append_singleton batch entry ih =>
    cases entry with
    | put k v =>
      by_cases hk : key = k
      · simp [hk] at h
      · simp only [pendingPatch_put, hk, if_false] at h
        simp [ih h]
    | delete k =>
      by_cases hk : key = k
      · simp [hk]
      · simp only [pendingPatch_delete, hk, if_false] at h
        simp [ih h]

/-- What the scanner reports of its needle. -/
def CBatchScanner.report (s : CBatchScanner) : Option (Option Bytes) :=
  if s.foundEntry then some (if s.deleted then none else some s.foundValue) else none

theorem scanBatch_append (batch : List BatchEntry) (entry : BatchEntry) (key : Bytes) :
    scanBatch (batch ++ [entry]) key = (scanBatch batch key).handle entry := by
  simp [scanBatch]

theorem scanBatch_needle (batch : List BatchEntry) (key : Bytes) : (scanBatch batch key).needle = key := by
  induction batch using List.reverseRecOn with
  | nil => rfl
  | append_singleton batch entry ih =>
    rw [scanBatch_append]
    cases entry <;> simp only [CBatchScanner.handle] <;> split <;> exact ih

/-- A key that is reported deleted has been found. -/
theorem scanBatch_deleted (batch : List BatchEntry) (key : Bytes)
    (h : (scanBatch batch key).deleted = true) : (scanBatch batch key).foundEntry = true := by
  induction batch using List.reverseRecOn with
  | nil => cases h
  | append_singleton batch entry ih =>
    rw [scanBatch_append] at h ⊢
    cases entry <;> simp only [CBatchScanner.handle] at h ⊢ <;> split at h <;> simp_all

/-- The scan finds the last word on the key. -/
theorem scanBatch_report (batch : List BatchEntry) (key : Bytes) :
    (scanBatch batch key).report = pendingPatch batch key := by
  induction batch using List.reverseRecOn with
  | nil => rfl
  | append_singleton batch entry ih =>
    have hneedle := scanBatch_needle batch key
    rw [scanBatch_append]
    cases entry with
    | put k v =>
      by_cases hk : k = key
      · simp [CBatchScanner.handle, CBatchScanner.report, hneedle, hk]
      · simp [CBatchScanner.handle, hneedle, hk, ih, Ne.symm hk]
    | delete k =>
      by_cases hk : k = key
      · simp [CBatchScanner.handle, CBatchScanner.report, hneedle, hk]
      · simp [CBatchScanner.handle, hneedle, hk, ih, Ne.symm hk]

/-- What a key holds below pending changes. -/
def GetStatus.under (below : GetStatus) : Option (Option Bytes) → GetStatus
  | some (some value) => .ok value
  | some none => .notFound
  | none => below

/-- Writing the batch leaves the last word on each key. -/
theorem write_eq_under (pdb : LevelDB) (batch : List BatchEntry) (key : Bytes) :
    pdb.write batch key = (pdb key).under (pendingPatch batch key) := by
  induction batch using List.reverseRecOn with
  | nil => rfl
  | append_singleton batch entry ih =>
    have hlast : pdb.write (batch ++ [entry]) = (pdb.write batch).record entry := by
      simp [LevelDB.write]
    rw [hlast]
    cases entry with
    | put k v =>
      by_cases hk : key = k
      · simp [LevelDB.record, hk, GetStatus.under]
      · simp [LevelDB.record, hk, ih]
    | delete k =>
      by_cases hk : key = k
      · simp [LevelDB.record, hk, GetStatus.under]
      · simp [LevelDB.record, hk, ih]

namespace CTxDB

/-- What the scan of the batch tells of a key, case by case. -/
theorem scan_cases (batch : List BatchEntry) (key : Bytes) :
    (pendingPatch batch key = none ∧ (scanBatch batch key).foundEntry = false ∧
        (scanBatch batch key).deleted = false) ∨
      (pendingPatch batch key = some none ∧ (scanBatch batch key).foundEntry = true ∧
        (scanBatch batch key).deleted = true) ∨
      (pendingPatch batch key = some (some (scanBatch batch key).foundValue) ∧
        (scanBatch batch key).foundEntry = true ∧ (scanBatch batch key).deleted = false) := by
  have hdeleted := scanBatch_deleted batch key
  rw [← scanBatch_report batch key]
  cases hfound : (scanBatch batch key).foundEntry <;> cases hdel : (scanBatch batch key).deleted <;>
    simp_all [CBatchScanner.report]

/-- `Read` through the batch is `Read` of the disk with the batch written. -/
theorem read_batch {T : Type} (unserialize : Bytes → Option T) (db : CTxDB) (hb : db.activeBatch = none)
    (batch : List BatchEntry) (key : Bytes) :
    read unserialize { db with activeBatch := some batch } key =
      read unserialize { db with pdb := db.pdb.write batch } key := by
  have hwrite := write_eq_under db.pdb batch key
  obtain ⟨hp, hfound, hdel⟩ | ⟨hp, hfound, hdel⟩ | ⟨hp, hfound, hdel⟩ := scan_cases batch key <;>
    simp [read, readDisk, hb, hwrite, hp, hfound, hdel, GetStatus.under]

/-- `Exists` through the batch is right but for a key that the batch erases from the disk. -/
theorem exists_batch_iff (db : CTxDB) (hb : db.activeBatch = none) (batch : List BatchEntry) (key : Bytes) :
    existsKey { db with activeBatch := some batch } key =
        existsKey { db with pdb := db.pdb.write batch } key ↔
      (pendingPatch batch key = some none → db.pdb key = .notFound) := by
  have hwrite := write_eq_under db.pdb batch key
  obtain ⟨hp, hfound, hdel⟩ | ⟨hp, hfound, hdel⟩ | ⟨hp, hfound, hdel⟩ := scan_cases batch key <;>
    simp [existsKey, hb, hwrite, hp, hfound, hdel, GetStatus.under]

/-- Both handles answer every read alike. -/
def SameReads (db db' : CTxDB) : Prop :=
  (∀ key, db.existsKey key = db'.existsKey key) ∧
    ∀ (T : Type) (unserialize : Bytes → Option T) key, db.read unserialize key = db'.read unserialize key

/-- A database transaction with these calls reads, at every point, as if the calls were made without
it, and its commit leaves what they leave. -/
structure Transparent (db : CTxDB) (entries : List BatchEntry) : Prop where
  reads : ∀ pre post, entries = pre ++ post → ∃ pending direct,
    db.txnBegin.bind (calls · pre) = some pending ∧ db.calls pre = some direct ∧ SameReads pending direct
  commits : ∃ pending direct committed, db.txnBegin.bind (calls · entries) = some pending ∧
    db.calls entries = some direct ∧ pending.txnCommit true = some (true, committed) ∧ committed = direct

theorem txnBegin_calls (db : CTxDB) (hw : db.fReadOnly = false) (hb : db.activeBatch = none)
    (entries : List BatchEntry) :
    db.txnBegin.bind (calls · entries) = some { db with activeBatch := some entries } := by
  have hcalls := calls_batch db hw [] entries
  simpa [txnBegin, hb] using hcalls

/-- A database transaction is transparent if and only if none of its erasures is of a key that the disk
holds. -/
theorem transparent_iff (db : CTxDB) (hw : db.fReadOnly = false) (hb : db.activeBatch = none)
    (entries : List BatchEntry) :
    db.Transparent entries ↔ ∀ key, .delete key ∈ entries → db.pdb key = .notFound := by
  constructor
  · intro h key hkey
    obtain ⟨pre, post, rfl⟩ := List.append_of_mem hkey
    -- right after the erasure the batch has it as its last word
    obtain ⟨pending, direct, hpending, hdirect, hsame⟩ :=
      h.reads (pre ++ [.delete key]) post (by simp)
    rw [txnBegin_calls db hw hb, Option.some.injEq] at hpending
    rw [calls_direct db hw hb, Option.some.injEq] at hdirect
    subst hpending hdirect
    exact (exists_batch_iff db hb _ key).mp (hsame.1 key) (by simp)
  · intro h
    constructor
    · intro pre post hentries
      refine ⟨_, _, txnBegin_calls db hw hb pre, calls_direct db hw hb pre, ?_, ?_⟩
      · intro key
        apply (exists_batch_iff db hb pre key).mpr
        intro herased
        apply h key
        rw [hentries]
        exact List.mem_append_left post (delete_mem_of_pendingPatch pre key herased)
      · intro T unserialize key
        exact read_batch unserialize db hb pre key
    · refine ⟨_, _, _, txnBegin_calls db hw hb entries, calls_direct db hw hb entries, rfl, ?_⟩
      simp [hb]

/-- A disk with one record. -/
def oneRecord : CTxDB := ⟨fun key => if key = [1] then .ok [7] else .notFound, none, false⟩

/-- A record written, overwritten and erased again in one transaction. -/
theorem rewritten_transparent :
    oneRecord.Transparent [.put [2] [3], .put [1] [8], .delete [2], .put [2] [4]] :=
  (transparent_iff oneRecord rfl rfl _).mpr (by simp [oneRecord])

/-- The record of the disk erased: `Read` no longer finds it, `Exists` still does. -/
theorem erased_still_exists : ¬ oneRecord.Transparent [.delete [1]] := by
  intro h
  obtain ⟨pending, direct, hpending, hdirect, hexists, -⟩ := h.reads [.delete [1]] [] rfl
  rw [txnBegin_calls oneRecord rfl rfl, Option.some.injEq] at hpending
  rw [calls_direct oneRecord rfl rfl, Option.some.injEq] at hdirect
  subst hpending hdirect
  have hone := hexists [1]
  revert hone
  decide

end CTxDB

end AliasWallet
