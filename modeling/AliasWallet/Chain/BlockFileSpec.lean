import AliasWallet.Chain.BlockFile

/-!
# Which blocks an import passes on

A file of records is read record by record, whatever `ProcessBlock` answers, as long as the scan of what was not skipped
does not come upon start bytes with a plausible size behind them.
-/

namespace AliasWallet
open Lib

section Blocks

theorem length_le_flatMap {α : Type} {write : α → Bytes} (h : ∀ a, 0 < (write a).length) (l : List α) :
    l.length ≤ (l.flatMap write).length := by
  induction l with
  | nil => exact Nat.le_refl 0
  | cons a l ih =>
    have ha := h a
    rw [List.length_cons, List.flatMap_cons, List.length_append]
    omega

theorem length_le_of_mem {α : Type} {write : α → Bytes} {l : List α} {a : α} (ha : a ∈ l) :
    (write a).length ≤ (l.flatMap write).length := by
  induction l with
  | nil => exact absurd ha List.not_mem_nil
  | cons b l ih =>
    rw [List.flatMap_cons, List.length_append]
    cases List.mem_cons.mp ha with
    | inl heq =>
      rw [heq]
      omega
    | inr hmem =>
      have hle := ih hmem
      omega

theorem CTxIn.bytes_length (txin : CTxIn) : txin.scriptSig.length + 40 ≤ txin.bytes.length := by
  simp only [CTxIn.bytes, COutPoint.bytes, scriptBytes, List.length_append, uint256Bytes, uint32Bytes, leBytes_length]
  omega

theorem CTxIn.bytes_pos (txin : CTxIn) : 0 < txin.bytes.length := by
  have hle := txin.bytes_length
  omega

theorem CTxOut.bytes_length (txout : CTxOut) : txout.scriptPubKey.length + 8 ≤ txout.bytes.length := by
  simp only [CTxOut.bytes, scriptBytes, List.length_append, int64Bytes, leBytes_length]
  omega

theorem CTxOut.bytes_pos (txout : CTxOut) : 0 < txout.bytes.length := by
  have hle := txout.bytes_length
  omega

/-- A transaction that is not too long can be read back. -/
theorem CTransaction.inRange_of_length {tx : CTransaction} (h : tx.bytes.length ≤ MAX_SIZE) : tx.InRange := by
  simp only [CTransaction.bytes, List.length_append] at h
  have hvin := length_le_flatMap CTxIn.bytes_pos tx.vin
  have hvout := length_le_flatMap CTxOut.bytes_pos tx.vout
  refine ⟨by omega, fun txin hmem => ?_, by omega, fun txout hmem => ?_⟩
  · have hle : txin.bytes.length ≤ (tx.vin.flatMap CTxIn.bytes).length := length_le_of_mem hmem
    have hscript := txin.bytes_length
    rw [CTxIn.InRange]
    omega
  · have hle : txout.bytes.length ≤ (tx.vout.flatMap CTxOut.bytes).length := length_le_of_mem hmem
    have hscript := txout.bytes_length
    rw [CTxOut.InRange]
    omega

theorem CTransaction.bytes_pos (tx : CTransaction) : 0 < tx.bytes.length := by
  simp only [CTransaction.bytes, List.length_append, int32Bytes, leBytes_length]
  omega

/-- The vectors, their scripts and the signature can be read back. -/
structure CBlock.InRange (b : CBlock) : Prop where
  vtx_le : b.vtx.length ≤ MAX_SIZE
  vtx : ∀ tx ∈ b.vtx, tx.InRange
  vchBlockSig : b.vchBlockSig.length ≤ MAX_SIZE

theorem CBlock.bytes_length (b : CBlock) : 80 + (b.vtx.flatMap CTransaction.bytes).length + b.vchBlockSig.length ≤
    b.bytes.length := by
  simp only [CBlock.bytes, CBlock.headerBytes, List.length_append, int32Bytes, uint32Bytes, uint256Bytes,
    leBytes_length]
  omega

/-- A block that is not too long can be read back. -/
theorem CBlock.inRange_of_length {b : CBlock} (h : b.bytes.length ≤ MAX_SIZE) : b.InRange := by
  have hlen := b.bytes_length
  have hvtx := length_le_flatMap CTransaction.bytes_pos b.vtx
  refine ⟨by omega, fun tx hmem => ?_, by omega⟩
  have hle : tx.bytes.length ≤ (b.vtx.flatMap CTransaction.bytes).length := length_le_of_mem hmem
  exact CTransaction.inRange_of_length (by omega)

theorem CBlock.unserialize_exact {sizeofTx sizeofTxIn sizeofTxOut : Nat} (htx : 0 < sizeofTx)
    (htx_le : sizeofTx ≤ 5000000) (hin : 0 < sizeofTxIn) (hin_le : sizeofTxIn ≤ 5000000) (hout : 0 < sizeofTxOut)
    (hout_le : sizeofTxOut ≤ 5000000) :
    Exact (CBlock.unserialize sizeofTx sizeofTxIn sizeofTxOut) CBlock.bytes CBlock.InRange := by
  have htxs := readItems_exact (CTransaction.unserialize_exact hin hin_le hout hout_le) htx htx_le
  have h := (((((((readInt32_exact.pair readUInt256_exact).pair readUInt256_exact).pair readUInt32_exact).pair
    readUInt32_exact).pair readUInt32_exact).pair htxs).pair readScript_exact).map
    (fun p => CBlock.mk p.1.1.1.1.1.1.1 p.1.1.1.1.1.1.2 p.1.1.1.1.1.2 p.1.1.1.1.2 p.1.1.1.2 p.1.1.2 p.1.2 p.2)
    (fun b => (((((((b.nVersion, b.hashPrevBlock), b.hashMerkleRoot), b.nTime), b.nBits), b.nNonce), b.vtx),
      b.vchBlockSig)) (fun _ => rfl) (fun _ _ => rfl)
  simp only [bind_assoc, pure_bind] at h
  refine h.congr (fun b => ?_) (fun b _ => ?_)
  · constructor
    · intro hb
      exact ⟨⟨⟨⟨⟨⟨⟨trivial, trivial⟩, trivial⟩, trivial⟩, trivial⟩, trivial⟩, hb.vtx_le, hb.vtx⟩, hb.vchBlockSig⟩
    · intro hb
      exact ⟨hb.1.2.1, hb.1.2.2, hb.2⟩
  · simp [CBlock.bytes, CBlock.headerBytes, scriptBytes]

end Blocks

section Scan

variable {start file : Bytes} {nPos p : Nat}

/-- The start bytes are in the file at a position. -/
def OccursAt (start file : Bytes) (p : Nat) : Prop := start <+: file.drop p

theorem OccursAt.le_length (h : OccursAt start file p) (hstart : start.length = MESSAGE_START_SIZE) :
    p + MESSAGE_START_SIZE ≤ file.length := by
  have hle := h.length_le
  rw [List.length_drop, hstart] at hle
  have hsize : MESSAGE_START_SIZE = 4 := rfl
  omega

theorem OccursAt.head (h : OccursAt start file p) (hstart : start.length = MESSAGE_START_SIZE) :
    file[p]? = some (start.headD 0) := by
  obtain ⟨behind, hbehind⟩ := h
  have hget : (file.drop p)[0]? = file[p]? := by rw [List.getElem?_drop, Nat.add_zero]
  rw [← hget, ← hbehind]
  cases start with
  | nil => cases hstart
  | cons c start => rfl

theorem memchr_some {l : Bytes} {c : UInt8} {k : Nat} (h : memchr l c = some k) :
    k < l.length ∧ ∀ j < k, l[j]? ≠ some c := by
  obtain ⟨hlt, -, hbefore⟩ := List.findIdx?_eq_some_iff_getElem.mp h
  refine ⟨hlt, fun j hj heq => ?_⟩
  obtain ⟨hjlt, hget⟩ := List.getElem?_eq_some_iff.mp heq
  exact hbefore j hj (by rw [hget]; exact beq_self_eq_true c)

theorem memchr_none {l : Bytes} {c : UInt8} (h : memchr l c = none) (j : Nat) : l[j]? ≠ some c := by
  intro heq
  have hnone := List.findIdx?_eq_none_iff.mp h c (List.mem_of_getElem? heq)
  rw [beq_self_eq_true] at hnone
  cases hnone

/-- A byte of the window. -/
theorem window_getElem? {n m j : Nat} (hj : j < m) (hm : m ≤ n) :
    (((file.drop nPos).take n).take m)[j]? = file[nPos + j]? := by
  rw [List.take_take, Nat.min_eq_left hm, List.getElem?_take_of_lt hj, List.getElem?_drop]

theorem window_occursAt {nFind n : Nat} (hfind : nFind + MESSAGE_START_SIZE ≤ n)
    (hstart : start.length = MESSAGE_START_SIZE) :
    (((file.drop nPos).take n).drop nFind).take MESSAGE_START_SIZE = start ↔ OccursAt start file (nPos + nFind) := by
  rw [List.drop_take, List.take_take, Nat.min_eq_left (by omega), List.drop_drop, OccursAt, List.prefix_iff_eq_take,
    hstart, eq_comm]

/-- The scan from a position does not pass the end of the file by so much that the position wraps around. -/
def NoWrap (start file : Bytes) (nPos : Nat) : Prop :=
  file.length + 65533 ≤ 2 ^ 32 ∨ (∃ p, nPos ≤ p ∧ OccursAt start file p) ∨ file.length ≤ nPos + 8

/-- The scan ends behind the first start bytes, or finds none that is more than eight bytes before the end. -/
theorem findStart_spec (hstart : start.length = MESSAGE_START_SIZE) (hfile : file.length < 2 ^ 32)
    (hwrap : NoWrap start file nPos) (rounds : Nat) (hrounds : file.length - nPos < rounds) :
    (∃ p, nPos ≤ p ∧ OccursAt start file p ∧ (∀ q, nPos ≤ q → q < p → ¬ OccursAt start file q) ∧
      findStart start file rounds nPos = some (p + MESSAGE_START_SIZE)) ∨
    ((∀ p, nPos ≤ p → OccursAt start file p → file.length ≤ p + 8) ∧
      findStart start file rounds nPos = some 0xFFFFFFFF) := by
  have hsize : MESSAGE_START_SIZE = 4 := rfl
  induction rounds generalizing nPos with
  | zero => exact absurd hrounds (Nat.not_lt_zero _)
  | succ rounds ih =>
    -- a position from which the scan goes on, with no start before it
    have hgo : ∀ nPos', nPos < nPos' → nPos < file.length → (∀ q, nPos ≤ q → q < nPos' → ¬ OccursAt start file q) →
        findStart start file (rounds + 1) nPos = findStart start file rounds nPos' →
        (∃ p, nPos ≤ p ∧ OccursAt start file p ∧ (∀ q, nPos ≤ q → q < p → ¬ OccursAt start file q) ∧
          findStart start file (rounds + 1) nPos = some (p + MESSAGE_START_SIZE)) ∨
        ((∀ p, nPos ≤ p → OccursAt start file p → file.length ≤ p + 8) ∧
          findStart start file (rounds + 1) nPos = some 0xFFFFFFFF) := by
      intro nPos' hlt hin hbefore hrun
      have hwrap' : NoWrap start file nPos' := by
        apply hwrap.imp_right
        intro hnear
        cases hnear with
        | inl hoccurs =>
          obtain ⟨p, hp, hoccurs⟩ := hoccurs
          exact Or.inl ⟨p, Nat.le_of_not_lt fun hpn => hbefore p hp hpn hoccurs, hoccurs⟩
        | inr hend => exact Or.inr (by omega)
      rw [hrun]
      cases ih hwrap' (by omega) with
      | inl hfound =>
        obtain ⟨p, hp, hoccurs, hfirst, hresult⟩ := hfound
        refine Or.inl ⟨p, by omega, hoccurs, fun q hq hqp => ?_, hresult⟩
        by_cases hqn : q < nPos'
        · exact hbefore q hq hqn
        · exact hfirst q (by omega) hqp
      | inr hnone =>
        refine Or.inr ⟨fun p hp hoccurs => ?_, hnone.2⟩
        by_cases hpn : p < nPos'
        · exact absurd hoccurs (hbefore p hp hpn)
        · exact hnone.1 p (by omega) hoccurs
    have hread : ((file.drop nPos).take 65536).length = min 65536 (file.length - nPos) := by
      rw [List.length_take, List.length_drop]
    by_cases hfew : min 65536 (file.length - nPos) ≤ 8
    · refine Or.inr ⟨fun p hp hoccurs => by omega, ?_⟩
      rw [findStart, hread, if_pos hfew]
    cases hfind : memchr (((file.drop nPos).take 65536).take
        (min 65536 (file.length - nPos) + 1 - MESSAGE_START_SIZE)) (start.headD 0) with
    | none =>
      have hbefore : ∀ q, nPos ≤ q → q < nPos + 65533 → ¬ OccursAt start file q := by
        intro q hq hqn hoccurs
        have hend := hoccurs.le_length hstart
        have hmiss := memchr_none hfind (q - nPos)
        rw [window_getElem? (by omega) (by omega), Nat.add_sub_cancel' hq] at hmiss
        exact hmiss (hoccurs.head hstart)
      have hsmall : nPos + 65533 < 2 ^ 32 := by
        cases hwrap with
        | inl hroom => omega
        | inr hnear =>
          cases hnear with
          | inl hoccurs =>
            obtain ⟨p, hp, hoccurs⟩ := hoccurs
            have hpn := Nat.le_of_not_lt fun hpn => hbefore p hp hpn hoccurs
            have hend := hoccurs.le_length hstart
            omega
          | inr hend => omega
      apply hgo (nPos + 65533) (by omega) (by omega) hbefore
      rw [findStart, hread, if_neg hfew, hfind]
      dsimp only
      rw [hsize, Nat.mod_eq_of_lt (by omega)]
    | some nFind =>
      obtain ⟨hlt, hmiss⟩ := memchr_some hfind
      rw [List.length_take, hread] at hlt
      have hbefore : ∀ q, nPos ≤ q → q < nPos + nFind → ¬ OccursAt start file q := by
        intro q hq hqn hoccurs
        have hbyte := hmiss (q - nPos) (by omega)
        rw [window_getElem? (by omega) (by omega), Nat.add_sub_cancel' hq] at hbyte
        exact hbyte (hoccurs.head hstart)
      by_cases hoccurs : OccursAt start file (nPos + nFind)
      · refine Or.inl ⟨nPos + nFind, Nat.le_add_right _ _, hoccurs, hbefore, ?_⟩
        rw [findStart, hread, if_neg hfew, hfind]
        dsimp only
        rw [if_pos ((window_occursAt (by omega) hstart).mpr hoccurs), Nat.mod_eq_of_lt (by omega)]
      · apply hgo (nPos + nFind + 1) (by omega) (by omega)
        · intro q hq hqn
          by_cases hlast : q = nPos + nFind
          · rw [hlast]
            exact hoccurs
          · exact hbefore q hq (by omega)
        · rw [findStart, hread, if_neg hfew, hfind]
          dsimp only
          rw [if_neg fun heq => hoccurs ((window_occursAt (by omega) hstart).mp heq), Nat.mod_eq_of_lt (by omega)]

theorem OccursAt.getElem? (h : OccursAt start file p) {i : Nat} (hi : i < start.length) : file[p + i]? = start[i]? := by
  obtain ⟨behind, hbehind⟩ := h
  rw [← List.getElem?_drop, ← hbehind, List.getElem?_append_left hi]

theorem Network.messageStart_length (network : Network) : network.messageStart.length = MESSAGE_START_SIZE := by
  cases network <;> rfl

/-- Start bytes do not overlap. -/
theorem OccursAt.apart {network : Network} {q : Nat} (hp : OccursAt network.messageStart file p)
    (hq : OccursAt network.messageStart file q) (hlt : p < q) : p + MESSAGE_START_SIZE ≤ q := by
  by_contra hclose
  have hlen := network.messageStart_length
  have hbyte := hp.getElem? (i := q - p) (by omega)
  rw [Nat.add_sub_cancel' (Nat.le_of_lt hlt), hq.head hlen] at hbyte
  have hother : ∀ i < MESSAGE_START_SIZE, 0 < i →
      network.messageStart[i]? ≠ some (network.messageStart.headD 0) := by
    cases network <;> decide
  exact hother (q - p) (by omega) (by omega) hbyte.symm

end Scan

section Records

/-- A record of a block file. -/
def recordBytes (start : Bytes) (b : CBlock) : Bytes :=
  start ++ (uint32Bytes (UInt32.ofNat b.bytes.length) ++ b.bytes)

/-- A block file is a concatenation of records. -/
def blockFile (start : Bytes) (blocks : List CBlock) : Bytes := blocks.flatMap (recordBytes start)

/-- The block is not too long to be read. -/
def CBlock.fits (b : CBlock) : Bool := decide (b.bytes.length ≤ MAX_BLOCK_SIZE)

/-- The block of a record is read and accepted after others, and the record is skipped. -/
def ImportEnv.Skips (env : ImportEnv) (before : List CBlock) (b : CBlock) : Prop :=
  b.fits = true ∧ env.processBlock before b = true

/-- No start bytes within the size and the block of a record have a plausible size behind them. -/
def HarmlessRest (start : Bytes) (b : CBlock) (behind : Bytes) : Prop :=
  ∀ (u v : Bytes) (nSize : UInt32), u.length < 4 + b.bytes.length →
    uint32Bytes (UInt32.ofNat b.bytes.length) ++ (b.bytes ++ behind) = u ++ (start ++ (uint32Bytes nSize ++ v)) →
    nSize = 0 ∨ MAX_BLOCK_SIZE < nSize.toNat

/-- The sizes of the compiled structures. -/
structure ImportEnv.SizesOk (env : ImportEnv) : Prop where
  sizeofTx : 0 < env.sizeofTx ∧ env.sizeofTx ≤ 5000000
  sizeofTxIn : 0 < env.sizeofTxIn ∧ env.sizeofTxIn ≤ 5000000
  sizeofTxOut : 0 < env.sizeofTxOut ∧ env.sizeofTxOut ≤ 5000000

variable {env : ImportEnv} {start : Bytes} {b : CBlock} {s : ImportState} {p x : Nat}

theorem recordBytes_length (start : Bytes) (b : CBlock) :
    (recordBytes start b).length = start.length + (4 + b.bytes.length) := by
  rw [recordBytes, List.length_append, List.length_append, uint32Bytes, leBytes_length]

theorem blockFile_append (start : Bytes) (l l' : List CBlock) :
    blockFile start (l ++ l') = blockFile start l ++ blockFile start l' := List.flatMap_append

theorem blockFile_cons (start : Bytes) (b : CBlock) (l : List CBlock) :
    blockFile start (b :: l) = recordBytes start b ++ blockFile start l := List.flatMap_cons

@[simp] theorem ImportState.passed_call_processBlock (s : ImportState) (block : CBlock) :
    (s.call (.processBlock block)).passed = s.passed ++ [block] := by
  rw [passed, call, List.filterMap_append]
  rfl

@[simp] theorem ImportState.passed_call_progress (s : ImportState) (nLoaded : UInt32) :
    (s.call (.progress nLoaded)).passed = s.passed := by
  rw [passed, call, List.filterMap_append]
  exact List.append_nil _

@[simp] theorem ImportState.passed_call_addToBlockIndex (s : ImportState) (block : CBlock) (nFile : Int)
    (nBlockPos : Nat) (hashProof : UInt256) :
    (s.call (.addToBlockIndex block nFile nBlockPos hashProof)).passed = s.passed := by
  rw [passed, call, List.filterMap_append]
  exact List.append_nil _

/-- An accepted block is skipped and nothing else is passed. -/
theorem acceptRecord_spec (env : ImportEnv) (nFile : Int) (nSize : Nat) (b : CBlock) (s : ImportState) :
    (acceptRecord env nFile nSize b s).passed = s.passed ∧
      (acceptRecord env nFile nSize b s).nPos = (s.nPos + (4 + nSize)) % 2 ^ 32 := by
  have hindexed : ∀ s' : ImportState, s'.passed = s.passed → s'.nPos = s.nPos →
      (({ s' with nLoaded := s'.nLoaded + 1, nPos := (s'.nPos + (4 + nSize)) % 2 ^ 32 } : ImportState).call
        (.progress (s'.nLoaded + 1))).passed = s.passed ∧ (s'.nPos + (4 + nSize)) % 2 ^ 32 =
        (s.nPos + (4 + nSize)) % 2 ^ 32 := by
    intro s' hpassed hpos
    rw [ImportState.passed_call_progress, hpos]
    exact ⟨hpassed, rfl⟩
  rw [acceptRecord]
  split
  · split
    · exact hindexed _ (ImportState.passed_call_addToBlockIndex s _ _ _ _) rfl
    · exact hindexed s rfl rfl
  · exact hindexed s rfl rfl

/-- A block is passed on once. -/
theorem processRecord_spec (env : ImportEnv) (nFile : Int) (nSize : Nat) (b : CBlock) (s : ImportState) :
    (processRecord env nFile nSize b s).passed = s.passed ++ [b] ∧ (processRecord env nFile nSize b s).nPos =
      if env.processBlock s.passed b then (s.nPos + (4 + nSize)) % 2 ^ 32 else s.nPos := by
  have haccept := acceptRecord_spec env nFile nSize b (s.call (.processBlock b))
  rw [ImportState.passed_call_processBlock] at haccept
  rw [processRecord]
  split
  · exact haccept
  · exact ⟨s.passed_call_processBlock b, rfl⟩

/-- What reading the block of a record does: it is passed on unless it is too long, and skipped if it is accepted. -/
theorem readRecord_spec (henv : env.SizesOk) (nFile : Int) {file behind : Bytes} (hsize : b.bytes.length < 2 ^ 32)
    (hdrop : file.drop s.nPos = uint32Bytes (UInt32.ofNat b.bytes.length) ++ (b.bytes ++ behind)) :
    ∃ s', readRecord env nFile file s = some s' ∧ s'.passed = s.passed ++ [b].filter CBlock.fits ∧
      (env.Skips s.passed b ∧ s'.nPos = (s.nPos + (4 + b.bytes.length)) % 2 ^ 32 ∨
        ¬ env.Skips s.passed b ∧ s'.nPos = s.nPos) := by
  have hnat : (UInt32.ofNat b.bytes.length).toNat = b.bytes.length := UInt32.toNat_ofNat_of_lt' hsize
  rw [readRecord, hdrop, readUInt32_exact.read_write _ trivial, Option.bind_eq_bind, Option.bind_some]
  dsimp only
  rw [hnat]
  have hpos : 0 < b.bytes.length := by
    have hlen := b.bytes_length
    omega
  by_cases hfits : b.bytes.length ≤ MAX_BLOCK_SIZE
  · have hexact := CBlock.unserialize_exact henv.sizeofTx.1 henv.sizeofTx.2 henv.sizeofTxIn.1 henv.sizeofTxIn.2
      henv.sizeofTxOut.1 henv.sizeofTxOut.2
    have hrange : b.InRange := CBlock.inRange_of_length (hfits.trans (by decide))
    have hfitsTrue : b.fits = true := decide_eq_true hfits
    rw [if_pos ⟨hpos, hfits⟩, hexact.read_write b hrange behind]
    refine ⟨processRecord env nFile b.bytes.length b s, rfl, ?_, ?_⟩
    · rw [(processRecord_spec env nFile b.bytes.length b s).1]
      simp [hfitsTrue]
    · rw [(processRecord_spec env nFile b.bytes.length b s).2]
      by_cases haccepted : env.processBlock s.passed b = true
      · rw [if_pos haccepted]
        exact Or.inl ⟨⟨hfitsTrue, haccepted⟩, rfl⟩
      · rw [if_neg haccepted]
        exact Or.inr ⟨fun hskips => haccepted hskips.2, rfl⟩
  · have hfitsFalse : b.fits = false := decide_eq_false hfits
    rw [if_neg fun h => hfits h.2]
    refine ⟨s, rfl, ?_, Or.inr ⟨fun hskips => ?_, rfl⟩⟩
    · simp [hfitsFalse]
    · rw [hskips.1] at hfitsFalse
      cases hfitsFalse

theorem blockFile_snoc_length (start : Bytes) (l : List CBlock) (b : CBlock) :
    (blockFile start (l ++ [b])).length = (blockFile start l).length + (start.length + (4 + b.bytes.length)) := by
  rw [blockFile_append, List.length_append, blockFile_cons, List.length_append, recordBytes_length]
  rfl

/-- A place at which the scan may go on before the next record: no start bytes up to there are mistaken for a record. -/
def HarmlessUpTo (start file : Bytes) (x e : Nat) : Prop :=
  ∀ p, x ≤ p → p < e → OccursAt start file p → ∀ (nSize : UInt32) v,
    file.drop (p + MESSAGE_START_SIZE) = uint32Bytes nSize ++ v → nSize = 0 ∨ MAX_BLOCK_SIZE < nSize.toNat

/-- The rest of a record that is not skipped. -/
theorem HarmlessRest.upTo {pre post : List CBlock} (h : HarmlessRest start b (blockFile start post))
    (hstart : start.length = MESSAGE_START_SIZE) :
    HarmlessUpTo start (blockFile start (pre ++ b :: post)) ((blockFile start pre).length + MESSAGE_START_SIZE)
      (blockFile start (pre ++ [b])).length := by
  intro p hp hpe hoccurs nSize v hdrop
  rw [blockFile_snoc_length, hstart] at hpe
  have hfile : (blockFile start (pre ++ b :: post)).drop ((blockFile start pre).length + MESSAGE_START_SIZE) =
      uint32Bytes (UInt32.ofNat b.bytes.length) ++ (b.bytes ++ blockFile start post) := by
    rw [blockFile_append, blockFile_cons, recordBytes, ← List.drop_drop, List.drop_left, List.append_assoc,
      List.append_assoc, List.drop_left' hstart]
  obtain ⟨w, hw⟩ := hoccurs
  have hbehind : w = uint32Bytes nSize ++ v := by
    rw [← hdrop, ← List.drop_drop, ← hw, List.drop_left' hstart]
  generalize blockFile start (pre ++ b :: post) = file at hw hfile hdrop
  have hlen : p ≤ file.length := by
    have hle := congrArg List.length hw
    rw [List.length_append, List.length_drop, hstart] at hle
    have hsize : MESSAGE_START_SIZE = 4 := rfl
    omega
  rw [← Nat.add_assoc] at hpe
  generalize (blockFile start pre).length + MESSAGE_START_SIZE = x at hp hfile hpe
  have hsplit : (file.drop x).take (p - x) ++ (start ++ (uint32Bytes nSize ++ v)) = file.drop x := by
    rw [← hbehind, hw]
    have hrest : file.drop p = (file.drop x).drop (p - x) := by rw [List.drop_drop, Nat.add_sub_cancel' hp]
    rw [hrest, List.take_append_drop]
  apply h ((file.drop x).take (p - x)) v nSize
  · rw [List.length_take]
    omega
  · rw [hsplit, hfile]

/-- The next record stands where the ones before it end. -/
theorem occursAt_record (start : Bytes) (pre post : List CBlock) (b : CBlock) :
    OccursAt start (blockFile start (pre ++ b :: post)) (blockFile start pre).length := by
  rw [OccursAt, blockFile_append, List.drop_left, blockFile_cons, recordBytes, List.append_assoc]
  exact List.prefix_append _ _

theorem readUInt32_none {bs : Bytes} (h : readUInt32.run bs = none) : bs.length < 4 := by
  by_contra hlong
  have hread : (readBytes 4).run bs = some (bs.take 4, bs.drop 4) := if_pos (Nat.le_of_not_lt hlong)
  rw [readUInt32, readFixed, readNat, run_bind_of_some (run_bind_of_some hread)] at h
  cases h

/-- A start that is no record: nothing is read there, or a size that no block has. -/
theorem readRecord_harmless {e : Nat} {file : Bytes} (nFile : Int) (hpos : s.nPos = p + MESSAGE_START_SIZE)
    (hharmless : HarmlessUpTo env.network.messageStart file x e) (hx : x ≤ p) (hpe : p < e)
    (hoccurs : OccursAt env.network.messageStart file p) :
    readRecord env nFile file s = none ∧ file.length < p + 8 ∨ readRecord env nFile file s = some s := by
  rw [readRecord, hpos]
  cases hread : readUInt32.run (file.drop (p + MESSAGE_START_SIZE)) with
  | none =>
    left
    have hfew := readUInt32_none hread
    rw [List.length_drop] at hfew
    have hsize : MESSAGE_START_SIZE = 4 := rfl
    exact ⟨rfl, by omega⟩
  | some r =>
    right
    obtain ⟨nSize, rest⟩ := r
    obtain ⟨-, hdrop⟩ := readUInt32_exact.write_read _ _ _ hread
    have hbad : ¬ (0 < nSize.toNat ∧ nSize.toNat ≤ MAX_BLOCK_SIZE) := by
      intro hplausible
      cases hharmless p hx hpe hoccurs nSize rest hdrop with
      | inl hzero =>
        rw [hzero] at hplausible
        exact absurd hplausible.1 (by decide)
      | inr hbig => omega
    rw [Option.bind_eq_bind, Option.bind_some]
    dsimp only
    rw [if_neg hbad]
    rfl

end Records

section Loop

variable {env : ImportEnv} {blocks pre post : List CBlock} {b : CBlock} {s : ImportState}

/-- The file of the records. -/
def ImportEnv.file (env : ImportEnv) (blocks : List CBlock) : Bytes := blockFile env.network.messageStart blocks

/-- In a record that is not skipped no start bytes have the size of a block behind them, and there is room behind the
last record where it is not skipped. -/
def ImportEnv.Undisturbed (env : ImportEnv) (blocks : List CBlock) : Prop :=
  ∀ pre b post, blocks = pre ++ b :: post → ¬ env.Skips (pre.filter CBlock.fits) b →
    HarmlessRest env.network.messageStart b (env.file post) ∧
      (post = [] → (env.file blocks).length + 65533 ≤ 2 ^ 32)

/-- The import stands at the end of the first records, or in the rest of the last one of them. -/
structure ReadUpTo (env : ImportEnv) (blocks pre post : List CBlock) (s : ImportState) : Prop where
  split : blocks = pre ++ post
  passed : s.passed = pre.filter CBlock.fits
  pos : s.nPos ≤ (env.file pre).length
  harmless : HarmlessUpTo env.network.messageStart (env.file blocks) s.nPos (env.file pre).length
  room : post = [] → s.nPos < (env.file pre).length → (env.file blocks).length + 65533 ≤ 2 ^ 32

theorem ReadUpTo.length_eq (h : ReadUpTo env blocks pre post s) :
    (env.file blocks).length = (env.file pre).length + (env.file post).length := by
  rw [h.split, ImportEnv.file, blockFile_append, List.length_append]
  rfl

theorem ImportEnv.file_cons_length (env : ImportEnv) (b : CBlock) (l : List CBlock) :
    (env.file (b :: l)).length = 4 + (4 + b.bytes.length) + (env.file l).length := by
  rw [file, blockFile_cons, List.length_append, recordBytes_length, env.network.messageStart_length]
  rfl

/-- Close to the end of the file there is no further record. -/
theorem ReadUpTo.eq_nil (h : ReadUpTo env blocks pre post s)
    (hnear : (env.file blocks).length ≤ (env.file pre).length + 8) : post = [] := by
  cases post with
  | nil => rfl
  | cons b post =>
    have hlen := h.length_eq
    have hlong := b.bytes_length
    rw [env.file_cons_length] at hlen
    omega

theorem ReadUpTo.passed_all (h : ReadUpTo env blocks pre post s) (hpost : post = []) :
    s.passed = blocks.filter CBlock.fits := by
  rw [h.split, hpost, List.append_nil]
  exact h.passed

theorem ReadUpTo.occursAt (h : ReadUpTo env blocks pre (b :: post) s) :
    OccursAt env.network.messageStart (env.file blocks) (env.file pre).length := by
  rw [h.split]
  exact occursAt_record _ pre post b

theorem ReadUpTo.noWrap (h : ReadUpTo env blocks pre post s) :
    NoWrap env.network.messageStart (env.file blocks) s.nPos := by
  cases post with
  | nil =>
    by_cases hend : s.nPos < (env.file pre).length
    · exact Or.inl (h.room rfl hend)
    · have hlen : (env.file blocks).length = (env.file pre).length := h.length_eq
      exact Or.inr (Or.inr (by omega))
  | cons b post => exact Or.inr (Or.inl ⟨_, h.pos, h.occursAt⟩)

/-- A start within the rest of a record is passed over, or ends the import behind the last record. -/
theorem ReadUpTo.start_before (h : ReadUpTo env blocks pre post s) (nFile : Int) {p : Nat} (hp : s.nPos ≤ p)
    (hpe : p < (env.file pre).length) (hoccurs : OccursAt env.network.messageStart (env.file blocks) p) :
    readRecord env nFile (env.file blocks) { s with nPos := p + MESSAGE_START_SIZE } = none ∧ post = [] ∨
      readRecord env nFile (env.file blocks) { s with nPos := p + MESSAGE_START_SIZE } =
        some { s with nPos := p + MESSAGE_START_SIZE } ∧
      ReadUpTo env blocks pre post { s with nPos := p + MESSAGE_START_SIZE } := by
  have hsize : MESSAGE_START_SIZE = 4 := rfl
  cases readRecord_harmless nFile (s := { s with nPos := p + MESSAGE_START_SIZE }) rfl h.harmless hp hpe hoccurs with
  | inl hunread => exact Or.inl ⟨hunread.1, h.eq_nil (by have hshort := hunread.2; omega)⟩
  | inr hread =>
    refine Or.inr ⟨hread, h.split, h.passed, ?_, fun q hq => h.harmless q ?_, fun hpost _ => h.room hpost (by omega)⟩
    · cases post with
      | nil =>
        have hend := hoccurs.le_length env.network.messageStart_length
        rw [h.length_eq] at hend
        exact hend
      | cons b post => exact hoccurs.apart h.occursAt hpe
    · dsimp only at hq
      omega

/-- The next record is read, and the import stands behind it or in its rest. -/
theorem ReadUpTo.next (h : ReadUpTo env blocks pre (b :: post) s) (henv : env.SizesOk) (nFile : Int)
    (hfile : (env.file blocks).length < 2 ^ 32) (hclean : env.Undisturbed blocks) :
    ∃ s', readRecord env nFile (env.file blocks) { s with nPos := (env.file pre).length + MESSAGE_START_SIZE } =
      some s' ∧ (env.file pre).length < s'.nPos ∧ ReadUpTo env blocks (pre ++ [b]) post s' := by
  have hstart := env.network.messageStart_length
  have hsize : MESSAGE_START_SIZE = 4 := rfl
  have hdrop : (env.file blocks).drop ((env.file pre).length + MESSAGE_START_SIZE) =
      uint32Bytes (UInt32.ofNat b.bytes.length) ++ (b.bytes ++ env.file post) := by
    rw [h.split, ImportEnv.file, ImportEnv.file, ImportEnv.file, blockFile_append, blockFile_cons, recordBytes,
      ← List.drop_drop, List.drop_left, List.append_assoc, List.append_assoc, List.drop_left' hstart]
  have hlen := h.length_eq
  rw [env.file_cons_length] at hlen
  have hsnoc : (env.file (pre ++ [b])).length = (env.file pre).length + (4 + (4 + b.bytes.length)) := by
    rw [ImportEnv.file, blockFile_snoc_length, hstart]
    rfl
  have hsplit : blocks = (pre ++ [b]) ++ post := by
    rw [h.split, List.append_assoc]
    rfl
  obtain ⟨s', hread, hpassed, hskip⟩ := readRecord_spec
    (s := { s with nPos := (env.file pre).length + MESSAGE_START_SIZE }) henv nFile (by omega) hdrop
  dsimp only at hskip
  have hpassedNext : s'.passed = (pre ++ [b]).filter CBlock.fits := by
    rw [hpassed, List.filter_append, ← h.passed]
    rfl
  cases hskip with
  | inl hskipped =>
    have hend : s'.nPos = (env.file (pre ++ [b])).length := by
      rw [hskipped.2, Nat.mod_eq_of_lt (by omega), hsnoc]
      omega
    refine ⟨s', hread, by omega, hsplit, hpassedNext, by omega, fun q hq hqe => ?_, fun _ hlt => ?_⟩
    · omega
    · omega
  | inr hrefused =>
    have hskips : ¬ env.Skips (pre.filter CBlock.fits) b := h.passed ▸ hrefused.1
    obtain ⟨hrest, hroom⟩ := hclean pre b post h.split hskips
    refine ⟨s', hread, by omega, hsplit, hpassedNext, by omega, ?_, fun hpost _ => hroom hpost⟩
    rw [hrefused.2, h.split]
    exact hrest.upTo hstart

/-- From there the import reads the records that are left. -/
theorem ReadUpTo.importLoop (h : ReadUpTo env blocks pre post s) (henv : env.SizesOk) (nFile : Int)
    (hfile : (env.file blocks).length < 2 ^ 32) (hclean : env.Undisturbed blocks) (rounds : Nat)
    (hrounds : (env.file blocks).length - s.nPos < rounds) :
    ∃ s', importLoop env nFile (env.file blocks) rounds s = some s' ∧ s'.passed = blocks.filter CBlock.fits := by
  have hstart := env.network.messageStart_length
  have hsize : MESSAGE_START_SIZE = 4 := rfl
  induction rounds generalizing pre post s with
  | zero => exact absurd hrounds (Nat.not_lt_zero _)
  | succ rounds ih =>
    have hlen := h.length_eq
    have hpos := h.pos
    rw [AliasWallet.importLoop]
    by_cases hlast : s.nPos = 0xFFFFFFFF
    · -- the file ends at the greatest position
      rw [if_pos hlast]
      exact ⟨s, rfl, h.passed_all (h.eq_nil (by omega))⟩
    rw [if_neg hlast]
    cases findStart_spec hstart hfile h.noWrap (rounds + 1) hrounds with
    | inr hnone =>
      rw [hnone.2]
      refine ⟨{ s with nPos := 0xFFFFFFFF }, rfl, h.passed_all ?_⟩
      cases post with
      | nil => rfl
      | cons b post => exact h.eq_nil (hnone.1 _ h.pos h.occursAt)
    | inl hfound =>
      obtain ⟨p, hp, hoccurs, hfirst, hresult⟩ := hfound
      have hend := hoccurs.le_length hstart
      rw [hresult]
      dsimp only
      by_cases hpe : p < (env.file pre).length
      · by_cases hsentinel : p + MESSAGE_START_SIZE = 0xFFFFFFFF
        · rw [if_pos hsentinel]
          exact ⟨{ s with nPos := p + MESSAGE_START_SIZE }, rfl, h.passed_all (h.eq_nil (by omega))⟩
        rw [if_neg hsentinel]
        cases h.start_before nFile hp hpe hoccurs with
        | inl hunread =>
          rw [hunread.1]
          exact ⟨{ s with nPos := p + MESSAGE_START_SIZE }, rfl, h.passed_all hunread.2⟩
        | inr hread =>
          rw [hread.1]
          exact ih hread.2 (by dsimp only; omega)
      · cases post with
        | nil =>
          have hnone : (env.file blocks).length = (env.file pre).length := hlen
          omega
        | cons b post =>
          have hsame : p = (env.file pre).length := by
            by_contra hne
            exact hfirst _ h.pos (by omega) h.occursAt
          have hmore := env.file_cons_length b post
          have hlong := b.bytes_length
          rw [hsame, if_neg (by omega)]
          obtain ⟨s', hread, hgone, hnext⟩ := h.next henv nFile hfile hclean
          rw [hread]
          exact ih hnext (by omega)

/-- The import of a file of records ends, and it passes the blocks that are not too long to `ProcessBlock`, each once
and in their order, whatever the answers. -/
theorem loadExternalBlockFile_reads (henv : env.SizesOk) (hfull : env.fFull = true) (nFile : Int)
    (hfile : (env.file blocks).length < 2 ^ 32) (hclean : env.Undisturbed blocks) (rounds : Nat)
    (hrounds : (env.file blocks).length < rounds) :
    ∃ fLoaded s, loadExternalBlockFile env nFile (env.file blocks) rounds = some (fLoaded, s) ∧
      s.passed = blocks.filter CBlock.fits := by
  have hstart : ReadUpTo env blocks [] blocks ⟨0, 0, []⟩ :=
    ⟨rfl, rfl, Nat.le_refl 0, fun p _ hp => absurd hp (Nat.not_lt_zero p), fun _ hlt => absurd hlt (Nat.lt_irrefl 0)⟩
  obtain ⟨s, hrun, hpassed⟩ := hstart.importLoop henv nFile hfile hclean rounds (by omega)
  exact ⟨decide (s.nLoaded > 0), s, by rw [loadExternalBlockFile, if_pos hfull, hrun], hpassed⟩

/-- A record without the first of the start bytes behind its own is harmless. -/
theorem HarmlessRest.of_notMem {start behind : Bytes} (hne : start ≠ [])
    (h : start.headD 0 ∉ uint32Bytes (UInt32.ofNat b.bytes.length) ++ b.bytes) : HarmlessRest start b behind := by
  intro u v nSize hu heq
  have hget := congrArg (fun l => l[u.length]?) heq
  have hlen : u.length < (uint32Bytes (UInt32.ofNat b.bytes.length) ++ b.bytes).length := by
    rw [List.length_append, uint32Bytes, leBytes_length]
    exact hu
  rw [← List.append_assoc, List.getElem?_append_left hlen, List.getElem?_append_right (Nat.le_refl _), Nat.sub_self]
    at hget
  cases start with
  | nil => exact absurd rfl hne
  | cons c start => exact absurd (List.mem_of_getElem? hget) h

end Loop

section Rounds

/-- More rounds do not change what the scan finds. -/
theorem findStart_mono {start file : Bytes} {rounds nPos r : Nat} (h : findStart start file rounds nPos = some r) :
    findStart start file (rounds + 1) nPos = some r := by
  induction rounds generalizing nPos with
  | zero => cases h
  | succ rounds ih =>
    rw [findStart] at h ⊢
    split
    · rename_i hfew
      rw [if_pos hfew] at h
      exact h
    · rename_i hfew
      rw [if_neg hfew] at h
      split
      · rename_i nFind hfind
        rw [hfind] at h
        dsimp only at h
        split
        · rename_i hmatch
          rw [if_pos hmatch] at h
          exact h
        · rename_i hmatch
          rw [if_neg hmatch] at h
          exact ih h
      · rename_i hfind
        rw [hfind] at h
        exact ih h

/-- More rounds do not change what the import does. -/
theorem importLoop_mono {env : ImportEnv} {nFile : Int} {file : Bytes} {rounds : Nat} {s s' : ImportState}
    (h : importLoop env nFile file rounds s = some s') : importLoop env nFile file (rounds + 1) s = some s' := by
  induction rounds generalizing s with
  | zero => cases h
  | succ rounds ih =>
    rw [importLoop] at h ⊢
    by_cases hlast : s.nPos = 0xFFFFFFFF
    · rw [if_pos hlast] at h ⊢
      exact h
    rw [if_neg hlast] at h ⊢
    cases hfound : findStart env.network.messageStart file (rounds + 1) s.nPos with
    | none =>
      rw [hfound] at h
      cases h
    | some nPos =>
      rw [hfound] at h
      rw [findStart_mono hfound]
      dsimp only at h ⊢
      by_cases hend : nPos = 0xFFFFFFFF
      · rw [if_pos hend] at h ⊢
        exact h
      rw [if_neg hend] at h ⊢
      cases hread : readRecord env nFile file { s with nPos } with
      | none =>
        rw [hread] at h
        exact h
      | some s₁ =>
        rw [hread] at h
        exact ih h

theorem loadExternalBlockFile_mono {env : ImportEnv} {nFile : Int} {file : Bytes} {rounds k : Nat}
    {r : Bool × ImportState} (h : loadExternalBlockFile env nFile file rounds = some r) :
    loadExternalBlockFile env nFile file (rounds + k) = some r := by
  induction k with
  | zero => exact h
  | succ k ih =>
    rw [loadExternalBlockFile] at ih
    rw [← Nat.add_assoc, loadExternalBlockFile]
    cases hfull : env.fFull with
    | false =>
      rw [hfull] at ih
      exact ih
    | true =>
      rw [hfull, if_pos rfl] at ih
      rw [if_pos rfl]
      cases hrun : importLoop env nFile file (rounds + k) ⟨0, 0, []⟩ with
      | none =>
        rw [hrun] at ih
        cases ih
      | some s =>
        rw [hrun] at ih
        rw [importLoop_mono hrun]
        exact ih

/-- All numbers of rounds that are enough lead to the same. -/
theorem loadExternalBlockFile_unique {env : ImportEnv} {nFile : Int} {file : Bytes} {rounds rounds' : Nat}
    {r r' : Bool × ImportState} (h : loadExternalBlockFile env nFile file rounds = some r)
    (h' : loadExternalBlockFile env nFile file rounds' = some r') : r = r' := by
  have hmore := loadExternalBlockFile_mono (k := rounds') h
  rw [Nat.add_comm, loadExternalBlockFile_mono (k := rounds) h'] at hmore
  exact (Option.some.inj hmore).symm

end Rounds

section Sample

/-- A block with nothing in it but a signature. -/
def signedBlock (nNonce : UInt32) (vchBlockSig : Bytes) : CBlock where
  nVersion := 7
  hashPrevBlock := 0
  hashMerkleRoot := 0
  nTime := 0
  nBits := 0
  nNonce := nNonce
  vtx := []
  vchBlockSig := vchBlockSig

def sampleEnv (processBlock : List CBlock → CBlock → Bool) : ImportEnv where
  network := .main
  fFull := true
  fReindexing := false
  sizeofTx := 96
  sizeofTxIn := 80
  sizeofTxOut := 32
  getHashProof _ := none
  processBlock := processBlock

theorem sampleEnv_sizesOk (processBlock : List CBlock → CBlock → Bool) : (sampleEnv processBlock).SizesOk where
  sizeofTx := by
    show 0 < 96 ∧ 96 ≤ 5000000
    decide
  sizeofTxIn := by
    show 0 < 80 ∧ 80 ≤ 5000000
    decide
  sizeofTxOut := by
    show 0 < 32 ∧ 32 ≤ 5000000
    decide

/-- The first of two blocks is accepted and the second one is not. -/
theorem loadExternalBlockFile_reads_two :
    ∃ fLoaded s, loadExternalBlockFile (sampleEnv fun before _ => before.isEmpty) 1
      ((sampleEnv fun before _ => before.isEmpty).file [signedBlock 1 [], signedBlock 2 [3]]) 200 = some (fLoaded, s) ∧
      s.passed = [signedBlock 1 [], signedBlock 2 [3]].filter CBlock.fits := by
  apply loadExternalBlockFile_reads (sampleEnv_sizesOk _) rfl 1 (by decide +kernel) _ 200 (by decide +kernel)
  intro pre b post hblocks hskips
  have hb : b = signedBlock 1 [] ∨ b = signedBlock 2 [3] := by
    have hmem : b ∈ [signedBlock 1 [], signedBlock 2 [3]] := by
      rw [hblocks]
      simp
    simpa using hmem
  constructor
  · apply HarmlessRest.of_notMem (by decide)
    cases hb with
    | inl hb => rw [hb]; decide +kernel
    | inr hb => rw [hb]; decide +kernel
  · intro _
    decide +kernel

/-- A signature with start bytes, a size and something that is no block. -/
def misleadingSig : Bytes := Network.main.messageStart ++ ([1, 0, 0, 0] ++ (List.replicate 80 0 ++ [0xfd, 0, 0]))

/-- When a block with such a signature is not accepted, the record behind it is not read. -/
theorem loadExternalBlockFile_stops :
    ((sampleEnv fun _ _ => false).file [signedBlock 1 misleadingSig, signedBlock 2 []]).length < 2 ^ 32 ∧
      ∀ rounds fLoaded s, loadExternalBlockFile (sampleEnv fun _ _ => false) 1
        ((sampleEnv fun _ _ => false).file [signedBlock 1 misleadingSig, signedBlock 2 []]) rounds = some (fLoaded, s) →
        s.passed = [signedBlock 1 misleadingSig] := by
  constructor
  · decide +kernel
  · intro rounds fLoaded s hrun
    have hten : (loadExternalBlockFile (sampleEnv fun _ _ => false) 1
        ((sampleEnv fun _ _ => false).file [signedBlock 1 misleadingSig, signedBlock 2 []]) 10).map
        (fun r => r.2.passed) = some [signedBlock 1 misleadingSig] := by decide +kernel
    obtain ⟨r, hr, hpassed⟩ := Option.map_eq_some_iff.mp hten
    rw [← hpassed, loadExternalBlockFile_unique hr hrun]

end Sample

end AliasWallet
