import AliasWallet.Core.Transaction
import AliasWallet.Lib.Codec

/-!
# Reading transactions (`serialize.h`, `main.h`, `core.h`)

`Unserialize` reads vectors in bounded chunks and rejects length prefixes that are longer than needed, so a
transaction has one encoding. `GetSerializeSize` adds up sizes in 32 bits.
-/

namespace AliasWallet
open Lib

/-- The largest vector that is read. -/
def MAX_SIZE : Nat := 0x02000000

section Read

def readByte : Reader UInt8
  | [] => none
  | b :: bs => some (b, bs)

/-- A size of `w` bytes; one that has a shorter form is not canonical. -/
def readLong (w least : Nat) : Reader Nat := do
  let xSize ← readNat w
  if xSize < least then failure else pure xSize

/-- The size behind its first byte. -/
def readSize (chSize : UInt8) : Reader Nat :=
  if chSize < 253 then pure chSize.toNat
  else if chSize = 253 then readLong 2 253
  else if chSize = 254 then readLong 4 0x10000
  else readLong 8 0x100000000

def readCompactSize : Reader Nat := do
  let chSize ← readByte
  let nSizeRet ← readSize chSize
  if nSizeRet > MAX_SIZE then failure else pure nSizeRet

/-- `Unserialize_impl` of a vector, with the number of elements that are read at a time. -/
def readVector {α : Type} (readN : Nat → Reader (List α)) (blk : Nat) : Reader (List α) := do
  let nSize ← readCompactSize
  readBlocks readN blk nSize nSize 0

/-- A `CScript`, a vector of bytes. -/
def readScript : Reader Bytes := readVector readBytes (1 + 4999999 / 1)

def readUInt32 : Reader UInt32 := readFixed 4 UInt32.ofNat

def readInt32 : Reader Int32 := readFixed 4 fun n => Int32.ofBitVec (BitVec.ofNat 32 n)

def readInt64 : Reader Int64 := readFixed 8 fun n => Int64.ofBitVec (BitVec.ofNat 64 n)

def readUInt256 : Reader UInt256 := readFixed 32 (BitVec.ofNat 256)

def COutPoint.unserialize : Reader COutPoint := do
  let hash ← readUInt256
  let n ← readUInt32
  return ⟨hash, n⟩

def CTxIn.unserialize : Reader CTxIn := do
  let prevout ← COutPoint.unserialize
  let scriptSig ← readScript
  let nSequence ← readUInt32
  return ⟨prevout, scriptSig, nSequence⟩

def CTxOut.unserialize : Reader CTxOut := do
  let nValue ← readInt64
  let scriptPubKey ← readScript
  return ⟨nValue, scriptPubKey⟩

/-- `Unserialize` for the sizes that the compiler gives inputs and outputs. -/
def CTransaction.unserialize (sizeofTxIn sizeofTxOut : Nat) : Reader CTransaction := do
  let nVersion ← readInt32
  let nTime ← readUInt32
  let vin ← readVector (readMany CTxIn.unserialize) (5000000 / sizeofTxIn)
  let vout ← readVector (readMany CTxOut.unserialize) (5000000 / sizeofTxOut)
  let nLockTime ← readUInt32
  return { nVersion, nTime, vin, vout, nLockTime }

end Read

section Size

def getSizeOfCompactSize (nSize : Nat) : UInt32 :=
  if nSize < 253 then 1
  else if nSize ≤ 0xFFFF then 3
  else if nSize ≤ 0xFFFFFFFF then 5
  else 9

def scriptSize (s : Bytes) : UInt32 := getSizeOfCompactSize s.length + UInt32.ofNat s.length

def CTxIn.getSerializeSize (txin : CTxIn) : UInt32 := 36 + scriptSize txin.scriptSig + 4

def CTxOut.getSerializeSize (txout : CTxOut) : UInt32 := 8 + scriptSize txout.scriptPubKey

def vectorSize {α : Type} (size : α → UInt32) (v : List α) : UInt32 :=
  v.foldl (fun nSize a => nSize + size a) (getSizeOfCompactSize v.length)

def CTransaction.getSerializeSize (tx : CTransaction) : UInt32 :=
  4 + 4 + vectorSize CTxIn.getSerializeSize tx.vin + vectorSize CTxOut.getSerializeSize tx.vout + 4

end Size

section Exact

theorem readByte_exact : Exact readByte (fun b => [b]) (fun _ => True) where
  read_write := fun _ _ _ => rfl
  write_read := by
    intro bs b rest hrun
    cases bs with
    | nil => exact absurd hrun (by simp [readByte, StateT.run])
    | cons b' bs =>
      obtain ⟨rfl, rfl⟩ := Prod.mk.inj (Option.some.inj hrun)
      exact ⟨trivial, rfl⟩

theorem readLong_exact (w least : Nat) :
    Exact (readLong w least) (leBytes w) (fun n => n < 256 ^ w ∧ ¬ n < least) :=
  (readNat_exact w).guarded (· < least)

theorem compactSize_head (n : Nat) : ((compactSize n).headD 0).toNat =
    if n < 253 then n else if n ≤ 0xFFFF then 253 else if n ≤ 0xFFFFFFFF then 254 else 255 := by
  rw [compactSize]
  split_ifs with h1
  · exact UInt8.toNat_ofNat_of_lt' (lt_of_lt_of_le h1 (by decide))
  · rfl
  · rfl
  · rfl

theorem compactSize_cons (n : Nat) : compactSize n = (compactSize n).headD 0 :: (compactSize n).tail := by
  rw [compactSize]
  split_ifs <;> rfl

/-- The first byte of a compact size says how the rest is read. -/
theorem readSize_exact (chSize : UInt8) : Exact (readSize chSize) (fun n => (compactSize n).tail)
    (fun n => n < 2 ^ 64 ∧ (compactSize n).headD 0 = chSize) := by
  simp only [← UInt8.toNat_inj, compactSize_head]
  rw [readSize]
  have hlt := chSize.toNat_lt
  split_ifs with h1 h2 h3
  · rw [UInt8.lt_iff_toNat_lt] at h1
    change chSize.toNat < 253 at h1
    refine (exact_pure chSize.toNat).congr (fun n => ?_) (fun n hn => ?_)
    · split_ifs <;> omega
    · rw [compactSize, if_pos (by omega), List.tail_cons]
  · rw [h2]
    change Exact _ _ fun n => n < 2 ^ 64 ∧ _ = 253
    refine (readLong_exact 2 253).congr (fun n => ?_) (fun n hn => ?_)
    · split_ifs <;> omega
    · rw [compactSize, if_neg hn.2, if_pos (by omega), List.tail_cons]
  · rw [h3]
    change Exact _ _ fun n => n < 2 ^ 64 ∧ _ = 254
    refine (readLong_exact 4 0x10000).congr (fun n => ?_) (fun n hn => ?_)
    · split_ifs <;> omega
    · rw [compactSize, if_neg (by omega), if_neg (by omega), if_pos (by omega), List.tail_cons]
  · have hlast : chSize.toNat = 255 := by
      rw [UInt8.lt_iff_toNat_lt] at h1
      change ¬ chSize.toNat < 253 at h1
      rw [← UInt8.toNat_inj] at h2 h3
      change ¬ chSize.toNat = 253 at h2
      change ¬ chSize.toNat = 254 at h3
      omega
    rw [hlast]
    refine (readLong_exact 8 0x100000000).congr (fun n => ?_) (fun n hn => ?_)
    · split_ifs <;> omega
    · rw [compactSize, if_neg (by omega), if_neg (by omega), if_neg (by omega), List.tail_cons]

theorem readCompactSize_exact : Exact readCompactSize compactSize (fun n => n ≤ MAX_SIZE) := by
  have hprefix := readByte_exact.bind (fun n => (compactSize n).headD 0) (fun chSize _ => readSize_exact chSize)
  have hguarded := hprefix.guarded (fun n => n > MAX_SIZE)
  rw [bind_assoc] at hguarded
  refine hguarded.congr (fun n => ?_) (fun n _ => compactSize_cons n)
  rw [true_and, not_lt, MAX_SIZE]
  omega

theorem readUInt32_exact : Exact readUInt32 uint32Bytes (fun _ => True) :=
  readFixed_exact 4 UInt32.ofNat UInt32.toNat (fun a => a.toNat_lt) (fun _ => UInt32.ofNat_toNat)
    (fun _ hn => UInt32.toNat_ofNat_of_lt' hn)

theorem readInt32_exact : Exact readInt32 int32Bytes (fun _ => True) :=
  readFixed_exact 4 _ (fun n : Int32 => n.toBitVec.toNat) (fun a => a.toBitVec.isLt)
    (fun a => by simp) (fun n hn => by simp; omega)

theorem readInt64_exact : Exact readInt64 int64Bytes (fun _ => True) :=
  readFixed_exact 8 _ (fun n : Int64 => n.toBitVec.toNat) (fun a => a.toBitVec.isLt)
    (fun a => by simp) (fun n hn => by simp; omega)

theorem readUInt256_exact : Exact readUInt256 uint256Bytes (fun _ => True) :=
  readFixed_exact 32 _ (fun n : UInt256 => n.toNat) (fun a => by have := a.isLt; norm_num at this ⊢; exact this)
    (fun a => by simp) (fun n hn => by norm_num at hn ⊢; omega)

/-- A vector is read in blocks as it is written at once. -/
theorem readVector_exact {α : Type} {readN : Nat → Reader (List α)} {write : List α → Bytes} {inRange : List α → Prop}
    (hN : ∀ n, Exact (readN n) write (fun v => inRange v ∧ v.length = n)) (hzero : readN 0 = pure [])
    (hadd : ∀ a b, readN (a + b) = do
      let x ← readN a
      let y ← readN b
      return x ++ y)
    {blk : Nat} (hblk : 0 < blk) :
    Exact (readVector readN blk) (fun v => compactSize v.length ++ write v)
      (fun v => v.length ≤ MAX_SIZE ∧ inRange v) := by
  refine readCompactSize_exact.bind List.length (fun nSize _ => ?_)
  rw [readBlocks_eq hzero hadd hblk nSize 0 (Nat.zero_le _) (by omega), Nat.sub_zero]
  exact hN nSize

theorem readScript_exact : Exact readScript scriptBytes (fun s => s.length ≤ MAX_SIZE) := by
  have hN : ∀ n, Exact (readBytes n) (fun s => s) (fun s => True ∧ s.length = n) := fun n =>
    (readBytes_exact n).congr (fun _ => by simp) (fun _ _ => rfl)
  refine (readVector_exact hN ?_ readBytes_add (by decide)).congr (fun s => by simp) (fun _ _ => rfl)
  funext bs
  rw [readBytes, if_pos (Nat.zero_le _)]
  rfl

theorem readItems_exact {α : Type} {read : Reader α} {write : α → Bytes} {inRange : α → Prop}
    (h : Exact read write inRange) {size : Nat} (hpos : 0 < size) (hle : size ≤ 5000000) :
    Exact (readVector (readMany read) (5000000 / size)) (fun v => compactSize v.length ++ v.flatMap write)
      (fun v => v.length ≤ MAX_SIZE ∧ ∀ a ∈ v, inRange a) :=
  readVector_exact (readMany_exact h) rfl (readMany_add read) (Nat.div_pos hle hpos)

theorem COutPoint.unserialize_exact : Exact COutPoint.unserialize COutPoint.bytes (fun _ => True) := by
  have h := (readUInt256_exact.pair readUInt32_exact).map (fun p => COutPoint.mk p.1 p.2) (fun o => (o.hash, o.n))
    (fun _ => rfl) (fun _ _ => rfl)
  simp only [bind_assoc, pure_bind] at h
  exact h.congr (fun _ => by simp) (fun _ _ => rfl)

/-- The script can be read back. -/
def CTxIn.InRange (txin : CTxIn) : Prop := txin.scriptSig.length ≤ MAX_SIZE

theorem CTxIn.unserialize_exact : Exact CTxIn.unserialize CTxIn.bytes CTxIn.InRange := by
  have h := ((COutPoint.unserialize_exact.pair readScript_exact).pair readUInt32_exact).map
    (fun p => CTxIn.mk p.1.1 p.1.2 p.2) (fun txin => ((txin.prevout, txin.scriptSig), txin.nSequence))
    (fun _ => rfl) (fun _ _ => rfl)
  simp only [bind_assoc, pure_bind] at h
  exact h.congr (fun _ => by simp [CTxIn.InRange]) (fun _ _ => rfl)

def CTxOut.InRange (txout : CTxOut) : Prop := txout.scriptPubKey.length ≤ MAX_SIZE

theorem CTxOut.unserialize_exact : Exact CTxOut.unserialize CTxOut.bytes CTxOut.InRange := by
  have h := (readInt64_exact.pair readScript_exact).map (fun p => CTxOut.mk p.1 p.2)
    (fun txout => (txout.nValue, txout.scriptPubKey)) (fun _ => rfl) (fun _ _ => rfl)
  simp only [bind_assoc, pure_bind] at h
  exact h.congr (fun _ => by simp [CTxOut.InRange]) (fun _ _ => rfl)

/-- The vectors and the scripts can be read back. -/
structure CTransaction.InRange (tx : CTransaction) : Prop where
  vin_le : tx.vin.length ≤ MAX_SIZE
  vin : ∀ txin ∈ tx.vin, txin.InRange
  vout_le : tx.vout.length ≤ MAX_SIZE
  vout : ∀ txout ∈ tx.vout, txout.InRange

theorem CTransaction.unserialize_exact {sizeofTxIn sizeofTxOut : Nat} (hin : 0 < sizeofTxIn)
    (hin_le : sizeofTxIn ≤ 5000000) (hout : 0 < sizeofTxOut) (hout_le : sizeofTxOut ≤ 5000000) :
    Exact (CTransaction.unserialize sizeofTxIn sizeofTxOut) CTransaction.bytes CTransaction.InRange := by
  have h := ((((readInt32_exact.pair readUInt32_exact).pair (readItems_exact CTxIn.unserialize_exact hin hin_le)).pair
    (readItems_exact CTxOut.unserialize_exact hout hout_le)).pair readUInt32_exact).map
    (fun p => CTransaction.mk p.1.1.1.1 p.1.1.1.2 p.1.1.2 p.1.2 p.2)
    (fun tx => ((((tx.nVersion, tx.nTime), tx.vin), tx.vout), tx.nLockTime)) (fun _ => rfl) (fun _ _ => rfl)
  simp only [bind_assoc, pure_bind] at h
  refine h.congr (fun tx => ?_) (fun _ _ => rfl)
  constructor
  · intro htx
    exact ⟨⟨⟨⟨trivial, trivial⟩, htx.vin_le, htx.vin⟩, htx.vout_le, htx.vout⟩, trivial⟩
  · rintro ⟨⟨⟨-, hvin_le, hvin⟩, hvout_le, hvout⟩, -⟩
    exact ⟨hvin_le, hvin, hvout_le, hvout⟩

end Exact

section Sizes

theorem getSizeOfCompactSize_eq (n : Nat) : getSizeOfCompactSize n = UInt32.ofNat (compactSize n).length := by
  rw [getSizeOfCompactSize, compactSize]
  split_ifs <;> simp

theorem scriptSize_eq (s : Bytes) : scriptSize s = UInt32.ofNat (scriptBytes s).length := by
  rw [scriptSize, scriptBytes, getSizeOfCompactSize_eq, List.length_append, UInt32.ofNat_add]

theorem CTxIn.getSerializeSize_eq (txin : CTxIn) : txin.getSerializeSize = UInt32.ofNat txin.bytes.length := by
  rw [getSerializeSize, CTxIn.bytes, COutPoint.bytes, scriptSize_eq]
  simp only [List.length_append, uint256Bytes, uint32Bytes, leBytes_length, UInt32.ofNat_add]
  rfl

theorem CTxOut.getSerializeSize_eq (txout : CTxOut) : txout.getSerializeSize = UInt32.ofNat txout.bytes.length := by
  rw [getSerializeSize, CTxOut.bytes, scriptSize_eq]
  simp only [List.length_append, int64Bytes, leBytes_length, UInt32.ofNat_add]
  rfl

theorem vectorSize_eq {α : Type} {size : α → UInt32} {write : α → Bytes}
    (h : ∀ a, size a = UInt32.ofNat (write a).length) (v : List α) :
    vectorSize size v = UInt32.ofNat (compactSize v.length ++ v.flatMap write).length := by
  have hfold : ∀ (l : List α) (n : Nat),
      l.foldl (fun nSize a => nSize + size a) (UInt32.ofNat n) = UInt32.ofNat (n + (l.flatMap write).length) := by
    intro l
    induction l with
    | nil => intro n; rfl
    | cons a l ih =>
      intro n
      rw [List.foldl_cons, h, ← UInt32.ofNat_add, ih, List.flatMap_cons, List.length_append, Nat.add_assoc]
  rw [vectorSize, getSizeOfCompactSize_eq, hfold, List.length_append]

/-- The sizes are added up in 32 bits. -/
theorem CTransaction.getSerializeSize_eq (tx : CTransaction) :
    tx.getSerializeSize = UInt32.ofNat tx.bytes.length := by
  rw [getSerializeSize, CTransaction.bytes, vectorSize_eq CTxIn.getSerializeSize_eq,
    vectorSize_eq CTxOut.getSerializeSize_eq]
  simp only [List.length_append, int32Bytes, uint32Bytes, leBytes_length, UInt32.ofNat_add]
  rfl

end Sizes

/-- In-range transactions and the byte strings that `Unserialize` accepts correspond to each other, and
`GetSerializeSize` is the number of bytes modulo `2 ^ 32`. -/
theorem transaction_encoding {sizeofTxIn sizeofTxOut : Nat} (hin : 0 < sizeofTxIn) (hin_le : sizeofTxIn ≤ 5000000)
    (hout : 0 < sizeofTxOut) (hout_le : sizeofTxOut ≤ 5000000) :
    (∀ tx : CTransaction, tx.InRange →
      (∀ rest, (CTransaction.unserialize sizeofTxIn sizeofTxOut).run (tx.bytes ++ rest) = some (tx, rest)) ∧
        tx.getSerializeSize.toNat = tx.bytes.length % 2 ^ 32 ∧
          (tx.bytes.length < 2 ^ 32 → tx.getSerializeSize.toNat = tx.bytes.length)) ∧
      ∀ bs tx rest, (CTransaction.unserialize sizeofTxIn sizeofTxOut).run bs = some (tx, rest) →
        tx.InRange ∧ bs = tx.bytes ++ rest := by
  have hexact := CTransaction.unserialize_exact hin hin_le hout hout_le
  refine ⟨fun tx htx => ?_, hexact.write_read⟩
  have hsize : tx.getSerializeSize.toNat = tx.bytes.length % 2 ^ 32 := by
    rw [tx.getSerializeSize_eq, UInt32.toNat_ofNat']
  refine ⟨hexact.read_write tx htx, hsize, fun hlt => ?_⟩
  rw [hsize, Nat.mod_eq_of_lt hlt]

/-- One input and one output. -/
def encodedTx : CTransaction where
  nVersion := 1
  nTime := 7
  vin := [⟨⟨5, 2⟩, [0x51], 9⟩]
  vout := [⟨3, [0x52, 0x53]⟩]
  nLockTime := 0

theorem transaction_encoding_one :
    (CTransaction.unserialize 72 32).run (encodedTx.bytes ++ [1]) = some (encodedTx, [1]) ∧
      encodedTx.getSerializeSize.toNat = encodedTx.bytes.length := by
  have hrange : encodedTx.InRange := by
    constructor
    · decide
    · simp [encodedTx, CTxIn.InRange, MAX_SIZE]
    · decide
    · simp [encodedTx, CTxOut.InRange, MAX_SIZE]
  have htx :=
    (transaction_encoding (by decide : 0 < 72) (by decide) (by decide : 0 < 32) (by decide)).1 encodedTx hrange
  exact ⟨htx.1 [1], htx.2.2 (by decide)⟩

/-- `m` inputs with scripts of `n` bytes. -/
def paddedTx (m n : Nat) : CTransaction where
  nVersion := 1
  nTime := 7
  vin := List.replicate m ⟨⟨5, 2⟩, List.replicate n 0, 9⟩
  vout := []
  nLockTime := 0

theorem paddedTx_inRange {m n : Nat} (hm : m ≤ MAX_SIZE) (hn : n ≤ MAX_SIZE) : (paddedTx m n).InRange := by
  constructor
  · rw [paddedTx, List.length_replicate]
    exact hm
  · intro txin htxin
    rw [List.eq_of_mem_replicate htxin, CTxIn.InRange, List.length_replicate]
    exact hn
  · exact Nat.zero_le _
  · intro txout htxout
    exact absurd htxout List.not_mem_nil

theorem mul_le_paddedTx_bytes (m n : Nat) : m * n ≤ (paddedTx m n).bytes.length := by
  have hinput : n ≤ (CTxIn.bytes ⟨⟨5, 2⟩, List.replicate n 0, 9⟩).length := by
    rw [CTxIn.bytes, scriptBytes]
    simp only [List.length_append, List.length_replicate]
    omega
  have hinputs : m * n ≤ ((paddedTx m n).vin.flatMap CTxIn.bytes).length := by
    rw [paddedTx, List.length_flatMap, List.map_replicate, List.sum_replicate, smul_eq_mul]
    exact Nat.mul_le_mul_left _ hinput
  rw [CTransaction.bytes]
  simp only [List.length_append]
  omega

/-- The scripts alone take `2 ^ 32` bytes. -/
theorem paddedTx_size : (paddedTx 128 MAX_SIZE).InRange ∧
    (paddedTx 128 MAX_SIZE).getSerializeSize.toNat ≠ (paddedTx 128 MAX_SIZE).bytes.length := by
  refine ⟨paddedTx_inRange (by decide) le_rfl, fun heq => ?_⟩
  have hlt := (paddedTx 128 MAX_SIZE).getSerializeSize.toNat_lt
  have hle := mul_le_paddedTx_bytes 128 MAX_SIZE
  have hmax : 128 * MAX_SIZE = 2 ^ 32 := by decide
  rw [hmax, ← heq] at hle
  exact absurd hlt (Nat.not_lt.mpr hle)

end AliasWallet
