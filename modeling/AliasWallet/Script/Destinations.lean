import AliasWallet.Crypto.KeyDerivation
import AliasWallet.Script.Solver
import AliasWallet.Wallet.ExtKey

/-!
# Scripts that pay to a destination (`script.cpp`)

`SetDestination` builds the script from which `ExtractDestination` takes the destination. Other scripts with the same
destination push in a longer form, or pay to the key itself.
-/

namespace AliasWallet
open Lib

/-- The destinations that a script can pay to. -/
inductive CTxDestination
  | keyID (id : CKeyID)
  | scriptID (id : BitVec 160)
  deriving DecidableEq

/-- `uint160` of some bytes. -/
def uint160 (vch : Bytes) : BitVec 160 := BitVec.ofNat 160 (leNat vch)

variable (getID : CPubKey → CKeyID)

def extractDestination (scriptPubKey : CScript) : Option CTxDestination :=
  let solved := solver scriptPubKey []
  if solved.result then
    match solved.typeRet with
    | .TX_PUBKEY => some (.keyID (getID (CPubKey.set (solved.vSolutionsRet.headD []))))
    | .TX_PUBKEYHASH => some (.keyID (uint160 (solved.vSolutionsRet.headD [])))
    | .TX_SCRIPTHASH => some (.scriptID (uint160 (solved.vSolutionsRet.headD [])))
    | _ => none
  else none

namespace CScript

def setDestination : CTxDestination → CScript
  | .keyID id => build [.opcode OP_DUP, .opcode OP_HASH160, .vch (leBytes 20 id.toNat), .opcode OP_EQUALVERIFY,
      .opcode OP_CHECKSIG]
  | .scriptID id => build [.opcode OP_HASH160, .vch (leBytes 20 id.toNat), .opcode OP_EQUAL]

/-- A push that has no shorter form; an operation that is no push is left alone. -/
def canonicalPush (op : ScriptOp) : Bool :=
  if op.opcode > OP_16 then true
  else if op.opcode < OP_PUSHDATA1 ∧ op.opcode > OP_0 ∧ op.vch.length = 1 ∧ op.vch.headD 0 ≤ 16 then false
  else if op.opcode = OP_PUSHDATA1 ∧ op.vch.length < OP_PUSHDATA1.toNat then false
  else if op.opcode = OP_PUSHDATA2 ∧ op.vch.length ≤ 0xff then false
  else !(decide (op.opcode = OP_PUSHDATA4) && decide (op.vch.length ≤ 0xffff))

def hasCanonicalPushes (s : CScript) : Bool := (ops s).2 && (ops s).1.all canonicalPush

end CScript

section Canonical

variable {s : CScript} {op : ScriptOp}

/-- The opcodes whose length stands in bytes of its own. -/
theorem wide_cases {opcode : UInt8} (hpush : opcode ≤ OP_PUSHDATA4) (hwidth : CScript.operandWidth opcode ≠ 0) :
    opcode = OP_PUSHDATA1 ∨ opcode = OP_PUSHDATA2 ∨ opcode = OP_PUSHDATA4 := by
  rw [CScript.operandWidth] at hwidth
  split_ifs at hwidth with hlow h1 h2
  · exact absurd rfl hwidth
  · exact .inl h1
  · exact .inr (.inl h2)
  · right
    right
    rw [UInt8.le_iff_toNat_le, show OP_PUSHDATA4.toNat = 78 from rfl] at hpush
    rw [UInt8.lt_iff_toNat_lt, show OP_PUSHDATA1.toNat = 76 from rfl] at hlow
    rw [← UInt8.toNat_inj, show OP_PUSHDATA1.toNat = 76 from rfl] at h1
    rw [← UInt8.toNat_inj, show OP_PUSHDATA2.toNat = 77 from rfl] at h2
    rw [← UInt8.toNat_inj, show OP_PUSHDATA4.toNat = 78 from rfl]
    omega

/-- How long an operand has to be for its opcode. -/
def leastOperand (opcode : UInt8) : Nat :=
  if opcode = OP_PUSHDATA1 then 76 else if opcode = OP_PUSHDATA2 then 0x100 else 0x10000

theorem canonicalPush_fits (hpush : op.opcode ≤ OP_PUSHDATA4) (hwidth : CScript.operandWidth op.opcode ≠ 0)
    (hcanonical : CScript.canonicalPush op = true) : leastOperand op.opcode ≤ op.vch.length := by
  rw [CScript.canonicalPush] at hcanonical
  obtain h | h | h := wide_cases hpush hwidth
  all_goals
    rw [h] at hcanonical ⊢
    rw [if_neg (by decide), if_neg fun hshort => absurd hshort.1 (by decide)] at hcanonical
  · by_contra hfew
    rw [if_pos ⟨rfl, Nat.not_le.mp hfew⟩] at hcanonical
    cases hcanonical
  · by_contra hfew
    rw [if_neg fun h1 => absurd h1.1 (by decide), if_pos ⟨rfl, Nat.le_of_lt_succ (Nat.not_le.mp hfew)⟩] at hcanonical
    cases hcanonical
  · by_contra hfew
    rw [if_neg fun h1 => absurd h1.1 (by decide), if_neg fun h2 => absurd h2.1 (by decide),
      decide_eq_true (Nat.le_of_lt_succ (Nat.not_le.mp hfew))] at hcanonical
    cases hcanonical

theorem push_of_width {opcode : UInt8} {b : Bytes} (hbound : b.length < 256 ^ CScript.operandWidth opcode)
    (hfits : leastOperand opcode ≤ b.length) (hwidth : CScript.operandWidth opcode ≠ 0)
    (hpush : opcode ≤ OP_PUSHDATA4) :
    CScript.push b = opcode :: leBytes (CScript.operandWidth opcode) b.length ++ b := by
  obtain rfl | rfl | rfl := wide_cases hpush hwidth
  all_goals rw [CScript.push]
  · have hlow : OP_PUSHDATA1.toNat ≤ b.length := hfits
    have hhigh : b.length < 256 := hbound
    rw [if_neg (Nat.not_lt.mpr hlow), if_pos (Nat.le_of_lt_succ hhigh)]
    change _ = OP_PUSHDATA1 :: UInt8.ofNat (b.length % 256) :: b
    rw [Nat.mod_eq_of_lt hhigh]
  · have hlow : 0x100 ≤ b.length := hfits
    have hhigh : b.length < 0x10000 := hbound
    rw [if_neg (Nat.not_lt.mpr (le_trans (by decide) hlow)), if_neg (by omega), if_pos (by omega)]
    rfl
  · have hlow : 0x10000 ≤ b.length := hfits
    rw [if_neg (Nat.not_lt.mpr (le_trans (by decide) hlow)), if_neg (by omega), if_neg (by omega)]
    rfl

/-- A canonical operation stands in the script as `operator<<` writes it. -/
theorem getOp_canonical (hop : CScript.getOp s = some op) (hcanonical : CScript.canonicalPush op = true) :
    s = op.item.bytes ++ op.rest := by
  cases s with
  | nil => cases hop
  | cons opcode rest =>
    rw [CScript.getOp] at hop
    by_cases hpush : opcode > OP_PUSHDATA4
    · rw [if_pos hpush] at hop
      obtain rfl := Option.some.inj hop
      rw [ScriptOp.item, if_neg (UInt8.not_le.mpr hpush)]
      rfl
    rw [if_neg hpush, Option.bind_eq_bind, Option.bind_eq_some_iff] at hop
    obtain ⟨⟨nSize, left⟩, hsize, hop⟩ := hop
    dsimp only at hop
    split_ifs at hop with hshort
    obtain rfl := Option.some.inj hop
    have hlen : (left.take nSize).length = nSize := by
      rw [List.length_take]
      have hmod := Nat.mod_le left.length 0x100000000
      omega
    rw [ScriptOp.item, if_pos (UInt8.not_lt.mp hpush)]
    change opcode :: rest = CScript.push (left.take nSize) ++ left.drop nSize
    rw [CScript.operandSize_eq] at hsize
    split_ifs at hsize with hfew hzero
    · obtain ⟨rfl, rfl⟩ := Prod.mk.inj (Option.some.inj hsize)
      rw [hzero, List.drop_zero] at hlen ⊢
      have hlt : opcode < OP_PUSHDATA1 := by
        rw [CScript.operandWidth] at hzero
        split_ifs at hzero
        assumption
      rw [CScript.push, hlen, if_pos (UInt8.lt_iff_toNat_lt.mp hlt), UInt8.ofNat_toNat, List.cons_append,
        List.take_append_drop]
    · obtain ⟨rfl, rfl⟩ := Prod.mk.inj (Option.some.inj hsize)
      have hwidth : (rest.take (CScript.operandWidth opcode)).length = CScript.operandWidth opcode :=
        List.length_take_of_le (Nat.not_lt.mp hfew)
      have hbytes := leBytes_leNat (rest.take (CScript.operandWidth opcode))
      have hbound := leNat_lt (rest.take (CScript.operandWidth opcode))
      rw [hwidth] at hbytes hbound
      generalize leNat (rest.take (CScript.operandWidth opcode)) = nSize at hbytes hbound hlen hcanonical hshort ⊢
      have hrest : rest = leBytes (CScript.operandWidth opcode) nSize ++ rest.drop (CScript.operandWidth opcode) := by
        rw [hbytes, List.take_append_drop]
      generalize rest.drop (CScript.operandWidth opcode) = left at hrest hlen hcanonical hshort ⊢
      have hfits := canonicalPush_fits (UInt8.not_lt.mp hpush) hzero hcanonical
      rw [hlen] at hfits
      rw [push_of_width (by rw [hlen]; exact hbound) (by rw [hlen]; exact hfits) hzero (UInt8.not_lt.mp hpush), hlen,
        List.append_assoc, List.take_append_drop]
      exact congrArg (opcode :: ·) hrest

theorem build_of_canonical {items : List ScriptItem} (h : s.ParsesAs items)
    (hcanonical : CScript.hasCanonicalPushes s = true) : s = CScript.build items := by
  rw [CScript.build_eq]
  induction items generalizing s with
  | nil => exact CScript.parsesAs_nil_iff.mp h
  | cons item items ih =>
    obtain ⟨op, hop, hitem, hrest⟩ := CScript.parsesAs_cons_iff.mp h
    rw [CScript.hasCanonicalPushes, CScript.ops_of_some hop, List.all_cons, Bool.and_left_comm, Bool.and_eq_true]
      at hcanonical
    rw [getOp_canonical hop hcanonical.1, hitem, List.flatMap_cons, ← ih hrest hcanonical.2]

end Canonical

section Extract

variable {getID : CPubKey → CKeyID} {s : CScript}

theorem solver_pubKey_iff {sols : List Bytes} : solver s [] = ⟨true, .TX_PUBKEY, sols⟩ ↔
    ∃ key, KeySize key ∧ s.ParsesAs [.vch key, .opcode OP_CHECKSIG] ∧ sols = [key] := by
  rw [solver_scan (by decide), scan_pubKey, matchTemplate_pubKey, and_iff_right_of_imp]
  rintro ⟨key, -, hparse, -⟩
  exact hparse.not_scriptHash (by simp)

theorem solver_pubKeyHash_iff {sols : List Bytes} : solver s [] = ⟨true, .TX_PUBKEYHASH, sols⟩ ↔
    ∃ hash, hash.length = 20 ∧ s.ParsesAs [.opcode OP_DUP, .opcode OP_HASH160, .vch hash, .opcode OP_EQUALVERIFY,
      .opcode OP_CHECKSIG] ∧ sols = [hash] := by
  rw [solver_scan (by decide), scan_pubKeyHash, matchTemplate_pubKeyHash, ← and_assoc, and_iff_right_of_imp]
  rintro ⟨hash, -, hparse, -⟩
  exact ⟨hparse.not_scriptHash (by decide), not_pubKey_of_parsesAs hparse⟩

theorem solver_scriptHash_iff {sols : List Bytes} : solver s [] = ⟨true, .TX_SCRIPTHASH, sols⟩ ↔
    CScript.isPayToScriptHash s = true ∧ sols = [slice s 2 20] := by
  rw [solver]
  by_cases hp2sh : CScript.isPayToScriptHash s = true
  · rw [if_pos hp2sh, SolverResult.mk.injEq]
    exact ⟨fun h => ⟨hp2sh, h.2.2.symm⟩, fun h => ⟨rfl, rfl, h.2.symm⟩⟩
  · rw [if_neg hp2sh]
    exact iff_of_false (fun h => absurd (scanTemplates_type _ h) (by decide)) fun h => hp2sh h.1

theorem extractDestination_keyID {id : CKeyID} : extractDestination getID s = some (.keyID id) ↔
    (∃ key, KeySize key ∧ s.ParsesAs [.vch key, .opcode OP_CHECKSIG] ∧ id = getID (CPubKey.set key)) ∨
      ∃ hash, hash.length = 20 ∧ s.ParsesAs [.opcode OP_DUP, .opcode OP_HASH160, .vch hash, .opcode OP_EQUALVERIFY,
        .opcode OP_CHECKSIG] ∧ id = uint160 hash := by
  constructor
  · intro h
    rw [extractDestination] at h
    generalize hsolved : solver s [] = solved at h
    obtain ⟨result, type, sols⟩ := solved
    cases result with
    | false => cases h
    | true =>
      cases type with
      | TX_PUBKEY =>
        obtain ⟨key, hkey, hparse, rfl⟩ := solver_pubKey_iff.mp hsolved
        exact .inl ⟨key, hkey, hparse, (CTxDestination.keyID.inj (Option.some.inj h)).symm⟩
      | TX_PUBKEYHASH =>
        obtain ⟨hash, hhash, hparse, rfl⟩ := solver_pubKeyHash_iff.mp hsolved
        exact .inr ⟨hash, hhash, hparse, (CTxDestination.keyID.inj (Option.some.inj h)).symm⟩
      | _ => cases h
  · rintro (⟨key, hkey, hparse, rfl⟩ | ⟨hash, hhash, hparse, rfl⟩)
    · rw [extractDestination, solver_pubKey_iff.mpr ⟨key, hkey, hparse, rfl⟩]
      rfl
    · rw [extractDestination, solver_pubKeyHash_iff.mpr ⟨hash, hhash, hparse, rfl⟩]
      rfl

theorem extractDestination_scriptID {id : BitVec 160} : extractDestination getID s = some (.scriptID id) ↔
    CScript.isPayToScriptHash s = true ∧ id = uint160 (slice s 2 20) := by
  constructor
  · intro h
    rw [extractDestination] at h
    generalize hsolved : solver s [] = solved at h
    obtain ⟨result, type, sols⟩ := solved
    cases result with
    | false => cases h
    | true =>
      cases type with
      | TX_SCRIPTHASH =>
        obtain ⟨hp2sh, rfl⟩ := solver_scriptHash_iff.mp hsolved
        exact ⟨hp2sh, (CTxDestination.scriptID.inj (Option.some.inj h)).symm⟩
      | _ => cases h
  · rintro ⟨hp2sh, rfl⟩
    rw [extractDestination, solver_scriptHash_iff.mpr ⟨hp2sh, rfl⟩]
    rfl

theorem uint160_leBytes (id : BitVec 160) : uint160 (leBytes 20 id.toNat) = id := by
  rw [uint160, leNat_leBytes_of_lt _ _ (by exact id.isLt), BitVec.ofNat_toNat, BitVec.setWidth_eq]

theorem leBytes_uint160 {hash : Bytes} (hlen : hash.length = 20) : leBytes 20 (uint160 hash).toNat = hash := by
  have hlt := leNat_lt hash
  rw [hlen] at hlt
  rw [uint160, BitVec.toNat_ofNat, Nat.mod_eq_of_lt (by exact hlt), ← hlen, leBytes_leNat]

theorem setDestination_scriptID (id : BitVec 160) : CScript.setDestination (.scriptID id) =
    OP_HASH160 :: 0x14 :: (leBytes 20 id.toNat ++ [OP_EQUAL]) := by
  have hpush : CScript.push (leBytes 20 id.toNat) = 0x14 :: leBytes 20 id.toNat := by
    rw [CScript.push, leBytes_length, if_pos (by decide)]
    rfl
  rw [CScript.setDestination, CScript.build_eq]
  simp [ScriptItem.bytes, hpush]

/-- A script that pays to a script hash is the one for this hash. -/
theorem eq_setDestination_of_scriptHash (hp2sh : CScript.isPayToScriptHash s = true) :
    s = CScript.setDestination (.scriptID (uint160 (slice s 2 20))) := by
  simp only [CScript.isPayToScriptHash, Bool.and_eq_true, decide_eq_true_eq, beq_iff_eq] at hp2sh
  obtain ⟨⟨⟨hlen, h0⟩, h1⟩, h22⟩ := hp2sh
  rw [setDestination_scriptID, leBytes_uint160 (slice_length s 2 20 (by omega))]
  apply List.ext_getElem?
  intro i
  rcases i with _ | _ | i
  · exact h0
  · exact h1
  · rw [List.getElem?_cons_succ, List.getElem?_cons_succ, List.getElem?_append, slice_length s 2 20 (by omega)]
    split_ifs with hi
    · rw [slice_eq_getElem? s 2 20 i hi, show i + 1 + 1 = 2 + i by omega]
    · cases hrest : i - 20 with
      | zero =>
        rw [show i + 1 + 1 = 22 by omega]
        exact h22
      | succ j =>
        rw [List.getElem?_eq_none (by omega)]
        rfl

theorem isPayToScriptHash_setDestination (id : BitVec 160) :
    CScript.isPayToScriptHash (CScript.setDestination (.scriptID id)) = true ∧
      slice (CScript.setDestination (.scriptID id)) 2 20 = leBytes 20 id.toNat := by
  have hlen := leBytes_length 20 id.toNat
  rw [setDestination_scriptID]
  generalize leBytes 20 id.toNat = hash at hlen
  constructor
  · have hlast : (OP_HASH160 :: 0x14 :: (hash ++ [OP_EQUAL]))[22]? = some OP_EQUAL := by
      rw [List.getElem?_cons_succ, List.getElem?_cons_succ, List.getElem?_append_right (by omega), hlen]
      rfl
    rw [CScript.isPayToScriptHash, hlast]
    simp [hlen]
  · rw [slice, List.drop_succ_cons, List.drop_succ_cons, List.drop_zero, List.take_left' hlen]

end Extract

end AliasWallet
