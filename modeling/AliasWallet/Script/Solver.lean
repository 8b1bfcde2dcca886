import AliasWallet.Script.Parsing

/-!
# Standard scripts (`script.cpp`)

`Solver` compares a script with templates, in which some opcodes stand for a key, a run of keys, a hash or a small
number. What it accepts is exactly what parses in one of the standard forms.
-/

namespace AliasWallet
open Lib

def OP_0 : UInt8 := 0x00

def OP_DUP : UInt8 := 0x76

def OP_EQUALVERIFY : UInt8 := 0x88

def OP_CHECKSIG : UInt8 := 0xac

def OP_CHECKMULTISIG : UInt8 := 0xae

/-- The opcodes that only stand in templates. -/
def OP_SMALLDATA : UInt8 := 0xf9

def OP_SMALLINTEGER : UInt8 := 0xfa

def OP_PUBKEYS : UInt8 := 0xfb

def OP_PUBKEYHASH : UInt8 := 0xfd

def OP_PUBKEY : UInt8 := 0xfe

def OP_INVALIDOPCODE : UInt8 := 0xff

def MAX_OP_RETURN_RELAY : Nat := 48

/-- `txnouttype`. -/
inductive TxnOutType
  | TX_NONSTANDARD
  | TX_PUBKEY
  | TX_PUBKEYHASH
  | TX_SCRIPTHASH
  | TX_MULTISIG
  | TX_NULL_DATA
  deriving DecidableEq, Repr

/-- The return value of `Solver` with the two arguments that it writes. -/
structure SolverResult where
  result : Bool
  typeRet : TxnOutType
  vSolutionsRet : List Bytes
  deriving DecidableEq, Repr

namespace CScript

/-- The variables after a `GetOp` that failed: it has read what comes before the missing bytes. -/
def getOpFailed : CScript → ScriptOp
  | [] => ⟨OP_INVALIDOPCODE, [], []⟩
  | opcode :: rest => ⟨OP_INVALIDOPCODE, [],
      match operandSize opcode rest with
      | none => rest
      | some (_, rest) => rest⟩

/-- `EncodeOP_N`. -/
def encodeOP_N (n : Nat) : UInt8 := if n = 0 then OP_0 else UInt8.ofNat (n + 0x50)

end CScript

section Templates

/-- `mTemplates`, in the order of a `multimap`. -/
def mTemplates : List (TxnOutType × CScript) :=
  [(.TX_PUBKEY, [OP_PUBKEY, OP_CHECKSIG]),
   (.TX_PUBKEYHASH, [OP_DUP, OP_HASH160, OP_PUBKEYHASH, OP_EQUALVERIFY, OP_CHECKSIG]),
   (.TX_MULTISIG, [OP_SMALLINTEGER, OP_PUBKEYS, OP_SMALLINTEGER, OP_CHECKMULTISIG]),
   (.TX_NULL_DATA, [OP_RETURN]),
   (.TX_NULL_DATA, [OP_RETURN, OP_SMALLDATA]),
   (.TX_NULL_DATA, [OP_RETURN, OP_SMALLDATA, OP_RETURN, OP_SMALLDATA])]

/-- `vch1.size() >= 33 && vch1.size() <= 120`. -/
def KeySize (vch : Bytes) : Prop := 33 ≤ vch.length ∧ vch.length ≤ 120

instance (vch : Bytes) : Decidable (KeySize vch) := inferInstanceAs (Decidable (_ ∧ _))

/-- The loop at `OP_PUBKEYS`: the first operation that is no key, and the solutions with the keys before it. -/
def pubKeysLoop : Nat → ScriptOp → List Bytes → ScriptOp × List Bytes
  | 0, op1, vSolutions => (op1, vSolutions)
  | rounds + 1, op1, vSolutions =>
    if KeySize op1.vch then
      match CScript.getOp op1.rest with
      | none => (CScript.getOpFailed op1.rest, vSolutions ++ [op1.vch])
      | some op => pubKeysLoop rounds op (vSolutions ++ [op1.vch])
    else (op1, vSolutions)

/-- One operation of the script against one of the template; `none` where they do not match. -/
def matchOp (op1 op2 : ScriptOp) (vSolutions : List Bytes) : Option (List Bytes) :=
  if op2.opcode = OP_PUBKEY then
    if KeySize op1.vch then some (vSolutions ++ [op1.vch]) else none
  else if op2.opcode = OP_PUBKEYHASH then
    if op1.vch.length = 20 then some (vSolutions ++ [op1.vch]) else none
  else if op2.opcode = OP_SMALLINTEGER then
    if op1.opcode = OP_0 ∨ OP_1 ≤ op1.opcode ∧ op1.opcode ≤ OP_16
      then some (vSolutions ++ [[UInt8.ofNat (CScript.decodeOP_N op1.opcode)]]) else none
  else if op2.opcode = OP_SMALLDATA then
    if op1.vch.length > MAX_OP_RETURN_RELAY then none else some vSolutions
  else if op1.opcode ≠ op2.opcode ∨ op1.vch ≠ op2.vch then none
  else some vSolutions

/-- The comparison of what is left of a script with what is left of a template. Each round reads from the template. -/
def matchFrom : Nat → CScript → CScript → List Bytes → Option (List Bytes)
  | 0, _, _, _ => none
  | rounds + 1, script1, script2, vSolutions =>
    if script1 = [] ∧ script2 = [] then some vSolutions
    else do
      let op1 ← CScript.getOp script1
      let op2 ← CScript.getOp script2
      if op2.opcode = OP_PUBKEYS then
        let (op1, vSolutions) := pubKeysLoop (op1.rest.length + 1) op1 vSolutions
        let op2 ← CScript.getOp op2.rest
        matchFrom rounds op1.rest op2.rest (← matchOp op1 op2 vSolutions)
      else matchFrom rounds op1.rest op2.rest (← matchOp op1 op2 vSolutions)

/-- The additional checks for `TX_MULTISIG`. -/
def multiSigCounts (vSolutions : List Bytes) : Bool :=
  match vSolutions.head?.bind List.head?, vSolutions.getLast?.bind List.head? with
  | some m, some n => !(decide (m < 1) || decide (n < 1) || decide (m > n) ||
      decide (vSolutions.length - 2 ≠ n.toNat))
  | _, _ => false

/-- The scan over the templates; a multisignature script with wrong counts ends it. -/
def scanTemplates (scriptPubKey : CScript) : List (TxnOutType × CScript) → SolverResult
  | [] => ⟨false, .TX_NONSTANDARD, []⟩
  | (type, script2) :: templates =>
    match matchFrom (script2.length + 1) scriptPubKey script2 [] with
    | some vSolutions =>
      if type = .TX_MULTISIG ∧ ¬ multiSigCounts vSolutions then ⟨false, type, vSolutions⟩
      else ⟨true, type, vSolutions⟩
    | none => scanTemplates scriptPubKey templates

/-- `Solver`; the solution of a script hash is appended to what `vSolutionsRet` holds. -/
def solver (scriptPubKey : CScript) (vSolutionsRet : List Bytes) : SolverResult :=
  if CScript.isPayToScriptHash scriptPubKey then ⟨true, .TX_SCRIPTHASH, vSolutionsRet ++ [slice scriptPubKey 2 20]⟩
  else scanTemplates scriptPubKey mTemplates

end Templates

section Parsed

/-- The script is read to its end as the items. -/
def CScript.ParsesAs (s : CScript) (items : List ScriptItem) : Prop :=
  (CScript.ops s).1.map ScriptOp.item = items ∧ (CScript.ops s).2 = true

variable {s : CScript} {op : ScriptOp} {item : ScriptItem} {items : List ScriptItem}

theorem CScript.parsesAs_nil_iff : s.ParsesAs [] ↔ s = [] := by
  constructor
  · intro h
    by_contra hne
    cases hop : CScript.getOp s with
    | none =>
      have hend := h.2
      rw [CScript.ops_of_none hne hop] at hend
      cases hend
    | some op =>
      have hitems := h.1
      rw [CScript.ops_of_some hop] at hitems
      cases hitems
  · intro h
    rw [h]
    exact ⟨rfl, rfl⟩

theorem CScript.parsesAs_cons_iff :
    s.ParsesAs (item :: items) ↔ ∃ op, CScript.getOp s = some op ∧ op.item = item ∧ op.rest.ParsesAs items := by
  constructor
  · intro h
    have hne : s ≠ [] := by
      intro hs
      rw [hs] at h
      exact absurd h.1 (by simp)
    cases hop : CScript.getOp s with
    | none =>
      have hend := h.2
      rw [CScript.ops_of_none hne hop] at hend
      cases hend
    | some op =>
      have hitems := h.1
      have hend := h.2
      rw [CScript.ops_of_some hop] at hitems hend
      obtain ⟨hitem, hrest⟩ := List.cons.inj hitems
      exact ⟨op, rfl, hitem, hrest, hend⟩
  · intro h
    obtain ⟨op, hop, hitem, hrest, hend⟩ := h
    rw [CScript.ParsesAs, CScript.ops_of_some hop]
    exact ⟨by rw [List.map_cons, hitem, hrest], hend⟩

theorem CScript.parsesAs_of_getOp (hop : CScript.getOp s = some op) :
    s.ParsesAs (item :: items) ↔ op.item = item ∧ op.rest.ParsesAs items := by
  rw [CScript.parsesAs_cons_iff]
  constructor
  · intro h
    obtain ⟨op', hop', hparse⟩ := h
    obtain rfl := Option.some.inj (hop.symm.trans hop')
    exact hparse
  · exact fun h => ⟨op, hop, h⟩

theorem CScript.not_parsesAs_of_none (hop : CScript.getOp s = none) : ¬ s.ParsesAs (item :: items) := by
  intro h
  obtain ⟨op, hop', -⟩ := CScript.parsesAs_cons_iff.mp h
  rw [hop] at hop'
  cases hop'

/-- Only a push has an operand. -/
theorem CScript.getOp_vch (h : CScript.getOp s = some op) (hop : OP_PUSHDATA4 < op.opcode) : op.vch = [] := by
  cases s with
  | nil => cases h
  | cons opcode rest =>
    rw [CScript.getOp] at h
    by_cases hbig : opcode > OP_PUSHDATA4
    · rw [if_pos hbig] at h
      obtain rfl := Option.some.inj h
      rfl
    · rw [if_neg hbig, Option.bind_eq_bind, Option.bind_eq_some_iff] at h
      obtain ⟨found, -, h⟩ := h
      dsimp only at h
      split at h
      · cases h
      · obtain rfl := Option.some.inj h
        exact absurd hop hbig

theorem ScriptOp.item_vch {b : Bytes} : op.item = .vch b ↔ op.opcode ≤ OP_PUSHDATA4 ∧ op.vch = b := by
  rw [ScriptOp.item]
  by_cases h : op.opcode ≤ OP_PUSHDATA4
  · rw [if_pos h, ScriptItem.vch.injEq]
    exact (and_iff_right h).symm
  · rw [if_neg h]
    constructor
    · exact fun h => nomatch h
    · exact fun hpush => absurd hpush.1 h

theorem ScriptOp.item_opcode {b : UInt8} : op.item = .opcode b ↔ OP_PUSHDATA4 < op.opcode ∧ op.opcode = b := by
  rw [ScriptOp.item]
  by_cases h : op.opcode ≤ OP_PUSHDATA4
  · rw [if_pos h]
    constructor
    · exact fun h => nomatch h
    · exact fun hbig => absurd hbig.1 (UInt8.not_lt.mpr h)
  · rw [if_neg h, ScriptItem.opcode.injEq]
    exact (and_iff_right (UInt8.not_le.mp h)).symm

/-- An operation with bytes is a push of them. -/
theorem CScript.getOp_item_vch (h : CScript.getOp s = some op) (hop : op.vch ≠ []) : op.item = .vch op.vch := by
  apply ScriptOp.item_vch.mpr
  refine ⟨?_, rfl⟩
  by_contra hbig
  exact hop (CScript.getOp_vch h (UInt8.not_le.mp hbig))

end Parsed

section Matching

variable {script1 : CScript} {op1 : ScriptOp} {t : UInt8} {vSolutions sols : List Bytes}

theorem KeySize.ne_nil {vch : Bytes} (h : KeySize vch) : vch ≠ [] := by
  intro hnil
  rw [hnil] at h
  exact absurd h.1 (by simp)

theorem matchOp_pubKey {rest : CScript} (hop : CScript.getOp script1 = some op1) :
    matchOp op1 ⟨OP_PUBKEY, [], rest⟩ vSolutions = some sols ↔
      ∃ key, op1.item = .vch key ∧ KeySize key ∧ sols = vSolutions ++ [key] := by
  rw [matchOp, if_pos rfl]
  by_cases hkey : KeySize op1.vch
  · rw [if_pos hkey, CScript.getOp_item_vch hop hkey.ne_nil]
    constructor
    · intro h
      exact ⟨op1.vch, rfl, hkey, (Option.some.inj h).symm⟩
    · intro h
      obtain ⟨key, hitem, -, rfl⟩ := h
      rw [ScriptItem.vch.inj hitem]
  · rw [if_neg hkey]
    constructor
    · exact fun h => nomatch h
    · intro h
      obtain ⟨key, hitem, hsize, -⟩ := h
      rw [← (ScriptOp.item_vch.mp hitem).2] at hsize
      exact absurd hsize hkey

theorem matchOp_pubKeyHash {rest : CScript} (hop : CScript.getOp script1 = some op1) :
    matchOp op1 ⟨OP_PUBKEYHASH, [], rest⟩ vSolutions = some sols ↔
      ∃ hash, op1.item = .vch hash ∧ hash.length = 20 ∧ sols = vSolutions ++ [hash] := by
  have hother : OP_PUBKEYHASH ≠ OP_PUBKEY := by decide
  rw [matchOp, if_neg hother, if_pos rfl]
  by_cases hhash : op1.vch.length = 20
  · rw [if_pos hhash, CScript.getOp_item_vch hop (by intro hnil; rw [hnil] at hhash; cases hhash)]
    constructor
    · intro h
      exact ⟨op1.vch, rfl, hhash, (Option.some.inj h).symm⟩
    · intro h
      obtain ⟨hash, hitem, -, rfl⟩ := h
      rw [ScriptItem.vch.inj hitem]
  · rw [if_neg hhash]
    constructor
    · exact fun h => nomatch h
    · intro h
      obtain ⟨hash, hitem, hsize, -⟩ := h
      rw [← (ScriptOp.item_vch.mp hitem).2] at hsize
      exact absurd hsize hhash

/-- The opcodes of a template that stand for themselves. -/
def PlainOpcode (t : UInt8) : Prop :=
  OP_PUSHDATA4 < t ∧ t ≠ OP_PUBKEYS ∧ t ≠ OP_PUBKEY ∧ t ≠ OP_PUBKEYHASH ∧ t ≠ OP_SMALLINTEGER ∧ t ≠ OP_SMALLDATA

theorem matchOp_plain {rest : CScript} (ht : PlainOpcode t) (hop : CScript.getOp script1 = some op1) :
    matchOp op1 ⟨t, [], rest⟩ vSolutions = some sols ↔ op1.item = .opcode t ∧ sols = vSolutions := by
  obtain ⟨hbig, -, hkey, hhash, hsmall, hdata⟩ := ht
  rw [matchOp, if_neg hkey, if_neg hhash, if_neg hsmall, if_neg hdata, ScriptOp.item_opcode]
  dsimp only
  by_cases heq : op1.opcode = t
  · have hvch := CScript.getOp_vch hop (heq ▸ hbig)
    rw [if_neg (not_or.mpr ⟨not_not_intro heq, not_not_intro hvch⟩), Option.some.injEq]
    exact ⟨fun h => ⟨⟨heq ▸ hbig, heq⟩, h.symm⟩, fun h => h.2.symm⟩
  · rw [if_pos (.inl heq)]
    exact ⟨(fun h => nomatch h), fun h => absurd h.1.2 heq⟩

theorem decodeOP_N_encodeOP_N {n : Nat} (hn : n ≤ 16) : CScript.decodeOP_N (CScript.encodeOP_N n) = n := by
  have hall : ∀ k : Fin 17, CScript.decodeOP_N (CScript.encodeOP_N k.val) = k.val := by decide
  exact hall ⟨n, by omega⟩

theorem smallInteger_iff {opcode : UInt8} :
    opcode = OP_0 ∨ OP_1 ≤ opcode ∧ opcode ≤ OP_16 ↔ ∃ n ≤ 16, opcode = CScript.encodeOP_N n := by
  constructor
  · intro h
    cases h with
    | inl hzero => exact ⟨0, by omega, hzero⟩
    | inr hrange =>
      have hlow : 81 ≤ opcode.toNat := UInt8.le_iff_toNat_le.mp hrange.1
      have hhigh : opcode.toNat ≤ 96 := UInt8.le_iff_toNat_le.mp hrange.2
      refine ⟨opcode.toNat - 80, by omega, ?_⟩
      rw [CScript.encodeOP_N, if_neg (by omega), Nat.sub_add_cancel (by omega), UInt8.ofNat_toNat]
  · intro h
    obtain ⟨n, hn, rfl⟩ := h
    have hall : ∀ k : Fin 17, CScript.encodeOP_N k.val = OP_0 ∨
        OP_1 ≤ CScript.encodeOP_N k.val ∧ CScript.encodeOP_N k.val ≤ OP_16 := by decide
    exact hall ⟨n, by omega⟩

/-- A small number: `OP_0` or one of `OP_1` to `OP_16`. -/
theorem matchOp_smallInteger {rest : CScript} :
    matchOp op1 ⟨OP_SMALLINTEGER, [], rest⟩ vSolutions = some sols ↔
      ∃ n ≤ 16, op1.opcode = CScript.encodeOP_N n ∧ sols = vSolutions ++ [[UInt8.ofNat n]] := by
  have hkey : OP_SMALLINTEGER ≠ OP_PUBKEY := by decide
  have hhash : OP_SMALLINTEGER ≠ OP_PUBKEYHASH := by decide
  rw [matchOp, if_neg hkey, if_neg hhash, if_pos rfl]
  by_cases hsmall : op1.opcode = OP_0 ∨ OP_1 ≤ op1.opcode ∧ op1.opcode ≤ OP_16
  · obtain ⟨n, hn, hopcode⟩ := smallInteger_iff.mp hsmall
    rw [if_pos hsmall, hopcode, decodeOP_N_encodeOP_N hn]
    constructor
    · intro h
      exact ⟨n, hn, rfl, (Option.some.inj h).symm⟩
    · intro h
      obtain ⟨m, hm, heq, rfl⟩ := h
      have hvalue := congrArg CScript.decodeOP_N heq
      rw [decodeOP_N_encodeOP_N hn, decodeOP_N_encodeOP_N hm] at hvalue
      rw [hvalue]
  · rw [if_neg hsmall]
    constructor
    · exact fun h => nomatch h
    · intro h
      obtain ⟨n, hn, hopcode, -⟩ := h
      exact absurd (smallInteger_iff.mpr ⟨n, hn, hopcode⟩) hsmall

theorem getOp_template (ht : OP_PUSHDATA4 < t) (script2 : CScript) :
    CScript.getOp (t :: script2) = some ⟨t, [], script2⟩ := by
  rw [CScript.getOp, if_pos ht]

theorem matchFrom_nil (rounds : Nat) : matchFrom (rounds + 1) script1 [] vSolutions = some sols ↔
    script1 = [] ∧ sols = vSolutions := by
  rw [matchFrom]
  by_cases hend : script1 = []
  · rw [if_pos ⟨hend, rfl⟩, Option.some.injEq]
    exact ⟨fun h => ⟨hend, h.symm⟩, fun h => h.2.symm⟩
  · have hnone : CScript.getOp [] = none := rfl
    rw [if_neg (fun h => hend h.1), hnone]
    constructor
    · intro h
      cases hop : CScript.getOp script1 with
      | none =>
        rw [hop] at h
        cases h
      | some op =>
        rw [hop] at h
        cases h
    · exact fun h => absurd h.1 hend

/-- A round at an opcode of the template that stands for one operation. -/
theorem matchFrom_cons (ht : OP_PUSHDATA4 < t) (hkeys : t ≠ OP_PUBKEYS) (rounds : Nat) (script2 : CScript) :
    matchFrom (rounds + 1) script1 (t :: script2) vSolutions = some sols ↔
      ∃ op1 sols', CScript.getOp script1 = some op1 ∧ matchOp op1 ⟨t, [], script2⟩ vSolutions = some sols' ∧
        matchFrom rounds op1.rest script2 sols' = some sols := by
  rw [matchFrom, if_neg (by simp), getOp_template ht]
  simp only [Option.bind_eq_bind, Option.bind_some, if_neg hkeys, Option.bind_eq_some_iff]
  constructor
  · intro h
    obtain ⟨op1, hop, sols', hmatch, hrest⟩ := h
    exact ⟨op1, sols', hop, hmatch, hrest⟩
  · intro h
    obtain ⟨op1, sols', hop, hmatch, hrest⟩ := h
    exact ⟨op1, hop, sols', hmatch, hrest⟩

/-- A round at `OP_PUBKEYS`, which goes on with the next opcode of the template. -/
theorem matchFrom_pubKeys (ht : OP_PUSHDATA4 < t) (rounds : Nat) (script2 : CScript) :
    matchFrom (rounds + 1) script1 (OP_PUBKEYS :: t :: script2) vSolutions = some sols ↔
      ∃ op1 sols', CScript.getOp script1 = some op1 ∧
        matchOp (pubKeysLoop (op1.rest.length + 1) op1 vSolutions).1 ⟨t, [], script2⟩
          (pubKeysLoop (op1.rest.length + 1) op1 vSolutions).2 = some sols' ∧
        matchFrom rounds (pubKeysLoop (op1.rest.length + 1) op1 vSolutions).1.rest script2 sols' = some sols := by
  have hpubKeys : OP_PUSHDATA4 < OP_PUBKEYS := by decide
  rw [matchFrom, if_neg (by simp), getOp_template hpubKeys]
  simp only [Option.bind_eq_bind, Option.bind_some, if_true, getOp_template ht, Option.bind_eq_some_iff]
  constructor
  · intro h
    obtain ⟨op1, hop, sols', hmatch, hrest⟩ := h
    exact ⟨op1, sols', hop, hmatch, hrest⟩
  · intro h
    obtain ⟨op1, sols', hop, hmatch, hrest⟩ := h
    exact ⟨op1, hop, sols', hmatch, hrest⟩

/-- The solutions before the keys are kept. -/
theorem pubKeysLoop_append (rounds : Nat) (op1 : ScriptOp) (vSolutions : List Bytes) :
    pubKeysLoop rounds op1 vSolutions =
      ((pubKeysLoop rounds op1 []).1, vSolutions ++ (pubKeysLoop rounds op1 []).2) := by
  induction rounds generalizing op1 vSolutions with
  | zero => rw [pubKeysLoop, pubKeysLoop, List.append_nil]
  | succ rounds ih =>
    rw [pubKeysLoop, pubKeysLoop]
    by_cases hkey : KeySize op1.vch
    · rw [if_pos hkey, if_pos hkey]
      cases CScript.getOp op1.rest with
      | none => rfl
      | some op =>
        dsimp only
        rw [ih op (vSolutions ++ [op1.vch]), ih op ([] ++ [op1.vch]), List.nil_append, List.append_assoc]
    · rw [if_neg hkey, if_neg hkey, List.append_nil]

/-- The loop stops at an item that is no key, behind the keys. -/
theorem pubKeysLoop_iff {item : ScriptItem} {items : List ScriptItem} (hvalid : item ≠ .opcode OP_INVALIDOPCODE)
    (hother : ∀ key, KeySize key → item ≠ .vch key) (rounds : Nat) (hop : CScript.getOp script1 = some op1)
    (hrounds : op1.rest.length < rounds) (keys : List Bytes) :
    ((pubKeysLoop rounds op1 []).1.item = item ∧ (pubKeysLoop rounds op1 []).1.rest.ParsesAs items ∧
        (pubKeysLoop rounds op1 []).2 = keys) ↔
      (∀ key ∈ keys, KeySize key) ∧ script1.ParsesAs (keys.map .vch ++ item :: items) := by
  induction rounds generalizing script1 op1 keys with
  | zero => exact absurd hrounds (Nat.not_lt_zero _)
  | succ rounds ih =>
    rw [pubKeysLoop]
    by_cases hkey : KeySize op1.vch
    · have hpush := CScript.getOp_item_vch hop hkey.ne_nil
      rw [if_pos hkey]
      cases keys with
      | nil =>
        have hkept : (match CScript.getOp op1.rest with
            | none => (CScript.getOpFailed op1.rest, [] ++ [op1.vch])
            | some op => pubKeysLoop rounds op ([] ++ [op1.vch])).2 ≠ [] := by
          cases CScript.getOp op1.rest with
          | none => exact List.cons_ne_nil _ _
          | some op =>
            dsimp only
            rw [pubKeysLoop_append]
            exact List.cons_ne_nil _ _
        show _ ↔ _ ∧ script1.ParsesAs (item :: items)
        rw [CScript.parsesAs_of_getOp hop, hpush]
        exact ⟨fun h => absurd h.2.2 hkept, fun h => absurd h.2.1.symm (hother _ hkey)⟩
      | cons key keys =>
        rw [List.map_cons, List.cons_append, CScript.parsesAs_of_getOp hop, hpush, ScriptItem.vch.injEq,
          List.forall_mem_cons]
        cases hnext : CScript.getOp op1.rest with
        | none =>
          have hfailed : (CScript.getOpFailed op1.rest).item = .opcode OP_INVALIDOPCODE := by
            cases op1.rest <;> rfl
          dsimp only
          constructor
          · exact fun h => absurd (h.1.symm.trans hfailed) hvalid
          · intro h
            cases keys with
            | nil => exact absurd h.2.2 (CScript.not_parsesAs_of_none hnext)
            | cons key' keys => exact absurd h.2.2 (CScript.not_parsesAs_of_none hnext)
        | some op =>
          have hlen := CScript.getOp_rest hnext
          have hlater := ih hnext (by omega) keys
          dsimp only
          rw [pubKeysLoop_append rounds op ([] ++ [op1.vch])]
          dsimp only
          rw [List.nil_append, List.singleton_append, List.cons.injEq]
          constructor
          · intro h
            obtain ⟨hitem, hitems, rfl, hkeys⟩ := h
            obtain ⟨hsizes, hparse⟩ := hlater.mp ⟨hitem, hitems, hkeys⟩
            exact ⟨⟨hkey, hsizes⟩, rfl, hparse⟩
          · intro h
            obtain ⟨⟨-, hsizes⟩, hvch, hparse⟩ := h
            obtain ⟨hitem, hitems, hkeys⟩ := hlater.mpr ⟨hsizes, hparse⟩
            exact ⟨hitem, hitems, hvch, hkeys⟩
    · rw [if_neg hkey]
      dsimp only
      cases keys with
      | nil =>
        show _ ↔ _ ∧ script1.ParsesAs (item :: items)
        rw [CScript.parsesAs_of_getOp hop]
        exact ⟨fun h => ⟨fun _ hmem => absurd hmem List.not_mem_nil, h.1, h.2.1⟩, fun h => ⟨h.2.1, h.2.2, rfl⟩⟩
      | cons key keys =>
        rw [List.map_cons, List.cons_append, CScript.parsesAs_of_getOp hop]
        constructor
        · exact fun h => nomatch h.2.2
        · intro h
          rw [(ScriptOp.item_vch.mp h.2.1).2] at hkey
          exact absurd (h.1 key List.mem_cons_self) hkey

theorem matchFrom_plain (ht : PlainOpcode t) (rounds : Nat) (script2 : CScript) :
    matchFrom (rounds + 1) script1 (t :: script2) vSolutions = some sols ↔
      ∃ op1, CScript.getOp script1 = some op1 ∧ op1.item = .opcode t ∧
        matchFrom rounds op1.rest script2 vSolutions = some sols := by
  rw [matchFrom_cons ht.1 ht.2.1]
  constructor
  · intro h
    obtain ⟨op1, sols', hop, hmatch, hrest⟩ := h
    obtain ⟨hitem, rfl⟩ := (matchOp_plain ht hop).mp hmatch
    exact ⟨op1, hop, hitem, hrest⟩
  · intro h
    obtain ⟨op1, hop, hitem, hrest⟩ := h
    exact ⟨op1, vSolutions, hop, (matchOp_plain ht hop).mpr ⟨hitem, rfl⟩, hrest⟩

/-- The end of a template: opcodes that stand for themselves. -/
theorem matchFrom_plains (opcodes : List UInt8) (hplain : ∀ t ∈ opcodes, PlainOpcode t) (rounds : Nat)
    (hrounds : opcodes.length < rounds) :
    matchFrom rounds script1 opcodes vSolutions = some sols ↔
      script1.ParsesAs (opcodes.map .opcode) ∧ sols = vSolutions := by
  induction opcodes generalizing script1 rounds with
  | nil =>
    obtain ⟨rounds, rfl⟩ := Nat.exists_eq_add_one_of_ne_zero (Nat.ne_of_gt hrounds)
    rw [matchFrom_nil, List.map_nil, CScript.parsesAs_nil_iff]
  | cons t opcodes ih =>
    have hplain' := List.forall_mem_cons.mp hplain
    rw [List.length_cons] at hrounds
    obtain ⟨rounds, rfl⟩ : ∃ n, rounds = n + 1 := ⟨rounds - 1, by omega⟩
    rw [matchFrom_plain hplain'.1, List.map_cons, CScript.parsesAs_cons_iff]
    constructor
    · intro h
      obtain ⟨op1, hop, hitem, hrest⟩ := h
      obtain ⟨hparse, hsols⟩ := (ih hplain'.2 rounds (by omega)).mp hrest
      exact ⟨⟨op1, hop, hitem, hparse⟩, hsols⟩
    · intro h
      obtain ⟨⟨op1, hop, hitem, hparse⟩, hsols⟩ := h
      exact ⟨op1, hop, hitem, (ih hplain'.2 rounds (by omega)).mpr ⟨hparse, hsols⟩⟩

instance (t : UInt8) : Decidable (PlainOpcode t) := inferInstanceAs (Decidable (_ ∧ _))

theorem matchTemplate_pubKey :
    matchFrom 3 script1 [OP_PUBKEY, OP_CHECKSIG] [] = some sols ↔
      ∃ key, KeySize key ∧ script1.ParsesAs [.vch key, .opcode OP_CHECKSIG] ∧ sols = [key] := by
  have hplain : ∀ t ∈ [OP_CHECKSIG], PlainOpcode t := by decide +kernel
  rw [matchFrom_cons (by decide) (by decide)]
  constructor
  · intro h
    obtain ⟨op1, sols', hop, hmatch, hrest⟩ := h
    obtain ⟨key, hitem, hsize, rfl⟩ := (matchOp_pubKey hop).mp hmatch
    obtain ⟨hparse, hsols⟩ := (matchFrom_plains _ hplain 2 (by decide)).mp hrest
    exact ⟨key, hsize, CScript.parsesAs_cons_iff.mpr ⟨op1, hop, hitem, hparse⟩, hsols⟩
  · intro h
    obtain ⟨key, hsize, hparse, rfl⟩ := h
    obtain ⟨op1, hop, hitem, hrest⟩ := CScript.parsesAs_cons_iff.mp hparse
    exact ⟨op1, [key], hop, (matchOp_pubKey hop).mpr ⟨key, hitem, hsize, rfl⟩,
      (matchFrom_plains _ hplain 2 (by decide)).mpr ⟨hrest, rfl⟩⟩

theorem matchTemplate_pubKeyHash :
    matchFrom 6 script1 [OP_DUP, OP_HASH160, OP_PUBKEYHASH, OP_EQUALVERIFY, OP_CHECKSIG] [] = some sols ↔
      ∃ hash, hash.length = 20 ∧ script1.ParsesAs
        [.opcode OP_DUP, .opcode OP_HASH160, .vch hash, .opcode OP_EQUALVERIFY, .opcode OP_CHECKSIG] ∧
        sols = [hash] := by
  have hplain : ∀ t ∈ [OP_EQUALVERIFY, OP_CHECKSIG], PlainOpcode t := by decide +kernel
  rw [matchFrom_plain (by decide)]
  constructor
  · intro h
    obtain ⟨op1, hop1, hitem1, h⟩ := h
    obtain ⟨op2, hop2, hitem2, h⟩ := (matchFrom_plain (by decide) 4 _).mp h
    obtain ⟨op3, sols', hop3, hmatch, hrest⟩ := (matchFrom_cons (by decide) (by decide) 3 _).mp h
    obtain ⟨hash, hitem3, hsize, rfl⟩ := (matchOp_pubKeyHash hop3).mp hmatch
    obtain ⟨hparse, hsols⟩ := (matchFrom_plains _ hplain 3 (by decide)).mp hrest
    refine ⟨hash, hsize, ?_, hsols⟩
    rw [CScript.parsesAs_of_getOp hop1, CScript.parsesAs_of_getOp hop2, CScript.parsesAs_of_getOp hop3]
    exact ⟨hitem1, hitem2, hitem3, hparse⟩
  · intro h
    obtain ⟨hash, hsize, hparse, rfl⟩ := h
    obtain ⟨op1, hop1, hitem1, hparse⟩ := CScript.parsesAs_cons_iff.mp hparse
    obtain ⟨op2, hop2, hitem2, hparse⟩ := CScript.parsesAs_cons_iff.mp hparse
    obtain ⟨op3, hop3, hitem3, hparse⟩ := CScript.parsesAs_cons_iff.mp hparse
    refine ⟨op1, hop1, hitem1, (matchFrom_plain (by decide) 4 _).mpr ⟨op2, hop2, hitem2, ?_⟩⟩
    exact (matchFrom_cons (by decide) (by decide) 3 _).mpr
      ⟨op3, [hash], hop3, (matchOp_pubKeyHash hop3).mpr ⟨hash, hitem3, hsize, rfl⟩,
        (matchFrom_plains _ hplain 3 (by decide)).mpr ⟨hparse, rfl⟩⟩

theorem multiSigCounts_iff {m n : Nat} (hm : m ≤ 16) (hn : n ≤ 16) (keys : List Bytes) :
    multiSigCounts ([UInt8.ofNat m] :: (keys ++ [[UInt8.ofNat n]])) = true ↔
      1 ≤ m ∧ m ≤ n ∧ keys.length = n := by
  have hm' : (UInt8.ofNat m).toNat = m := by rw [UInt8.toNat_ofNat']; omega
  have hn' : (UInt8.ofNat n).toNat = n := by rw [UInt8.toNat_ofNat']; omega
  have hlast : ([UInt8.ofNat m] :: (keys ++ [[UInt8.ofNat n]])).getLast? = some [UInt8.ofNat n] := by
    rw [← List.cons_append, List.getLast?_append]
    rfl
  rw [multiSigCounts, hlast]
  show (!(decide (UInt8.ofNat m < 1) || decide (UInt8.ofNat n < 1) || decide (UInt8.ofNat m > UInt8.ofNat n) ||
    decide (([UInt8.ofNat m] :: (keys ++ [[UInt8.ofNat n]])).length - 2 ≠ (UInt8.ofNat n).toNat))) = true ↔ _
  have hone : (1 : UInt8).toNat = 1 := rfl
  have hsize : ([UInt8.ofNat m] :: (keys ++ [[UInt8.ofNat n]])).length - 2 = keys.length := by
    simp only [List.length_cons, List.length_append, List.length_nil]
    omega
  simp only [Bool.not_eq_true', Bool.or_eq_false_iff, decide_eq_false_iff_not, UInt8.lt_iff_toNat_lt, hm', hn', hone,
    hsize, gt_iff_lt, not_not]
  omega

theorem encodeOP_N_item {op : ScriptOp} {n : Nat} (hpos : 1 ≤ n) (hn : n ≤ 16) :
    op.item = .opcode (CScript.encodeOP_N n) ↔ op.opcode = CScript.encodeOP_N n := by
  have hall : ∀ k : Fin 16, OP_PUSHDATA4 < CScript.encodeOP_N (k.val + 1) := by decide
  have hbig := hall ⟨n - 1, by omega⟩
  rw [Nat.sub_add_cancel hpos] at hbig
  rw [ScriptOp.item_opcode]
  exact ⟨fun h => h.2, fun h => ⟨h ▸ hbig, h⟩⟩

theorem encodeOP_N_ne_invalid {n : Nat} (hn : n ≤ 16) : CScript.encodeOP_N n ≠ OP_INVALIDOPCODE := by
  have hall : ∀ k : Fin 17, CScript.encodeOP_N k.val ≠ OP_INVALIDOPCODE := by decide
  exact hall ⟨n, by omega⟩

/-- The items of a multisignature script. -/
def multiSigItems (m n : Nat) (keys : List Bytes) : List ScriptItem :=
  .opcode (CScript.encodeOP_N m) ::
    (keys.map .vch ++ [.opcode (CScript.encodeOP_N n), .opcode OP_CHECKMULTISIG])

theorem matchTemplate_multiSig :
    (matchFrom 5 script1 [OP_SMALLINTEGER, OP_PUBKEYS, OP_SMALLINTEGER, OP_CHECKMULTISIG] [] = some sols ∧
        multiSigCounts sols = true) ↔
      ∃ m n keys, 1 ≤ m ∧ m ≤ n ∧ n ≤ 16 ∧ keys.length = n ∧ (∀ key ∈ keys, KeySize key) ∧
        script1.ParsesAs (multiSigItems m n keys) ∧ sols = [UInt8.ofNat m] :: (keys ++ [[UInt8.ofNat n]]) := by
  have hplain : ∀ t ∈ [OP_CHECKMULTISIG], PlainOpcode t := by decide +kernel
  rw [matchFrom_cons (by decide) (by decide)]
  constructor
  · intro h
    obtain ⟨⟨op1, sols1, hop1, hmatch1, h⟩, hcounts⟩ := h
    obtain ⟨m, hm, hopcode1, rfl⟩ := matchOp_smallInteger.mp hmatch1
    obtain ⟨op2, sols2, hop2, hmatch2, h⟩ := (matchFrom_pubKeys (by decide) 3 _).mp h
    rw [pubKeysLoop_append] at hmatch2 h
    obtain ⟨n, hn, hopcode2, rfl⟩ := matchOp_smallInteger.mp hmatch2
    obtain ⟨hend, rfl⟩ := (matchFrom_plains _ hplain 3 (by decide)).mp h
    obtain ⟨hpos, hle, hlen⟩ := (multiSigCounts_iff hm hn _).mp hcounts
    have hkeys := (pubKeysLoop_iff (fun h => encodeOP_N_ne_invalid hn (ScriptItem.opcode.inj h))
      (fun _ _ h => nomatch h) _ hop2 (Nat.lt_succ_self _) _).mp
      ⟨(encodeOP_N_item (by omega) hn).mpr hopcode2, hend, rfl⟩
    refine ⟨m, n, _, hpos, hle, hn, hlen, hkeys.1, ?_, rfl⟩
    rw [multiSigItems, CScript.parsesAs_of_getOp hop1]
    exact ⟨(encodeOP_N_item hpos hm).mpr hopcode1, hkeys.2⟩
  · intro h
    obtain ⟨m, n, keys, hpos, hle, hn, hlen, hsizes, hparse, rfl⟩ := h
    obtain ⟨op1, hop1, hitem1, hrest⟩ := CScript.parsesAs_cons_iff.mp hparse
    refine ⟨⟨op1, [[UInt8.ofNat m]], hop1, matchOp_smallInteger.mpr
      ⟨m, by omega, (encodeOP_N_item hpos (by omega)).mp hitem1, rfl⟩, ?_⟩,
      (multiSigCounts_iff (by omega) hn keys).mpr ⟨hpos, hle, hlen⟩⟩
    obtain ⟨op2, hop2⟩ : ∃ op2, CScript.getOp op1.rest = some op2 := by
      cases keys with
      | nil =>
        obtain ⟨op2, hop2, -⟩ := CScript.parsesAs_cons_iff.mp hrest
        exact ⟨op2, hop2⟩
      | cons key keys =>
        obtain ⟨op2, hop2, -⟩ := CScript.parsesAs_cons_iff.mp hrest
        exact ⟨op2, hop2⟩
    obtain ⟨hitem, hend, hkeys⟩ := (pubKeysLoop_iff
      (fun h => encodeOP_N_ne_invalid hn (ScriptItem.opcode.inj h)) (fun _ _ h => nomatch h) _ hop2
      (Nat.lt_succ_self _) keys).mpr ⟨hsizes, hrest⟩
    apply (matchFrom_pubKeys (by decide) 3 _).mpr
    refine ⟨op2, _, hop2, matchOp_smallInteger.mpr ⟨n, hn, ?_, rfl⟩, ?_⟩
    · rw [pubKeysLoop_append]
      exact (encodeOP_N_item (by omega) hn).mp hitem
    · rw [pubKeysLoop_append]
      apply (matchFrom_plains _ hplain 3 (by decide)).mpr
      refine ⟨hend, ?_⟩
      rw [hkeys]
      rfl

end Matching

section Standard

variable {s : CScript} {item : ScriptItem} {items items' : List ScriptItem} {sols : List Bytes} {type : TxnOutType}

theorem CScript.ParsesAs.unique (h : s.ParsesAs items) (h' : s.ParsesAs items') : items = items' :=
  h.1.symm.trans h'.1

theorem CScript.ParsesAs.not_scriptHash (h : s.ParsesAs (item :: items)) (hitem : item ≠ .opcode OP_HASH160) :
    ¬ CScript.isPayToScriptHash s = true := by
  intro hp2sh
  obtain ⟨op, hop, hfirst, -⟩ := CScript.parsesAs_cons_iff.mp h
  rw [CScript.isPayToScriptHash, Bool.and_eq_true, Bool.and_eq_true, Bool.and_eq_true, beq_iff_eq] at hp2sh
  cases s with
  | nil => exact absurd hp2sh.1.1.2 (by simp)
  | cons b rest =>
    obtain rfl : b = OP_HASH160 := Option.some.inj hp2sh.1.1.2
    rw [getOp_template (by decide)] at hop
    obtain rfl := Option.some.inj hop
    exact hitem hfirst.symm

theorem scanTemplates_cons (script2 : CScript) (type' : TxnOutType) (templates : List (TxnOutType × CScript)) :
    scanTemplates s ((type', script2) :: templates) = ⟨true, type, sols⟩ ↔
      (type' = type ∧ matchFrom (script2.length + 1) s script2 [] = some sols ∧
          (type' = .TX_MULTISIG → multiSigCounts sols = true)) ∨
        (matchFrom (script2.length + 1) s script2 [] = none ∧ scanTemplates s templates = ⟨true, type, sols⟩) := by
  rw [scanTemplates]
  cases hmatch : matchFrom (script2.length + 1) s script2 [] with
  | none => simp
  | some sols' =>
    dsimp only
    by_cases hcounts : type' = .TX_MULTISIG ∧ ¬ multiSigCounts sols' = true
    · rw [if_pos hcounts]
      constructor
      · exact fun h => nomatch h
      · intro h
        cases h with
        | inl h =>
          obtain rfl := Option.some.inj h.2.1
          exact absurd (h.2.2 hcounts.1) hcounts.2
        | inr h => exact nomatch h.1
    · rw [if_neg hcounts]
      constructor
      · intro h
        cases h
        exact .inl ⟨rfl, rfl, fun htype => by_contra fun hbad => hcounts ⟨htype, hbad⟩⟩
      · intro h
        cases h with
        | inl h => rw [h.1, Option.some.inj h.2.1]
        | inr h => exact nomatch h.1

/-- A script is found under a type that a template has. -/
theorem scanTemplates_type (templates : List (TxnOutType × CScript))
    (h : scanTemplates s templates = ⟨true, type, sols⟩) : type ∈ templates.map Prod.fst := by
  induction templates with
  | nil => cases h
  | cons tplate templates ih =>
    obtain ⟨type', script2⟩ := tplate
    cases (scanTemplates_cons script2 type' templates).mp h with
    | inl h => exact h.1 ▸ List.mem_cons_self
    | inr h => exact List.mem_cons_of_mem _ (ih h.2)

theorem matchFrom_eq_none {rounds : Nat} {script2 : CScript}
    (h : ∀ sols, ¬ matchFrom rounds s script2 [] = some sols) : matchFrom rounds s script2 [] = none :=
  Option.eq_none_iff_forall_ne_some.mpr h

theorem solver_scan (htype : type ≠ .TX_SCRIPTHASH) (vSolutions : List Bytes) :
    solver s vSolutions = ⟨true, type, sols⟩ ↔
      ¬ CScript.isPayToScriptHash s = true ∧ scanTemplates s mTemplates = ⟨true, type, sols⟩ := by
  rw [solver]
  by_cases hp2sh : CScript.isPayToScriptHash s = true
  · rw [if_pos hp2sh]
    constructor
    · intro h
      cases h
      exact absurd rfl htype
    · exact fun h => absurd hp2sh h.1
  · rw [if_neg hp2sh]
    exact (and_iff_right hp2sh).symm

theorem scan_pubKey :
    scanTemplates s mTemplates = ⟨true, .TX_PUBKEY, sols⟩ ↔
      matchFrom 3 s [OP_PUBKEY, OP_CHECKSIG] [] = some sols := by
  rw [mTemplates, scanTemplates_cons]
  constructor
  · intro h
    cases h with
    | inl h => exact h.2.1
    | inr h => exact absurd (scanTemplates_type _ h.2) (by decide)
  · exact fun h => .inl ⟨rfl, h, fun htype => nomatch htype⟩

theorem scan_pubKeyHash :
    scanTemplates s mTemplates = ⟨true, .TX_PUBKEYHASH, sols⟩ ↔
      matchFrom 3 s [OP_PUBKEY, OP_CHECKSIG] [] = none ∧
        matchFrom 6 s [OP_DUP, OP_HASH160, OP_PUBKEYHASH, OP_EQUALVERIFY, OP_CHECKSIG] [] = some sols := by
  rw [mTemplates, scanTemplates_cons, scanTemplates_cons]
  constructor
  · intro h
    cases h with
    | inl h => exact nomatch h.1
    | inr h =>
      cases h.2 with
      | inl hmatch => exact ⟨h.1, hmatch.2.1⟩
      | inr hlater => exact absurd (scanTemplates_type _ hlater.2) (by decide)
  · exact fun h => .inr ⟨h.1, .inl ⟨rfl, h.2, fun htype => nomatch htype⟩⟩

theorem scan_multiSig :
    scanTemplates s mTemplates = ⟨true, .TX_MULTISIG, sols⟩ ↔
      matchFrom 3 s [OP_PUBKEY, OP_CHECKSIG] [] = none ∧
        matchFrom 6 s [OP_DUP, OP_HASH160, OP_PUBKEYHASH, OP_EQUALVERIFY, OP_CHECKSIG] [] = none ∧
        matchFrom 5 s [OP_SMALLINTEGER, OP_PUBKEYS, OP_SMALLINTEGER, OP_CHECKMULTISIG] [] = some sols ∧
        multiSigCounts sols = true := by
  rw [mTemplates, scanTemplates_cons, scanTemplates_cons, scanTemplates_cons]
  constructor
  · intro h
    cases h with
    | inl h => exact nomatch h.1
    | inr h =>
      cases h.2 with
      | inl h' => exact nomatch h'.1
      | inr h' =>
        cases h'.2 with
        | inl hmatch => exact ⟨h.1, h'.1, hmatch.2.1, hmatch.2.2 rfl⟩
        | inr hlater => exact absurd (scanTemplates_type _ hlater.2) (by decide)
  · exact fun h => .inr ⟨h.1, .inr ⟨h.2.1, .inl ⟨rfl, h.2.2.1, fun _ => h.2.2.2⟩⟩⟩

theorem not_pubKey_of_parsesAs {b : UInt8} (h : s.ParsesAs (.opcode b :: items)) :
    matchFrom 3 s [OP_PUBKEY, OP_CHECKSIG] [] = none := by
  apply matchFrom_eq_none
  intro sols hmatch
  obtain ⟨key, -, hparse, -⟩ := matchTemplate_pubKey.mp hmatch
  cases hparse.unique h

theorem not_pubKeyHash_of_parsesAs {b : UInt8} (h : s.ParsesAs (.opcode b :: items)) (hb : b ≠ OP_DUP) :
    matchFrom 6 s [OP_DUP, OP_HASH160, OP_PUBKEYHASH, OP_EQUALVERIFY, OP_CHECKSIG] [] = none := by
  apply matchFrom_eq_none
  intro sols hmatch
  obtain ⟨hash, -, hparse, -⟩ := matchTemplate_pubKeyHash.mp hmatch
  exact hb (ScriptItem.opcode.inj (List.cons.inj (h.unique hparse)).1)

/-- `Solver` accepts exactly the standard forms, and the solutions are what they push. -/
theorem solver_iff (s : CScript) (vSolutions sols : List Bytes) :
    (solver s vSolutions = ⟨true, .TX_MULTISIG, sols⟩ ↔
      ∃ m n keys, 1 ≤ m ∧ m ≤ n ∧ n ≤ 16 ∧ keys.length = n ∧ (∀ key ∈ keys, KeySize key) ∧
        s.ParsesAs (multiSigItems m n keys) ∧ sols = [UInt8.ofNat m] :: (keys ++ [[UInt8.ofNat n]])) ∧
    (solver s vSolutions = ⟨true, .TX_PUBKEY, sols⟩ ↔
      ∃ key, KeySize key ∧ s.ParsesAs [.vch key, .opcode OP_CHECKSIG] ∧ sols = [key]) ∧
    (solver s vSolutions = ⟨true, .TX_PUBKEYHASH, sols⟩ ↔
      ∃ hash, hash.length = 20 ∧ s.ParsesAs
        [.opcode OP_DUP, .opcode OP_HASH160, .vch hash, .opcode OP_EQUALVERIFY, .opcode OP_CHECKSIG] ∧
        sols = [hash]) ∧
    (solver s vSolutions = ⟨true, .TX_SCRIPTHASH, sols⟩ ↔
      CScript.isPayToScriptHash s = true ∧ sols = vSolutions ++ [slice s 2 20]) := by
  refine ⟨?_, ?_, ?_, ?_⟩
  · rw [solver_scan (by decide), scan_multiSig]
    constructor
    · exact fun h => matchTemplate_multiSig.mp h.2.2.2
    · intro h
      have hparsed := h
      obtain ⟨m, n, keys, hpos, hle, hn, -, -, hparse, -⟩ := hparsed
      have hall : ∀ k : Fin 17, CScript.encodeOP_N k.val ≠ OP_DUP ∧ CScript.encodeOP_N k.val ≠ OP_HASH160 := by decide
      have hm := hall ⟨m, by omega⟩
      exact ⟨hparse.not_scriptHash fun h => hm.2 (ScriptItem.opcode.inj h), not_pubKey_of_parsesAs hparse,
        not_pubKeyHash_of_parsesAs hparse hm.1, matchTemplate_multiSig.mpr h⟩
  · rw [solver_scan (by decide), scan_pubKey, matchTemplate_pubKey]
    constructor
    · exact fun h => h.2
    · intro h
      have hparsed := h
      obtain ⟨key, -, hparse, -⟩ := hparsed
      exact ⟨hparse.not_scriptHash (fun h => nomatch h), h⟩
  · rw [solver_scan (by decide), scan_pubKeyHash, matchTemplate_pubKeyHash]
    constructor
    · exact fun h => h.2.2
    · intro h
      have hparsed := h
      obtain ⟨hash, -, hparse, -⟩ := hparsed
      exact ⟨hparse.not_scriptHash (by decide), not_pubKey_of_parsesAs hparse, h⟩
  · rw [solver]
    by_cases hp2sh : CScript.isPayToScriptHash s = true
    · rw [if_pos hp2sh, SolverResult.mk.injEq]
      exact ⟨fun h => ⟨hp2sh, h.2.2.symm⟩, fun h => ⟨rfl, rfl, h.2.symm⟩⟩
    · rw [if_neg hp2sh]
      constructor
      · exact fun h => absurd (scanTemplates_type _ h) (by decide)
      · exact fun h => absurd h.1 hp2sh

end Standard

end AliasWallet
