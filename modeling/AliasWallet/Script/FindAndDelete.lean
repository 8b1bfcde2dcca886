import AliasWallet.Script.Parsing

/-!
# Deleting an operation from a script (`script.h`)

`FindAndDelete` compares raw bytes at the beginning of each operation and erases while it walks. For the bytes of one
operation this leaves out the equal operations of the script, and neither hides nor makes another one.
-/

namespace AliasWallet
open Lib

/-- An operation on its own: its opcode and its operand. -/
structure Operation where
  opcode : UInt8
  vch : Bytes
  deriving DecidableEq, Repr

namespace Operation

/-- The bytes that an operation stands in. -/
def bytes (op : Operation) : Bytes :=
  op.opcode :: if op.opcode > OP_PUSHDATA4 then [] else leBytes (CScript.operandWidth op.opcode) op.vch.length ++ op.vch

/-- The operand has the length that the opcode or the length field says. -/
def Fits (op : Operation) : Prop :=
  if op.opcode > OP_PUSHDATA4 then op.vch = []
  else if CScript.operandWidth op.opcode = 0 then op.vch.length = op.opcode.toNat
  else op.vch.length < 256 ^ CScript.operandWidth op.opcode

instance (op : Operation) : Decidable op.Fits :=
  inferInstanceAs (Decidable (if op.opcode > OP_PUSHDATA4 then op.vch = []
    else if CScript.operandWidth op.opcode = 0 then op.vch.length = op.opcode.toNat
    else op.vch.length < 256 ^ CScript.operandWidth op.opcode))

theorem bytes_ne_nil (op : Operation) : op.bytes ≠ [] := List.cons_ne_nil _ _

end Operation

def ScriptOp.operation (op : ScriptOp) : Operation := ⟨op.opcode, op.vch⟩

namespace CScript

/-- The operations that are read before the end or the first failure. -/
def operations (s : CScript) : List Operation := (ops s).1.map ScriptOp.operation

/-- What stands behind the operations: nothing, or bytes that `GetOp` cannot read. -/
def unparsed (s : CScript) : CScript := s.drop ((operations s).flatMap Operation.bytes).length

/-- `end() - pc >= (long)b.size() && memcmp(&pc[0], &b[0], b.size()) == 0`. -/
def occursAt (s b : CScript) (pc : Nat) : Except PastEnd Bool := do
  if s.length - pc ≥ b.length then return decide ((← readRange s pc b.length) = b)
  else return false

/-- `erase(pc, pc + n)`. -/
def eraseRange (s : CScript) (pc n : Nat) : CScript := s.take pc ++ s.drop (pc + n)

/-- The script while it is edited, and `nFound`. -/
structure Deletion where
  script : CScript
  nFound : Int32
  deriving DecidableEq, Repr

/-- The inner loop of `FindAndDelete`; `none` where the rounds run out. -/
def eraseAt (b : CScript) (pc : Nat) : Nat → Deletion → Except PastEnd (Option Deletion)
  | 0, _ => .ok none
  | rounds + 1, d => do
    if ← occursAt d.script b pc then eraseAt b pc rounds ⟨eraseRange d.script pc b.length, d.nFound + 1⟩
    else return some d

/-- The outer loop of `FindAndDelete`. -/
def deleteFrom (b : CScript) : Nat → Nat → Deletion → Except PastEnd (Option Deletion)
  | 0, _, _ => .ok none
  | rounds + 1, pc, d => do
    let some d ← eraseAt b pc (rounds + 1) d | return none
    match ← getOp2 d.script pc with
    | none => return some d
    | some (_, pc) => deleteFrom b rounds pc d

/-- `FindAndDelete`, at positions of the script. -/
def deleteOps (s b : CScript) (rounds : Nat) : Except PastEnd (Option Deletion) :=
  if b.isEmpty then .ok (some ⟨s, 0⟩) else deleteFrom b rounds 0 ⟨s, 0⟩

/-- What the loop makes of the script behind a boundary, and how often it erases `b` there. -/
inductive Deletes (b : CScript) : CScript → CScript → Nat → Prop
  | erase {s s' : CScript} {n : Nat} (h : Deletes b s s' n) : Deletes b (b ++ s) s' (n + 1)
  | keep {s s' : CScript} {op : ScriptOp} {n : Nat} (hb : ¬ b <+: s) (hop : getOp s = some op)
      (h : Deletes b op.rest s' n) : Deletes b s (op.operation.bytes ++ s') n
  | stop {s : CScript} (hb : ¬ b <+: s) (hop : getOp s = none) : Deletes b s s 0

section Operations

variable {s : CScript} {op : ScriptOp}

/-- The length and the operand of a push, by the bytes in front of it. -/
theorem operandSize_split {opcode : UInt8} {rest left : Bytes} {nSize : Nat}
    (h : operandSize opcode rest = some (nSize, left)) :
    rest = leBytes (operandWidth opcode) nSize ++ left ∧
      if operandWidth opcode = 0 then nSize = opcode.toNat else nSize < 256 ^ operandWidth opcode := by
  rw [operandSize_eq] at h
  by_cases hshort : rest.length < operandWidth opcode
  · rw [if_pos hshort] at h
    cases h
  rw [if_neg hshort] at h
  obtain ⟨hsize, hleft⟩ := Prod.mk.inj (Option.some.inj h)
  have hlen : (rest.take (operandWidth opcode)).length = operandWidth opcode := by
    rw [List.length_take]
    omega
  by_cases hwidth : operandWidth opcode = 0
  · rw [if_pos hwidth] at hsize ⊢
    rw [hwidth, List.drop_zero] at hleft
    rw [hwidth, hleft]
    exact ⟨rfl, hsize.symm⟩
  · rw [if_neg hwidth] at hsize ⊢
    rw [← hsize, ← hleft]
    constructor
    · have hbytes := leBytes_leNat (rest.take (operandWidth opcode))
      rw [hlen] at hbytes
      rw [hbytes, List.take_append_drop]
    · have hlt := leNat_lt (rest.take (operandWidth opcode))
      rwa [hlen] at hlt

/-- What was read is an operation at the front of the script. -/
theorem getOp_split (h : getOp s = some op) : op.operation.Fits ∧ s = op.operation.bytes ++ op.rest := by
  cases s with
  | nil => cases h
  | cons opcode rest =>
    rw [getOp] at h
    by_cases hplain : opcode > OP_PUSHDATA4
    · rw [if_pos hplain] at h
      cases h
      simp [Operation.Fits, Operation.bytes, ScriptOp.operation, hplain]
    rw [if_neg hplain, Option.bind_eq_bind, Option.bind_eq_some_iff] at h
    obtain ⟨⟨nSize, left⟩, hsize, h⟩ := h
    obtain ⟨hrest, hfits⟩ := operandSize_split hsize
    dsimp only at h
    by_cases hshort : left.length % 0x100000000 < nSize
    · rw [if_pos hshort] at h
      cases h
    have hroom : nSize ≤ left.length := (Nat.le_of_not_lt hshort).trans (Nat.mod_le _ _)
    rw [if_neg hshort] at h
    cases h
    have hlen : (left.take nSize).length = nSize := List.length_take_of_le hroom
    constructor
    · simpa only [Operation.Fits, ScriptOp.operation, if_neg hplain, hlen] using hfits
    · simp only [Operation.bytes, ScriptOp.operation, if_neg hplain, hlen, hrest, List.cons_append, List.append_assoc,
        List.take_append_drop]

/-- An operation is read in front of any script. -/
theorem getOp_operation {op : Operation} (hop : op.Fits) {rest : CScript}
    (hshort : (op.bytes ++ rest).length < 2 ^ 32) :
    getOp (op.bytes ++ rest) = some ⟨op.opcode, op.vch, rest⟩ := by
  rw [Operation.Fits] at hop
  rw [Operation.bytes] at hshort ⊢
  by_cases hplain : op.opcode > OP_PUSHDATA4
  · rw [if_pos hplain] at hop ⊢
    rw [hop]
    exact if_pos hplain
  rw [if_neg hplain] at hop hshort ⊢
  have hpush : op.opcode ≤ OP_PUSHDATA4 := UInt8.not_lt.mp hplain
  rw [List.cons_append, List.append_assoc] at hshort ⊢
  by_cases hwidth : operandWidth op.opcode = 0
  · rw [if_pos hwidth] at hop
    rw [hwidth] at hshort ⊢
    apply getOp_of_operandSize hpush
    · rw [operandSize_eq, hwidth, if_neg (Nat.not_lt_zero _), if_pos rfl, hop]
      rfl
    · rw [List.length_cons, List.length_append] at hshort
      omega
  · rw [if_neg hwidth] at hop
    exact getOp_wide hpush hwidth hop hshort

/-- A script is read operation by operation until nothing more can be read. -/
theorem parse_induction {motive : CScript → Prop} (stop : ∀ s, getOp s = none → motive s)
    (step : ∀ s op, getOp s = some op → motive op.rest → motive s) (s : CScript) : motive s := by
  induction hlen : s.length using Nat.strong_induction_on generalizing s with
  | _ n ih =>
    cases hop : getOp s with
    | none => exact stop s hop
    | some op =>
      have hrest := getOp_rest hop
      exact step s op hop (ih op.rest.length (hlen ▸ hrest) op.rest rfl)

@[simp] theorem operations_of_none (h : getOp s = none) : operations s = [] := by
  cases s with
  | nil => rfl
  | cons b s => rw [operations, ops_of_none (List.cons_ne_nil b s) h, List.map_nil]

theorem operations_of_some (h : getOp s = some op) : operations s = op.operation :: operations op.rest := by
  rw [operations, ops_of_some h]
  rfl

theorem unparsed_of_none (h : getOp s = none) : unparsed s = s := by
  rw [unparsed, operations_of_none h]
  rfl

theorem unparsed_of_some (h : getOp s = some op) : unparsed s = unparsed op.rest := by
  rw [unparsed, operations_of_some h, List.flatMap_cons, List.length_append, ← List.drop_drop]
  conv_lhs => rw [(getOp_split h).2, List.drop_left]
  rfl

theorem operations_bytes_append {op : Operation} (hop : op.Fits) {rest : CScript}
    (hshort : (op.bytes ++ rest).length < 2 ^ 32) : operations (op.bytes ++ rest) = op :: operations rest :=
  operations_of_some (getOp_operation hop hshort)

theorem unparsed_bytes_append {op : Operation} (hop : op.Fits) {rest : CScript}
    (hshort : (op.bytes ++ rest).length < 2 ^ 32) : unparsed (op.bytes ++ rest) = unparsed rest :=
  unparsed_of_some (getOp_operation hop hshort)

/-- A script is its operations and its tail, and behind them nothing can be read. -/
theorem operations_append_unparsed (s : CScript) :
    s = (operations s).flatMap Operation.bytes ++ unparsed s ∧ getOp (unparsed s) = none := by
  induction s using parse_induction with
  | stop s hop =>
    rw [operations_of_none hop, unparsed_of_none hop]
    exact ⟨rfl, hop⟩
  | step s op hop ih =>
    rw [unparsed_of_some hop, operations_of_some hop, List.flatMap_cons, List.append_assoc, ← ih.1]
    exact ⟨(getOp_split hop).2, ih.2⟩

end Operations

section Walk

variable {b s s' : CScript} {n : Nat}

theorem exists_deletes (hb : b ≠ []) (s : CScript) : ∃ s' n, Deletes b s s' n := by
  induction hlen : s.length using Nat.strong_induction_on generalizing s with
  | _ k ih =>
    by_cases hpre : b <+: s
    · obtain ⟨t, rfl⟩ := hpre
      have hpos : 0 < b.length := List.length_pos_iff.mpr hb
      rw [List.length_append] at hlen
      obtain ⟨s', n, h⟩ := ih t.length (by omega) t rfl
      exact ⟨s', n + 1, .erase h⟩
    · cases hop : getOp s with
      | none => exact ⟨s, 0, .stop hpre hop⟩
      | some op =>
        have hrest := getOp_rest hop
        obtain ⟨s', n, h⟩ := ih op.rest.length (hlen ▸ hrest) op.rest rfl
        exact ⟨op.operation.bytes ++ s', n, .keep hpre hop h⟩

/-- Where nothing is erased, nothing changes. -/
theorem Deletes.eq_of_zero (h : Deletes b s s' n) (hn : n = 0) : s' = s := by
  induction h with
  | erase => cases hn
  | keep _ hop _ ih => rw [ih hn, ← (getOp_split hop).2]
  | stop => rfl

theorem occursAt_eq (front t : CScript) : occursAt (front ++ t) b front.length = .ok (decide (b <+: t)) := by
  rw [occursAt, List.length_append, Nat.add_sub_cancel_left]
  by_cases hlen : t.length ≥ b.length
  · rw [if_pos hlen, readRange_eq (by rw [List.length_append]; omega), List.drop_left]
    have hiff : t.take b.length = b ↔ b <+: t := by rw [List.prefix_iff_eq_take, eq_comm]
    simp only [bind, Except.bind, pure, Except.pure, hiff]
  · have hpre : ¬ b <+: t := fun hpre => hlen hpre.length_le
    rw [if_neg hlen, decide_eq_false hpre]
    rfl

theorem eraseRange_eq (front t : CScript) : eraseRange (front ++ (b ++ t)) front.length b.length = front ++ t := by
  rw [eraseRange, List.take_left, ← List.drop_drop, List.drop_left, List.drop_left]

theorem eraseAt_front {front t : CScript} {rounds : Nat} {nFound : Int32} :
    eraseAt b front.length (rounds + 1) ⟨front ++ (b ++ t), nFound⟩ =
      eraseAt b front.length rounds ⟨front ++ t, nFound + 1⟩ := by
  rw [eraseAt, occursAt_eq, decide_eq_true (List.prefix_append b t), eraseRange_eq]
  rfl

theorem eraseAt_elsewhere {front t : CScript} {rounds : Nat} {nFound : Int32} (hpre : ¬ b <+: t) :
    eraseAt b front.length (rounds + 1) ⟨front ++ t, nFound⟩ = .ok (some ⟨front ++ t, nFound⟩) := by
  rw [eraseAt, occursAt_eq, decide_eq_false hpre]
  rfl

/-- The inner loop needs no more rounds than there are bytes. -/
theorem eraseAt_succ (hb : b ≠ []) {front t : CScript} {rounds : Nat} {nFound : Int32} (h : t.length < rounds) :
    eraseAt b front.length (rounds + 1) ⟨front ++ t, nFound⟩ = eraseAt b front.length rounds ⟨front ++ t, nFound⟩ := by
  induction rounds generalizing t nFound with
  | zero => cases h
  | succ rounds ih =>
    by_cases hpre : b <+: t
    · obtain ⟨t, rfl⟩ := hpre
      have hpos : 0 < b.length := List.length_pos_iff.mpr hb
      rw [List.length_append] at h
      rw [eraseAt_front, eraseAt_front, ih (by omega)]
    · rw [eraseAt_elsewhere hpre, eraseAt_elsewhere hpre]

/-- The loops behind a boundary, with whatever stands in front of it. -/
theorem deleteFrom_of_deletes (hb : b ≠ []) (h : Deletes b s s' n) (front : CScript) {rounds : Nat} {nFound : Int32}
    (hrounds : s.length < rounds) :
    deleteFrom b rounds front.length ⟨front ++ s, nFound⟩ = .ok (some ⟨front ++ s', nFound + Int32.ofNat n⟩) := by
  induction h generalizing front rounds nFound with
  | @erase s s' n h ih =>
    have hpos : 0 < b.length := List.length_pos_iff.mpr hb
    rw [List.length_append] at hrounds
    have hnext : deleteFrom b rounds front.length ⟨front ++ s, nFound + 1⟩ =
        .ok (some ⟨front ++ s', nFound + 1 + Int32.ofNat n⟩) := ih front (by omega)
    have hcount : nFound + 1 + Int32.ofNat n = nFound + Int32.ofNat (n + 1) := by
      rw [Nat.add_comm n 1, Int32.ofNat_add, ← Int32.add_assoc]
      rfl
    rw [hcount] at hnext
    rw [← hnext]
    obtain ⟨rounds, rfl⟩ := Nat.exists_eq_succ_of_ne_zero (by omega : rounds ≠ 0)
    rw [deleteFrom, deleteFrom, eraseAt_front, eraseAt_succ hb (by omega)]
  | @keep s s' op n hpre hop h ih =>
    obtain ⟨rounds, rfl⟩ := Nat.exists_eq_succ_of_ne_zero (by omega : rounds ≠ 0)
    have hrest := getOp_rest hop
    have hsplit := (getOp_split hop).2
    have hnext : deleteFrom b rounds (front ++ op.operation.bytes).length
        ⟨front ++ op.operation.bytes ++ op.rest, nFound⟩ =
        .ok (some ⟨front ++ op.operation.bytes ++ s', nFound + Int32.ofNat n⟩) := ih _ (by omega)
    rw [List.append_assoc, List.append_assoc, ← hsplit] at hnext
    have hpc : (front ++ s).length - op.rest.length = (front ++ op.operation.bytes).length := by
      conv_lhs => rw [hsplit]
      simp only [List.length_append]
      omega
    rw [deleteFrom, eraseAt_elsewhere hpre]
    simp only [bind, Except.bind]
    rw [getOp2_eq, List.drop_left, hop, Option.map_some, hpc]
    exact hnext
  | @stop s hpre hop =>
    obtain ⟨rounds, rfl⟩ := Nat.exists_eq_succ_of_ne_zero (by omega : rounds ≠ 0)
    rw [deleteFrom, eraseAt_elsewhere hpre]
    simp only [bind, Except.bind]
    have hzero : nFound + Int32.ofNat 0 = nFound := Int32.add_zero nFound
    rw [getOp2_eq, List.drop_left, hop, Option.map_none, hzero]
    rfl

/-- `FindAndDelete` comes to its end on every script and reads nothing behind it. -/
theorem deleteOps_of_deletes (hb : b ≠ []) (h : Deletes b s s' n) {rounds : Nat} (hrounds : s.length < rounds) :
    deleteOps s b rounds = .ok (some ⟨s', Int32.ofNat n⟩) := by
  have hrun : deleteFrom b rounds 0 ⟨s, 0⟩ = .ok (some ⟨s', 0 + Int32.ofNat n⟩) :=
    deleteFrom_of_deletes hb h [] hrounds
  rw [Int32.zero_add] at hrun
  rw [deleteOps, if_neg (by simpa using hb)]
  exact hrun

end Walk

section Lists

variable {b s s' : CScript} {n : Nat}

theorem eraseHere_front (k : Nat) (t : CScript) : eraseHere b (k + 1) (b ++ t) = eraseHere b k t := by
  rw [eraseHere, List.take_left, if_pos rfl, List.drop_left]

theorem eraseHere_elsewhere (hpre : ¬ b <+: s) (k : Nat) : eraseHere b k s = s := by
  cases k with
  | zero => rfl
  | succ k =>
    rw [eraseHere, if_neg]
    intro htake
    exact hpre (List.prefix_iff_eq_take.mpr htake.symm)

theorem eraseHere_eq (hb : b ≠ []) (k : Nat) (t : CScript) (h : t.length ≤ k) :
    eraseHere b k t = eraseHere b t.length t := by
  have hpos : 0 < b.length := List.length_pos_iff.mpr hb
  induction hlen : t.length using Nat.strong_induction_on generalizing k t with
  | _ m ih =>
    by_cases hpre : b <+: t
    · obtain ⟨u, rfl⟩ := hpre
      rw [List.length_append] at h hlen
      obtain ⟨k, rfl⟩ := Nat.exists_eq_succ_of_ne_zero (by omega : k ≠ 0)
      obtain ⟨m, rfl⟩ := Nat.exists_eq_succ_of_ne_zero (by omega : m ≠ 0)
      rw [eraseHere_front, eraseHere_front, ih u.length (by omega) k u (by omega) rfl,
        ih u.length (by omega) m u (by omega) rfl]
    · rw [eraseHere_elsewhere hpre, eraseHere_elsewhere hpre]

theorem findAndDeleteFrom_eq (hb : b ≠ []) (h : Deletes b s s' n) (k : Nat) (hk : s.length ≤ k) :
    findAndDeleteFrom b k s = s' := by
  induction h generalizing k with
  | @erase s s' n h ih =>
    have hpos : 0 < b.length := List.length_pos_iff.mpr hb
    have hlen : (b ++ s).length = (b.length + s.length - 1) + 1 := by
      rw [List.length_append]
      omega
    obtain ⟨k, rfl⟩ := Nat.exists_eq_succ_of_ne_zero (by omega : k ≠ 0)
    rw [← ih (k + 1) (by omega), findAndDeleteFrom, findAndDeleteFrom, hlen, eraseHere_front,
      eraseHere_eq hb _ s (by omega)]
  | @keep s s' op n hpre hop h ih =>
    have hrest := getOp_rest hop
    obtain ⟨k, rfl⟩ := Nat.exists_eq_succ_of_ne_zero (by omega : k ≠ 0)
    have htake : s.take (s.length - op.rest.length) = op.operation.bytes := by
      conv_lhs => rw [(getOp_split hop).2, List.length_append, Nat.add_sub_cancel, List.take_left]
    rw [findAndDeleteFrom, eraseHere_elsewhere hpre, hop]
    dsimp only
    rw [ih k (by omega), htake]
  | @stop s hpre hop =>
    cases k with
    | zero => rw [findAndDeleteFrom, eraseHere_elsewhere hpre]
    | succ k => rw [findAndDeleteFrom, eraseHere_elsewhere hpre, hop]

/-- The loop over lists makes the same of a script. -/
theorem findAndDelete_of_deletes (hb : b ≠ []) (h : Deletes b s s' n) : findAndDelete s b = s' := by
  rw [findAndDelete, if_neg (by simpa using hb)]
  exact findAndDeleteFrom_eq hb h s.length le_rfl

end Lists

section Filter

variable {op : Operation} {s s' : CScript} {n : Nat}

/-- At a boundary the bytes of an operation stand exactly where it is the operation that is read. -/
theorem bytes_prefix_iff (hop : op.Fits) (hs : s.length < 2 ^ 32) {found : ScriptOp} (hfound : getOp s = some found) :
    op.bytes <+: s ↔ found.operation.bytes = op.bytes := by
  constructor
  · intro hpre
    obtain ⟨t, rfl⟩ := hpre
    rw [getOp_operation hop hs] at hfound
    cases hfound
    rfl
  · intro hbytes
    rw [(getOp_split hfound).2, hbytes]
    exact List.prefix_append _ _

theorem Deletes.length_le {b : CScript} (h : Deletes b s s' n) : s'.length ≤ s.length := by
  induction h with
  | @erase s s' n _ ih =>
    rw [List.length_append]
    omega
  | @keep s s' found n _ hfound _ ih =>
    rw [(getOp_split hfound).2, List.length_append, List.length_append]
    omega
  | stop => exact le_rfl

/-- How often an operation stands in a script. -/
def occurrences (op : Operation) (s : CScript) : Nat :=
  (operations s).countP fun found => decide (found.bytes = op.bytes)

/-- The operations of a script without those that have the bytes of `op`. -/
def others (op : Operation) (s : CScript) : List Operation :=
  (operations s).filter fun found => decide (found.bytes ≠ op.bytes)

/-- Deleting an operation is a filter of the operations, in front of the same tail. -/
theorem Deletes.filter (hop : op.Fits) (h : Deletes op.bytes s s' n) (hs : s.length < 2 ^ 32) :
    operations s' = others op s ∧ unparsed s' = unparsed s ∧ n = occurrences op s := by
  induction h with
  | @erase s s' n h ih =>
    have hread := operations_bytes_append hop hs
    have hend := unparsed_bytes_append hop hs
    rw [List.length_append] at hs
    obtain ⟨hops, htail, hcount⟩ := ih (by omega)
    rw [others, occurrences, hread, hend, List.filter_cons_of_neg (by simp), List.countP_cons_of_pos (by simp)]
    exact ⟨hops, htail, congrArg Nat.succ hcount⟩
  | @keep s s' found n hpre hfound h ih =>
    have hrest := getOp_rest hfound
    obtain ⟨hops, htail, hcount⟩ := ih (by omega)
    have hne : found.operation.bytes ≠ op.bytes := fun hbytes => hpre ((bytes_prefix_iff hop hs hfound).mpr hbytes)
    obtain ⟨hfits, hsplit⟩ := getOp_split hfound
    -- what is left is not longer, so the operation is read from it as well
    have hshort : (found.operation.bytes ++ s').length < 2 ^ 32 := by
      have hle := h.length_le
      rw [hsplit, List.length_append] at hs
      rw [List.length_append]
      omega
    rw [operations_bytes_append hfits hshort, unparsed_bytes_append hfits hshort, others, occurrences,
      operations_of_some hfound, unparsed_of_some hfound, List.filter_cons_of_pos (by simpa using hne),
      List.countP_cons_of_neg (by simpa using hne)]
    exact ⟨congrArg (found.operation :: ·) hops, htail, hcount⟩
  | @stop s hpre hfound =>
    rw [others, occurrences, operations_of_none hfound]
    exact ⟨rfl, rfl, rfl⟩

/-- `FindAndDelete` of one operation leaves the other operations and the tail, and a second time it finds nothing. -/
theorem findAndDelete_filters (hop : op.Fits) (hs : s.length < 2 ^ 32) :
    (s = (operations s).flatMap Operation.bytes ++ unparsed s ∧ getOp (unparsed s) = none) ∧
    (∀ rounds > s.length, deleteOps s op.bytes rounds =
      .ok (some ⟨findAndDelete s op.bytes, Int32.ofNat (occurrences op s)⟩)) ∧
    operations (findAndDelete s op.bytes) = others op s ∧ unparsed (findAndDelete s op.bytes) = unparsed s ∧
    ∀ rounds > (findAndDelete s op.bytes).length, deleteOps (findAndDelete s op.bytes) op.bytes rounds =
      .ok (some ⟨findAndDelete s op.bytes, 0⟩) := by
  obtain ⟨s', n, h⟩ := exists_deletes op.bytes_ne_nil s
  obtain ⟨hops, htail, hcount⟩ := h.filter hop hs
  rw [findAndDelete_of_deletes op.bytes_ne_nil h, ← hcount]
  refine ⟨operations_append_unparsed s, ?_, hops, htail, ?_⟩
  · intro rounds hrounds
    exact deleteOps_of_deletes op.bytes_ne_nil h hrounds
  · intro rounds hrounds
    obtain ⟨s'', m, hagain⟩ := exists_deletes op.bytes_ne_nil s'
    have hnone : m = 0 := by
      rw [(hagain.filter hop (h.length_le.trans_lt hs)).2.2, occurrences, hops, others, List.countP_eq_zero]
      intro found hfound
      simpa using (List.mem_filter.mp hfound).2
    have hsame := hagain.eq_of_zero hnone
    subst hsame hnone
    exact deleteOps_of_deletes op.bytes_ne_nil hagain hrounds

/-- `OP_NOP`. -/
def nop : Operation := ⟨0x61, []⟩

theorem nop_fits : nop.Fits := by decide

/-- The byte of `OP_NOP` stands in a push and in the tail as well. -/
theorem findAndDelete_filters_nop :
    (∀ rounds > 7, deleteOps [0x61, 1, 0x61, 0x61, 0x61, 0x4c, 0x61] nop.bytes rounds =
      .ok (some ⟨[1, 0x61, 0x4c, 0x61], 3⟩)) ∧
    operations [1, 0x61, 0x4c, 0x61] = [⟨1, [0x61]⟩] ∧ unparsed [1, 0x61, 0x4c, 0x61] = [0x4c, 0x61] := by
  have hleft : findAndDelete [0x61, 1, 0x61, 0x61, 0x61, 0x4c, 0x61] nop.bytes = [1, 0x61, 0x4c, 0x61] := by decide
  have hcount : occurrences nop [0x61, 1, 0x61, 0x61, 0x61, 0x4c, 0x61] = 3 := by decide
  have hothers : others nop [0x61, 1, 0x61, 0x61, 0x61, 0x4c, 0x61] = [⟨1, [0x61]⟩] := by decide
  have hend : unparsed [0x61, 1, 0x61, 0x61, 0x61, 0x4c, 0x61] = [0x4c, 0x61] := by decide
  obtain ⟨-, hrun, hops, htail, -⟩ :=
    @findAndDelete_filters nop [0x61, 1, 0x61, 0x61, 0x61, 0x4c, 0x61] nop_fits (by decide)
  rw [hleft, hcount] at hrun
  rw [hleft, hothers] at hops
  rw [hleft, hend] at htail
  exact ⟨hrun, hops, htail⟩

end Filter

section Wide

variable {n : Nat}

/-- A push of one byte, `n` times `OP_VER`, and `OP_NOP`. -/
def crowded (n : Nat) : CScript := 1 :: 7 :: (List.replicate n 0x62 ++ [0x61])

theorem deletes_verOps (n : Nat) : Deletes nop.bytes (List.replicate n 0x62 ++ [0x61]) (List.replicate n 0x62) 1 := by
  induction n with
  | zero => exact .erase (.stop (by decide) rfl)
  | succ n ih =>
    have hpre : ¬ nop.bytes <+: List.replicate (n + 1) 0x62 ++ [0x61] := by
      rw [List.replicate_succ, List.cons_append]
      simp [nop, Operation.bytes, OP_PUSHDATA4]
    have hop : getOp (List.replicate (n + 1) 0x62 ++ [0x61]) = some ⟨0x62, [], List.replicate n 0x62 ++ [0x61]⟩ := rfl
    exact .keep hpre hop ih

theorem getOp_pushByte (rest : CScript) :
    getOp (1 :: 7 :: rest) = if (rest.length + 1) % 0x100000000 = 0 then none else some ⟨1, [7], rest⟩ := by
  have hwidth : operandWidth 1 = 0 := by decide
  have hone : (1 : UInt8).toNat = 1 := rfl
  rw [getOp, if_neg (by decide), operandSize_eq, hwidth, if_neg (Nat.not_lt_zero _), if_pos rfl, List.drop_zero,
    Option.bind_eq_bind, Option.bind_some]
  dsimp only
  simp only [hone, List.length_cons, Nat.lt_one_iff]
  rfl

theorem getOp_crowded (hn : n + 1 = 0x100000000) :
    getOp (crowded n) = some ⟨1, [7], List.replicate n 0x62 ++ [0x61]⟩ := by
  rw [crowded, getOp_pushByte, if_neg]
  rw [List.length_append, List.length_replicate, List.length_singleton]
  omega

theorem deletes_crowded (hn : n + 1 = 0x100000000) :
    Deletes nop.bytes (crowded n) (1 :: 7 :: List.replicate n 0x62) 1 :=
  .keep (by simp [nop, Operation.bytes, OP_PUSHDATA4, crowded]) (getOp_crowded hn) (deletes_verOps n)

theorem operations_uncrowded (hn : n + 1 = 0x100000000) : operations (1 :: 7 :: List.replicate n 0x62) = [] := by
  apply operations_of_none
  rw [getOp_pushByte, if_pos]
  rw [List.length_replicate]
  omega

theorem pushByte_mem_others (hn : n + 1 = 0x100000000) : ⟨1, [7]⟩ ∈ others nop (crowded n) := by
  rw [others, operations_of_some (getOp_crowded hn)]
  exact List.mem_filter.mpr ⟨List.mem_cons_self, by decide⟩

theorem deletes_nops (n : Nat) : Deletes nop.bytes (List.replicate n 0x61) [] n := by
  induction n with
  | zero => exact .stop (by decide) rfl
  | succ n ih => exact .erase ih

/-- The `2 ^ 32` bytes behind the push are taken for none, so it is hidden. And the number `2 ^ 31` is no `int`. -/
theorem pushByte_hidden :
    ((∀ rounds > (crowded 0xffffffff).length, deleteOps (crowded 0xffffffff) nop.bytes rounds =
        .ok (some ⟨1 :: 7 :: List.replicate 0xffffffff 0x62, 1⟩)) ∧
      ⟨1, [7]⟩ ∈ others nop (crowded 0xffffffff) ∧ operations (1 :: 7 :: List.replicate 0xffffffff 0x62) = []) ∧
    ∀ rounds > 0x80000000, deleteOps (List.replicate 0x80000000 0x61) nop.bytes rounds =
      .ok (some ⟨[], -0x80000000⟩) := by
  refine ⟨⟨?_, pushByte_mem_others (by omega), operations_uncrowded (by omega)⟩, ?_⟩
  · intro rounds hrounds
    exact deleteOps_of_deletes nop.bytes_ne_nil (deletes_crowded (by omega)) hrounds
  · intro rounds hrounds
    apply deleteOps_of_deletes nop.bytes_ne_nil (deletes_nops 0x80000000)
    rwa [List.length_replicate]

end Wide

end CScript

end AliasWallet
