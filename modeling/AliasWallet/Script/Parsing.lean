import AliasWallet.Script.Opcodes
import Mathlib.Tactic.NormNum

/-!
# Building and reading scripts (`script.h`)

`operator<<` appends one operation, `GetOp2` reads one at a position. Whatever was built is read back, and no read goes
behind the end of a script.
-/

namespace AliasWallet
open Lib

/-- What `operator<<` takes: an operation, or bytes to push. -/
inductive ScriptItem
  | opcode (b : UInt8)
  | vch (b : Bytes)
  deriving DecidableEq, Repr

namespace ScriptItem

/-- The bytes that `operator<<` appends. -/
def bytes : ScriptItem → Bytes
  | .opcode b => [b]
  | .vch b => CScript.push b

/-- An operation that is no push, or bytes whose length has four bytes. -/
def Valid : ScriptItem → Prop
  | .opcode b => OP_PUSHDATA4 < b
  | .vch b => b.length < 2 ^ 32

end ScriptItem

/-- The item that was read. -/
def ScriptOp.item (op : ScriptOp) : ScriptItem :=
  if op.opcode ≤ OP_PUSHDATA4 then .vch op.vch else .opcode op.opcode

/-- A read behind the end of a script. -/
structure PastEnd

namespace CScript

/-- `operator<<`. -/
def append (s : CScript) (item : ScriptItem) : CScript := s ++ item.bytes

def build (items : List ScriptItem) : CScript := items.foldl append []

section Positions

variable (s : CScript)

/-- `*pc`. -/
def readByte (pc : Nat) : Except PastEnd UInt8 :=
  match s[pc]? with
  | some b => .ok b
  | none => .error ⟨⟩

/-- The bytes `[pc, pc + n)`. -/
def readRange (pc n : Nat) : Except PastEnd Bytes :=
  if pc + n ≤ s.length then .ok (slice s pc n) else .error ⟨⟩

/-- `nSize` with the position behind it. -/
def readSize (opcode : UInt8) (pc : Nat) : Except PastEnd (Option (Nat × Nat)) := do
  if opcode < OP_PUSHDATA1 then return some (opcode.toNat, pc)
  else if opcode = OP_PUSHDATA1 then
    if s.length - pc < 1 then return none
    else return some ((← readByte s pc).toNat, pc + 1)
  else if opcode = OP_PUSHDATA2 then
    if s.length - pc < 2 then return none
    else return some (leNat (← readRange s pc 2), pc + 2)
  else
    if s.length - pc < 4 then return none
    else return some (leNat (← readRange s pc 4), pc + 4)

/-- `GetOp2`: the operation at a position, and the position behind it. -/
def getOp2 (pc : Nat) : Except PastEnd (Option (ScriptOp × Nat)) := do
  if pc ≥ s.length then return none
  let opcode ← readByte s pc
  let pc := pc + 1
  if opcode > OP_PUSHDATA4 then return some (⟨opcode, [], s.drop pc⟩, pc)
  let some (nSize, pc) ← readSize s opcode pc | return none
  if (s.length - pc) % 0x100000000 < nSize then return none
  let vch ← readRange s pc nSize
  return some (⟨opcode, vch, s.drop (pc + nSize)⟩, pc + nSize)

/-- `GetOp` from a position on until the end or a failure; `none` where the rounds run out. -/
def readOps : Nat → Nat → Except PastEnd (Option (List ScriptOp × Bool))
  | 0, _ => .ok none
  | rounds + 1, pc =>
    if pc ≥ s.length then .ok (some ([], true))
    else do
      match ← getOp2 s pc with
      | none => return some ([], false)
      | some (op, pc) => return (← readOps rounds pc).map fun later => (op :: later.1, later.2)

end Positions

section Operations

variable {s : CScript} {op : ScriptOp}

/-- How many bytes the length of an operand has. -/
def operandWidth (opcode : UInt8) : Nat :=
  if opcode < OP_PUSHDATA1 then 0 else if opcode = OP_PUSHDATA1 then 1 else if opcode = OP_PUSHDATA2 then 2 else 4

theorem operandSize_eq (opcode : UInt8) (rest : Bytes) :
    operandSize opcode rest =
      if rest.length < operandWidth opcode then none
      else some (if operandWidth opcode = 0 then opcode.toNat else leNat (rest.take (operandWidth opcode)),
        rest.drop (operandWidth opcode)) := rfl

theorem operandSize_rest {opcode : UInt8} {rest rest' : Bytes} {nSize : Nat}
    (h : operandSize opcode rest = some (nSize, rest')) : rest' <:+ rest := by
  rw [operandSize_eq] at h
  split at h
  · cases h
  · obtain ⟨-, rfl⟩ := Prod.mk.inj (Option.some.inj h)
    exact List.drop_suffix _ _

/-- What is left is a proper end of the script. -/
theorem getOp_suffix (h : getOp s = some op) : ∃ b rest, s = b :: rest ∧ op.rest <:+ rest := by
  cases s with
  | nil => cases h
  | cons opcode rest =>
    refine ⟨opcode, rest, rfl, ?_⟩
    rw [getOp] at h
    split at h
    · obtain rfl := Option.some.inj h
      exact List.suffix_rfl
    · rw [Option.bind_eq_bind, Option.bind_eq_some_iff] at h
      obtain ⟨⟨nSize, rest'⟩, hsize, h⟩ := h
      dsimp only at h
      split at h
      · cases h
      · obtain rfl := Option.some.inj h
        exact (List.drop_suffix _ _).trans (operandSize_rest hsize)

theorem getOp_rest (h : getOp s = some op) : op.rest.length < s.length := by
  obtain ⟨b, rest, rfl, hsuffix⟩ := getOp_suffix h
  exact Nat.lt_succ_of_le hsuffix.length_le

theorem opsFrom_cons (n : Nat) (b : UInt8) (s : CScript) :
    opsFrom (n + 1) (b :: s) =
      match getOp (b :: s) with
      | none => ([], false)
      | some op => (op :: (opsFrom n op.rest).1, (opsFrom n op.rest).2) := rfl

/-- More rounds than bytes change nothing. -/
theorem opsFrom_eq (n : Nat) (h : s.length ≤ n) : opsFrom n s = ops s := by
  have hgeneral : ∀ (n m : Nat) (s : CScript), s.length ≤ n → s.length ≤ m → opsFrom n s = opsFrom m s := by
    intro n
    induction n with
    | zero =>
      intro m s hn _
      obtain rfl := List.length_eq_zero_iff.mp (Nat.le_zero.mp hn)
      cases m <;> rfl
    | succ n ih =>
      intro m s hn hm
      cases s with
      | nil => cases m <;> rfl
      | cons b s =>
        cases m with
        | zero => cases hm
        | succ m =>
          rw [opsFrom_cons, opsFrom_cons]
          cases hop : getOp (b :: s) with
          | none => rfl
          | some op =>
            have hrest := getOp_rest hop
            dsimp only
            rw [ih m op.rest (by omega) (by omega)]
  exact hgeneral n s.length s h le_rfl

@[simp] theorem ops_nil : ops [] = ([], true) := rfl

theorem ops_of_none (hs : s ≠ []) (h : getOp s = none) : ops s = ([], false) := by
  obtain ⟨b, s, rfl⟩ := List.exists_cons_of_ne_nil hs
  rw [ops, List.length_cons, opsFrom_cons, h]

theorem ops_of_some (h : getOp s = some op) : ops s = (op :: (ops op.rest).1, (ops op.rest).2) := by
  have hrest := getOp_rest h
  cases s with
  | nil => cases h
  | cons b s =>
    rw [ops, List.length_cons, opsFrom_cons, h]
    dsimp only
    rw [opsFrom_eq s.length (by rw [List.length_cons] at hrest; omega)]

end Operations

section Reads

variable {s : CScript}

theorem readByte_eq {pc : Nat} {b : UInt8} {rest : CScript} (h : s.drop pc = b :: rest) : readByte s pc = .ok b := by
  have hget : s[pc]? = some b := by
    rw [← Nat.add_zero pc, ← List.getElem?_drop, h, List.getElem?_cons_zero]
  rw [readByte, hget]

theorem readRange_eq {pc n : Nat} (h : pc + n ≤ s.length) : readRange s pc n = .ok ((s.drop pc).take n) := by
  rw [readRange, if_pos h, slice]

/-- The length of an operand is read within the script. -/
theorem readSize_eq (opcode : UInt8) {pc : Nat} (hpc : pc ≤ s.length) :
    readSize s opcode pc =
      .ok ((operandSize opcode (s.drop pc)).map fun found => (found.1, s.length - found.2.length)) := by
  have hlen : (s.drop pc).length = s.length - pc := List.length_drop
  -- the position behind `width` bytes that are there
  have hpos : ∀ width, ¬ s.length - pc < width → s.length - (s.length - pc - width) = pc + width := by omega
  rw [readSize, operandSize_eq, hlen]
  by_cases h0 : opcode < OP_PUSHDATA1
  · have hwidth : operandWidth opcode = 0 := if_pos h0
    rw [if_pos h0, hwidth, if_neg (Nat.not_lt_zero _), if_pos rfl, Option.map_some, List.drop_zero, hlen,
      Nat.sub_sub_self hpc]
    rfl
  rw [if_neg h0]
  by_cases h1 : opcode = OP_PUSHDATA1
  · have hwidth : operandWidth opcode = 1 := by rw [operandWidth, if_neg h0, if_pos h1]
    rw [if_pos h1, hwidth]
    by_cases hshort : s.length - pc < 1
    · rw [if_pos hshort, if_pos hshort]
      rfl
    rw [if_neg hshort, if_neg hshort, if_neg Nat.one_ne_zero, Option.map_some, List.length_drop, hlen, hpos 1 hshort]
    obtain ⟨b, rest, hdrop⟩ := List.exists_cons_of_length_pos (by omega : 0 < (s.drop pc).length)
    rw [readByte_eq hdrop, hdrop]
    rfl
  rw [if_neg h1]
  by_cases h2 : opcode = OP_PUSHDATA2
  · have hwidth : operandWidth opcode = 2 := by rw [operandWidth, if_neg h0, if_neg h1, if_pos h2]
    rw [if_pos h2, hwidth]
    by_cases hshort : s.length - pc < 2
    · rw [if_pos hshort, if_pos hshort]
      rfl
    rw [if_neg hshort, if_neg hshort, if_neg (by decide), readRange_eq (by omega), Option.map_some, List.length_drop,
      hlen, hpos 2 hshort]
    rfl
  · have hwidth : operandWidth opcode = 4 := by rw [operandWidth, if_neg h0, if_neg h1, if_neg h2]
    rw [if_neg h2, hwidth]
    by_cases hshort : s.length - pc < 4
    · rw [if_pos hshort, if_pos hshort]
      rfl
    rw [if_neg hshort, if_neg hshort, if_neg (by decide), readRange_eq (by omega), Option.map_some, List.length_drop,
      hlen, hpos 4 hshort]
    rfl

/-- `GetOp2` at a position reads what `GetOp` reads off the rest of the script, and nothing behind it. -/
theorem getOp2_eq (s : CScript) (pc : Nat) :
    getOp2 s pc = .ok ((getOp (s.drop pc)).map fun op => (op, s.length - op.rest.length)) := by
  rw [getOp2]
  by_cases hpast : pc ≥ s.length
  · rw [if_pos hpast, List.drop_of_length_le hpast]
    rfl
  rw [if_neg hpast]
  obtain ⟨opcode, rest, hdrop⟩ := List.exists_cons_of_length_pos
    (by rw [List.length_drop]; omega : 0 < (s.drop pc).length)
  have hrest : s.drop (pc + 1) = rest := by
    rw [← List.drop_drop, hdrop]
    rfl
  have hlen : rest.length = s.length - (pc + 1) := by rw [← hrest, List.length_drop]
  rw [readByte_eq hdrop, hdrop, getOp]
  simp only [bind, Except.bind, hrest]
  by_cases hpush : opcode > OP_PUSHDATA4
  · rw [if_pos hpush, if_pos hpush, Option.map_some, hlen, Nat.sub_sub_self (by omega)]
    rfl
  rw [if_neg hpush, if_neg hpush, readSize_eq opcode (by omega), hrest]
  cases hsize : operandSize opcode rest with
  | none => rfl
  | some found =>
    obtain ⟨nSize, rest'⟩ := found
    have hsuffix : rest' <:+ s := (operandSize_rest hsize).trans (hrest ▸ List.drop_suffix _ _)
    have hle := hsuffix.length_le
    have hleft : s.drop (s.length - rest'.length) = rest' := (List.suffix_iff_eq_drop.mp hsuffix).symm
    simp only [Option.map_some, Option.bind_some, Nat.sub_sub_self hle]
    by_cases hshort : rest'.length % 0x100000000 < nSize
    · rw [if_pos hshort, if_pos hshort]
      rfl
    have hroom : nSize ≤ rest'.length := (Nat.le_of_not_lt hshort).trans (Nat.mod_le _ _)
    rw [if_neg hshort, if_neg hshort, readRange_eq (by omega), hleft, ← List.drop_drop, hleft, Option.map_some,
      List.length_drop]
    have hpos : s.length - (rest'.length - nSize) = s.length - rest'.length + nSize := by omega
    rw [hpos]
    rfl

/-- The loop over a script comes to its end after at most as many rounds as there are bytes. -/
theorem readOps_eq (s : CScript) (rounds pc : Nat) (h : s.length - pc < rounds) :
    readOps s rounds pc = .ok (some (ops (s.drop pc))) := by
  induction rounds generalizing pc with
  | zero => exact absurd h (Nat.not_lt_zero _)
  | succ rounds ih =>
    rw [readOps]
    by_cases hend : pc ≥ s.length
    · rw [if_pos hend, List.drop_of_length_le hend, ops_nil]
    rw [if_neg hend, getOp2_eq]
    have hne : s.drop pc ≠ [] := by
      rw [ne_eq, List.drop_eq_nil_iff]
      exact hend
    cases hop : getOp (s.drop pc) with
    | none =>
      rw [ops_of_none hne hop]
      rfl
    | some op =>
      have hrest := getOp_rest hop
      rw [List.length_drop] at hrest
      have hnext := ih (s.length - op.rest.length) (by omega)
      obtain ⟨b, rest, hcons, hsuffix⟩ := getOp_suffix hop
      have hend : op.rest <:+ s :=
        (hsuffix.trans (List.suffix_cons b rest)).trans (hcons ▸ List.drop_suffix _ _)
      rw [← List.suffix_iff_eq_drop.mp hend] at hnext
      rw [ops_of_some hop, Option.map_some]
      simp only [bind, Except.bind, hnext]
      rfl

end Reads

section RoundTrip

variable {rest : CScript}

theorem getOp_of_operandSize {opcode : UInt8} {x b : Bytes} (hpush : opcode ≤ OP_PUSHDATA4)
    (hsize : operandSize opcode x = some (b.length, b ++ rest)) (hshort : (b ++ rest).length < 2 ^ 32) :
    getOp (opcode :: x) = some ⟨opcode, b, rest⟩ := by
  have hmod : (b ++ rest).length % 0x100000000 = (b ++ rest).length := Nat.mod_eq_of_lt hshort
  rw [getOp, if_neg (UInt8.not_lt.mpr hpush), hsize, Option.bind_eq_bind, Option.bind_some]
  dsimp only
  rw [hmod, List.length_append, if_neg (by omega), List.take_left, List.drop_left]

/-- A push whose length stands in bytes of its own. -/
theorem getOp_wide {opcode : UInt8} {b : Bytes} (hpush : opcode ≤ OP_PUSHDATA4) (hwidth : operandWidth opcode ≠ 0)
    (hb : b.length < 256 ^ operandWidth opcode)
    (hshort : (opcode :: (leBytes (operandWidth opcode) b.length ++ (b ++ rest))).length < 2 ^ 32) :
    getOp (opcode :: (leBytes (operandWidth opcode) b.length ++ (b ++ rest))) = some ⟨opcode, b, rest⟩ := by
  have hlen := leBytes_length (operandWidth opcode) b.length
  apply getOp_of_operandSize hpush
  · rw [operandSize_eq, List.length_append, hlen, if_neg (by omega), if_neg hwidth, List.take_left' hlen,
      List.drop_left' hlen, leNat_leBytes_of_lt _ _ hb]
  · rw [List.length_cons, List.length_append] at hshort
    omega

/-- A push in front of any script. -/
theorem getOp_push {b : Bytes} (hb : b.length < 2 ^ 32) (hshort : (push b ++ rest).length < 2 ^ 32) :
    ∃ opcode, getOp (push b ++ rest) = some ⟨opcode, b, rest⟩ ∧ opcode ≤ OP_PUSHDATA4 := by
  rw [push] at hshort ⊢
  by_cases h0 : b.length < OP_PUSHDATA1.toNat
  · rw [if_pos h0] at hshort ⊢
    have hlen : (UInt8.ofNat b.length).toNat = b.length := by
      rw [UInt8.toNat_ofNat']
      exact Nat.mod_eq_of_lt (h0.trans (by decide))
    have hlt : UInt8.ofNat b.length < OP_PUSHDATA1 := by rwa [UInt8.lt_iff_toNat_lt, hlen]
    have hpush : UInt8.ofNat b.length ≤ OP_PUSHDATA4 := UInt8.le_trans (UInt8.le_of_lt hlt) (by decide)
    have hwidth : operandWidth (UInt8.ofNat b.length) = 0 := if_pos hlt
    refine ⟨UInt8.ofNat b.length, getOp_of_operandSize hpush ?_ ?_, hpush⟩
    · rw [operandSize_eq, hwidth, if_neg (Nat.not_lt_zero _), if_pos rfl, hlen]
      rfl
    · rw [List.cons_append, List.length_cons] at hshort
      omega
  rw [if_neg h0] at hshort ⊢
  by_cases h1 : b.length ≤ 0xff
  · rw [if_pos h1] at hshort ⊢
    have hbyte : [UInt8.ofNat b.length] = leBytes 1 b.length := by
      rw [leBytes, leBytes, Nat.mod_eq_of_lt (by omega : b.length < 256)]
    have hbytes : OP_PUSHDATA1 :: UInt8.ofNat b.length :: b ++ rest =
        OP_PUSHDATA1 :: (leBytes (operandWidth OP_PUSHDATA1) b.length ++ (b ++ rest)) :=
      congrArg (fun size => OP_PUSHDATA1 :: (size ++ (b ++ rest))) hbyte
    rw [hbytes] at hshort ⊢
    exact ⟨OP_PUSHDATA1, getOp_wide (by decide) (by decide) (Nat.lt_succ_of_le h1) hshort, by decide⟩
  rw [if_neg h1] at hshort ⊢
  by_cases h2 : b.length ≤ 0xffff
  · rw [if_pos h2] at hshort ⊢
    have hbytes : OP_PUSHDATA2 :: leBytes 2 b.length ++ b ++ rest =
        OP_PUSHDATA2 :: (leBytes (operandWidth OP_PUSHDATA2) b.length ++ (b ++ rest)) :=
      congrArg (OP_PUSHDATA2 :: ·) (List.append_assoc _ _ _)
    rw [hbytes] at hshort ⊢
    exact ⟨OP_PUSHDATA2, getOp_wide (by decide) (by decide) (Nat.lt_succ_of_le h2) hshort, by decide⟩
  · rw [if_neg h2] at hshort ⊢
    have hbytes : OP_PUSHDATA4 :: leBytes 4 b.length ++ b ++ rest =
        OP_PUSHDATA4 :: (leBytes (operandWidth OP_PUSHDATA4) b.length ++ (b ++ rest)) :=
      congrArg (OP_PUSHDATA4 :: ·) (List.append_assoc _ _ _)
    rw [hbytes] at hshort ⊢
    exact ⟨OP_PUSHDATA4, getOp_wide (by decide) (by decide) hb hshort, by decide⟩

/-- An operation or a push in front of any script is read as what it is. -/
theorem getOp_bytes {item : ScriptItem} (hvalid : item.Valid) (hshort : (item.bytes ++ rest).length < 2 ^ 32) :
    ∃ op, getOp (item.bytes ++ rest) = some op ∧ op.item = item ∧ op.rest = rest := by
  cases item with
  | opcode b =>
    refine ⟨⟨b, [], rest⟩, if_pos hvalid, ?_, rfl⟩
    exact if_neg (UInt8.not_le.mpr hvalid)
  | vch b =>
    obtain ⟨opcode, hop, hpush⟩ := getOp_push hvalid hshort
    exact ⟨⟨opcode, b, rest⟩, hop, if_pos hpush, rfl⟩

theorem build_eq (items : List ScriptItem) : build items = items.flatMap ScriptItem.bytes := by
  have hgeneral : ∀ (items : List ScriptItem) (s : CScript),
      items.foldl append s = s ++ items.flatMap ScriptItem.bytes := by
    intro items
    induction items with
    | nil => exact fun s => (List.append_nil s).symm
    | cons item items ih =>
      intro s
      rw [List.foldl_cons, ih, append, List.flatMap_cons, List.append_assoc]
  exact hgeneral items []

/-- The operations of a script that was built are its items. -/
theorem ops_build (items : List ScriptItem) (hvalid : ∀ item ∈ items, item.Valid)
    (hshort : (build items).length < 2 ^ 32) :
    (ops (build items)).1.map ScriptOp.item = items ∧ (ops (build items)).2 = true := by
  rw [build_eq] at hshort ⊢
  induction items with
  | nil => exact ⟨rfl, rfl⟩
  | cons item items ih =>
    rw [List.flatMap_cons] at hshort ⊢
    obtain ⟨op, hop, hitem, hrest⟩ := getOp_bytes (hvalid item List.mem_cons_self) hshort
    rw [List.length_append] at hshort
    obtain ⟨hitems, hend⟩ := ih (fun other hother => hvalid other (List.mem_cons_of_mem item hother)) (by omega)
    rw [ops_of_some hop, hrest, List.map_cons, hitem, hitems]
    exact ⟨rfl, hend⟩

/-- What was built is read back, and the loop over any script ends without a read behind its end. -/
theorem script_readBack :
    (∀ items : List ScriptItem, (∀ item ∈ items, item.Valid) → (build items).length < 2 ^ 32 →
      ∀ rounds > (build items).length, ∃ read, readOps (build items) rounds 0 = .ok (some (read, true)) ∧
        read.map ScriptOp.item = items) ∧
    ∀ (s : CScript), ∀ rounds > s.length, ∃ read fEnd, readOps s rounds 0 = .ok (some (read, fEnd)) := by
  constructor
  · intro items hvalid hshort rounds hrounds
    obtain ⟨hitems, hend⟩ := ops_build items hvalid hshort
    have hread := readOps_eq (build items) rounds 0 (by omega)
    rw [List.drop_zero] at hread
    exact ⟨(ops (build items)).1, by rw [hread, ← hend], hitems⟩
  · intro s rounds hrounds
    exact ⟨_, _, readOps_eq s rounds 0 (by omega)⟩

/-- A push of 80 bytes between two operations. -/
theorem script_readBack_push :
    ∃ read, readOps (build [.opcode OP_1, .vch (List.replicate 80 7), .opcode OP_EQUAL]) 85 0 =
        .ok (some (read, true)) ∧
      read.map ScriptOp.item = [.opcode OP_1, .vch (List.replicate 80 7), .opcode OP_EQUAL] :=
  script_readBack.1 _ (by simp [ScriptItem.Valid, OP_PUSHDATA4, OP_1, OP_EQUAL]) (by decide) 85 (by decide)

/-- Two items, the second of `n` bytes. -/
def twoItems (n : Nat) : List ScriptItem := [.vch [7], .vch (List.replicate n 0)]

theorem push_length {b : Bytes} (hb : 0xffff < b.length) : (push b).length = b.length + 5 := by
  have h0 : ¬ b.length < OP_PUSHDATA1.toNat := by
    have h76 : OP_PUSHDATA1.toNat = 76 := rfl
    omega
  rw [push, if_neg h0, if_neg (by omega), if_neg (by omega), List.length_append, List.length_cons, leBytes_length]
  omega

theorem build_twoItems (n : Nat) : build (twoItems n) = 1 :: 7 :: push (List.replicate n 0) := by
  rw [twoItems, build_eq]
  simp [ScriptItem.bytes, push, OP_PUSHDATA1]

/-- Where the second item leaves `2 ^ 32` bytes behind the first byte, these are taken for none. -/
theorem readOps_twoItems {n : Nat} (hn : n + 6 = 0x100000000) {rounds : Nat}
    (hrounds : (build (twoItems n)).length < rounds) :
    readOps (build (twoItems n)) rounds 0 = .ok (some ([], false)) := by
  have hlen : (push (List.replicate n 0)).length = n + 5 := by
    rw [push_length (by rw [List.length_replicate]; omega), List.length_replicate]
  have hop : getOp (build (twoItems n)) = none := by
    rw [build_twoItems, getOp, if_neg (by decide), operandSize_eq]
    have hwidth : operandWidth 1 = 0 := by decide
    rw [hwidth, if_neg (Nat.not_lt_zero _), if_pos rfl, List.drop_zero, Option.bind_eq_bind, Option.bind_some]
    dsimp only
    have hone : (1 : UInt8).toNat = 1 := rfl
    rw [List.length_cons, hlen, hone, if_pos (by omega)]
  have hread := readOps_eq (build (twoItems n)) rounds 0 (by omega)
  rw [List.drop_zero, ops_of_none (by rw [build_twoItems]; exact List.cons_ne_nil _ _) hop] at hread
  exact hread

theorem valid_twoItems {n : Nat} (hn : n < 0x100000000) : ∀ item ∈ twoItems n, item.Valid := by
  rw [twoItems, List.forall_mem_cons, List.forall_mem_singleton]
  constructor
  · simp [ScriptItem.Valid]
  · rw [ScriptItem.Valid, List.length_replicate]
    exact hn

theorem twoItems_unread : (∀ item ∈ twoItems 0xfffffffa, item.Valid) ∧
    ∀ rounds > (build (twoItems 0xfffffffa)).length,
      readOps (build (twoItems 0xfffffffa)) rounds 0 = .ok (some ([], false)) :=
  ⟨valid_twoItems (by omega), fun _ hrounds => readOps_twoItems (by omega) hrounds⟩

end RoundTrip

end CScript

end AliasWallet
