import AliasWallet.Lib.Selection
import AliasWallet.Script.Combine

/-!
# Partial multisignatures (`script.cpp`)

Signatures for a multisignature script are collected in scriptSigs of pushes. Combining them takes, for the first keys
in their order, the least signature that was ever pushed for the key, so neither order nor grouping matters.
-/

namespace AliasWallet
open Lib

attribute [local instance] valtypeOrder

section Rounds

variable {p : ChainParams} {C : ScriptCrypto} {txTo : CTransaction} {nIn : Nat} {flags : EvalFlags} {op : ScriptOp}
  {st : EvalState} {b : Bytes}

theorem evalRounds_of_foldlM {ops : List ScriptOp} {st' : EvalState}
    (h : ops.foldlM (fun st op => evalStep p C txTo nIn flags op st) st = some st') :
    evalRounds p C txTo nIn flags ops st = st'.stack := by
  induction ops generalizing st with
  | nil => exact congrArg EvalState.stack (Option.some.inj h)
  | cons op ops ih =>
    rw [List.foldlM_cons, Option.bind_eq_bind, Option.bind_eq_some_iff] at h
    obtain ⟨st1, hstep, hrun⟩ := h
    rw [evalRounds, hstep]
    exact ih hrun

/-- Where `EvalScript` returns true, the stack is its result. -/
theorem evalScriptStack_of_evalScript {stack s : List Bytes} {script : CScript}
    (h : evalScript p C txTo nIn flags stack script = some s) :
    evalScriptStack p C txTo nIn flags stack script = s := by
  rw [evalScript] at h
  by_cases hlong : script.length > 10000
  · rw [if_pos hlong] at h
    cases h
  rw [if_neg hlong, Option.bind_eq_bind, Option.bind_eq_some_iff] at h
  obtain ⟨st, hrun, h⟩ := h
  rw [evalScriptStack, if_neg hlong, evalRounds_of_foldlM hrun]
  split at h
  · exact Option.some.inj h
  · cases h

/-- An operation that pushes `b`, whatever the stack is. -/
def Pushes (p : ChainParams) (C : ScriptCrypto) (txTo : CTransaction) (nIn : Nat) (flags : EvalFlags) (op : ScriptOp)
    (b : Bytes) : Prop :=
  op.opcode ≤ OP_16 ∧ op.vch.length ≤ MAX_SCRIPT_ELEMENT_SIZE ∧ Opcode.ofByte op.opcode ≠ .disabled ∧
    ∀ st, execOp p C txTo nIn flags true op st = some { st with stack := b :: st.stack }

theorem pushes_vch (hitem : op.item = .vch b) (hsize : b.length ≤ MAX_SCRIPT_ELEMENT_SIZE) :
    Pushes p C txTo nIn flags op b := by
  obtain ⟨hopcode, hvch⟩ := ScriptOp.item_vch.mp hitem
  refine ⟨UInt8.le_trans hopcode (by decide), hvch ▸ hsize, ?_, ?_⟩
  · rw [ofByte_pushData hopcode]
    exact Opcode.noConfusion
  · intro st
    rw [execOp, ofByte_pushData hopcode, hvch]

theorem pushes_smallInteger {n : Nat} (hpos : 1 ≤ n) (hn : n ≤ 16) (hitem : op.item = .opcode (CScript.encodeOP_N n))
    (hvch : op.vch = []) : Pushes p C txTo nIn flags op (vchOfBigNum n) := by
  have hopcode : op.opcode = CScript.encodeOP_N n := (encodeOP_N_item hpos hn).mp hitem
  have hall : ∀ k : Fin 17, 1 ≤ k.val → OP_1 ≤ CScript.encodeOP_N k.val ∧ CScript.encodeOP_N k.val ≤ OP_16 ∧
      (CScript.encodeOP_N k.val).toNat - 0x50 = k.val := by decide
  obtain ⟨hlow, hhigh, hvalue⟩ := hall ⟨n, by omega⟩ hpos
  rw [← hopcode] at hlow hhigh hvalue
  dsimp only at hvalue
  refine ⟨hhigh, by rw [hvch]; exact Nat.zero_le _, ?_, ?_⟩
  · rw [ofByte_pushNum hlow hhigh]
    exact Opcode.noConfusion
  · intro st
    rw [execOp, ofByte_pushNum hlow hhigh]
    have hnum : (op.opcode.toNat : Int) - 0x50 = n := by
      have hbig : 81 ≤ op.opcode.toNat := UInt8.le_iff_toNat_le.mp hlow
      omega
    rw [hnum]

/-- What a round makes of a push. -/
theorem evalStep_pushes (h : Pushes p C txTo nIn flags op b) (hexec : st.vfExec = []) (hops : st.nOpCount ≤ 201) :
    evalStep p C txTo nIn flags op st =
      if st.stack.length + 1 + st.altstack.length > 1000 then none else some { st with stack := b :: st.stack } := by
  obtain ⟨hopcode, hsize, hable, hrun⟩ := h
  have hall : st.vfExec.all id = true := by rw [hexec]; rfl
  rw [evalStep, hall, if_neg (Nat.not_lt.mpr hsize), if_neg (UInt8.not_lt.mpr hopcode)]
  dsimp only
  rw [if_neg (Nat.not_lt.mpr hops), if_neg hable, if_pos (.inl rfl), hrun]
  rfl

theorem leftStack_pushes (h : Pushes p C txTo nIn flags op b) (hexec : st.vfExec = []) (hops : st.nOpCount ≤ 201) :
    leftStack p C txTo nIn flags op st = b :: st.stack := by
  obtain ⟨hopcode, hsize, hable, hrun⟩ := h
  have hall : st.vfExec.all id = true := by rw [hexec]; rfl
  have hfits := not_or.mpr ⟨Nat.not_lt.mpr hsize, not_or.mpr ⟨Nat.not_lt.mpr hops, hable⟩⟩
  rw [leftStack, hall, if_neg (UInt8.not_lt.mpr hopcode), if_neg hfits, if_pos (.inl rfl), hrun]

/-- A run of pushes ends at the limit of the stack, with the last one on it. -/
theorem evalRounds_pushes {ops : List ScriptOp} {sigs : List Bytes}
    (h : List.Forall₂ (Pushes p C txTo nIn flags) ops sigs) (hexec : st.vfExec = []) (halt : st.altstack = [])
    (hops : st.nOpCount ≤ 201) (hroom : st.stack.length ≤ 1000) :
    evalRounds p C txTo nIn flags ops st = (sigs.take (1001 - st.stack.length)).reverse ++ st.stack := by
  induction h generalizing st with
  | nil => rw [List.take_nil]; rfl
  | cons hpush _ ih =>
    rename_i op b ops sigs _
    have hnone : st.altstack.length = 0 := by rw [halt]; rfl
    rw [evalRounds, evalStep_pushes hpush hexec hops]
    by_cases hfull : st.stack.length = 1000
    · rw [if_pos (by omega), hfull, leftStack_pushes hpush hexec hops]
      rfl
    · have hlater := @ih { st with stack := b :: st.stack } hexec halt hops
        (by rw [List.length_cons]; omega)
      have htake : 1001 - st.stack.length = 1001 - (b :: st.stack).length + 1 := by rw [List.length_cons]; omega
      rw [if_neg (by omega)]
      dsimp only at hlater ⊢
      rw [hlater, htake, List.take_succ_cons, List.reverse_cons, List.append_assoc]
      rfl

theorem foldlM_pushes {ops : List ScriptOp} {sigs : List Bytes}
    (h : List.Forall₂ (Pushes p C txTo nIn flags) ops sigs) (hexec : st.vfExec = []) (halt : st.altstack = [])
    (hops : st.nOpCount ≤ 201) (hroom : st.stack.length + sigs.length ≤ 1000) :
    ops.foldlM (fun st op => evalStep p C txTo nIn flags op st) st =
      some { st with stack := sigs.reverse ++ st.stack } := by
  induction h generalizing st with
  | nil => rfl
  | cons hpush _ ih =>
    rename_i op b ops sigs _
    rw [List.length_cons] at hroom
    have hnone : st.altstack.length = 0 := by rw [halt]; rfl
    have hlater := @ih { st with stack := b :: st.stack } hexec halt hops (by rw [List.length_cons]; omega)
    rw [List.foldlM_cons, evalStep_pushes hpush hexec hops, if_neg (by omega), Option.bind_eq_bind, Option.bind_some,
      hlater, List.reverse_cons, List.append_assoc]
    rfl

end Rounds

section Scripts

variable {p : ChainParams} {C : ScriptCrypto} {txTo : CTransaction} {nIn : Nat} {flags : EvalFlags} {script : CScript}
  {sigs : List Bytes}

theorem forall₂_pushes {ops : List ScriptOp} (hitems : ops.map ScriptOp.item = sigs.map .vch)
    (hsize : ∀ sig ∈ sigs, sig.length ≤ MAX_SCRIPT_ELEMENT_SIZE) :
    List.Forall₂ (Pushes p C txTo nIn flags) ops sigs := by
  induction sigs generalizing ops with
  | nil =>
    obtain rfl := List.map_eq_nil_iff.mp hitems
    exact .nil
  | cons sig sigs ih =>
    obtain ⟨op, ops, rfl, hitem, hitems⟩ := List.map_eq_cons_iff.mp hitems
    have hsize' := List.forall_mem_cons.mp hsize
    exact .cons (pushes_vch hitem hsize'.1) (ih hitems hsize'.2)

/-- What a script of pushes leaves, also where it is too long for `EvalScript` or pushes too much. -/
theorem evalScriptStack_pushes (hparse : script.ParsesAs (sigs.map .vch))
    (hsize : ∀ sig ∈ sigs, sig.length ≤ MAX_SCRIPT_ELEMENT_SIZE) :
    evalScriptStack p C txTo nIn flags [] script =
      if script.length > 10000 then [] else (sigs.take 1001).reverse := by
  rw [evalScriptStack]
  by_cases hlong : script.length > 10000
  · rw [if_pos hlong, if_pos hlong]
  · have hrun := @evalRounds_pushes p C txTo nIn flags ⟨[], [], [], 0, script⟩ _ _ (forall₂_pushes hparse.1 hsize)
      rfl rfl (Nat.zero_le _) (Nat.zero_le _)
    rw [if_neg hlong, if_neg hlong, hrun]
    exact List.append_nil _

theorem evalScript_pushes (hparse : script.ParsesAs (sigs.map .vch))
    (hsize : ∀ sig ∈ sigs, sig.length ≤ MAX_SCRIPT_ELEMENT_SIZE) (hlong : script.length ≤ 10000)
    (hroom : sigs.length ≤ 1000) : evalScript p C txTo nIn flags [] script = some sigs.reverse := by
  have hrun := @foldlM_pushes p C txTo nIn flags ⟨[], [], [], 0, script⟩ _ _ (forall₂_pushes hparse.1 hsize)
    rfl rfl (Nat.zero_le _) (by rw [List.length_nil]; omega)
  rw [evalScript, if_neg (Nat.not_lt.mpr hlong)]
  dsimp only
  rw [hrun, Option.bind_eq_bind, Option.bind_some, if_pos ⟨hparse.2, rfl⟩]
  exact congrArg some (List.append_nil _)

/-- The state in which a multisignature script comes to its last operation. -/
def multiSigState (script : CScript) (m : Nat) (keys stack : List Bytes) : EvalState where
  stack := vchOfBigNum keys.length :: (keys.reverse ++ vchOfBigNum m :: stack)
  altstack := []
  vfExec := []
  nOpCount := 1
  codeHash := script

/-- Only a push has an operand. -/
theorem ops_vch (script : CScript) (op : ScriptOp) (hop : op ∈ (CScript.ops script).1)
    (hbig : OP_PUSHDATA4 < op.opcode) : op.vch = [] := by
  induction hn : script.length using Nat.strong_induction_on generalizing script with
  | _ n ih =>
    cases hfirst : CScript.getOp script with
    | none =>
      cases script with
      | nil => exact absurd hop List.not_mem_nil
      | cons b script =>
        rw [CScript.ops_of_none (List.cons_ne_nil b script) hfirst] at hop
        exact absurd hop List.not_mem_nil
    | some first =>
      have hrest := CScript.getOp_rest hfirst
      rw [CScript.ops_of_some hfirst, List.mem_cons] at hop
      cases hop with
      | inl heq => exact CScript.getOp_vch (heq ▸ hfirst) hbig
      | inr hlater => exact ih first.rest.length (by omega) first.rest hlater rfl

theorem evalStep_checkMultiSig {op : ScriptOp} {st : EvalState} (hitem : op.item = .opcode OP_CHECKMULTISIG)
    (hvch : op.vch = []) (hexec : st.vfExec = []) (hops : st.nOpCount ≤ 200) :
    evalStep p C txTo nIn flags op st =
      (runCheckMultiSig p C txTo nIn flags false { st with nOpCount := st.nOpCount + 1 }).bind fun st =>
        if st.stack.length + st.altstack.length > 1000 then none else some st := by
  have hopcode := (ScriptOp.item_opcode.mp hitem).2
  have hall : st.vfExec.all id = true := by rw [hexec]; rfl
  have hcase : Opcode.ofByte op.opcode = .checkMultiSig false := by rw [hopcode]; decide
  have hcounted : op.opcode > OP_16 := by rw [hopcode]; decide
  rw [evalStep, hall, hvch, if_neg (by decide), if_pos hcounted]
  dsimp only
  rw [if_neg (by omega), if_neg (by rw [hcase]; exact Opcode.noConfusion), if_pos (.inl rfl),
    execOp_checkMultiSig p C txTo nIn flags true hcase]
  rfl

/-- Run on a stack, a multisignature script comes to its last operation. -/
theorem evalScript_multiSig {m : Nat} {keys stack : List Bytes} (hm : 1 ≤ m) (hle : m ≤ keys.length)
    (hn : keys.length ≤ 16) (hsizes : ∀ key ∈ keys, KeySize key)
    (hparse : script.ParsesAs (multiSigItems m keys.length keys)) (hlong : script.length ≤ 10000)
    (hroom : stack.length ≤ 900) :
    evalScript p C txTo nIn flags stack script =
      (runCheckMultiSig p C txTo nIn flags false (multiSigState script m keys stack)).bind fun st =>
        if st.stack.length + st.altstack.length > 1000 then none
        else if st.vfExec.isEmpty then some st.stack else none := by
  obtain ⟨hitems, hend⟩ := hparse
  rw [multiSigItems] at hitems
  obtain ⟨op, ops, hops, hfirst, hitems⟩ := List.map_eq_cons_iff.mp hitems
  obtain ⟨pushed, behind, rfl, hkeys, hitems⟩ := List.map_eq_append_iff.mp hitems
  obtain ⟨count, behind, rfl, hcount, hitems⟩ := List.map_eq_cons_iff.mp hitems
  obtain ⟨last, behind, rfl, hlast, hitems⟩ := List.map_eq_cons_iff.mp hitems
  obtain rfl := List.map_eq_nil_iff.mp hitems
  have hvch : ∀ other ∈ op :: (pushed ++ [count, last]), ∀ b, other.item = .opcode b → other.vch = [] := by
    intro other hother b hitem
    apply ops_vch script other (hops ▸ hother)
    exact (ScriptOp.item_opcode.mp hitem).1
  have hsmall : ∀ key ∈ keys, key.length ≤ MAX_SCRIPT_ELEMENT_SIZE := fun key hkey =>
    (hsizes key hkey).2.trans (by decide)
  have hpushes : List.Forall₂ (Pushes p C txTo nIn flags) (op :: (pushed ++ [count]))
      (vchOfBigNum m :: (keys ++ [vchOfBigNum keys.length])) := by
    apply List.Forall₂.cons
    · exact pushes_smallInteger hm (by omega) hfirst (hvch op List.mem_cons_self _ hfirst)
    · apply List.rel_append (forall₂_pushes hkeys hsmall)
      apply List.Forall₂.cons _ List.Forall₂.nil
      exact pushes_smallInteger (by omega) hn hcount (hvch count (by simp) _ hcount)
  have hrun := @foldlM_pushes p C txTo nIn flags ⟨stack, [], [], 0, script⟩ _ _ hpushes rfl rfl (Nat.zero_le _)
    (by simp only [List.length_cons, List.length_append, List.length_nil]; omega)
  have hsplit : op :: (pushed ++ [count, last]) = (op :: (pushed ++ [count])) ++ [last] := by simp
  have hstack : (vchOfBigNum m :: (keys ++ [vchOfBigNum keys.length])).reverse ++ stack =
      vchOfBigNum keys.length :: (keys.reverse ++ vchOfBigNum m :: stack) := by simp
  have hstep := @evalStep_checkMultiSig p C txTo nIn flags last
    ⟨vchOfBigNum keys.length :: (keys.reverse ++ vchOfBigNum m :: stack), [], [], 0, script⟩ hlast
    (hvch last (by simp) _ hlast) rfl (Nat.zero_le _)
  rw [hstack] at hrun
  rw [evalScript, if_neg (Nat.not_lt.mpr hlong)]
  dsimp only
  rw [hops, hsplit, List.foldlM_append, hrun, Option.bind_eq_bind, Option.bind_eq_bind, Option.bind_some,
    List.foldlM_cons, hstep, hend]
  show ((runCheckMultiSig p C txTo nIn flags false (multiSigState script m keys stack)).bind _ >>= _) >>= _ = _
  cases runCheckMultiSig p C txTo nIn flags false (multiSigState script m keys stack) with
  | none => rfl
  | some st =>
    simp only [Option.bind_some, Option.bind_eq_bind, List.foldlM_nil, Option.pure_def]
    by_cases hfull : st.stack.length + st.altstack.length > 1000
    · rw [if_pos hfull, if_pos hfull]
      rfl
    · rw [if_neg hfull, if_neg hfull, Option.bind_some, Option.bind_some]
      simp only [true_and]

end Scripts

section Lengths

variable {s : CScript} {op : ScriptOp} {items : List ScriptItem} {b : Bytes} {n : Nat}

theorem operandWidth_le (opcode : UInt8) : CScript.operandWidth opcode ≤ 4 := by
  rw [CScript.operandWidth]
  split_ifs <;> decide

theorem getOp_length (h : CScript.getOp s = some op) : s.length ≤ op.rest.length + op.vch.length + 5 := by
  cases s with
  | nil => cases h
  | cons opcode rest =>
    rw [CScript.getOp] at h
    by_cases hbig : opcode > OP_PUSHDATA4
    · rw [if_pos hbig] at h
      obtain rfl := Option.some.inj h
      dsimp only
      rw [List.length_cons]
      omega
    · rw [if_neg hbig, Option.bind_eq_bind, Option.bind_eq_some_iff] at h
      obtain ⟨⟨nSize, left⟩, hfound, h⟩ := h
      rw [CScript.operandSize_eq] at hfound
      have hwidth := operandWidth_le opcode
      by_cases hshort : rest.length < CScript.operandWidth opcode
      · rw [if_pos hshort] at hfound
        cases hfound
      rw [if_neg hshort] at hfound
      obtain ⟨-, rfl⟩ := Prod.mk.inj (Option.some.inj hfound)
      dsimp only at h
      split at h
      · cases h
      · obtain rfl := Option.some.inj h
        dsimp only
        rw [List.length_cons, List.length_drop, List.length_take, List.length_drop]
        omega

/-- A script of few items of few bytes is short. -/
theorem length_le_of_parsesAs (h : s.ParsesAs items) (hsize : ∀ b, .vch b ∈ items → b.length ≤ n) :
    s.length ≤ items.length * (n + 5) := by
  induction items generalizing s with
  | nil =>
    rw [CScript.parsesAs_nil_iff.mp h]
    exact Nat.zero_le _
  | cons item items ih =>
    obtain ⟨op, hop, hitem, hrest⟩ := CScript.parsesAs_cons_iff.mp h
    have hlater := ih hrest fun b hb => hsize b (List.mem_cons_of_mem item hb)
    have hlen := getOp_length hop
    have hvch : op.vch.length ≤ n := by
      by_cases hnil : op.vch = []
      · rw [hnil]
        exact Nat.zero_le n
      · apply hsize
        rw [← CScript.getOp_item_vch hop hnil, hitem]
        exact List.mem_cons_self
    rw [List.length_cons, Nat.succ_mul]
    omega

theorem push_length_le (b : Bytes) : (CScript.push b).length ≤ b.length + 5 := by
  rw [CScript.push]
  split_ifs with h0 h1 h2
  · rw [List.length_cons]
    omega
  · rw [List.length_cons, List.length_cons]
    omega
  · rw [List.length_append, List.length_cons, leBytes_length]
    omega
  · rw [List.length_append, List.length_cons, leBytes_length]
    omega

theorem push_ne_nil (b : Bytes) : CScript.push b ≠ [] := by
  rw [CScript.push]
  split_ifs <;> simp

/-- Pushes are read back as they were made. -/
theorem parsesAs_pushes {sigs : List Bytes} (hsize : ∀ sig ∈ sigs, sig.length ≤ n)
    (hshort : sigs.length * (n + 5) < 2 ^ 32) : CScript.ParsesAs (sigs.flatMap CScript.push) (sigs.map .vch) := by
  have hbuild : CScript.build (sigs.map .vch) = sigs.flatMap CScript.push := by
    rw [CScript.build_eq, List.flatMap_map]
    rfl
  have hlen : (sigs.flatMap CScript.push).length ≤ sigs.length * (n + 5) := by
    clear hshort hbuild
    induction sigs with
    | nil => exact Nat.zero_le _
    | cons sig sigs ih =>
      have hsize' := List.forall_mem_cons.mp hsize
      have hfirst := push_length_le sig
      have hlater := ih hsize'.2
      have hsig := hsize'.1
      rw [List.flatMap_cons, List.length_append, List.length_cons, Nat.succ_mul]
      omega
  rw [← hbuild]
  apply CScript.ops_build
  · intro item hitem
    obtain ⟨sig, hsig, rfl⟩ := List.mem_map.mp hitem
    have hone := List.length_pos_of_mem hsig
    have hle : n + 5 ≤ sigs.length * (n + 5) := Nat.le_mul_of_pos_left _ hone
    have hsmall := hsize sig hsig
    show sig.length < 2 ^ 32
    omega
  · rw [hbuild]
    omega

/-- `FindAndDelete` leaves a script that has no such push. -/
theorem findAndDelete_eq_self (h : s.ParsesAs items) (hb : .vch b ∉ items) (hshort : s.length < 2 ^ 32)
    (hlen : b.length < 2 ^ 32) : CScript.findAndDelete s (CScript.push b) = s := by
  have hhere : ∀ {t : CScript} {items : List ScriptItem} (rounds : Nat), t.ParsesAs items → .vch b ∉ items →
      t.length < 2 ^ 32 → CScript.eraseHere (CScript.push b) rounds t = t := by
    intro t items rounds ht hitems htshort
    cases rounds with
    | zero => rfl
    | succ rounds =>
      rw [CScript.eraseHere, if_neg]
      intro htake
      -- a push of `b` that stands here is read as one
      have ht' : t = CScript.push b ++ t.drop (CScript.push b).length := by
        conv_lhs => rw [← List.take_append_drop (CScript.push b).length t, htake]
      rw [ht'] at htshort
      obtain ⟨opcode, hop, hpush⟩ := CScript.getOp_push hlen htshort
      rw [← ht'] at hop
      cases items with
      | nil =>
        rw [CScript.parsesAs_nil_iff.mp ht] at hop
        cases hop
      | cons item items =>
        have hitem := ((CScript.parsesAs_of_getOp hop).mp ht).1
        rw [ScriptOp.item_vch.mpr ⟨hpush, rfl⟩] at hitem
        exact hitems (hitem ▸ List.mem_cons_self)
  have hfrom : ∀ (rounds : Nat) (t : CScript) (items : List ScriptItem), t.ParsesAs items → .vch b ∉ items →
      t.length < 2 ^ 32 → CScript.findAndDeleteFrom (CScript.push b) rounds t = t := by
    intro rounds
    induction rounds with
    | zero => exact fun t items ht hitems htshort => hhere _ ht hitems htshort
    | succ rounds ih =>
      intro t items ht hitems htshort
      rw [CScript.findAndDeleteFrom, hhere _ ht hitems htshort]
      cases hop : CScript.getOp t with
      | none => rfl
      | some op =>
        cases items with
        | nil =>
          rw [CScript.parsesAs_nil_iff.mp ht] at hop
          cases hop
        | cons item items =>
          have hrest := ((CScript.parsesAs_of_getOp hop).mp ht).2
          have hless := CScript.getOp_rest hop
          obtain ⟨first, rest, hcons, hsuffix⟩ := CScript.getOp_suffix hop
          have hend : op.rest <:+ t := hcons ▸ hsuffix.trans (List.suffix_cons first rest)
          dsimp only
          rw [ih op.rest items hrest (fun h => hitems (List.mem_cons_of_mem item h)) (by omega)]
          conv_lhs => rw [List.suffix_iff_eq_drop.mp hend]
          rw [List.length_drop, Nat.sub_sub_self hend.length_le]
          exact List.take_append_drop _ t
  rw [CScript.findAndDelete, if_neg (by simpa using push_ne_nil b)]
  exact hfrom _ s items h hb hshort

end Lengths

section Merge

/-- What a signature is valid for. -/
def signsFor (p : ChainParams) (C : ScriptCrypto) (txTo : CTransaction) (nIn : Nat) (scriptPubKey : CScript)
    (sig key : Bytes) : Bool :=
  checkSig p C sig key scriptPubKey txTo nIn

/-- The signatures that a scriptSig leaves on the stack. -/
def pushedSigs (p : ChainParams) (C : ScriptCrypto) (scriptSig : CScript) : OrderedSet Bytes :=
  OrderedSet.empty.insertAll
    ((evalScriptStack p C nullTransaction 0 SCRIPT_VERIFY_NONE.toEvalFlags [] scriptSig).filter fun v => !v.isEmpty)

/-- An extra argument, the signatures, and placeholders for those that are missing. -/
def mergedPushes (m : Nat) (sigs : List Bytes) : List Bytes := [] :: (sigs ++ List.replicate (m - sigs.length) [])

def mergedScript (m : Nat) (sigs : List Bytes) : CScript := (mergedPushes m sigs).flatMap CScript.push

variable {p : ChainParams} {C : ScriptCrypto} {txTo : CTransaction} {nIn : Nat} {scriptPubKey : CScript}
  {keys : List Bytes} {m : Nat}

/-- No two keys share the signature. -/
def SingleKey (p : ChainParams) (C : ScriptCrypto) (txTo : CTransaction) (nIn : Nat) (scriptPubKey : CScript)
    (keys : List Bytes) (sig : Bytes) : Prop :=
  ∀ key ∈ keys, ∀ key' ∈ keys, signsFor p C txTo nIn scriptPubKey sig key = true →
    signsFor p C txTo nIn scriptPubKey sig key' = true → key = key'

theorem signsFor_ne_nil {sig key : Bytes} (h : signsFor p C txTo nIn scriptPubKey sig key = true) : sig ≠ [] := by
  intro hnil
  rw [signsFor, checkSig, hnil, List.getLast?_nil] at h
  cases hhead : key.head? with
  | none =>
    rw [hhead] at h
    cases h
  | some chHeader =>
    rw [hhead] at h
    cases h

/-- The map gives each key the first of the signatures that is valid for it. -/
theorem foldl_matchSig (l : List Bytes) (hsingle : ∀ sig ∈ l, SingleKey p C txTo nIn scriptPubKey keys sig)
    (key : Bytes) (hkey : key ∈ keys) :
    (l.foldl (matchSig p C txTo nIn scriptPubKey keys) []).lookup key =
      l.find? fun sig => signsFor p C txTo nIn scriptPubKey sig key := by
  induction l using List.reverseRecOn with
  | nil => rfl
  | append_singleton l sig ih =>
    rw [List.forall_mem_append] at hsingle
    have hbefore := ih hsingle.1
    have hsig := hsingle.2 sig List.mem_cons_self
    rw [List.foldl_append, List.foldl_cons, List.foldl_nil, List.find?_append, ← hbefore, List.find?_singleton]
    generalize l.foldl (matchSig p C txTo nIn scriptPubKey keys) [] = sigs
    rw [matchSig]
    cases hfound : keys.find? fun pubkey =>
        (sigs.lookup pubkey).isNone && checkSig p C sig pubkey scriptPubKey txTo nIn with
    | none =>
      dsimp only
      cases hlookup : sigs.lookup key with
      | some sig' => rfl
      | none =>
        have hno := List.find?_eq_none.mp hfound key hkey
        rw [hlookup] at hno
        rw [Option.isNone_none, Bool.true_and] at hno
        rw [signsFor, if_neg hno]
        rfl
    | some pubkey =>
      dsimp only
      have hmem := List.mem_of_find?_eq_some hfound
      have htest := List.find?_some hfound
      rw [Bool.and_eq_true, Option.isNone_iff_eq_none] at htest
      by_cases heq : key = pubkey
      · rw [heq, List.lookup_cons_self, htest.1, signsFor, if_pos htest.2]
        rfl
      · have hfalse : ¬ signsFor p C txTo nIn scriptPubKey sig key = true := fun h =>
          heq (hsig key hkey pubkey hmem h htest.2)
        have hother : (key == pubkey) = false := beq_eq_false_iff_ne.mpr heq
        rw [List.lookup_cons, hother, if_neg hfalse, Option.or_none]

/-- The merged script takes the signatures of the first keys that have one. -/
theorem mergeSigs_eq (sigs : List (Bytes × Bytes)) (nSigsRequired : Nat) (keys : List Bytes) (nSigsHave : Nat)
    (result : CScript) :
    mergeSigs sigs nSigsRequired keys nSigsHave result =
      (result ++ ((keys.filterMap fun key => sigs.lookup key).take (nSigsRequired - nSigsHave)).flatMap CScript.push,
        nSigsHave + ((keys.filterMap fun key => sigs.lookup key).take (nSigsRequired - nSigsHave)).length) := by
  induction keys generalizing nSigsHave result with
  | nil =>
    rw [mergeSigs, List.filterMap_nil, List.take_nil, List.flatMap_nil, List.append_nil]
    rfl
  | cons pubkey keys ih =>
    rw [mergeSigs]
    by_cases hmore : nSigsHave < nSigsRequired
    · rw [if_pos hmore]
      cases hlookup : sigs.lookup pubkey with
      | none =>
        dsimp only
        rw [List.filterMap_cons_none (f := fun key => sigs.lookup key) hlookup, ih]
      | some sig =>
        have hleft : nSigsRequired - nSigsHave = nSigsRequired - (nSigsHave + 1) + 1 := by omega
        dsimp only
        rw [List.filterMap_cons_some (f := fun key => sigs.lookup key) hlookup, ih, hleft, List.take_succ_cons,
          List.flatMap_cons, List.append_assoc, List.length_cons, Nat.add_assoc, Nat.add_comm 1]
    · have hnone : nSigsRequired - nSigsHave = 0 := by omega
      rw [if_neg hmore, hnone, List.take_zero, List.flatMap_nil, List.append_nil]
      rfl

/-- `CombineMultisig` takes the least valid signature for each of the first keys. -/
theorem combineMultisig_eq (hm : m ≤ 16) (n : Nat) (sigs1 sigs2 : List Bytes)
    (hsingle : ∀ sig, sig ∈ sigs1 ∨ sig ∈ sigs2 → SingleKey p C txTo nIn scriptPubKey keys sig) :
    combineMultisig p C txTo nIn scriptPubKey ([UInt8.ofNat m] :: (keys ++ [[UInt8.ofNat n]])) sigs1 sigs2 =
      mergedScript m (select (signsFor p C txTo nIn scriptPubKey) m keys
        ((OrderedSet.empty.insertAll (sigs1.filter fun v => !v.isEmpty)).insertAll
          (sigs2.filter fun v => !v.isEmpty))) := by
  rw [combineMultisig]
  have hrequired : (UInt8.ofNat m).toNat = m := by
    rw [UInt8.toNat_ofNat']
    exact Nat.mod_eq_of_lt (by omega)
  have hkeys : ([UInt8.ofNat m] :: (keys ++ [[UInt8.ofNat n]])).tail.take
      (([UInt8.ofNat m] :: (keys ++ [[UInt8.ofNat n]])).length - 2) = keys := by
    have hlen : ([UInt8.ofNat m] :: (keys ++ [[UInt8.ofNat n]])).length - 2 = keys.length := by
      rw [List.length_cons, List.length_append, List.length_singleton]
      omega
    rw [hlen, List.tail_cons, List.take_left]
  dsimp only [List.head?_cons, Option.bind_some, Option.getD_some]
  rw [hkeys, hrequired]
  generalize hall : (OrderedSet.empty.insertAll (sigs1.filter fun v => !v.isEmpty)).insertAll
    (sigs2.filter fun v => !v.isEmpty) = allsigs
  have hsigs : ∀ sig ∈ allsigs.elems, SingleKey p C txTo nIn scriptPubKey keys sig := by
    intro sig hsig
    rw [← OrderedSet.mem_iff, ← hall, OrderedSet.mem_insertAll, OrderedSet.mem_insertAll] at hsig
    apply hsingle
    cases hsig with
    | inl h => exact .inl (List.mem_of_mem_filter (h.resolve_left OrderedSet.not_mem_empty))
    | inr h => exact .inr (List.mem_of_mem_filter h)
  have hselect : (keys.filterMap fun key =>
        (allsigs.elems.foldl (matchSig p C txTo nIn scriptPubKey keys) []).lookup key) =
      keys.filterMap (leastFit (signsFor p C txTo nIn scriptPubKey) allsigs) := by
    apply List.filterMap_congr
    intro key hkey
    exact foldl_matchSig allsigs.elems hsigs key hkey
  rw [mergeSigs_eq, hselect, Nat.sub_zero, Nat.zero_add, mergedScript, mergedPushes, select]
  have hpush : CScript.push [] = [OP_0] := rfl
  have hfill : ∀ k, List.replicate k OP_0 = (List.replicate k ([] : Bytes)).flatMap CScript.push := by
    intro k
    induction k with
    | zero => rfl
    | succ k ih =>
      rw [List.replicate_succ, List.replicate_succ, List.flatMap_cons, hpush, ih]
      rfl
  dsimp only
  rw [hfill, List.flatMap_cons, List.flatMap_append, hpush, List.append_assoc]

end Merge

end AliasWallet
