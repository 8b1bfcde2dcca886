import AliasWallet.Lib.GreedyMatching
import AliasWallet.Lib.Loop
import AliasWallet.Script.Checks

/-!
# `OP_CHECKMULTISIG` over stack offsets (`script.cpp`)

The operation walks two offsets below the top of its stack. Every access is in range, and the loop decides whether the
signatures can be assigned to keys in their order.
-/

namespace AliasWallet
open Lib

/-- What ends the operation: an access behind the bottom of the stack, which throws, a check, or no round left. -/
inductive MultiSigEnd
  | outOfRange
  | failed
  | rounds
  deriving DecidableEq, Repr

/-- `stacktop(-i)`. -/
def stackTop (stack : List Bytes) (i : Nat) : Except MultiSigEnd Bytes :=
  if i = 0 then .error .outOfRange
  else match stack[i - 1]? with
    | some vch => .ok vch
    | none => .error .outOfRange

/-- `popstack`. -/
def popStack : List Bytes → Except MultiSigEnd (List Bytes)
  | [] => .error .outOfRange
  | _ :: stack => .ok stack

/-- `CastToBigNum(stacktop(-i)).getint()`. -/
def stackNumber (stack : List Bytes) (i : Nat) : Except MultiSigEnd Int := do
  match castToBigNum (← stackTop stack i) nDefaultMaxNumSize with
  | some n => return n
  | none => throw .failed

/-- The variables of the loop. -/
structure MultiSigScan where
  isig : Nat
  ikey : Nat
  nSigsCount : Int
  nKeysCount : Int
  fSuccess : Bool
  deriving DecidableEq, Repr

section Operation

variable (p : ChainParams) (C : ScriptCrypto) (txTo : CTransaction) (nIn : Nat) (flags : EvalFlags)

def MultiSigScan.round (stack : List Bytes) (scriptCode : CScript) (s : MultiSigScan) :
    Except MultiSigEnd MultiSigScan := do
  let vchSig ← stackTop stack s.isig
  let vchPubKey ← stackTop stack s.ikey
  match checkOneSig p C txTo nIn flags scriptCode vchSig vchPubKey with
  | none => throw .failed
  | some fOk =>
    let isig := if fOk then s.isig + 1 else s.isig
    let nSigsCount := if fOk then s.nSigsCount - 1 else s.nSigsCount
    let nKeysCount := s.nKeysCount - 1
    return { isig, ikey := s.ikey + 1, nSigsCount, nKeysCount,
             fSuccess := if nSigsCount > nKeysCount then false else s.fSuccess }

/-- `while (fSuccess && nSigsCount > 0)`. -/
def MultiSigScan.loop (stack : List Bytes) (scriptCode : CScript) : Nat → MultiSigScan → Except MultiSigEnd Bool
  | 0, _ => throw .rounds
  | rounds + 1, s =>
    if s.fSuccess = true ∧ s.nSigsCount > 0 then do
      loop stack scriptCode rounds (← s.round p C txTo nIn flags stack scriptCode)
    else return s.fSuccess

/-- `return false` under a condition. -/
def failIf (c : Prop) [Decidable c] : Except MultiSigEnd Unit :=
  if c then .error .failed else .ok ()

/-- The arguments are cleaned up, the extra one is checked, and the result is pushed. -/
def cleanMultiSig (i nOpCount : Nat) (fVerify fSuccess : Bool) (st : EvalState) : Except MultiSigEnd EvalState := do
  let stack ← forRange (i - 1) (fun _ stack => popStack stack) st.stack
  failIf (stack.length < 1)
  if flags.nullDummy then failIf (¬ (← stackTop stack 1).isEmpty)
  let stack := vchOfBool fSuccess :: (← popStack stack)
  if ¬ fVerify then return { st with stack, nOpCount }
  else if fSuccess then return { st with stack := ← popStack stack, nOpCount }
  else throw .failed

/-- The operation as it stands in the source; `i` is the last offset that was checked against the stack. -/
def opCheckMultiSig (rounds : Nat) (fVerify : Bool) (st : EvalState) : Except MultiSigEnd EvalState := do
  failIf (st.stack.length < 1)
  let nKeysCount ← stackNumber st.stack 1
  failIf (nKeysCount < 0 ∨ nKeysCount > 20)
  let nOpCount := st.nOpCount + nKeysCount.toNat
  failIf (nOpCount > 201)
  let ikey := 2
  let i := ikey + nKeysCount.toNat
  failIf (st.stack.length < i)
  let nSigsCount ← stackNumber st.stack i
  failIf (nSigsCount < 0 ∨ nSigsCount > nKeysCount)
  let isig := i + 1
  let i := isig + nSigsCount.toNat
  failIf (st.stack.length < i)
  -- the signatures cannot sign themselves
  let scriptCode ← forRange nSigsCount.toNat
    (fun k code => return CScript.findAndDelete code (CScript.push (← stackTop st.stack (isig + k)))) st.codeHash
  let fSuccess ← MultiSigScan.loop p C txTo nIn flags st.stack scriptCode rounds
    { isig, ikey, nSigsCount, nKeysCount, fSuccess := true }
  cleanMultiSig flags i nOpCount fVerify fSuccess st

end Operation

section Offsets

variable {p : ChainParams} {C : ScriptCrypto} {txTo : CTransaction} {nIn : Nat} {flags : EvalFlags}
  {stack : List Bytes} {i : Nat} {b : Bytes} {l : List Bytes}

theorem stackTop_succ (h : b :: l <+: stack.drop i) : stackTop stack (i + 1) = .ok b := by
  have hget : stack[i]? = some b := by
    obtain ⟨tail, htail⟩ := h
    rw [← List.head?_drop, ← htail]
    rfl
  rw [stackTop, if_neg (Nat.succ_ne_zero i), Nat.add_sub_cancel, hget]

theorem prefix_drop_succ (h : b :: l <+: stack.drop i) : l <+: stack.drop (i + 1) := by
  obtain ⟨tail, htail⟩ := h
  rw [← List.drop_drop, ← htail]
  exact List.prefix_append l tail

/-- The deletions reach exactly the signatures. -/
theorem forRange_multiSigCode (code : CScript) {sigs : List Bytes} (h : sigs <+: stack.drop i) (n : Nat)
    (hn : n ≤ sigs.length) :
    forRange n (fun k code => do
        return CScript.findAndDelete code (CScript.push (← stackTop stack (i + 1 + k)))) code =
      .ok ((sigs.take n).foldl (fun code vchSig => CScript.findAndDelete code (CScript.push vchSig)) code) := by
  induction n with
  | zero => rfl
  | succ n ih =>
    have htop : stackTop stack (i + 1 + n) = .ok sigs[n] := by
      rw [show i + 1 + n = i + n + 1 by omega]
      apply stackTop_succ (l := sigs.drop (n + 1))
      rw [← List.drop_eq_getElem_cons hn, ← List.drop_drop]
      exact h.drop n
    rw [forRange, ih (by omega), List.take_succ_eq_append_getElem (by omega), List.foldl_concat]
    show (do return CScript.findAndDelete _ (CScript.push (← stackTop stack (i + 1 + n)))) = _
    rw [htop]
    rfl

theorem forRange_popStack (n : Nat) (hn : n ≤ stack.length) :
    forRange n (fun _ stack => popStack stack) stack = .ok (stack.drop n) := by
  induction n with
  | zero => rfl
  | succ n ih =>
    rw [forRange, ih (by omega), List.drop_eq_getElem_cons (by omega)]
    rfl

/-- One round, with the signature and the key that it reads. -/
theorem MultiSigScan.round_eq {s : MultiSigScan} {vchSig vchPubKey : Bytes} (scriptCode : CScript)
    (hsig : stackTop stack s.isig = .ok vchSig) (hkey : stackTop stack s.ikey = .ok vchPubKey) :
    s.round p C txTo nIn flags stack scriptCode =
      match checkOneSig p C txTo nIn flags scriptCode vchSig vchPubKey with
      | none => .error .failed
      | some true => .ok ⟨s.isig + 1, s.ikey + 1, s.nSigsCount - 1, s.nKeysCount - 1,
          if s.nSigsCount - 1 > s.nKeysCount - 1 then false else s.fSuccess⟩
      | some false => .ok ⟨s.isig, s.ikey + 1, s.nSigsCount, s.nKeysCount - 1,
          if s.nSigsCount > s.nKeysCount - 1 then false else s.fSuccess⟩ := by
  rw [MultiSigScan.round, hsig, hkey]
  simp only [bind, Except.bind]
  cases checkOneSig p C txTo nIn flags scriptCode vchSig vchPubKey with
  | none => rfl
  | some fOk => cases fOk <;> rfl

theorem MultiSigScan.loop_step {s : MultiSigScan} (scriptCode : CScript) (rounds : Nat) (hs : s.fSuccess = true)
    (hmore : s.nSigsCount > 0) :
    s.loop p C txTo nIn flags stack scriptCode (rounds + 1) =
      s.round p C txTo nIn flags stack scriptCode >>= MultiSigScan.loop p C txTo nIn flags stack scriptCode rounds := by
  rw [MultiSigScan.loop, if_pos ⟨hs, hmore⟩]

theorem MultiSigScan.loop_end {s : MultiSigScan} (scriptCode : CScript) (rounds : Nat)
    (hs : ¬ (s.fSuccess = true ∧ s.nSigsCount > 0)) :
    s.loop p C txTo nIn flags stack scriptCode (rounds + 1) = .ok s.fSuccess := by
  rw [MultiSigScan.loop, if_neg hs]
  rfl

/-- The loop over offsets is the loop over the keys and signatures that lie there. -/
theorem MultiSigScan.loop_eq (scriptCode : CScript) (keys sigs : List Bytes) (rounds isig ikey : Nat)
    (hkeys : keys <+: stack.drop ikey) (hsigs : sigs <+: stack.drop isig) (hle : sigs.length ≤ keys.length)
    (hrounds : keys.length < rounds) :
    MultiSigScan.loop p C txTo nIn flags stack scriptCode rounds
        ⟨isig + 1, ikey + 1, sigs.length, keys.length, true⟩ =
      match multiSigLoop p C txTo nIn flags scriptCode keys sigs with
      | some fSuccess => .ok fSuccess
      | none => .error .failed := by
  induction keys generalizing sigs rounds isig ikey with
  | nil =>
    obtain rfl : sigs = [] := List.length_eq_zero_iff.mp (Nat.le_zero.mp hle)
    obtain ⟨rounds, rfl⟩ := Nat.exists_eq_add_one_of_ne_zero (Nat.ne_of_gt hrounds)
    rfl
  | cons vchPubKey keys ih =>
    rw [List.length_cons] at hrounds
    obtain ⟨rounds, rfl⟩ : ∃ n, rounds = n + 1 := ⟨rounds - 1, by omega⟩
    cases sigs with
    | nil => rfl
    | cons vchSig sigs =>
      have hlater : ∀ (left : List Bytes) (isig : Nat), left <+: stack.drop isig → left.length ≤ keys.length + 1 →
          MultiSigScan.loop p C txTo nIn flags stack scriptCode rounds
              ⟨isig + 1, ikey + 1 + 1, left.length, keys.length,
                if (left.length : Int) > keys.length then false else true⟩ =
            match if left.length > keys.length then some false
                else multiSigLoop p C txTo nIn flags scriptCode keys left with
            | some fSuccess => .ok fSuccess
            | none => .error .failed := by
        intro left isig hleft hlen
        by_cases hmany : left.length > keys.length
        · obtain ⟨rounds, rfl⟩ : ∃ n, rounds = n + 1 := ⟨rounds - 1, by omega⟩
          rw [if_pos (by omega), if_pos hmany]
          exact loop_end scriptCode rounds (by simp)
        · rw [if_neg (by omega), if_neg hmany]
          exact ih left rounds isig (ikey + 1) (prefix_drop_succ hkeys) hleft (by omega) (by omega)
      have hcount : ((vchSig :: sigs).length : Int) > 0 := by rw [List.length_cons]; omega
      have hkeysLeft : ((vchPubKey :: keys).length : Int) - 1 = keys.length := by rw [List.length_cons]; omega
      have hsigsLeft : ((vchSig :: sigs).length : Int) - 1 = sigs.length := by rw [List.length_cons]; omega
      rw [loop_step scriptCode rounds rfl hcount, round_eq scriptCode (stackTop_succ hsigs) (stackTop_succ hkeys),
        multiSigLoop, Option.bind_eq_bind]
      rw [List.length_cons, List.length_cons] at hle
      cases checkOneSig p C txTo nIn flags scriptCode vchSig vchPubKey with
      | none => rfl
      | some fOk =>
        cases fOk with
        | true =>
          simp only [hkeysLeft, hsigsLeft]
          exact hlater sigs (isig + 1) (prefix_drop_succ hsigs) (by omega)
        | false =>
          simp only [hkeysLeft]
          exact hlater (vchSig :: sigs) isig hsigs (by rw [List.length_cons]; omega)

end Offsets

section Refinement

variable {p : ChainParams} {C : ScriptCrypto} {txTo : CTransaction} {nIn : Nat} {flags : EvalFlags}

/-- What an operation without a result ends in. -/
def orFailed {α : Type} : Option α → Except MultiSigEnd α
  | some a => .ok a
  | none => .error .failed

theorem failIf_pos {c : Prop} [Decidable c] (h : c) : failIf c = .error .failed := if_pos h

theorem failIf_neg {c : Prop} [Decidable c] (h : ¬ c) : failIf c = .ok () := if_neg h

theorem stackNumber_succ {stack : List Bytes} {i : Nat} {b : Bytes} {l : List Bytes} (h : stack.drop i = b :: l) :
    stackNumber stack (i + 1) = orFailed (castToBigNum b nDefaultMaxNumSize) := by
  rw [stackNumber, stackTop_succ (l := l) (by rw [h])]
  show (match castToBigNum b nDefaultMaxNumSize with | some n => _ | none => _) = _
  cases castToBigNum b nDefaultMaxNumSize <;> rfl

theorem cleanMultiSig_eq {i : Nat} {st : EvalState} {dummy : Bytes} {stack : List Bytes}
    (h : st.stack.drop i = dummy :: stack) (nOpCount : Nat) (fVerify fSuccess : Bool) :
    cleanMultiSig flags (i + 1) nOpCount fVerify fSuccess st =
      orFailed (if flags.nullDummy ∧ ¬ dummy.isEmpty then none
        else (pushOrVerify fVerify fSuccess stack).map fun stack => { st with stack, nOpCount }) := by
  have hlen : i ≤ st.stack.length := by
    by_contra hlt
    rw [List.drop_of_length_le (by omega)] at h
    cases h
  rw [cleanMultiSig, Nat.add_sub_cancel, forRange_popStack i hlen, h, ok_bind, failIf_neg (by simp), ok_bind]
  have hend : (do
      let stack := vchOfBool fSuccess :: (← popStack (dummy :: stack))
      if ¬ fVerify then return { st with stack, nOpCount }
      else if fSuccess then return { st with stack := ← popStack stack, nOpCount }
      else throw .failed : Except MultiSigEnd EvalState) =
      orFailed ((pushOrVerify fVerify fSuccess stack).map fun stack => { st with stack, nOpCount }) := by
    cases fVerify <;> cases fSuccess <;> rfl
  cases hnull : flags.nullDummy with
  | false =>
    rw [if_neg (by simp), if_neg (by simp)]
    exact hend
  | true =>
    by_cases hdummy : dummy.isEmpty = true
    · rw [if_pos rfl, if_neg (by simp [hdummy])]
      show failIf (¬ dummy.isEmpty = true) >>= _ = _
      rw [failIf_neg (by simp [hdummy])]
      exact hend
    · rw [if_pos rfl, if_pos ⟨rfl, hdummy⟩]
      show failIf (¬ dummy.isEmpty = true) >>= _ = _
      rw [failIf_pos hdummy]
      rfl

/-- The part behind the checks of both counts. -/
theorem scanMultiSig_eq {st : EvalState} {vchKeysCount vchSigsCount dummy : Bytes} {keys sigs below : List Bytes}
    (hstack : st.stack = vchKeysCount :: (keys ++ vchSigsCount :: (sigs ++ dummy :: below)))
    (hle : sigs.length ≤ keys.length) (rounds : Nat) (hrounds : keys.length < rounds) (nOpCount : Nat)
    (fVerify : Bool) :
    (do
      let scriptCode ← forRange sigs.length
        (fun k code => do
          return CScript.findAndDelete code (CScript.push (← stackTop st.stack (2 + keys.length + 1 + k)))) st.codeHash
      let fSuccess ← MultiSigScan.loop p C txTo nIn flags st.stack scriptCode rounds
        ⟨2 + keys.length + 1, 2, sigs.length, keys.length, true⟩
      cleanMultiSig flags (2 + keys.length + 1 + sigs.length) nOpCount fVerify fSuccess st) =
    orFailed (do
      let fSuccess ← multiSigLoop p C txTo nIn flags (multiSigCode st sigs) keys sigs
      if flags.nullDummy ∧ ¬ dummy.isEmpty then none
      let stack ← pushOrVerify fVerify fSuccess below
      return { st with stack, nOpCount }) := by
  have hkeysDrop : st.stack.drop 1 = keys ++ vchSigsCount :: (sigs ++ dummy :: below) := by rw [hstack]; rfl
  have hsigsDrop : st.stack.drop (2 + keys.length) = sigs ++ dummy :: below := by
    rw [show 2 + keys.length = 1 + (keys.length + 1) by omega, ← List.drop_drop, hkeysDrop, ← List.drop_drop,
      List.drop_left]
    rfl
  have hdummyDrop : st.stack.drop (2 + keys.length + sigs.length) = dummy :: below := by
    rw [← List.drop_drop, hsigsDrop, List.drop_left]
  have hkeysAt : keys <+: st.stack.drop 1 := hkeysDrop ▸ List.prefix_append _ _
  have hsigsAt : sigs <+: st.stack.drop (2 + keys.length) := hsigsDrop ▸ List.prefix_append _ _
  have hcode := forRange_multiSigCode st.codeHash hsigsAt sigs.length le_rfl
  rw [List.take_length] at hcode
  rw [hcode, ok_bind]
  have hloop := @MultiSigScan.loop_eq p C txTo nIn flags _
    (multiSigCode st sigs) keys sigs rounds _ _ hkeysAt hsigsAt hle hrounds
  show MultiSigScan.loop p C txTo nIn flags st.stack (multiSigCode st sigs) rounds
    ⟨2 + keys.length + 1, 1 + 1, sigs.length, keys.length, true⟩ >>= _ = _
  rw [hloop]
  cases multiSigLoop p C txTo nIn flags (multiSigCode st sigs) keys sigs with
  | none => rfl
  | some fSuccess =>
    rw [ok_bind, show 2 + keys.length + 1 + sigs.length = 2 + keys.length + sigs.length + 1 by omega,
      cleanMultiSig_eq hdummyDrop, Option.bind_eq_bind, Option.bind_some]
    by_cases hnull : flags.nullDummy = true ∧ ¬ dummy.isEmpty = true
    · rw [if_pos hnull, if_pos hnull]
      rfl
    · rw [if_neg hnull, if_neg hnull]
      cases pushOrVerify fVerify fSuccess below <;> rfl

/-- The operation on offsets is the operation on lists; no access leaves the stack. -/
theorem opCheckMultiSig_eq (rounds : Nat) (hrounds : 20 < rounds) (fVerify : Bool) (st : EvalState) :
    opCheckMultiSig p C txTo nIn flags rounds fVerify st =
      orFailed (runCheckMultiSig p C txTo nIn flags fVerify st) := by
  rw [runCheckMultiSig_eq, multiSigOperands, opCheckMultiSig]
  cases hstack : st.stack with
  | nil => rfl
  | cons vchKeysCount stack =>
    have hlen : (vchKeysCount :: stack).length = stack.length + 1 := List.length_cons
    rw [failIf_neg (by omega), ok_bind, stackNumber_succ (i := 0) rfl]
    dsimp only
    cases castToBigNum vchKeysCount nDefaultMaxNumSize with
    | none => rfl
    | some nKeysCount =>
      rw [orFailed, ok_bind, Option.bind_eq_bind, Option.bind_some]
      by_cases hkeys : nKeysCount < 0 ∨ nKeysCount > 20
      · rw [failIf_pos hkeys, if_pos hkeys]
        rfl
      rw [failIf_neg hkeys, if_neg hkeys, ok_bind]
      obtain ⟨nKeys, rfl⟩ := Int.eq_ofNat_of_zero_le (Int.not_lt.mp fun h => hkeys (.inl h))
      simp only [Int.toNat_natCast]
      by_cases hops : st.nOpCount + nKeys > 201
      · rw [failIf_pos hops, if_pos hops]
        rfl
      rw [failIf_neg hops, if_neg hops, ok_bind]
      by_cases hdrop : stack.length ≤ nKeys
      · rw [failIf_pos (by omega), List.drop_of_length_le hdrop]
        rfl
      obtain ⟨vchSigsCount, rest, hrest⟩ := List.exists_cons_of_ne_nil
        (List.ne_nil_of_length_pos (l := stack.drop nKeys) (by rw [List.length_drop]; omega))
      have hrestLen : rest.length + 1 = stack.length - nKeys := by
        rw [← List.length_cons (a := vchSigsCount), ← hrest, List.length_drop]
      have hbelow : (vchKeysCount :: stack).drop (1 + nKeys) = vchSigsCount :: rest := by
        rw [Nat.add_comm, List.drop_succ_cons, hrest]
      have hnumber : stackNumber (vchKeysCount :: stack) (2 + nKeys) =
          orFailed (castToBigNum vchSigsCount nDefaultMaxNumSize) := by
        rw [show 2 + nKeys = 1 + nKeys + 1 by omega]
        exact stackNumber_succ hbelow
      rw [failIf_neg (by omega), ok_bind, hnumber, hrest]
      dsimp only
      cases castToBigNum vchSigsCount nDefaultMaxNumSize with
      | none => rfl
      | some nSigsCount =>
        rw [orFailed, ok_bind, Option.bind_eq_bind, Option.bind_some]
        by_cases hsigs : nSigsCount < 0 ∨ nSigsCount > nKeys
        · rw [failIf_pos hsigs, if_pos hsigs]
          rfl
        rw [failIf_neg hsigs, if_neg hsigs, ok_bind]
        obtain ⟨nSigs, rfl⟩ := Int.eq_ofNat_of_zero_le (Int.not_lt.mp fun h => hsigs (.inl h))
        simp only [Int.toNat_natCast]
        by_cases hshort : rest.length ≤ nSigs
        · rw [failIf_pos (by omega), if_pos hshort]
          rfl
        rw [failIf_neg (by omega), if_neg hshort, ok_bind]
        obtain ⟨dummy, below, hdummy⟩ := List.exists_cons_of_ne_nil
          (List.ne_nil_of_length_pos (l := rest.drop nSigs) (by rw [List.length_drop]; omega))
        have hkeysLen : (stack.take nKeys).length = nKeys := by rw [List.length_take]; omega
        have hsigsLen : (rest.take nSigs).length = nSigs := by rw [List.length_take]; omega
        have hwhole : st.stack = vchKeysCount :: (stack.take nKeys ++ vchSigsCount :: (rest.take nSigs ++
            dummy :: below)) := by
          rw [hstack, ← hdummy, List.take_append_drop, ← hrest, List.take_append_drop]
        have hscan := @scanMultiSig_eq p C txTo nIn flags st _ _ _ _ _ _ hwhole (by omega)
          rounds (by omega) (st.nOpCount + nKeys) fVerify
        rw [hkeysLen, hsigsLen, hstack] at hscan
        rw [hscan]
        show _ = orFailed (match rest.drop nSigs with | [] => none | dummy :: stack => _)
        rw [hdummy]

end Refinement

/-- What is read from a stack that holds all the arguments. -/
theorem multiSigOperands_eq {st : EvalState} {vchKeysCount vchSigsCount dummy : Bytes} {keys sigs rest : List Bytes}
    (hstack : st.stack = vchKeysCount :: (keys ++ vchSigsCount :: (sigs ++ dummy :: rest)))
    (hn : castToBigNum vchKeysCount nDefaultMaxNumSize = some (keys.length : Int))
    (hm : castToBigNum vchSigsCount nDefaultMaxNumSize = some (sigs.length : Int))
    (hle : sigs.length ≤ keys.length) (hmax : keys.length ≤ 20) :
    multiSigOperands st =
      if st.nOpCount + keys.length > 201 then none
      else some (keys, sigs, dummy :: rest, st.nOpCount + keys.length) := by
  rw [multiSigOperands, hstack]
  dsimp only
  rw [hn, Option.bind_eq_bind, Option.bind_some, if_neg (by omega), Int.toNat_natCast]
  by_cases hops : st.nOpCount + keys.length > 201
  · rw [if_pos hops, if_pos hops]
    rfl
  rw [if_neg hops, if_neg hops, List.drop_left]
  dsimp only
  rw [hm, Option.bind_eq_bind, Option.bind_some, if_neg (by omega), Int.toNat_natCast,
    if_neg (by rw [List.length_append, List.length_cons]; omega), List.take_left, List.take_left, List.drop_left]
  rfl

section Matching

variable (p : ChainParams) (C : ScriptCrypto) (txTo : CTransaction) (nIn : Nat) (flags : EvalFlags)

/-- With good encodings the loop is the greedy scan: what it stops early could not succeed. -/
theorem multiSigLoop_greedy (scriptCode : CScript) (keys sigs : List Bytes)
    (hkeys : ∀ vchPubKey ∈ keys, checkPubKeyEncoding vchPubKey = true)
    (hsigs : ∀ vchSig ∈ sigs, checkSignatureEncoding flags vchSig = true) (hle : sigs.length ≤ keys.length) :
    multiSigLoop p C txTo nIn flags scriptCode keys sigs =
      some (greedyMatch (fun vchSig vchPubKey => checkSig p C vchSig vchPubKey scriptCode txTo nIn) sigs keys) := by
  induction keys generalizing sigs with
  | nil =>
    obtain rfl : sigs = [] := List.length_eq_zero_iff.mp (Nat.le_zero.mp hle)
    rfl
  | cons vchPubKey keys ih =>
    cases sigs with
    | nil => rfl
    | cons vchSig sigs =>
      have hkeys' := List.forall_mem_cons.mp hkeys
      have hsigs' := List.forall_mem_cons.mp hsigs
      rw [List.length_cons, List.length_cons] at hle
      have hcheck : checkOneSig p C txTo nIn flags scriptCode vchSig vchPubKey =
          some (checkSig p C vchSig vchPubKey scriptCode txTo nIn) := by
        simp [checkOneSig, hkeys'.1, hsigs'.1]
      rw [multiSigLoop, hcheck, Option.bind_eq_bind, Option.bind_some, greedyMatch_cons]
      dsimp only
      cases checkSig p C vchSig vchPubKey scriptCode txTo nIn with
      | true =>
        rw [if_pos rfl, if_pos rfl, if_neg (by omega)]
        exact ih sigs hkeys'.2 hsigs'.2 (by omega)
      | false =>
        rw [if_neg Bool.false_ne_true, if_neg Bool.false_ne_true]
        by_cases hmany : (vchSig :: sigs).length > keys.length
        · rw [if_pos hmany, greedyMatch_of_length_lt _ hmany]
        · rw [if_neg hmany]
          exact ih (vchSig :: sigs) hkeys'.2 hsigs (by omega)

theorem execOp_checkMultiSig (fExec : Bool) {op : ScriptOp} {fVerify : Bool}
    (hop : Opcode.ofByte op.opcode = .checkMultiSig fVerify) (st : EvalState) :
    execOp p C txTo nIn flags fExec op st = runCheckMultiSig p C txTo nIn flags fVerify st := by
  rw [execOp, hop]

/-- `OP_CHECKMULTISIG` with `m` signatures and `n` keys leaves true exactly where the signatures can be assigned to
later and later keys for which they are valid. It pops the `m + n + 3` arguments, and no access leaves the stack. -/
theorem checkMultiSig_matching (st : EvalState) (vchKeysCount vchSigsCount dummy : Bytes) (keys sigs rest : List Bytes)
    (hstack : st.stack = vchKeysCount :: (keys ++ vchSigsCount :: (sigs ++ dummy :: rest)))
    (hn : castToBigNum vchKeysCount nDefaultMaxNumSize = some (keys.length : Int))
    (hm : castToBigNum vchSigsCount nDefaultMaxNumSize = some (sigs.length : Int))
    (hle : sigs.length ≤ keys.length) (hmax : keys.length ≤ 20)
    (hkeys : ∀ vchPubKey ∈ keys, checkPubKeyEncoding vchPubKey = true)
    (hsigs : ∀ vchSig ∈ sigs, checkSignatureEncoding flags vchSig = true) :
    ∃ fSuccess : Bool,
      (fSuccess = true ↔ ∃ f : Fin sigs.length → Fin keys.length, StrictMono f ∧
        ∀ i, checkSig p C (sigs.get i) (keys.get (f i)) (multiSigCode st sigs) txTo nIn = true) ∧
      st.stack.length = sigs.length + keys.length + 3 + rest.length ∧
      ∀ rounds > 20, ∀ fExec (op : ScriptOp), Opcode.ofByte op.opcode = .checkMultiSig false →
        opCheckMultiSig p C txTo nIn flags rounds false st = orFailed (execOp p C txTo nIn flags fExec op st) ∧
        execOp p C txTo nIn flags fExec op st =
          if st.nOpCount + keys.length > 201 ∨ (flags.nullDummy = true ∧ dummy ≠ []) then none
          else some { st with stack := vchOfBool fSuccess :: rest, nOpCount := st.nOpCount + keys.length } := by
  refine ⟨greedyMatch (fun vchSig vchPubKey => checkSig p C vchSig vchPubKey (multiSigCode st sigs) txTo nIn) sigs keys,
    ?_, ?_, ?_⟩
  · rw [greedyMatch_iff, sublistForall₂_iff_strictMono]
  · rw [hstack]
    simp only [List.length_cons, List.length_append]
    omega
  · intro rounds hrounds fExec op hop
    rw [execOp_checkMultiSig p C txTo nIn flags fExec hop]
    refine ⟨opCheckMultiSig_eq rounds hrounds false st, ?_⟩
    have hloop := multiSigLoop_greedy p C txTo nIn flags (multiSigCode st sigs) keys sigs hkeys hsigs hle
    rw [runCheckMultiSig_eq, multiSigOperands_eq hstack hn hm hle hmax]
    by_cases hops : st.nOpCount + keys.length > 201
    · rw [if_pos hops, if_pos (.inl hops)]
      rfl
    rw [if_neg hops, Option.bind_some]
    dsimp only
    rw [hloop, Option.bind_eq_bind, Option.bind_some]
    by_cases hnull : flags.nullDummy = true ∧ dummy ≠ []
    · rw [if_pos ⟨hnull.1, by simpa using hnull.2⟩, if_pos (.inr hnull)]
      rfl
    · rw [if_neg (by simpa using hnull), if_neg (by simpa [hops] using hnull)]
      rfl

/-- A key of 33 bytes. -/
def sampleKey (header : UInt8) : Bytes := header :: List.replicate 32 0

/-- The shortest signature with a good encoding. -/
def sampleSig : Bytes := [0x30, 6, 2, 1, 1, 2, 1, 1, 1]

def sampleTx : CTransaction where
  nVersion := 1
  nTime := 1530000000
  vin := [⟨⟨1, 0⟩, [], 0⟩]
  vout := []
  nLockTime := 0

/-- Every signature is valid for the keys with an odd header. -/
def sampleCrypto : ScriptCrypto where
  ripemd160 := id
  sha1 := id
  sha256 := id
  hash := fun _ => 0
  verify := fun vchPubKey _ _ => vchPubKey.head? == some 3

/-- One signature for two keys, with the extra argument at the bottom. -/
def sampleState : EvalState where
  stack := [[2], sampleKey 2, sampleKey 3, [1], sampleSig, []]
  altstack := []
  vfExec := []
  nOpCount := 1
  codeHash := []

theorem checkMultiSig_matching_sample :
    ∃ fSuccess : Bool,
      (fSuccess = true ↔ ∃ f : Fin [sampleSig].length → Fin [sampleKey 2, sampleKey 3].length, StrictMono f ∧
        ∀ i, checkSig mainParams sampleCrypto ([sampleSig].get i) ([sampleKey 2, sampleKey 3].get (f i))
          (multiSigCode sampleState [sampleSig]) sampleTx 0 = true) ∧
      sampleState.stack.length = 6 ∧
      ∀ rounds > 20, ∀ fExec (op : ScriptOp), Opcode.ofByte op.opcode = .checkMultiSig false →
        opCheckMultiSig mainParams sampleCrypto sampleTx 0 MANDATORY_SCRIPT_VERIFY_FLAGS.toEvalFlags rounds false
            sampleState =
          orFailed (execOp mainParams sampleCrypto sampleTx 0 MANDATORY_SCRIPT_VERIFY_FLAGS.toEvalFlags fExec op
            sampleState) ∧
        execOp mainParams sampleCrypto sampleTx 0 MANDATORY_SCRIPT_VERIFY_FLAGS.toEvalFlags fExec op sampleState =
          some { sampleState with stack := [vchOfBool fSuccess], nOpCount := 3 } :=
  checkMultiSig_matching mainParams sampleCrypto sampleTx 0 MANDATORY_SCRIPT_VERIFY_FLAGS.toEvalFlags sampleState
    [2] [1] [] [sampleKey 2, sampleKey 3] [sampleSig] [] rfl (by decide) (by decide) (by decide) (by decide)
    (by decide) (by decide)

end Matching

end AliasWallet
