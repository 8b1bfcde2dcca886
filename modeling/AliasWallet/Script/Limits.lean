import AliasWallet.Script.SigOps

/-!
# What a script may use up (`script.cpp`)

In every state that `EvalScript` comes to, the stacks hold at most 1000 values of at most 520 bytes each, at most 201
operations have been counted, and no more branches are open; the keys of `OP_CHECKMULTISIG` count as operations, so
these are also all the signature tests. The stack is handed on from one script of `VerifyScript` to the next.
-/

namespace AliasWallet
open Lib

/-- Values that `EvalScript` lets on the stack. -/
def Small (s : List Bytes) : Prop := ∀ vch ∈ s, vch.length ≤ MAX_SCRIPT_ELEMENT_SIZE

/-- The digests are values of that size. -/
structure ScriptCrypto.Sized (C : ScriptCrypto) : Prop where
  ripemd160 : ∀ vch, (C.ripemd160 vch).length = 20
  sha1 : ∀ vch, (C.sha1 vch).length = 20
  sha256 : ∀ vch, (C.sha256 vch).length = 32

/-- The limits of `EvalScript`. -/
structure EvalState.Within (st : EvalState) : Prop where
  stack_le : st.stack.length + st.altstack.length ≤ 1000
  stack_small : Small st.stack
  altstack_small : Small st.altstack
  ops : st.nOpCount ≤ 201
  branches : st.vfExec.length ≤ st.nOpCount

section Values

theorem small_nil : Small [] := by
  intro vch hvch
  cases hvch

theorem small_cons {vch : Bytes} {s : List Bytes} :
    Small (vch :: s) ↔ vch.length ≤ MAX_SCRIPT_ELEMENT_SIZE ∧ Small s := by
  simp [Small]

theorem Small.mono {s s' : List Bytes} (h : Small s) (hsub : ∀ vch ∈ s', vch ∈ s) : Small s' :=
  fun vch hvch => h vch (hsub vch hvch)

theorem vchOfBigNum_length_le {n : Int} {k : Nat} (h : n.natAbs < 256 ^ k) : (vchOfBigNum n).length ≤ k + 1 := by
  have hbytes := numBytes_le n.natAbs k h
  rw [← minBytes_length] at hbytes
  rw [vchOfBigNum]
  cases hmin : minBytes n.natAbs with
  | nil => exact Nat.zero_le _
  | cons top rest =>
    rw [hmin] at hbytes
    dsimp only
    split_ifs
    all_goals
      simp only [List.length_reverse, List.length_cons] at hbytes ⊢
      omega

/-- A number below `256 ^ 5` is a value that may be on the stack. -/
theorem vchOfBigNum_small {n : Int} (h : n.natAbs < 256 ^ 5) : (vchOfBigNum n).length ≤ MAX_SCRIPT_ELEMENT_SIZE :=
  (vchOfBigNum_length_le h).trans (by decide)

theorem vchOfBool_small (b : Bool) : (vchOfBool b).length ≤ MAX_SCRIPT_ELEMENT_SIZE := by
  cases b <;> decide

theorem natAbs_bigNumOfVch_lt (vch : Bytes) : (bigNumOfVch vch).natAbs < 256 ^ vch.length := by
  rw [bigNumOfVch]
  have hlen : vch.reverse.length = vch.length := List.length_reverse
  cases hrev : vch.reverse with
  | nil => simp
  | cons top rest =>
    rw [hrev] at hlen
    dsimp only
    split_ifs
    · rw [Int.natAbs_neg, Int.natAbs_natCast, ← hlen]
      exact beNat_lt ((top - 0x80) :: rest)
    · rw [Int.natAbs_natCast, ← hlen]
      exact beNat_lt (top :: rest)

/-- Operands of arithmetic have at most four bytes. -/
theorem castToBigNum_lt {vch : Bytes} {n : Int} (h : castToBigNum vch nDefaultMaxNumSize = some n) :
    n.natAbs < 256 ^ 4 := by
  rw [castToBigNum] at h
  split_ifs at h with hlong
  obtain rfl := Option.some.inj h
  exact (natAbs_bigNumOfVch_lt vch).trans_le (Nat.pow_le_pow_right (by decide) (Nat.not_lt.mp hlong))

theorem UnaryOp.run_lt (op : UnaryOp) {bn : Int} (h : bn.natAbs < 256 ^ 4) : (op.run bn).natAbs < 256 ^ 5 := by
  have hpow : (256 : Nat) ^ 4 + 1 < 256 ^ 5 := by decide
  generalize (256 : Nat) ^ 5 = M at hpow ⊢
  cases op <;> simp only [UnaryOp.run] <;> (try split_ifs) <;> omega

theorem BinaryOp.run_lt (op : BinaryOp) {bn1 bn2 : Int} (h1 : bn1.natAbs < 256 ^ 4) (h2 : bn2.natAbs < 256 ^ 4) :
    (op.run bn1 bn2).natAbs < 256 ^ 5 := by
  have hpow : (256 : Nat) ^ 4 + 256 ^ 4 < 256 ^ 5 := by decide
  generalize (256 : Nat) ^ 5 = M at hpow ⊢
  cases op <;> simp only [BinaryOp.run, intOfBool] <;> (try split_ifs) <;> omega

theorem HashOp.run_small {C : ScriptCrypto} (hC : C.Sized) (op : HashOp) (vch : Bytes) :
    (op.run C vch).length ≤ MAX_SCRIPT_ELEMENT_SIZE := by
  cases op <;> simp [HashOp.run, hC.ripemd160, hC.sha1, hC.sha256, uint256Bytes, MAX_SCRIPT_ELEMENT_SIZE]

/-- The results of the stack operations are values of the stack, its depth or the size of its top. -/
theorem StackOp.run_small {op : StackOp} {s s' : List Bytes} (hs : Small s) (hlen : s.length ≤ 1000)
    (h : op.run s = some s') : Small s' := by
  have hnum : ∀ n : Nat, n ≤ 1000 → (vchOfBigNum n).length ≤ MAX_SCRIPT_ELEMENT_SIZE := fun n hn =>
    vchOfBigNum_small (by rw [Int.natAbs_natCast]; exact hn.trans_lt (by decide))
  have hmax : MAX_SCRIPT_ELEMENT_SIZE ≤ 1000 := by decide
  unfold StackOp.run at h
  split at h
  case h_17 => cases h
  case h_8 =>
    obtain rfl := Option.some.inj h
    apply small_cons.mpr
    constructor
    · apply hnum
      exact hlen
    · exact hs
  case h_16 =>
    obtain rfl := Option.some.inj h
    apply small_cons.mpr
    constructor
    · apply hnum
      exact (small_cons.mp hs).1.trans hmax
    · exact hs
  case h_7 =>
    obtain rfl := Option.some.inj h
    split_ifs
    · exact small_cons.mpr ⟨(small_cons.mp hs).1, hs⟩
    · exact hs
  all_goals
    obtain rfl := Option.some.inj h
    apply hs.mono
    intro vch hvch
    simp only [List.mem_cons] at hvch ⊢
    grind

end Values

section Opcodes

/-- What the table says of an operation that opens a branch or tests signatures, and of one that pushes a number. -/
def Opcode.fits (b : Nat) : Opcode → Bool
  | .opIf _ | .checkSig _ | .checkMultiSig _ => decide (0x60 < b)
  | .pushNum n => decide (n.natAbs < 256)
  | _ => true

theorem opcodeTable_fits : ∀ e ∈ opcodeTable, e.2.fits e.1 = true := by decide

theorem ofByte_fits (b : UInt8) : (Opcode.ofByte b).fits b.toNat = true := by
  have hlt := b.toNat_lt
  rw [Opcode.ofByte]
  split_ifs with hpush hnum
  · rfl
  · have hlow := UInt8.le_iff_toNat_le.mp hnum.1
    have hhigh := UInt8.le_iff_toNat_le.mp hnum.2
    rw [show OP_1.toNat = 81 from rfl] at hlow
    rw [show OP_16.toNat = 96 from rfl] at hhigh
    simp only [Opcode.fits, decide_eq_true_eq]
    omega
  · cases hlookup : opcodeTable.lookup b.toNat with
    | none => rfl
    | some op =>
      obtain ⟨before, after, htable, -⟩ := List.lookup_eq_some_iff.mp hlookup
      exact opcodeTable_fits (b.toNat, op) (by rw [htable]; simp)

/-- Operations behind `OP_16` are counted. -/
theorem counted_of_fits {b : UInt8} (h : 0x60 < b.toNat) : b > OP_16 := UInt8.lt_iff_toNat_lt.mpr h

end Opcodes

section Exec

variable {p : ChainParams} {C : ScriptCrypto} {txTo : CTransaction} {nIn : Nat} {flags : EvalFlags}

/-- What an operation does to the limits, apart from the number of values. -/
structure Kept (st st' : EvalState) (opened : Nat) : Prop where
  stack_small : Small st'.stack
  altstack_small : Small st'.altstack
  ops : st.nOpCount ≤ st'.nOpCount ∧ st'.nOpCount ≤ 201
  branches : st'.vfExec.length ≤ st.vfExec.length + opened

theorem pushOrVerify_small {fVerify fSuccess : Bool} {s s' : List Bytes} (hs : Small s)
    (h : pushOrVerify fVerify fSuccess s = some s') : Small s' := by
  rw [pushOrVerify] at h
  split_ifs at h
  · obtain rfl := Option.some.inj h
    exact hs
  · obtain rfl := Option.some.inj h
    exact small_cons.mpr ⟨vchOfBool_small _, hs⟩

/-- The keys count as operations before any signature is tested. -/
theorem multiSigOperands_count {st : EvalState} {keys sigs rest : List Bytes} {nOpCount : Nat}
    (h : multiSigOperands st = some (keys, sigs, rest, nOpCount)) :
    keys.length + st.nOpCount ≤ nOpCount ∧ nOpCount ≤ 201 ∧ ∀ vch ∈ rest, vch ∈ st.stack := by
  rw [multiSigOperands] at h
  cases hstack : st.stack with
  | nil =>
    rw [hstack] at h
    cases h
  | cons vchKeysCount stack =>
    rw [hstack] at h
    dsimp only at h
    rw [Option.bind_eq_bind, Option.bind_eq_some_iff] at h
    obtain ⟨n, -, h⟩ := h
    by_cases hrange : n < 0 ∨ n > 20
    · rw [if_pos hrange] at h
      cases h
    rw [if_neg hrange] at h
    by_cases hops : st.nOpCount + n.toNat > 201
    · rw [if_pos hops] at h
      cases h
    rw [if_neg hops] at h
    cases hdrop : stack.drop n.toNat with
    | nil =>
      rw [hdrop] at h
      cases h
    | cons vchSigsCount below =>
      rw [hdrop] at h
      dsimp only at h
      rw [Option.bind_eq_bind, Option.bind_eq_some_iff] at h
      obtain ⟨m, -, h⟩ := h
      by_cases hsigs : m < 0 ∨ m > n.toNat
      · rw [if_pos hsigs] at h
        cases h
      rw [if_neg hsigs] at h
      by_cases hshort : below.length ≤ m.toNat
      · rw [if_pos hshort] at h
        cases h
      rw [if_neg hshort] at h
      obtain ⟨rfl, rfl, rfl, rfl⟩ : stack.take n.toNat = keys ∧ below.take m.toNat = sigs ∧ below.drop m.toNat = rest ∧
          st.nOpCount + n.toNat = nOpCount := by simpa using h
      refine ⟨?_, by omega, ?_⟩
      · rw [List.length_take]
        omega
      · intro vch hvch
        have hbelow := List.mem_of_mem_drop hvch
        have hmem : vch ∈ stack.drop n.toNat := by
          rw [hdrop]
          exact List.mem_cons_of_mem _ hbelow
        exact List.mem_cons_of_mem _ (List.mem_of_mem_drop hmem)

theorem runCheckSig_kept {fVerify : Bool} {st st' : EvalState} (hs : Small st.stack) (halt : Small st.altstack)
    (hops : st.nOpCount ≤ 201) (h : runCheckSig p C txTo nIn flags fVerify st = some st') : Kept st st' 0 := by
  rw [runCheckSig] at h
  cases hstack : st.stack with
  | nil =>
    rw [hstack] at h
    cases h
  | cons vchPubKey s =>
    cases s with
    | nil =>
      rw [hstack] at h
      cases h
    | cons vchSig s =>
      rw [hstack] at h hs
      simp only [Option.bind_eq_bind, Option.bind_eq_some_iff, Option.pure_def, Option.some.injEq] at h
      obtain ⟨fSuccess, -, s', hpush, rfl⟩ := h
      exact ⟨pushOrVerify_small (small_cons.mp (small_cons.mp hs).2).2 hpush, halt, ⟨le_refl _, hops⟩, le_refl _⟩

theorem runCheckMultiSig_kept {fVerify : Bool} {st st' : EvalState} (hs : Small st.stack) (halt : Small st.altstack)
    (h : runCheckMultiSig p C txTo nIn flags fVerify st = some st') : Kept st st' 0 := by
  rw [runCheckMultiSig_eq, Option.bind_eq_some_iff] at h
  obtain ⟨⟨keys, sigs, rest, nOpCount⟩, hoperands, h⟩ := h
  obtain ⟨hkeys, hmax, hrest⟩ := multiSigOperands_count hoperands
  cases rest with
  | nil => cases h
  | cons dummy s =>
    dsimp only at h
    rw [Option.bind_eq_bind, Option.bind_eq_some_iff] at h
    obtain ⟨fSuccess, -, h⟩ := h
    by_cases hdummy : flags.nullDummy ∧ ¬ dummy.isEmpty
    · rw [if_pos hdummy] at h
      cases h
    rw [if_neg hdummy] at h
    simp only [Option.bind_eq_bind, Option.bind_eq_some_iff, Option.pure_def, Option.some.injEq] at h
    obtain ⟨s', hpush, rfl⟩ := h
    have hs' : Small s := hs.mono fun vch hvch => hrest vch (List.mem_cons_of_mem _ hvch)
    exact ⟨pushOrVerify_small hs' hpush, halt, ⟨by dsimp only; omega, hmax⟩, le_refl _⟩

theorem runCheckLockTimeVerify_eq {st st' : EvalState} (h : runCheckLockTimeVerify txTo nIn flags st = some st') :
    st' = st := by
  rw [runCheckLockTimeVerify] at h
  split_ifs at h
  · cases hstack : st.stack with
    | nil =>
      rw [hstack] at h
      cases h
    | cons vch s =>
      rw [hstack] at h
      dsimp only at h
      rw [Option.bind_eq_bind, Option.bind_eq_some_iff] at h
      obtain ⟨n, -, h⟩ := h
      split_ifs at h
      exact (Option.some.inj h).symm
  · exact (Option.some.inj h).symm

/-- One operation of the `switch`. -/
theorem execOp_kept (hC : C.Sized) {fExec : Bool} {op : ScriptOp} {st st' : EvalState}
    (hvch : op.vch.length ≤ MAX_SCRIPT_ELEMENT_SIZE) (hs : Small st.stack) (halt : Small st.altstack)
    (hlen : st.stack.length ≤ 1000) (hops : st.nOpCount ≤ 201)
    (h : execOp p C txTo nIn flags fExec op st = some st') :
    Kept st st' (if op.opcode > OP_16 then 1 else 0) := by
  have hfits := ofByte_fits op.opcode
  have hkeep : ∀ s alt n, Small s → Small alt → n ≤ st.vfExec.length + (if op.opcode > OP_16 then 1 else 0) →
      ∀ st₁ : EvalState, st₁.stack = s → st₁.altstack = alt → st₁.vfExec.length = n → st₁.nOpCount = st.nOpCount →
        Kept st st₁ (if op.opcode > OP_16 then 1 else 0) := by
    intro s alt n hsmall hsmall' hn st₁ hstack₁ halt₁ hn₁ hops₁
    exact ⟨by rw [hstack₁]; exact hsmall, by rw [halt₁]; exact hsmall', by rw [hops₁]; exact ⟨le_refl _, hops⟩,
      by rw [hn₁]; exact hn⟩
  have hstack_only : ∀ s, Small s → Kept st { st with stack := s } (if op.opcode > OP_16 then 1 else 0) :=
    fun s hsmall => hkeep s st.altstack st.vfExec.length hsmall halt (Nat.le_add_right _ _) _ rfl rfl rfl rfl
  have hmore : ∀ {n}, Kept st st' 0 → Kept st st' n := fun hk =>
    ⟨hk.stack_small, hk.altstack_small, hk.ops, hk.branches.trans (Nat.le_add_right _ _)⟩
  unfold execOp at h
  cases hop : Opcode.ofByte op.opcode with
  | pushData =>
    rw [hop] at h
    obtain rfl := Option.some.inj h
    exact hstack_only _ (small_cons.mpr ⟨hvch, hs⟩)
  | pushNum n =>
    rw [hop] at h hfits
    obtain rfl := Option.some.inj h
    have hn : n.natAbs < 256 := by simpa [Opcode.fits] using hfits
    exact hstack_only _ (small_cons.mpr ⟨vchOfBigNum_small (hn.trans (by decide)), hs⟩)
  | nop =>
    rw [hop] at h
    obtain rfl := Option.some.inj h
    exact hstack_only _ hs
  | checkLockTimeVerify =>
    rw [hop] at h
    rw [runCheckLockTimeVerify_eq h]
    exact hstack_only _ hs
  | upgradableNop =>
    rw [hop] at h
    dsimp only at h
    split_ifs at h
    obtain rfl := Option.some.inj h
    exact hstack_only _ hs
  | opIf fNot =>
    rw [hop] at h hfits
    have hcounted : op.opcode > OP_16 := counted_of_fits (by simpa [Opcode.fits] using hfits)
    rw [if_pos hcounted] at hkeep ⊢
    dsimp only at h
    split_ifs at h with hexec
    · cases hstack : st.stack with
      | nil =>
        rw [hstack] at h
        cases h
      | cons vch s =>
        rw [hstack] at h hs
        obtain rfl := Option.some.inj h
        exact hkeep s _ _ (small_cons.mp hs).2 halt (le_refl _) _ rfl rfl rfl rfl
    · obtain rfl := Option.some.inj h
      exact hkeep _ _ _ hs halt (le_refl _) _ rfl rfl rfl rfl
  | opElse =>
    rw [hop] at h
    dsimp only at h
    cases hvf : st.vfExec with
    | nil =>
      rw [hvf] at h
      cases h
    | cons b vfExec =>
      rw [hvf] at h hkeep
      obtain rfl := Option.some.inj h
      exact hkeep _ _ _ hs halt (Nat.le_add_right _ _) _ rfl rfl rfl rfl
  | endIf =>
    rw [hop] at h
    dsimp only at h
    cases hvf : st.vfExec with
    | nil =>
      rw [hvf] at h
      cases h
    | cons b vfExec =>
      rw [hvf] at h hkeep
      obtain rfl := Option.some.inj h
      refine hkeep _ _ vfExec.length hs halt ?_ _ rfl rfl rfl rfl
      rw [List.length_cons]
      omega
  | fromAltStack =>
    rw [hop] at h
    dsimp only at h
    cases halts : st.altstack with
    | nil =>
      rw [halts] at h
      cases h
    | cons vch altstack =>
      rw [halts] at h halt
      obtain rfl := Option.some.inj h
      have hboth := small_cons.mp halt
      exact hkeep _ _ _ (small_cons.mpr ⟨hboth.1, hs⟩) hboth.2 (Nat.le_add_right _ _) _ rfl rfl rfl rfl
  | stack sop =>
    rw [hop] at h
    simp only [Option.bind_eq_bind, Option.bind_eq_some_iff, Option.pure_def, Option.some.injEq] at h
    obtain ⟨s', hrun, rfl⟩ := h
    exact hstack_only _ (StackOp.run_small hs hlen hrun)
  | codeSeparator =>
    rw [hop] at h
    obtain rfl := Option.some.inj h
    exact hkeep _ _ _ hs halt (Nat.le_add_right _ _) _ rfl rfl rfl rfl
  | checkSig fVerify =>
    rw [hop] at h
    exact hmore (runCheckSig_kept hs halt hops h)
  | checkMultiSig fVerify =>
    rw [hop] at h
    exact hmore (runCheckMultiSig_kept hs halt h)
  | disabled =>
    rw [hop] at h
    cases h
  | invalid =>
    rw [hop] at h
    cases h
  | verify =>
    cases hstack : st.stack with
    | nil =>
      rw [hop, hstack] at h
      cases h
    | cons vch s =>
      rw [hop, hstack] at h
      rw [hstack] at hs
      dsimp only at h
      split_ifs at h
      obtain rfl := Option.some.inj h
      exact hstack_only _ (small_cons.mp hs).2
  | toAltStack =>
    cases hstack : st.stack with
    | nil =>
      rw [hop, hstack] at h
      cases h
    | cons vch s =>
      rw [hop, hstack] at h
      rw [hstack] at hs
      obtain rfl := Option.some.inj h
      have hboth := small_cons.mp hs
      exact hkeep _ _ _ hboth.2 (small_cons.mpr ⟨hboth.1, halt⟩) (Nat.le_add_right _ _) _ rfl rfl rfl rfl
  | pick fRoll =>
    cases hstack : st.stack with
    | nil =>
      rw [hop, hstack] at h
      cases h
    | cons vchN s =>
      rw [hop, hstack] at h
      rw [hstack] at hs
      dsimp only at h
      by_cases hempty : s.isEmpty = true
      · rw [if_pos hempty] at h
        cases h
      rw [if_neg hempty, Option.bind_eq_bind, Option.bind_eq_some_iff] at h
      obtain ⟨n, -, h⟩ := h
      by_cases hrange : n < 0 ∨ n ≥ s.length
      · rw [if_pos hrange] at h
        cases h
      rw [if_neg hrange] at h
      simp only [Option.bind_eq_bind, Option.bind_eq_some_iff, Option.pure_def, Option.some.injEq] at h
      obtain ⟨vch, hget, rfl⟩ := h
      have hrest := (small_cons.mp hs).2
      refine hstack_only _ (small_cons.mpr ⟨hrest vch (List.mem_of_getElem? hget), ?_⟩)
      split_ifs
      · exact hrest.mono fun v hv => List.mem_of_mem_eraseIdx hv
      · exact hrest
  | unary uop =>
    cases hstack : st.stack with
    | nil =>
      rw [hop, hstack] at h
      cases h
    | cons vch s =>
      rw [hop, hstack] at h
      rw [hstack] at hs
      simp only [Option.bind_eq_bind, Option.bind_eq_some_iff, Option.pure_def, Option.some.injEq] at h
      obtain ⟨bn, hbn, rfl⟩ := h
      exact hstack_only _ (small_cons.mpr ⟨vchOfBigNum_small (uop.run_lt (castToBigNum_lt hbn)), (small_cons.mp hs).2⟩)
  | hash hashOp =>
    cases hstack : st.stack with
    | nil =>
      rw [hop, hstack] at h
      cases h
    | cons vch s =>
      rw [hop, hstack] at h
      rw [hstack] at hs
      obtain rfl := Option.some.inj h
      exact hstack_only _ (small_cons.mpr ⟨HashOp.run_small hC hashOp vch, (small_cons.mp hs).2⟩)
  | equal fVerify =>
    rcases hstack : st.stack with _ | ⟨x2, _ | ⟨x1, s⟩⟩
    · rw [hop, hstack] at h
      cases h
    · rw [hop, hstack] at h
      cases h
    · rw [hop, hstack] at h
      rw [hstack] at hs
      simp only [Option.bind_eq_bind, Option.bind_eq_some_iff, Option.pure_def, Option.some.injEq] at h
      obtain ⟨s', hpush, rfl⟩ := h
      exact hstack_only _ (pushOrVerify_small (small_cons.mp (small_cons.mp hs).2).2 hpush)
  | binary bop =>
    rcases hstack : st.stack with _ | ⟨vch2, _ | ⟨vch1, s⟩⟩
    · rw [hop, hstack] at h
      cases h
    · rw [hop, hstack] at h
      cases h
    · rw [hop, hstack] at h
      rw [hstack] at hs
      simp only [Option.bind_eq_bind, Option.bind_eq_some_iff, Option.pure_def, Option.some.injEq] at h
      obtain ⟨bn1, hbn1, bn2, hbn2, rfl⟩ := h
      exact hstack_only _ (small_cons.mpr ⟨vchOfBigNum_small (bop.run_lt (castToBigNum_lt hbn1) (castToBigNum_lt hbn2)),
        (small_cons.mp (small_cons.mp hs).2).2⟩)
  | numEqualVerify =>
    rcases hstack : st.stack with _ | ⟨vch2, _ | ⟨vch1, s⟩⟩
    · rw [hop, hstack] at h
      cases h
    · rw [hop, hstack] at h
      cases h
    · rw [hop, hstack] at h
      rw [hstack] at hs
      simp only [Option.bind_eq_bind, Option.bind_eq_some_iff, Option.pure_def, Option.some.injEq] at h
      obtain ⟨bn1, -, bn2, -, s', hpush, rfl⟩ := h
      exact hstack_only _ (pushOrVerify_small (small_cons.mp (small_cons.mp hs).2).2 hpush)
  | within =>
    rcases hstack : st.stack with _ | ⟨vch3, _ | ⟨vch2, _ | ⟨vch1, s⟩⟩⟩
    · rw [hop, hstack] at h
      cases h
    · rw [hop, hstack] at h
      cases h
    · rw [hop, hstack] at h
      cases h
    · rw [hop, hstack] at h
      rw [hstack] at hs
      simp only [Option.bind_eq_bind, Option.bind_eq_some_iff, Option.pure_def, Option.some.injEq] at h
      obtain ⟨bn1, -, bn2, -, bn3, -, rfl⟩ := h
      exact hstack_only _ (small_cons.mpr ⟨vchOfBool_small _,
        (small_cons.mp (small_cons.mp (small_cons.mp hs).2).2).2⟩)

/-- What a round has counted before it does anything. -/
def countOp (op : ScriptOp) (st : EvalState) : Nat := if op.opcode > OP_16 then st.nOpCount + 1 else st.nOpCount

theorem countOp_eq (op : ScriptOp) (st : EvalState) :
    countOp op st = st.nOpCount + if op.opcode > OP_16 then 1 else 0 := by
  rw [countOp]
  split_ifs <;> rfl

/-- A round that passes: the limits hold, and the operation was run unless it stands in a branch that is not taken. -/
theorem evalStep_cases {op : ScriptOp} {st st' : EvalState} (h : evalStep p C txTo nIn flags op st = some st') :
    op.vch.length ≤ MAX_SCRIPT_ELEMENT_SIZE ∧ countOp op st ≤ 201 ∧ st'.stack.length + st'.altstack.length ≤ 1000 ∧
      (execOp p C txTo nIn flags (st.vfExec.all id) op { st with nOpCount := countOp op st } = some st' ∨
        ¬st.vfExec.all id ∧ st' = { st with nOpCount := countOp op st }) := by
  rw [evalStep] at h
  dsimp only at h
  rw [show (if op.opcode > OP_16 then st.nOpCount + 1 else st.nOpCount) = countOp op st from rfl] at h
  by_cases hsize : op.vch.length > MAX_SCRIPT_ELEMENT_SIZE
  · rw [if_pos hsize] at h
    cases h
  rw [if_neg hsize] at h
  by_cases hops : countOp op st > 201
  · rw [if_pos hops] at h
    cases h
  rw [if_neg hops] at h
  by_cases hdisabled : Opcode.ofByte op.opcode = .disabled
  · rw [if_pos hdisabled] at h
    cases h
  rw [if_neg hdisabled] at h
  by_cases hruns : st.vfExec.all id = true ∨ 0x63 ≤ op.opcode ∧ op.opcode ≤ 0x68
  · rw [if_pos hruns, Option.bind_eq_bind, Option.bind_eq_some_iff] at h
    obtain ⟨st₁, hexec, h⟩ := h
    split_ifs at h with hstacks
    obtain rfl := Option.some.inj h
    exact ⟨Nat.not_lt.mp hsize, Nat.not_lt.mp hops, Nat.not_lt.mp hstacks, .inl hexec⟩
  · rw [if_neg hruns, Option.bind_eq_bind, Option.bind_some] at h
    split_ifs at h with hstacks
    obtain rfl := Option.some.inj h
    exact ⟨Nat.not_lt.mp hsize, Nat.not_lt.mp hops, Nat.not_lt.mp hstacks, .inr ⟨fun hall => hruns (.inl hall), rfl⟩⟩

theorem evalStep_kept (hC : C.Sized) {op : ScriptOp} {st st' : EvalState} (hst : st.Within)
    (h : evalStep p C txTo nIn flags op st = some st') :
    Kept { st with nOpCount := countOp op st } st' (if op.opcode > OP_16 then 1 else 0) := by
  obtain ⟨hsize, hops, -, hexec⟩ := evalStep_cases h
  cases hexec with
  | inl hrun =>
    have hlen : st.stack.length ≤ 1000 := by
      have hstacks := hst.stack_le
      omega
    exact execOp_kept hC hsize hst.stack_small hst.altstack_small hlen hops hrun
  | inr hskip =>
    rw [hskip.2]
    exact ⟨hst.stack_small, hst.altstack_small, ⟨le_refl _, hops⟩, Nat.le_add_right _ _⟩

/-- One round of `EvalScript`. -/
theorem evalStep_within (hC : C.Sized) {op : ScriptOp} {st st' : EvalState} (hst : st.Within)
    (h : evalStep p C txTo nIn flags op st = some st') : st'.Within := by
  have hkept := evalStep_kept hC hst h
  have hstacks := (evalStep_cases h).2.2.1
  have hbranches := hst.branches
  have hkept_ops := hkept.ops
  have hkept_branches := hkept.branches
  have hcount := countOp_eq op st
  dsimp only at hkept_ops hkept_branches
  exact ⟨hstacks, hkept.stack_small, hkept.altstack_small, hkept_ops.2, by omega⟩

theorem runOps_within (hC : C.Sized) {ops : List ScriptOp} {st st' : EvalState} (hst : st.Within)
    (h : ops.foldlM (fun st op => evalStep p C txTo nIn flags op st) st = some st') : st'.Within := by
  induction ops generalizing st with
  | nil =>
    obtain rfl := Option.some.inj h
    exact hst
  | cons op ops ih =>
    rw [List.foldlM_cons, Option.bind_eq_bind, Option.bind_eq_some_iff] at h
    obtain ⟨st₁, hstep, h⟩ := h
    exact ih (evalStep_within hC hst hstep) h

/-- The tests of an operation are counted: by the operation itself, or key by key before the first of them. -/
theorem opChecks_count {op : ScriptOp} {st : EvalState} {before : Nat}
    (hcount : st.nOpCount = before + if op.opcode > OP_16 then 1 else 0) (hops : st.nOpCount ≤ 201) :
    (opChecks p C txTo nIn flags op st).length + before ≤ 201 ∧
      ∀ st' fExec, execOp p C txTo nIn flags fExec op st = some st' → st.nOpCount ≤ st'.nOpCount →
        (opChecks p C txTo nIn flags op st).length + before ≤ st'.nOpCount := by
  have hfits := ofByte_fits op.opcode
  unfold opChecks execOp
  cases hop : Opcode.ofByte op.opcode with
  | checkSig fVerify =>
    rw [hop] at hfits
    rw [if_pos (counted_of_fits (by simpa [Opcode.fits] using hfits))] at hcount
    dsimp only
    rcases hstack : st.stack with _ | ⟨vchPubKey, _ | ⟨vchSig, s⟩⟩
    all_goals
      simp only [List.length_nil, List.length_singleton]
      refine ⟨by omega, ?_⟩
      intro st' _ _ hle
      omega
  | checkMultiSig fVerify =>
    dsimp only
    cases hoperands : multiSigOperands st with
    | none =>
      simp only [List.length_nil]
      refine ⟨by omega, ?_⟩
      intro st' _ _ hle
      omega
    | some operands =>
      obtain ⟨keys, sigs, rest, nOpCount⟩ := operands
      obtain ⟨hkeys, hmax, -⟩ := multiSigOperands_count hoperands
      have hlen := @multiSigChecks_length p C txTo nIn flags (multiSigCode st sigs) keys sigs
      dsimp only
      refine ⟨by omega, ?_⟩
      intro st' _ hrun _
      rw [runCheckMultiSig_eq, hoperands, Option.bind_some] at hrun
      cases rest with
      | nil => cases hrun
      | cons dummy s =>
        dsimp only at hrun
        rw [Option.bind_eq_bind, Option.bind_eq_some_iff] at hrun
        obtain ⟨fSuccess, -, hrun⟩ := hrun
        by_cases hdummy : flags.nullDummy ∧ ¬ dummy.isEmpty
        · rw [if_pos hdummy] at hrun
          cases hrun
        rw [if_neg hdummy] at hrun
        simp only [Option.bind_eq_bind, Option.bind_eq_some_iff, Option.pure_def, Option.some.injEq] at hrun
        obtain ⟨s', -, rfl⟩ := hrun
        dsimp only
        omega
  | _ =>
    simp only [List.length_nil]
    refine ⟨by omega, ?_⟩
    intro st' _ _ hle
    omega

theorem stepChecks_count (hC : C.Sized) {op : ScriptOp} {st : EvalState} (hst : st.Within) :
    (stepChecks p C txTo nIn flags op st).length + st.nOpCount ≤ 201 ∧
      ∀ st', evalStep p C txTo nIn flags op st = some st' →
        (stepChecks p C txTo nIn flags op st).length + st.nOpCount ≤ st'.nOpCount := by
  have hops := hst.ops
  have hcount := countOp_eq op st
  have hnone : ([] : List SigCheck).length + st.nOpCount ≤ 201 ∧
      ∀ st', evalStep p C txTo nIn flags op st = some st' →
        ([] : List SigCheck).length + st.nOpCount ≤ st'.nOpCount := by
    rw [List.length_nil, Nat.zero_add]
    refine ⟨hops, ?_⟩
    intro st' h
    have hkept := (evalStep_kept hC hst h).ops.1
    dsimp only at hkept
    omega
  rw [stepChecks]
  rw [show (if op.opcode > OP_16 then st.nOpCount + 1 else st.nOpCount) = countOp op st from rfl]
  split_ifs with hlimit hall
  · exact hnone
  · have hchecks := @opChecks_count p C txTo nIn flags op { st with nOpCount := countOp op st } st.nOpCount hcount
      (by dsimp only; omega)
    refine ⟨hchecks.1, ?_⟩
    intro st' h
    have hkept := (evalStep_kept hC hst h).ops.1
    cases (evalStep_cases h).2.2.2 with
    | inl hrun => exact hchecks.2 st' _ hrun hkept
    | inr hskip => exact absurd hall hskip.1
  · exact hnone

theorem runChecks_count (hC : C.Sized) (ops : List ScriptOp) {st : EvalState} (hst : st.Within) :
    (runChecks p C txTo nIn flags ops st).length + st.nOpCount ≤ 201 := by
  induction ops generalizing st with
  | nil =>
    have hops := hst.ops
    rw [runChecks, List.length_nil]
    omega
  | cons op ops ih =>
    have hstep := @stepChecks_count p C txTo nIn flags hC op st hst
    rw [runChecks, List.length_append]
    cases hrun : evalStep p C txTo nIn flags op st with
    | none =>
      rw [List.length_nil]
      exact hstep.1
    | some st' =>
      have hle := hstep.2 st' hrun
      have hrest := ih (evalStep_within hC hst hrun)
      dsimp only
      omega

end Exec

section Verify

variable (p : ChainParams) (C : ScriptCrypto) (txTo : CTransaction) (nIn : Nat)

/-- The states that `EvalScript` comes to between two operations. -/
def EvalReaches (flags : EvalFlags) (stack : List Bytes) (script : CScript) (st : EvalState) : Prop :=
  script.length ≤ 10000 ∧ ∃ pre post, (CScript.ops script).1 = pre ++ post ∧
    pre.foldlM (fun st op => evalStep p C txTo nIn flags op st)
      { stack, altstack := [], vfExec := [], nOpCount := 0, codeHash := script } = some st

/-- The scripts that `VerifyScript` runs, each with the stack that it starts on. -/
inductive VerifyRuns (flags : ScriptFlags) (scriptSig scriptPubKey : CScript) : List Bytes → CScript → Prop
  | scriptSig : VerifyRuns flags scriptSig scriptPubKey [] scriptSig
  | scriptPubKey {stack : List Bytes} (h : evalScript p C txTo nIn flags.toEvalFlags [] scriptSig = some stack) :
    VerifyRuns flags scriptSig scriptPubKey stack scriptPubKey
  | redeemScript {pubKeySerialized : Bytes} {stackCopy : List Bytes} (hp2sh : flags.p2sh = true)
    (h : evalScript p C txTo nIn flags.toEvalFlags [] scriptSig = some (pubKeySerialized :: stackCopy)) :
    VerifyRuns flags scriptSig scriptPubKey stackCopy pubKeySerialized

variable {p C txTo nIn}

theorem start_within {stack : List Bytes} (hsmall : Small stack) (hlen : stack.length ≤ 1000) (script : CScript) :
    EvalState.Within { stack, altstack := [], vfExec := [], nOpCount := 0, codeHash := script } :=
  ⟨hlen, hsmall, small_nil, Nat.zero_le _, Nat.zero_le _⟩

theorem evalScript_within (hC : C.Sized) {flags : EvalFlags} {stack stack' : List Bytes} {script : CScript}
    (hsmall : Small stack) (hlen : stack.length ≤ 1000)
    (h : evalScript p C txTo nIn flags stack script = some stack') : Small stack' ∧ stack'.length ≤ 1000 := by
  rw [evalScript] at h
  by_cases hlong : script.length > 10000
  · rw [if_pos hlong] at h
    cases h
  rw [if_neg hlong, Option.bind_eq_bind, Option.bind_eq_some_iff] at h
  obtain ⟨st, hrun, h⟩ := h
  have hst := runOps_within hC (start_within hsmall hlen script) hrun
  have hstacks := hst.stack_le
  split_ifs at h
  obtain rfl := Option.some.inj h
  exact ⟨hst.stack_small, by omega⟩

/-- The scripts of `VerifyScript` all keep to the limits: the stack that one of them leaves is one that the next may
start on, no state goes beyond them, and a script makes at most 201 signature tests. -/
theorem verifyScript_limits (hC : C.Sized) (flags : ScriptFlags) (scriptSig scriptPubKey : CScript)
    {stack : List Bytes} {script : CScript}
    (hruns : VerifyRuns p C txTo nIn flags scriptSig scriptPubKey stack script) :
    (∀ st, EvalReaches p C txTo nIn flags.toEvalFlags stack script st → st.Within) ∧
      (evalChecks p C txTo nIn flags.toEvalFlags stack script).length ≤ 201 := by
  have hstart : Small stack ∧ stack.length ≤ 1000 := by
    cases hruns with
    | scriptSig => exact ⟨small_nil, Nat.zero_le _⟩
    | scriptPubKey h => exact evalScript_within hC small_nil (Nat.zero_le _) h
    | redeemScript hp2sh h =>
      have hleft := evalScript_within hC small_nil (Nat.zero_le _) h
      have hlen := hleft.2
      rw [List.length_cons] at hlen
      exact ⟨(small_cons.mp hleft.1).2, by omega⟩
  have hwithin := start_within hstart.1 hstart.2 script
  constructor
  · intro st hreach
    obtain ⟨-, pre, post, -, hrun⟩ := hreach
    exact runOps_within hC hwithin hrun
  · rw [evalChecks]
    split_ifs
    · exact Nat.zero_le _
    · exact runChecks_count hC _ hwithin

/-- Digests of the right sizes; the scripts below call none of them. -/
def sizedCrypto : ScriptCrypto where
  ripemd160 := fun _ => List.replicate 20 0
  sha1 := fun _ => List.replicate 20 0
  sha256 := fun _ => List.replicate 32 0
  hash := fun _ => 0
  verify := fun _ _ _ => false

/-- `OP_1` and `OP_DUP`. -/
theorem verifyScript_limits_dup :
    (∀ st, EvalReaches mainParams sizedCrypto sampleTx 0 MANDATORY_SCRIPT_VERIFY_FLAGS.toEvalFlags [[1]] [0x76] st →
        st.Within) ∧
      (evalChecks mainParams sizedCrypto sampleTx 0 MANDATORY_SCRIPT_VERIFY_FLAGS.toEvalFlags [[1]]
        [0x76]).length ≤ 201 :=
  verifyScript_limits ⟨fun _ => List.length_replicate, fun _ => List.length_replicate, fun _ => List.length_replicate⟩
    MANDATORY_SCRIPT_VERIFY_FLAGS [0x51] [0x76] (.scriptPubKey (by decide))

end Verify

end AliasWallet
