import AliasWallet.Script.CombineSpec

/-!
# Collecting the signatures of a multisignature script (`script.cpp`)

Whatever the order and grouping in which `CombineSignatures` merges partial scriptSigs, the result is the same, and
`VerifyScript` accepts it as soon as enough keys have signed.
-/

namespace AliasWallet
open Lib

attribute [local instance] valtypeOrder

/-- A script that `Solver` finds to ask for `m` signatures. -/
structure IsMultiSig (scriptPubKey : CScript) (m : Nat) (keys : List Bytes) : Prop where
  pos : 1 ≤ m
  le : m ≤ keys.length
  few : keys.length ≤ 16
  sizes : ∀ key ∈ keys, KeySize key
  parses : scriptPubKey.ParsesAs (multiSigItems m keys.length keys)

/-- The operands of a script. -/
def CScript.pushes (s : CScript) : List Bytes := (CScript.ops s).1.map ScriptOp.vch

/-- A scriptSig of placeholders and signatures. -/
structure PartialScriptSig (p : ChainParams) (C : ScriptCrypto) (txTo : CTransaction) (nIn : Nat) (flags : EvalFlags)
    (scriptPubKey : CScript) (keys : List Bytes) (scriptSig : CScript) : Prop where
  parses : scriptSig.ParsesAs (scriptSig.pushes.map .vch)
  encoded : ∀ sig ∈ scriptSig.pushes, sig ≠ [] → checkSignatureEncoding flags sig = true
  single : ∀ sig ∈ scriptSig.pushes, SingleKey p C txTo nIn scriptPubKey keys sig
  noKey : ∀ sig ∈ scriptSig.pushes, sig ∉ keys

/-- One of the scriptSigs has a signature for the key. -/
def HasSigned (p : ChainParams) (C : ScriptCrypto) (txTo : CTransaction) (nIn : Nat) (scriptPubKey : CScript)
    (scriptSigs : List CScript) (key : Bytes) : Prop :=
  ∃ scriptSig ∈ scriptSigs, ∃ sig ∈ scriptSig.pushes, signsFor p C txTo nIn scriptPubKey sig key = true

section Merging

variable {p : ChainParams} {C : ScriptCrypto} {txTo : CTransaction} {nIn : Nat} {flags : EvalFlags}
  {scriptPubKey : CScript} {m : Nat} {keys : List Bytes}

theorem checkSignatureEncoding_length {sig : Bytes} (h : checkSignatureEncoding flags sig = true) :
    sig.length ≤ MAX_SCRIPT_ELEMENT_SIZE := by
  rw [checkSignatureEncoding, Bool.or_eq_true, Bool.and_eq_true, Bool.and_eq_true] at h
  cases h with
  | inl h =>
    rw [List.isEmpty_iff.mp h.2]
    exact Nat.zero_le _
  | inr h =>
    have hder := h.1
    simp only [isLowDERSignature, isDERSignature, Bool.and_eq_true, decide_eq_true_eq] at hder
    have hlen : sig.length ≤ 73 := by omega
    exact hlen.trans (by decide)

/-- What `CombineSignatures` needs of the pushes of a scriptSig. -/
def Mergeable (p : ChainParams) (C : ScriptCrypto) (txTo : CTransaction) (nIn : Nat) (scriptPubKey : CScript)
    (keys : List Bytes) (scriptSig : CScript) : Prop :=
  ∃ sigs : List Bytes, scriptSig.ParsesAs (sigs.map .vch) ∧
    (∀ sig ∈ sigs, sig.length ≤ MAX_SCRIPT_ELEMENT_SIZE) ∧
    ∀ sig ∈ sigs, SingleKey p C txTo nIn scriptPubKey keys sig

theorem PartialScriptSig.mergeable {scriptSig : CScript}
    (h : PartialScriptSig p C txTo nIn flags scriptPubKey keys scriptSig) :
    Mergeable p C txTo nIn scriptPubKey keys scriptSig := by
  apply Exists.intro scriptSig.pushes
  refine ⟨h.parses, ?_, h.single⟩
  intro sig hsig
  by_cases hnil : sig = []
  · rw [hnil]
    exact Nat.zero_le _
  · exact checkSignatureEncoding_length (h.encoded sig hsig hnil)

theorem mergeable_nil : Mergeable p C txTo nIn scriptPubKey keys [] :=
  ⟨[], CScript.parsesAs_nil_iff.mpr rfl, fun _ h => absurd h List.not_mem_nil, fun _ h => absurd h List.not_mem_nil⟩

theorem mem_pushedSigs {scriptSig : CScript} {sig : Bytes} :
    sig ∈ pushedSigs p C scriptSig ↔
      sig ∈ evalScriptStack p C nullTransaction 0 SCRIPT_VERIFY_NONE.toEvalFlags [] scriptSig ∧ sig ≠ [] := by
  rw [pushedSigs, OrderedSet.mem_insertAll, or_iff_right OrderedSet.not_mem_empty, List.mem_filter,
    Bool.not_eq_true', List.isEmpty_eq_false_iff]

theorem pushedSigs_nil (sig : Bytes) : sig ∉ pushedSigs p C [] := by
  rw [mem_pushedSigs]
  exact fun h => absurd h.1 List.not_mem_nil

theorem mem_evalScriptStack {flags : EvalFlags} {scriptSig : CScript} {sigs : List Bytes} {sig : Bytes}
    (hparse : scriptSig.ParsesAs (sigs.map .vch)) (hsize : ∀ sig ∈ sigs, sig.length ≤ MAX_SCRIPT_ELEMENT_SIZE)
    (h : sig ∈ evalScriptStack p C txTo nIn flags [] scriptSig) : sig ∈ sigs := by
  rw [evalScriptStack_pushes hparse hsize] at h
  split at h
  · exact absurd h List.not_mem_nil
  · exact List.mem_of_mem_take (List.mem_reverse.mp h)

/-- Within the limits of `EvalScript` nothing that is pushed is lost. -/
theorem mem_pushedSigs_iff {scriptSig : CScript} {sig : Bytes}
    (h : PartialScriptSig p C txTo nIn flags scriptPubKey keys scriptSig) (hlong : scriptSig.length ≤ 10000)
    (hroom : scriptSig.pushes.length ≤ 1000) :
    sig ∈ pushedSigs p C scriptSig ↔ sig ∈ scriptSig.pushes ∧ sig ≠ [] := by
  have hsize : ∀ sig ∈ scriptSig.pushes, sig.length ≤ MAX_SCRIPT_ELEMENT_SIZE := by
    intro sig hsig
    by_cases hnil : sig = []
    · rw [hnil]
      exact Nat.zero_le _
    · exact checkSignatureEncoding_length (h.encoded sig hsig hnil)
  rw [mem_pushedSigs, evalScriptStack_of_evalScript (evalScript_pushes h.parses hsize hlong hroom), List.mem_reverse]

theorem mergedPushes_length {sel : List Bytes} (h : sel.length ≤ m) : (mergedPushes m sel).length = m + 1 := by
  rw [mergedPushes, List.length_cons, List.length_append, List.length_replicate]
  omega

theorem mem_mergedPushes {sel : List Bytes} {sig : Bytes} (h : sig ∈ mergedPushes m sel) : sig = [] ∨ sig ∈ sel := by
  rw [mergedPushes, List.mem_cons, List.mem_append] at h
  cases h with
  | inl h => exact .inl h
  | inr h =>
    cases h with
    | inl h => exact .inr h
    | inr h => exact .inl (List.eq_of_mem_replicate h)

theorem mergedPushes_size {sel : List Bytes} (hsel : ∀ sig ∈ sel, sig.length ≤ MAX_SCRIPT_ELEMENT_SIZE) :
    ∀ sig ∈ mergedPushes m sel, sig.length ≤ MAX_SCRIPT_ELEMENT_SIZE := by
  intro sig hsig
  cases mem_mergedPushes hsig with
  | inl h =>
    rw [h]
    exact Nat.zero_le _
  | inr h => exact hsel sig h

theorem mergedScript_parses {sel : List Bytes} (hm : m ≤ 16) (hlen : sel.length ≤ m)
    (hsel : ∀ sig ∈ sel, sig.length ≤ MAX_SCRIPT_ELEMENT_SIZE) :
    CScript.ParsesAs (mergedScript m sel) ((mergedPushes m sel).map .vch) := by
  apply parsesAs_pushes (mergedPushes_size hsel)
  rw [mergedPushes_length hlen, MAX_SCRIPT_ELEMENT_SIZE]
  omega

theorem mergedScript_length {sel : List Bytes} (hm : m ≤ 16) (hlen : sel.length ≤ m)
    (hsel : ∀ sig ∈ sel, sig.length ≤ MAX_SCRIPT_ELEMENT_SIZE) : (mergedScript m sel).length ≤ 10000 := by
  have hlength := length_le_of_parsesAs (n := MAX_SCRIPT_ELEMENT_SIZE) (mergedScript_parses hm hlen hsel) (by
    intro b hb
    obtain ⟨sig, hsig, heq⟩ := List.mem_map.mp hb
    rw [← ScriptItem.vch.inj heq]
    exact mergedPushes_size hsel sig hsig)
  rw [List.length_map, mergedPushes_length hlen, MAX_SCRIPT_ELEMENT_SIZE] at hlength
  omega

/-- A merged script is run to its end. -/
theorem evalScript_merged {sel : List Bytes} (hm : m ≤ 16) (hlen : sel.length ≤ m)
    (hsel : ∀ sig ∈ sel, sig.length ≤ MAX_SCRIPT_ELEMENT_SIZE) :
    evalScript p C txTo nIn flags [] (mergedScript m sel) = some (mergedPushes m sel).reverse := by
  apply evalScript_pushes (mergedScript_parses hm hlen hsel) (mergedPushes_size hsel)
    (mergedScript_length hm hlen hsel)
  rw [mergedPushes_length hlen]
  omega

theorem IsMultiSig.solver_eq (h : IsMultiSig scriptPubKey m keys) :
    solver scriptPubKey [] =
      ⟨true, .TX_MULTISIG, [UInt8.ofNat m] :: (keys ++ [[UInt8.ofNat keys.length]])⟩ :=
  (solver_iff scriptPubKey [] _).1.mpr ⟨m, keys.length, keys, h.pos, h.le, h.few, rfl, h.sizes, h.parses, rfl⟩

/-- `CombineSignatures` selects from what both scriptSigs push. -/
theorem combineSignatures_eq (h : IsMultiSig scriptPubKey m keys) {a b : CScript}
    (ha : Mergeable p C txTo nIn scriptPubKey keys a) (hb : Mergeable p C txTo nIn scriptPubKey keys b) :
    combineSignatures p C txTo nIn scriptPubKey a b =
      mergedScript m (select (signsFor p C txTo nIn scriptPubKey) m keys
        ((pushedSigs p C a).insertAll (pushedSigs p C b).elems)) := by
  obtain ⟨sigsA, hparseA, hsizeA, hsingleA⟩ := ha
  obtain ⟨sigsB, hparseB, hsizeB, hsingleB⟩ := hb
  rw [combineSignatures, h.solver_eq]
  dsimp only
  rw [combineStacks, combineMultisig_eq (h.le.trans h.few)]
  · apply congrArg
    apply congrArg
    apply OrderedSet.ext_mem
    intro sig
    rw [OrderedSet.mem_insertAll, OrderedSet.mem_insertAll, OrderedSet.mem_insertAll, pushedSigs, pushedSigs,
      OrderedSet.mem_insertAll, ← OrderedSet.mem_iff, OrderedSet.mem_insertAll,
      or_iff_right (a := sig ∈ OrderedSet.empty) OrderedSet.not_mem_empty,
      or_iff_right (a := sig ∈ OrderedSet.empty) OrderedSet.not_mem_empty]
  · intro sig hsig
    cases hsig with
    | inl hsig => exact hsingleA sig (mem_evalScriptStack hparseA hsizeA hsig)
    | inr hsig => exact hsingleB sig (mem_evalScriptStack hparseB hsizeB hsig)

theorem select_size {a b : CScript} (ha : Mergeable p C txTo nIn scriptPubKey keys a)
    (hb : Mergeable p C txTo nIn scriptPubKey keys b) {sig : Bytes}
    (hsig : sig ∈ select (signsFor p C txTo nIn scriptPubKey) m keys
      ((pushedSigs p C a).insertAll (pushedSigs p C b).elems)) :
    sig.length ≤ MAX_SCRIPT_ELEMENT_SIZE ∧ SingleKey p C txTo nIn scriptPubKey keys sig := by
  obtain ⟨sigsA, hparseA, hsizeA, hsingleA⟩ := ha
  obtain ⟨sigsB, hparseB, hsizeB, hsingleB⟩ := hb
  have hmem := (mem_select hsig).1
  rw [OrderedSet.mem_insertAll, ← OrderedSet.mem_iff, mem_pushedSigs, mem_pushedSigs] at hmem
  cases hmem with
  | inl h =>
    have hpush := mem_evalScriptStack hparseA hsizeA h.1
    exact ⟨hsizeA sig hpush, hsingleA sig hpush⟩
  | inr h =>
    have hpush := mem_evalScriptStack hparseB hsizeB h.1
    exact ⟨hsizeB sig hpush, hsingleB sig hpush⟩

theorem select_length_le (fits : Bytes → Bytes → Bool) (S : OrderedSet Bytes) :
    (select fits m keys S).length ≤ m := by
  rw [select_length]
  exact min_le_left _ _

/-- `CombineSignatures` is a merge that keeps the selected signatures of both sides. -/
theorem selectingMerge (h : IsMultiSig scriptPubKey m keys) :
    SelectingMerge (signsFor p C txTo nIn scriptPubKey) m keys (pushedSigs p C)
      (Mergeable p C txTo nIn scriptPubKey keys) (mergedScript m)
      (combineSignatures p C txTo nIn scriptPubKey) where
  good := by
    intro a b ha hb
    rw [combineSignatures_eq h ha hb]
    have hsel : ∀ sig ∈ select (signsFor p C txTo nIn scriptPubKey) m keys
        ((pushedSigs p C a).insertAll (pushedSigs p C b).elems),
        sig.length ≤ MAX_SCRIPT_ELEMENT_SIZE ∧ SingleKey p C txTo nIn scriptPubKey keys sig := fun _ hsig =>
      select_size ha hb hsig
    have hsize := fun sig hsig => (hsel sig hsig).1
    refine ⟨_, mergedScript_parses (h.le.trans h.few) (select_length_le _ _) hsize, mergedPushes_size hsize, ?_⟩
    intro sig hsig key hkey key' hkey' hvalid hvalid'
    cases mem_mergedPushes hsig with
    | inl hnil => exact absurd hnil (signsFor_ne_nil hvalid)
    | inr hmem => exact (hsel sig hmem).2 key hkey key' hkey' hvalid hvalid'
  merge := fun ha hb => combineSignatures_eq h ha hb
  items_make := by
    intro a b sig ha hb
    have hsize : ∀ sig ∈ select (signsFor p C txTo nIn scriptPubKey) m keys
        ((pushedSigs p C a).insertAll (pushedSigs p C b).elems), sig.length ≤ MAX_SCRIPT_ELEMENT_SIZE :=
      fun _ hsig => (select_size ha hb hsig).1
    have hlen : (select (signsFor p C txTo nIn scriptPubKey) m keys
        ((pushedSigs p C a).insertAll (pushedSigs p C b).elems)).length ≤ m := select_length_le _ _
    rw [combineSignatures_eq h ha hb, mem_pushedSigs,
      evalScriptStack_of_evalScript (evalScript_merged (h.le.trans h.few) hlen hsize), List.mem_reverse]
    constructor
    · intro hsig
      exact (mem_mergedPushes hsig.1).resolve_left hsig.2
    · intro hsig
      obtain ⟨-, key, -, hvalid⟩ := mem_select hsig
      exact ⟨List.mem_cons_of_mem _ (List.mem_append_left _ hsig), signsFor_ne_nil hvalid⟩

end Merging

section Verifying

variable {p : ChainParams} {C : ScriptCrypto} {txTo : CTransaction} {nIn : Nat} {flags : ScriptFlags}
  {scriptPubKey : CScript} {m : Nat} {keys : List Bytes}

/-- An empty signature matches no key and is never skipped. -/
theorem multiSigLoop_placeholder (flags : EvalFlags) (scriptCode : CScript) (keys sigs : List Bytes) :
    multiSigLoop p C txTo nIn flags scriptCode keys ([] :: sigs) ≠ some true := by
  induction keys with
  | nil =>
    intro h
    cases h
  | cons vchPubKey keys ih =>
    have hinvalid : checkSig p C [] vchPubKey scriptCode txTo nIn = false := by
      rw [← Bool.not_eq_true]
      intro h
      exact @signsFor_ne_nil p C txTo nIn scriptCode [] vchPubKey h rfl
    rw [multiSigLoop, checkOneSig, hinvalid, Bool.and_false]
    by_cases hstrict : (flags.strictEnc && !(checkSignatureEncoding flags [] && checkPubKeyEncoding vchPubKey)) = true
    · rw [if_pos hstrict]
      intro h
      cases h
    · rw [if_neg hstrict, Option.bind_eq_bind, Option.bind_some]
      dsimp only
      rw [if_neg Bool.false_ne_true]
      by_cases hmany : ([] :: sigs : List Bytes).length > keys.length
      · rw [if_pos hmany]
        intro h
        cases h
      · rw [if_neg hmany]
        exact ih

theorem castToBigNum_small {n : Nat} (hn : n ≤ 16) :
    castToBigNum (vchOfBigNum n) nDefaultMaxNumSize = some (n : Int) := by
  have hall : ∀ k : Fin 17, castToBigNum (vchOfBigNum k.val) nDefaultMaxNumSize = some (k.val : Int) := by decide
  exact hall ⟨n, by omega⟩

theorem IsMultiSig.length_le (h : IsMultiSig scriptPubKey m keys) : scriptPubKey.length ≤ 10000 := by
  have hlength := length_le_of_parsesAs (n := 120) h.parses (by
    intro b hb
    rw [multiSigItems] at hb
    simp only [List.mem_cons, List.mem_append, reduceCtorEq, false_or, List.not_mem_nil, or_false] at hb
    obtain ⟨key, hkey, heq⟩ := List.mem_map.mp hb
    rw [← ScriptItem.vch.inj heq]
    exact (h.sizes key hkey).2)
  have hfew := h.few
  rw [multiSigItems, List.length_cons, List.length_append, List.length_map, List.length_cons, List.length_singleton]
    at hlength
  omega

/-- No signature stands in the script. -/
theorem IsMultiSig.code_eq (h : IsMultiSig scriptPubKey m keys) (sigs : List Bytes)
    (hsize : ∀ sig ∈ sigs, sig.length ≤ MAX_SCRIPT_ELEMENT_SIZE) (hkeys : ∀ sig ∈ sigs, sig ∉ keys) :
    sigs.foldl (fun code vchSig => CScript.findAndDelete code (CScript.push vchSig)) scriptPubKey = scriptPubKey := by
  induction sigs with
  | nil => rfl
  | cons sig sigs ih =>
    have hsize' := List.forall_mem_cons.mp hsize
    have hkeys' := List.forall_mem_cons.mp hkeys
    have hlen := hsize'.1
    have hshort := h.length_le
    rw [MAX_SCRIPT_ELEMENT_SIZE] at hlen
    rw [List.foldl_cons, findAndDelete_eq_self h.parses _ (by omega) (by omega)]
    · exact ih hsize'.2 hkeys'.2
    · rw [multiSigItems]
      simp only [List.mem_cons, List.mem_append, List.mem_map, reduceCtorEq, false_or, List.not_mem_nil, or_false]
      intro hmem
      obtain ⟨key, hkey, heq⟩ := hmem
      exact hkeys'.1 (ScriptItem.vch.inj heq ▸ hkey)

/-- On a merged script `VerifyScript` does what the loop of `OP_CHECKMULTISIG` does on its signatures. -/
theorem verifyScript_merged (h : IsMultiSig scriptPubKey m keys) {sel : List Bytes} (hlen : sel.length ≤ m)
    (hsize : ∀ sig ∈ sel, sig.length ≤ MAX_SCRIPT_ELEMENT_SIZE) (hkeys : ∀ sig ∈ sel, sig ∉ keys) :
    verifyScript p C txTo nIn flags (mergedScript m sel) scriptPubKey = true ↔
      multiSigLoop p C txTo nIn flags.toEvalFlags scriptPubKey keys.reverse
        (sel ++ List.replicate (m - sel.length) []).reverse = some true := by
  have hm := h.le.trans h.few
  let sigs := sel ++ List.replicate (m - sel.length) ([] : Bytes)
  have hsigs : sigs.length = m := by
    rw [List.length_append, List.length_replicate]
    omega
  have hpushes : (mergedPushes m sel).reverse = sigs.reverse ++ [[]] := List.reverse_cons
  have hplain : CScript.isPayToScriptHash scriptPubKey = false := by
    rw [← Bool.not_eq_true]
    apply h.parses.not_scriptHash
    have hall : ∀ k : Fin 17, CScript.encodeOP_N k.val ≠ OP_HASH160 := by decide
    exact fun heq => hall ⟨m, by omega⟩ (ScriptItem.opcode.inj heq)
  have hcode : multiSigCode (multiSigState scriptPubKey m keys (sigs.reverse ++ [[]])) sigs.reverse = scriptPubKey := by
    apply h.code_eq
    · intro sig hsig
      exact mergedPushes_size hsize sig (List.mem_cons_of_mem _ (List.mem_reverse.mp hsig))
    · intro sig hsig hkey
      cases mem_mergedPushes (m := m) (List.mem_cons_of_mem _ (List.mem_reverse.mp hsig)) with
      | inl hnil => exact (h.sizes sig hkey).ne_nil hnil
      | inr hsel => exact hkeys sig hsel hkey
  have hoperands : multiSigOperands (multiSigState scriptPubKey m keys (sigs.reverse ++ [[]])) =
      some (keys.reverse, sigs.reverse, [[]], 1 + keys.length) := by
    have hread := @multiSigOperands_eq (multiSigState scriptPubKey m keys (sigs.reverse ++ [[]]))
      (vchOfBigNum keys.length) (vchOfBigNum m) [] keys.reverse sigs.reverse [] rfl
      (by rw [List.length_reverse]; exact castToBigNum_small h.few)
      (by rw [List.length_reverse, hsigs]; exact castToBigNum_small hm)
      (by rw [List.length_reverse, List.length_reverse, hsigs]; exact h.le)
      (by rw [List.length_reverse]; exact h.few.trans (by decide))
    have hops : ¬ (multiSigState scriptPubKey m keys (sigs.reverse ++ [[]])).nOpCount + keys.reverse.length > 201 := by
      have hfew := h.few
      rw [List.length_reverse, multiSigState]
      dsimp only
      omega
    rw [if_neg hops, List.length_reverse] at hread
    exact hread
  have hroom : (sigs.reverse ++ [[]]).length ≤ 900 := by
    rw [List.length_append, List.length_reverse, hsigs, List.length_singleton]
    omega
  rw [verifyScript, evalScript_merged hm hlen hsize, hpushes, hplain, Bool.and_false]
  dsimp only
  rw [Bool.not_false, Bool.true_or, Bool.and_true, evalsToTrue,
    evalScript_multiSig h.pos h.le h.few h.sizes h.parses h.length_le hroom, runCheckMultiSig_eq, hoperands,
    Option.bind_some]
  dsimp only
  rw [hcode]
  cases multiSigLoop p C txTo nIn flags.toEvalFlags scriptPubKey keys.reverse sigs.reverse with
  | none => simp
  | some fSuccess => cases fSuccess <;> simp [pushOrVerify, vchOfBool, vchTrue, vchFalse, castToBool, multiSigState]

/-- Without signatures nothing is accepted. -/
theorem verifyScript_nil (h : IsMultiSig scriptPubKey m keys) :
    verifyScript p C txTo nIn flags [] scriptPubKey = false := by
  have hempty : evalScript p C txTo nIn flags.toEvalFlags [] [] = some [] := rfl
  have hfew := h.few
  have hoperands : multiSigOperands (multiSigState scriptPubKey m keys []) = none := by
    rw [multiSigOperands, multiSigState]
    dsimp only
    rw [castToBigNum_small h.few, Option.bind_eq_bind, Option.bind_some, if_neg (by omega), Int.toNat_natCast,
      if_neg (by omega), List.drop_left' List.length_reverse]
    dsimp only
    rw [castToBigNum_small (h.le.trans h.few), Option.bind_eq_bind, Option.bind_some, Int.toNat_natCast,
      List.length_nil, if_pos (Nat.zero_le m)]
    split <;> rfl
  rw [verifyScript, hempty]
  dsimp only
  rw [evalsToTrue, evalScript_multiSig h.pos h.le h.few h.sizes h.parses h.length_le (Nat.zero_le _),
    runCheckMultiSig_eq, hoperands]
  rfl

/-- The keys with a signature are those for which one was selected. -/
theorem le_countP_iff (hdistinct : keys.Nodup) (signed : Bytes → Bool) :
    m ≤ keys.countP signed ↔
      ∃ l : List Bytes, l.Nodup ∧ m ≤ l.length ∧ ∀ key ∈ l, key ∈ keys ∧ signed key = true := by
  rw [List.countP_eq_length_filter]
  constructor
  · intro h
    exact ⟨keys.filter signed, hdistinct.filter _, h, fun key hkey => List.mem_filter.mp hkey⟩
  · intro h
    obtain ⟨l, hnodup, hlen, hl⟩ := h
    have hsub : l ⊆ keys.filter signed := fun key hkey => List.mem_filter.mpr (hl key hkey)
    exact hlen.trans (List.subperm_of_subset hnodup hsub).length_le

/-- Partial scriptSigs of a multisignature script give one script in whatever order and grouping they are combined.
Where the keys have an accepted encoding and `EvalScript` runs the scriptSigs to their ends, `VerifyScript` accepts
that script exactly if enough keys have signed. -/
theorem combineSignatures_collects (p : ChainParams) (C : ScriptCrypto) (txTo : CTransaction) (nIn : Nat)
    (flags : ScriptFlags) (scriptPubKey : CScript) (m : Nat) (keys : List Bytes) (scriptSigs : List CScript)
    (h : IsMultiSig scriptPubKey m keys) (hdistinct : keys.Nodup)
    (hpart : ∀ scriptSig ∈ scriptSigs,
      PartialScriptSig p C txTo nIn flags.toEvalFlags scriptPubKey keys scriptSig) :
    ∃ script,
      (∀ left right : Grouping CScript, (Grouping.join left right).leaves.Perm scriptSigs →
        (Grouping.join left right).eval (combineSignatures p C txTo nIn scriptPubKey) = script) ∧
      (∀ order : List CScript, order.Perm scriptSigs →
        order.foldl (combineSignatures p C txTo nIn scriptPubKey) [] = script) ∧
      ((∀ key ∈ keys, checkPubKeyEncoding key = true) →
        (∀ scriptSig ∈ scriptSigs, scriptSig.length ≤ 10000 ∧ scriptSig.pushes.length ≤ 1000) →
        (verifyScript p C txTo nIn flags script scriptPubKey = true ↔
          ∃ signed : List Bytes, signed.Nodup ∧ m ≤ signed.length ∧
            ∀ key ∈ signed, key ∈ keys ∧ HasSigned p C txTo nIn scriptPubKey scriptSigs key)) := by
  have hmerge := @selectingMerge p C txTo nIn scriptPubKey m keys h
  by_cases hnone : scriptSigs = []
  · apply Exists.intro []
    refine ⟨?_, ?_, ?_⟩
    · intro left right hperm
      rw [hnone] at hperm
      have hlen := hperm.length_eq
      exact absurd hlen (Grouping.leaves_length_pos _).ne'
    · intro order hperm
      rw [hnone] at hperm
      rw [hperm.eq_nil]
      rfl
    · intro _ _
      rw [verifyScript_nil h]
      constructor
      · exact fun h => nomatch h
      · intro hsigned
        obtain ⟨signed, -, hlen, hsigned⟩ := hsigned
        obtain ⟨key, hkey⟩ := List.exists_mem_of_length_pos (h.pos.trans hlen)
        obtain ⟨scriptSig, hmem, -⟩ := (hsigned key hkey).2
        rw [hnone] at hmem
        exact absurd hmem List.not_mem_nil
  have hgood : ∀ scriptSig ∈ scriptSigs, Mergeable p C txTo nIn scriptPubKey keys scriptSig :=
    fun scriptSig hmem => (hpart scriptSig hmem).mergeable
  let S := SelectingMerge.gather (pushedSigs p C) scriptSigs
  let sel := select (signsFor p C txTo nIn scriptPubKey) m keys S
  apply Exists.intro (mergedScript m sel)
  refine ⟨fun left right hperm => hmerge.eval_join left right hperm hgood,
    fun order hperm => hmerge.foldl_eq mergeable_nil pushedSigs_nil hperm hnone hgood, ?_⟩
  intro hkeys hlimits
  -- a selected signature was pushed
  have hpushed : ∀ sig, sig ∈ S ↔ ∃ scriptSig ∈ scriptSigs, sig ∈ scriptSig.pushes ∧ sig ≠ [] := by
    intro sig
    rw [SelectingMerge.mem_gather]
    apply exists_congr
    intro scriptSig
    apply and_congr_right
    intro hmem
    exact mem_pushedSigs_iff (hpart scriptSig hmem) (hlimits scriptSig hmem).1 (hlimits scriptSig hmem).2
  have hsel : ∀ sig ∈ sel, checkSignatureEncoding flags.toEvalFlags sig = true ∧ sig ∉ keys := by
    intro sig hsig
    obtain ⟨scriptSig, hmem, hpush, hne⟩ := (hpushed sig).mp (mem_select hsig).1
    exact ⟨(hpart scriptSig hmem).encoded sig hpush hne, (hpart scriptSig hmem).noKey sig hpush⟩
  have hsigned : ∀ key, HasSigned p C txTo nIn scriptPubKey scriptSigs key ↔
      (S.elems.any fun sig => signsFor p C txTo nIn scriptPubKey sig key) = true := by
    intro key
    rw [List.any_eq_true]
    constructor
    · intro hkey
      obtain ⟨scriptSig, hmem, sig, hpush, hvalid⟩ := hkey
      exact ⟨sig, (hpushed sig).mpr ⟨scriptSig, hmem, hpush, signsFor_ne_nil hvalid⟩, hvalid⟩
    · intro hkey
      obtain ⟨sig, hsig, hvalid⟩ := hkey
      obtain ⟨scriptSig, hmem, hpush, -⟩ := (hpushed sig).mp hsig
      exact ⟨scriptSig, hmem, sig, hpush, hvalid⟩
  have hlength : sel.length =
      min m (keys.countP fun key => S.elems.any fun sig => signsFor p C txTo nIn scriptPubKey sig key) :=
    select_length _ m keys S
  have hlen : sel.length ≤ m := select_length_le _ _
  rw [verifyScript_merged h hlen (fun sig hsig => checkSignatureEncoding_length (hsel sig hsig).1)
    fun sig hsig => (hsel sig hsig).2]
  simp only [hsigned]
  rw [← le_countP_iff hdistinct]
  constructor
  · intro hloop
    by_contra hfew
    -- a placeholder stands on top of the signatures
    have hmissing : m - sel.length = m - sel.length - 1 + 1 := by omega
    rw [hmissing, List.reverse_append, List.reverse_replicate, List.replicate_succ, List.cons_append] at hloop
    exact multiSigLoop_placeholder flags.toEvalFlags scriptPubKey keys.reverse _ hloop
  · intro henough
    have hfull : sel.length = m := hlength.trans (min_eq_left henough)
    have hmatch := SublistForall₂.reverse (select_sublistForall₂ (signsFor p C txTo nIn scriptPubKey) m keys S)
    rw [hfull, Nat.sub_self, List.replicate_zero, List.append_nil, multiSigLoop_greedy]
    · exact congrArg some ((greedyMatch_iff _ _ _).mpr hmatch)
    · exact fun key hkey => hkeys key (List.mem_reverse.mp hkey)
    · exact fun sig hsig => (hsel sig (List.mem_reverse.mp hsig)).1
    · rw [List.length_reverse, List.length_reverse, hfull]
      exact h.le

/-- A script that asks for one signature. -/
def samplePubKey (keys : List Bytes) : CScript :=
  OP_1 :: (keys.flatMap CScript.push ++ [CScript.encodeOP_N keys.length, OP_CHECKMULTISIG])

/-- A scriptSig that pushes the extra argument and some signatures. -/
def sampleScriptSig (sigs : List Bytes) : CScript := ([] :: sigs).flatMap CScript.push

instance (s : CScript) (items : List ScriptItem) : Decidable (s.ParsesAs items) := inferInstanceAs (Decidable (_ ∧ _))

instance (scriptPubKey : CScript) (keys : List Bytes) (sig : Bytes) :
    Decidable (SingleKey p C txTo nIn scriptPubKey keys sig) :=
  inferInstanceAs (Decidable (∀ key ∈ keys, ∀ key' ∈ keys, _ → _ → key = key'))

theorem samplePubKey_isMultiSig :
    IsMultiSig (samplePubKey [sampleKey 2, sampleKey 3]) 1 [sampleKey 2, sampleKey 3] where
  pos := by decide
  le := by decide
  few := by decide
  sizes := by decide
  parses := by decide +kernel

/-- The second of two keys signs, and the first scriptSig is still empty. -/
theorem combineSignatures_collects_sample :
    combineSignatures mainParams sampleCrypto sampleTx 0 (samplePubKey [sampleKey 2, sampleKey 3])
        (sampleScriptSig []) (sampleScriptSig [sampleSig]) =
      combineSignatures mainParams sampleCrypto sampleTx 0 (samplePubKey [sampleKey 2, sampleKey 3])
        (sampleScriptSig [sampleSig]) (sampleScriptSig []) ∧
    verifyScript mainParams sampleCrypto sampleTx 0 MANDATORY_SCRIPT_VERIFY_FLAGS
      (combineSignatures mainParams sampleCrypto sampleTx 0 (samplePubKey [sampleKey 2, sampleKey 3])
        (sampleScriptSig []) (sampleScriptSig [sampleSig])) (samplePubKey [sampleKey 2, sampleKey 3]) = true := by
  have hpart : ∀ scriptSig ∈ [sampleScriptSig [], sampleScriptSig [sampleSig]],
      PartialScriptSig mainParams sampleCrypto sampleTx 0 MANDATORY_SCRIPT_VERIFY_FLAGS.toEvalFlags
        (samplePubKey [sampleKey 2, sampleKey 3]) [sampleKey 2, sampleKey 3] scriptSig := by
    rw [List.forall_mem_cons, List.forall_mem_singleton]
    constructor
    · exact ⟨by decide +kernel, by decide +kernel, by decide +kernel, by decide +kernel⟩
    · exact ⟨by decide +kernel, by decide +kernel, by decide +kernel, by decide +kernel⟩
  obtain ⟨script, hgroup, -, hverify⟩ := combineSignatures_collects mainParams sampleCrypto sampleTx 0
    MANDATORY_SCRIPT_VERIFY_FLAGS (samplePubKey [sampleKey 2, sampleKey 3]) 1 [sampleKey 2, sampleKey 3]
    [sampleScriptSig [], sampleScriptSig [sampleSig]] samplePubKey_isMultiSig (by decide) hpart
  have hforth := hgroup (.single (sampleScriptSig [])) (.single (sampleScriptSig [sampleSig])) (List.Perm.refl _)
  have hback := hgroup (.single (sampleScriptSig [sampleSig])) (.single (sampleScriptSig [])) (List.Perm.swap _ _ _)
  rw [Grouping.eval, Grouping.eval, Grouping.eval] at hforth hback
  rw [hforth, hback]
  apply And.intro rfl
  apply (hverify (by decide) (by decide +kernel)).mpr
  refine ⟨[sampleKey 3], by decide, by decide, ?_⟩
  rw [List.forall_mem_singleton]
  exact ⟨by decide, sampleScriptSig [sampleSig], by decide, sampleSig, by decide +kernel, by decide +kernel⟩

/-- The header of a hybrid encoding, which `CheckSig` takes and `CheckPubKeyEncoding` does not. -/
def hybridKey : Bytes := 6 :: List.replicate 64 0

/-- Every signature is valid. -/
def trustingCrypto : ScriptCrypto := { sampleCrypto with verify := fun _ _ _ => true }

/-- A signature with a longer `R`. -/
def longerSig : Bytes := [0x30, 8, 2, 3, 1, 1, 1, 2, 1, 1, 1]

/-- More bytes than `EvalScript` runs. -/
def longPushes : List Bytes := List.replicate 1000 longerSig

/-- More pushes than the stack takes, with the signature behind them. -/
def manyPushes : List Bytes := List.replicate 1001 [] ++ [sampleSig]

/-- A partial scriptSig signs for the only key, and the script combined from it is not accepted. -/
def SignedButRejected (C : ScriptCrypto) (key : Bytes) (scriptSig : CScript) : Prop :=
  IsMultiSig (samplePubKey [key]) 1 [key] ∧
    PartialScriptSig mainParams C sampleTx 0 MANDATORY_SCRIPT_VERIFY_FLAGS.toEvalFlags (samplePubKey [key]) [key]
      scriptSig ∧
    HasSigned mainParams C sampleTx 0 (samplePubKey [key]) [scriptSig] key ∧
    verifyScript mainParams C sampleTx 0 MANDATORY_SCRIPT_VERIFY_FLAGS
      ([scriptSig].foldl (combineSignatures mainParams C sampleTx 0 (samplePubKey [key])) [])
      (samplePubKey [key]) = false

theorem pushes_eq {s : CScript} {sigs : List Bytes} (h : s.ParsesAs (sigs.map .vch)) : s.pushes = sigs := by
  rw [CScript.pushes]
  have hitems := h.1
  generalize (CScript.ops s).1 = ops at hitems
  clear h
  induction sigs generalizing ops with
  | nil => rw [List.map_eq_nil_iff.mp hitems]; rfl
  | cons sig sigs ih =>
    obtain ⟨op, ops, rfl, hitem, hitems⟩ := List.map_eq_cons_iff.mp hitems
    rw [List.map_cons, (ScriptOp.item_vch.mp hitem).2, ih ops hitems]

/-- Pushes that `EvalScript` does not come to are lost. -/
theorem signedButRejected_of_lost {sigs : List Bytes} (hsigs : ∀ sig ∈ sigs, sig ≠ [] →
      checkSignatureEncoding MANDATORY_SCRIPT_VERIFY_FLAGS.toEvalFlags sig = true)
    (hshort : sigs.length ≤ 2000) (hkeys : sampleKey 3 ∉ sigs) {sig : Bytes} (hsig : sig ∈ sigs)
    (hvalid : signsFor mainParams sampleCrypto sampleTx 0 (samplePubKey [sampleKey 3]) sig (sampleKey 3) = true)
    (hlost : (sigs.flatMap CScript.push).length > 10000 ∨ ∀ sig ∈ sigs.take 1001, sig = []) :
    SignedButRejected sampleCrypto (sampleKey 3) (sigs.flatMap CScript.push) := by
  have hsize : ∀ sig ∈ sigs, sig.length ≤ MAX_SCRIPT_ELEMENT_SIZE := by
    intro sig hsig
    by_cases hnil : sig = []
    · rw [hnil]
      exact Nat.zero_le _
    · exact checkSignatureEncoding_length (hsigs sig hsig hnil)
  have hparse := parsesAs_pushes hsize (by rw [MAX_SCRIPT_ELEMENT_SIZE]; omega)
  have hpushes := pushes_eq hparse
  have hscript : IsMultiSig (samplePubKey [sampleKey 3]) 1 [sampleKey 3] :=
    ⟨by decide, by decide, by decide, by decide, by decide +kernel⟩
  have hsingle : ∀ sig,
      SingleKey mainParams sampleCrypto sampleTx 0 (samplePubKey [sampleKey 3]) [sampleKey 3] sig := by
    intro sig key hkey key' hkey' _ _
    rw [List.mem_singleton.mp hkey, List.mem_singleton.mp hkey']
  refine ⟨hscript, ⟨by rw [hpushes]; exact hparse, by rw [hpushes]; exact hsigs, fun sig _ => hsingle sig, ?_⟩, ?_, ?_⟩
  · intro sig hsig hkey
    rw [hpushes] at hsig
    exact hkeys (List.mem_singleton.mp hkey ▸ hsig)
  · exact ⟨_, List.mem_cons_self, sig, by rw [hpushes]; exact hsig, hvalid⟩
  · have hempty : (pushedSigs mainParams sampleCrypto []).insertAll
        (pushedSigs mainParams sampleCrypto (sigs.flatMap CScript.push)).elems = OrderedSet.empty := by
      apply OrderedSet.ext_mem
      intro sig
      rw [OrderedSet.mem_insertAll, ← OrderedSet.mem_iff, or_iff_right (pushedSigs_nil sig), mem_pushedSigs,
        evalScriptStack_pushes hparse hsize]
      apply iff_of_false _ OrderedSet.not_mem_empty
      intro hleft
      by_cases hlong : (sigs.flatMap CScript.push).length > 10000
      · rw [if_pos hlong] at hleft
        exact absurd hleft.1 List.not_mem_nil
      · rw [if_neg hlong, List.mem_reverse] at hleft
        exact hleft.2 (hlost.resolve_left hlong sig hleft.1)
    rw [List.foldl_cons, List.foldl_nil, combineSignatures_eq hscript mergeable_nil
      ⟨sigs, hparse, hsize, fun sig _ => hsingle sig⟩, hempty]
    decide +kernel

/-- A key that only `CheckSig` takes; too many bytes; too many pushes. -/
theorem combineSignatures_rejected :
    SignedButRejected trustingCrypto hybridKey (sampleScriptSig [sampleSig]) ∧
      SignedButRejected sampleCrypto (sampleKey 3) (longPushes.flatMap CScript.push) ∧
      SignedButRejected sampleCrypto (sampleKey 3) (manyPushes.flatMap CScript.push) := by
  refine ⟨⟨⟨by decide, by decide, by decide, by decide, by decide +kernel⟩,
    ⟨by decide +kernel, by decide +kernel, by decide +kernel, by decide +kernel⟩, ?_, by decide +kernel⟩, ?_, ?_⟩
  · exact ⟨_, List.mem_cons_self, sampleSig, by decide +kernel, by decide +kernel⟩
  · have hall : ∀ sig ∈ longPushes, sig = longerSig := fun sig hsig => List.eq_of_mem_replicate hsig
    have hmem : longerSig ∈ longPushes := List.mem_replicate.mpr ⟨by decide, rfl⟩
    apply signedButRejected_of_lost _ _ _ hmem
    · decide +kernel
    · apply Or.inl
      rw [List.length_flatMap, longPushes, List.map_replicate, List.sum_replicate]
      decide
    · intro sig hsig _
      rw [hall sig hsig]
      decide +kernel
    · rw [longPushes, List.length_replicate]
      decide
    · intro hkey
      exact absurd (hall _ hkey) (by decide)
  · have hall : ∀ sig ∈ manyPushes, sig = [] ∨ sig = sampleSig := by
      intro sig hsig
      rw [manyPushes, List.mem_append, List.mem_singleton] at hsig
      exact hsig.imp_left List.eq_of_mem_replicate
    have hmem : sampleSig ∈ manyPushes := List.mem_append_right _ List.mem_cons_self
    apply signedButRejected_of_lost _ _ _ hmem
    · decide +kernel
    · apply Or.inr
      intro sig hsig
      rw [manyPushes, List.take_left' List.length_replicate] at hsig
      exact List.eq_of_mem_replicate hsig
    · intro sig hsig hne
      rw [(hall sig hsig).resolve_left hne]
      decide +kernel
    · rw [manyPushes, List.length_append, List.length_replicate]
      decide
    · intro hkey
      cases hall _ hkey with
      | inl h => exact absurd h (by decide)
      | inr h => exact absurd h (by decide)

end Verifying

end AliasWallet
