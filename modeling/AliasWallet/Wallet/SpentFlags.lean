import AliasWallet.Core.Block
import AliasWallet.Crypto.Concrete

/-!
# The spent flags of the wallet (`AddToWallet`, `WalletUpdateSpent`)

A transaction that enters the wallet marks the outputs it spends; one that is seen in a block clears
the flags of its own outputs.
-/

namespace AliasWallet
open Lib

/-- The fields that `AddToWallet` merges. -/
structure CWalletTx where
  tx : CTransaction
  hashBlock : UInt256
  vMerkleBranch : List UInt256
  nIndex : Int
  fFromMe : Bool
  vfSpent : List Bool
  deriving DecidableEq, Repr

namespace CWalletTx

variable (wtx : CWalletTx)

/-- `vfSpent.resize(vout.size())`. -/
def resized : List Bool :=
  (wtx.vfSpent ++ List.replicate (wtx.tx.vout.length - wtx.vfSpent.length) false).take wtx.tx.vout.length

/-- `UpdateSpent`, and whether any flag was set. Flags beyond the own ones are dropped. -/
def updateSpent (vfNewSpent : List Bool) : CWalletTx × Bool :=
  let vfSpent := wtx.vfSpent.zipIdx.map fun e => e.1 || (vfNewSpent[e.2]?).getD false
  ({ wtx with vfSpent }, vfSpent != wtx.vfSpent)

def markSpent (nOut : Nat) : CWalletTx := { wtx with vfSpent := wtx.resized.set nOut true }

def markUnspent (nOut : Nat) : CWalletTx := { wtx with vfSpent := wtx.resized.set nOut false }

def isSpent (nOut : Nat) : Bool := (wtx.vfSpent[nOut]?).getD false

@[simp] theorem tx_updateSpent (vfNewSpent : List Bool) : (wtx.updateSpent vfNewSpent).1.tx = wtx.tx := rfl

@[simp] theorem tx_markSpent (nOut : Nat) : (wtx.markSpent nOut).tx = wtx.tx := rfl

@[simp] theorem tx_markUnspent (nOut : Nat) : (wtx.markUnspent nOut).tx = wtx.tx := rfl

theorem length_resized : wtx.resized.length = wtx.tx.vout.length := by
  simp only [resized, List.length_take, List.length_append, List.length_replicate]
  omega

theorem getElem_resized {n : Nat} (hn : n < wtx.tx.vout.length) :
    (wtx.resized[n]?).getD false = wtx.isSpent n := by
  rw [resized, List.getElem?_take_of_lt hn, isSpent]
  by_cases hlen : n < wtx.vfSpent.length
  · rw [List.getElem?_append_left hlen]
  · rw [List.getElem?_append_right (by omega), List.getElem?_eq_none (by omega : wtx.vfSpent.length ≤ n),
      List.getElem?_replicate]
    split <;> rfl

theorem isSpent_updateSpent (vfNewSpent : List Bool) {n : Nat} (h : wtx.isSpent n = true) :
    (wtx.updateSpent vfNewSpent).1.isSpent n = true := by
  simp only [isSpent, updateSpent, List.getElem?_map, List.getElem?_zipIdx] at h ⊢
  cases hn : wtx.vfSpent[n]? with
  | none => simp [hn] at h
  | some f => simp_all

theorem isSpent_markSpent {nOut n : Nat} (hn : n < wtx.tx.vout.length) :
    (wtx.markSpent nOut).isSpent n = (decide (n = nOut) || wtx.isSpent n) := by
  rw [isSpent, markSpent, List.getElem?_set]
  by_cases h : nOut = n
  · subst h
    simp [length_resized, hn]
  · rw [if_neg h, getElem_resized wtx hn]
    simp [Ne.symm h]

theorem isSpent_markUnspent {nOut n : Nat} (hn : n < wtx.tx.vout.length) :
    (wtx.markUnspent nOut).isSpent n = (!decide (n = nOut) && wtx.isSpent n) := by
  rw [isSpent, markUnspent, List.getElem?_set]
  by_cases h : nOut = n
  · subst h
    simp [length_resized, hn]
  · rw [if_neg h, getElem_resized wtx hn]
    simp [Ne.symm h]

end CWalletTx

abbrev MapWallet := UInt256 → Option CWalletTx

section Update

variable (isMine : CTxOut → Bool)

/-- One input in the first loop of `WalletUpdateSpent`. -/
def markInput (tx : CTransaction) (mapWallet : MapWallet) (txin : CTxIn) : MapWallet :=
  if tx.skipsInput txin then mapWallet
  else
    match mapWallet txin.prevout.hash with
    | none => mapWallet
    | some wtx =>
      match wtx.tx.vout[txin.prevout.n.toNat]? with
      | none => mapWallet
      | some txout =>
        if !wtx.isSpent txin.prevout.n.toNat && isMine txout then
          Function.update mapWallet txin.prevout.hash (some (wtx.markSpent txin.prevout.n.toNat))
        else mapWallet

/-- An own output that the wallet flags. -/
def CTransaction.flagsOutput (tx : CTransaction) (txout : CTxOut) : Bool :=
  !(tx.nVersion == ANON_TXN_VERSION && txout.isAnonOutput) && isMine txout

/-- The second loop of `WalletUpdateSpent`, on the entry of the transaction. -/
def clearOutputs (tx : CTransaction) (wtx : CWalletTx) : CWalletTx :=
  tx.vout.zipIdx.foldl (fun wtx e => if tx.flagsOutput isMine e.1 then wtx.markUnspent e.2 else wtx) wtx

/-- `WalletUpdateSpent`. -/
def walletUpdateSpent (mapWallet : MapWallet) (hash : UInt256) (tx : CTransaction) (fBlock : Bool) :
    MapWallet :=
  let mapWallet := tx.vin.foldl (markInput isMine tx) mapWallet
  if fBlock then Function.update mapWallet hash ((mapWallet hash).map (clearOutputs isMine tx))
  else mapWallet

/-- The merge of a transaction that the wallet has, and whether it changed. -/
def mergeWalletTx (wtx wtxIn : CWalletTx) : CWalletTx × Bool :=
  let fBlock := decide (wtxIn.hashBlock ≠ 0 ∧ wtxIn.hashBlock ≠ wtx.hashBlock)
  let fBranch := decide (wtxIn.nIndex ≠ -1 ∧
    (wtxIn.vMerkleBranch ≠ wtx.vMerkleBranch ∨ wtxIn.nIndex ≠ wtx.nIndex))
  let fMe := wtxIn.fFromMe && wtxIn.fFromMe != wtx.fFromMe
  let wtx := { wtx with
    hashBlock := if fBlock then wtxIn.hashBlock else wtx.hashBlock
    vMerkleBranch := if fBranch then wtxIn.vMerkleBranch else wtx.vMerkleBranch
    nIndex := if fBranch then wtxIn.nIndex else wtx.nIndex
    fFromMe := wtx.fFromMe || wtxIn.fFromMe }
  let (wtx, fSpent) := wtx.updateSpent wtxIn.vfSpent
  (wtx, fBlock || fBranch || fMe || fSpent)

/-- A call of `AddToWallet`: the transaction, its hash, and whether `WriteToDisk` succeeds. -/
structure WalletCallTx where
  wtxIn : CWalletTx
  hashIn : UInt256
  fWritten : Bool
  deriving DecidableEq, Repr

/-- The entry after the insertion or the merge, and whether it has to be written. -/
def insertWalletTx (mapWallet : MapWallet) (wtxIn : CWalletTx) (hashIn : UInt256) : CWalletTx × Bool :=
  match mapWallet hashIn with
  | none => (wtxIn, true)
  | some wtx => mergeWalletTx wtx wtxIn

/-- `AddToWallet`: its result and the wallet. The times and the position of a new entry are left out. -/
def addToWallet (mapWallet : MapWallet) (call : WalletCallTx) : Bool × MapWallet :=
  let inserted := insertWalletTx mapWallet call.wtxIn call.hashIn
  let mapWallet := Function.update mapWallet call.hashIn (some inserted.1)
  if inserted.2 && !call.fWritten then (false, mapWallet)
  else (true, walletUpdateSpent isMine mapWallet call.hashIn inserted.1.tx (call.wtxIn.hashBlock != 0))

end Update

section Flags

variable (isMine : CTxOut → Bool)

/-- The transaction has the output as a transparent input. -/
def CTransaction.consumes (tx : CTransaction) (hash : UInt256) (n : Nat) : Prop :=
  ∃ txin ∈ tx.vin, tx.skipsInput txin = false ∧ txin.prevout.hash = hash ∧ txin.prevout.n.toNat = n

/-- The output is transparent and belongs to the wallet. -/
def CTransaction.owns (tx : CTransaction) (n : Nat) : Prop :=
  ∃ txout, tx.vout[n]? = some txout ∧ tx.flagsOutput isMine txout = true

theorem CTransaction.owns.lt {tx : CTransaction} {n : Nat} (h : tx.owns isMine n) : n < tx.vout.length := by
  obtain ⟨txout, hout, -⟩ := h
  exact (List.getElem?_eq_some_iff.mp hout).1

/-- Each own output that is an input of a transaction in the wallet is marked spent. -/
def FlagsKept (mapWallet : MapWallet) : Prop :=
  ∀ hash wtx hash' wtx' n, mapWallet hash = some wtx → mapWallet hash' = some wtx' →
    wtx'.tx.consumes hash n → wtx.tx.owns isMine n → wtx.isSpent n = true

/-- The same transactions, with no flag of an output lost. -/
structure FlagsGrow (m m' : MapWallet) : Prop where
  same : ∀ hash, (m' hash).map CWalletTx.tx = (m hash).map CWalletTx.tx
  kept : ∀ hash wtx wtx' n, m hash = some wtx → m' hash = some wtx' → n < wtx.tx.vout.length →
    wtx.isSpent n = true → wtx'.isSpent n = true

theorem FlagsGrow.refl (m : MapWallet) : FlagsGrow m m where
  same _ := rfl
  kept hash wtx wtx' n h h' _ hspent := by
    rw [h, Option.some.injEq] at h'
    rwa [← h']

/-- The entry behind a transaction that the wallet has. -/
theorem FlagsGrow.entry {m m' : MapWallet} (h : FlagsGrow m m') {hash : UInt256} {wtx' : CWalletTx}
    (h' : m' hash = some wtx') : ∃ wtx, m hash = some wtx ∧ wtx.tx = wtx'.tx := by
  have hsame := h.same hash
  rw [h', Option.map_some] at hsame
  exact Option.map_eq_some_iff.mp hsame.symm

theorem FlagsGrow.trans {m m' m'' : MapWallet} (h : FlagsGrow m m') (h' : FlagsGrow m' m'') :
    FlagsGrow m m'' where
  same hash := (h'.same hash).trans (h.same hash)
  kept hash wtx wtx'' n hm hm'' hn hspent := by
    obtain ⟨wtx', hm', -⟩ := h'.entry hm''
    have htx : wtx'.tx = wtx.tx := by
      have hsame := h.same hash
      rw [hm, hm'] at hsame
      simpa using hsame
    have hmid := h.kept hash wtx wtx' n hm hm' hn hspent
    exact h'.kept hash wtx' wtx'' n hm' hm'' (htx ▸ hn) hmid

/-- One input leaves the wallet, having nothing to mark, or marks the output that it spends. -/
theorem markInput_cases (tx : CTransaction) (m : MapWallet) (txin : CTxIn) :
    (markInput isMine tx m txin = m ∧
      (tx.skipsInput txin = false → ∀ wtx, m txin.prevout.hash = some wtx →
        wtx.tx.owns isMine txin.prevout.n.toNat → wtx.isSpent txin.prevout.n.toNat = true)) ∨
    ∃ wtx, m txin.prevout.hash = some wtx ∧ txin.prevout.n.toNat < wtx.tx.vout.length ∧
      markInput isMine tx m txin =
        Function.update m txin.prevout.hash (some (wtx.markSpent txin.prevout.n.toNat)) := by
  cases hskip : tx.skipsInput txin with
  | true => exact .inl (by simp [markInput, hskip])
  | false =>
    cases hwtx : m txin.prevout.hash with
    | none => exact .inl (by simp [markInput, hskip, hwtx])
    | some wtx =>
      cases hout : wtx.tx.vout[txin.prevout.n.toNat]? with
      | none =>
        refine .inl ⟨by simp [markInput, hskip, hwtx, hout], ?_⟩
        intro _ wtx' hsome howns
        obtain rfl := Option.some.inj hsome
        have hlt := howns.lt
        rw [List.getElem?_eq_none_iff] at hout
        omega
      | some txout =>
        cases hmark : !wtx.isSpent txin.prevout.n.toNat && isMine txout with
        | true =>
          exact .inr ⟨wtx, rfl, (List.getElem?_eq_some_iff.mp hout).1,
            by simp only [markInput, hskip, hwtx, hout, hmark, if_true, Bool.false_eq_true, if_false]⟩
        | false =>
          refine .inl ⟨by simp only [markInput, hskip, hwtx, hout, hmark, Bool.false_eq_true, if_false], ?_⟩
          intro _ wtx' hsome howns
          obtain rfl := Option.some.inj hsome
          obtain ⟨txout', hout', hflags⟩ := howns
          rw [hout, Option.some.injEq] at hout'
          subst hout'
          simp only [CTransaction.flagsOutput, Bool.and_eq_true] at hflags
          simpa [hflags.2] using hmark

theorem FlagsGrow.markSpent {m : MapWallet} {hash : UInt256} {wtx : CWalletTx} (hwtx : m hash = some wtx)
    (nOut : Nat) : FlagsGrow m (Function.update m hash (some (wtx.markSpent nOut))) where
  same hash' := by
    by_cases hh : hash' = hash
    · subst hh
      simp [hwtx]
    · rw [Function.update_of_ne hh]
  kept hash' wtx₁ wtx₂ n h₁ h₂ hn hspent := by
    by_cases hh : hash' = hash
    · subst hh
      rw [hwtx, Option.some.injEq] at h₁
      rw [Function.update_self, Option.some.injEq] at h₂
      subst h₁ h₂
      rw [CWalletTx.isSpent_markSpent wtx hn, hspent, Bool.or_true]
    · rw [Function.update_of_ne hh, h₁, Option.some.injEq] at h₂
      rwa [← h₂]

/-- One input: flags grow, and the output it spends is marked. -/
theorem markInput_spec (tx : CTransaction) (m : MapWallet) (txin : CTxIn) :
    FlagsGrow m (markInput isMine tx m txin) ∧
      (tx.skipsInput txin = false → ∀ wtx, markInput isMine tx m txin txin.prevout.hash = some wtx →
        wtx.tx.owns isMine txin.prevout.n.toNat → wtx.isSpent txin.prevout.n.toNat = true) := by
  obtain ⟨heq, hspent⟩ | ⟨wtx, hwtx, hlt, heq⟩ := markInput_cases isMine tx m txin
  · rw [heq]
    exact ⟨FlagsGrow.refl m, hspent⟩
  · rw [heq]
    refine ⟨FlagsGrow.markSpent hwtx _, ?_⟩
    intro _ wtx' hwtx' _
    rw [Function.update_self, Option.some.injEq] at hwtx'
    rw [← hwtx', CWalletTx.isSpent_markSpent wtx hlt]
    simp

/-- All inputs: flags grow, and every own output that the transaction spends is marked. -/
theorem markInputs_spec (tx : CTransaction) (vin : List CTxIn) (m : MapWallet) :
    FlagsGrow m (vin.foldl (markInput isMine tx) m) ∧
      ∀ txin ∈ vin, tx.skipsInput txin = false → ∀ wtx,
        vin.foldl (markInput isMine tx) m txin.prevout.hash = some wtx →
        wtx.tx.owns isMine txin.prevout.n.toNat → wtx.isSpent txin.prevout.n.toNat = true := by
  induction vin generalizing m with
  | nil => exact ⟨FlagsGrow.refl m, by simp⟩
  | cons txin vin ih =>
    obtain ⟨hgrow, hmark⟩ := markInput_spec isMine tx m txin
    obtain ⟨hgrow', hmark'⟩ := ih (markInput isMine tx m txin)
    rw [List.foldl_cons]
    refine ⟨hgrow.trans hgrow', ?_⟩
    intro txin' hmem hskip wtx hwtx howns
    rcases List.mem_cons.mp hmem with rfl | hmem
    · -- marked in this round, and kept by the later ones
      obtain ⟨wtx₀, hwtx₀, htx⟩ := hgrow'.entry hwtx
      rw [← htx] at howns
      exact hgrow'.kept _ wtx₀ wtx _ hwtx₀ hwtx howns.lt (hmark hskip wtx₀ hwtx₀ howns)
    · exact hmark' txin' hmem hskip wtx hwtx howns

theorem FlagsGrow.flagsKept {m m' : MapWallet} (h : FlagsGrow m m') (hm : FlagsKept isMine m) :
    FlagsKept isMine m' := by
  intro hash wtx hash' wtx' n hwtx hwtx' hconsumes howns
  obtain ⟨wtx₀, hwtx₀, htx⟩ := h.entry hwtx
  obtain ⟨wtx₀', hwtx₀', htx'⟩ := h.entry hwtx'
  rw [← htx] at howns
  rw [← htx'] at hconsumes
  exact h.kept hash wtx₀ wtx n hwtx₀ hwtx howns.lt (hm hash wtx₀ hash' wtx₀' n hwtx₀ hwtx₀' hconsumes howns)

theorem tx_clearOutputs (tx : CTransaction) (wtx : CWalletTx) : (clearOutputs isMine tx wtx).tx = wtx.tx := by
  unfold clearOutputs
  generalize tx.vout.zipIdx = l
  induction l generalizing wtx with
  | nil => rfl
  | cons e l ih =>
    rw [List.foldl_cons, ih]
    split <;> rfl

/-- The merge of a known transaction keeps its flags. -/
theorem FlagsGrow.merge {m : MapWallet} {hash : UInt256} {wtx : CWalletTx} (hwtx : m hash = some wtx)
    (wtxIn : CWalletTx) : FlagsGrow m (Function.update m hash (some (mergeWalletTx wtx wtxIn).1)) where
  same hash' := by
    by_cases hh : hash' = hash
    · subst hh
      simp [hwtx, mergeWalletTx]
    · rw [Function.update_of_ne hh]
  kept hash' wtx₁ wtx₂ n h₁ h₂ _ hspent := by
    by_cases hh : hash' = hash
    · subst hh
      rw [hwtx, Option.some.injEq] at h₁
      rw [Function.update_self, Option.some.injEq] at h₂
      subst h₁ h₂
      exact CWalletTx.isSpent_updateSpent _ wtxIn.vfSpent hspent
    · rw [Function.update_of_ne hh, h₁, Option.some.injEq] at h₂
      rwa [← h₂]

/-- When a call keeps the flags: a new transaction is written to disk and arrives with the flags of the
outputs that the wallet sees spent, and a transaction seen in a block has no such outputs. -/
structure CallKeeps (m : MapWallet) (call : WalletCallTx) : Prop where
  written : m call.hashIn = none → call.fWritten = true
  inserted : m call.hashIn = none → ∀ n, call.wtxIn.tx.owns isMine n → ∀ hash' wtx', m hash' = some wtx' →
    wtx'.tx.consumes call.hashIn n → call.wtxIn.isSpent n = true
  confirmed : call.wtxIn.hashBlock ≠ 0 → ∀ n,
    (insertWalletTx m call.wtxIn call.hashIn).1.tx.owns isMine n →
    ¬ (insertWalletTx m call.wtxIn call.hashIn).1.tx.consumes call.hashIn n ∧
      ∀ hash' wtx', m hash' = some wtx' → ¬ wtx'.tx.consumes call.hashIn n

/-- The flags for all spenders but one. -/
def FlagsKeptBut (hashIn : UInt256) (m : MapWallet) : Prop :=
  ∀ hash wtx hash' wtx' n, hash' ≠ hashIn → m hash = some wtx → m hash' = some wtx' →
    wtx'.tx.consumes hash n → wtx.tx.owns isMine n → wtx.isSpent n = true

/-- The insertion or merge leaves at most the flags for the spends of the transaction itself open. -/
theorem insertWalletTx_keeps {m : MapWallet} (hm : FlagsKept isMine m) {call : WalletCallTx}
    (hcall : CallKeeps isMine m call) :
    FlagsKeptBut isMine call.hashIn
      (Function.update m call.hashIn (some (insertWalletTx m call.wtxIn call.hashIn).1)) := by
  cases hknown : m call.hashIn with
  | some wtx =>
    have hgrow := (FlagsGrow.merge hknown call.wtxIn).flagsKept isMine hm
    simp only [insertWalletTx, hknown]
    intro hash wtx₁ hash' wtx₂ n _
    exact hgrow hash wtx₁ hash' wtx₂ n
  | none =>
    simp only [insertWalletTx, hknown]
    intro hash wtx hash' wtx' n hne hwtx hwtx' hconsumes howns
    rw [Function.update_of_ne hne] at hwtx'
    by_cases hh : hash = call.hashIn
    · subst hh
      rw [Function.update_self, Option.some.injEq] at hwtx
      subst hwtx
      exact hcall.inserted hknown n howns hash' wtx' hwtx' hconsumes
    · rw [Function.update_of_ne hh] at hwtx
      exact hm hash wtx hash' wtx' n hwtx hwtx' hconsumes howns

/-- The first loop closes these. -/
theorem markInputs_keeps {m : MapWallet} {hashIn : UInt256} {wtx : CWalletTx} (hwtx : m hashIn = some wtx)
    (hm : FlagsKeptBut isMine hashIn m) :
    FlagsKept isMine (wtx.tx.vin.foldl (markInput isMine wtx.tx) m) := by
  obtain ⟨hgrow, hmarked⟩ := markInputs_spec isMine wtx.tx wtx.tx.vin m
  intro hash wtx₁ hash' wtx₂ n h₁ h₂ hconsumes howns
  obtain ⟨wtx₁', h₁', htx₁⟩ := hgrow.entry h₁
  obtain ⟨wtx₂', h₂', htx₂⟩ := hgrow.entry h₂
  by_cases hself : hash' = hashIn
  · subst hself
    rw [hwtx, Option.some.injEq] at h₂'
    subst h₂'
    rw [← htx₂] at hconsumes
    obtain ⟨txin, hmem, hskip, rfl, rfl⟩ := hconsumes
    exact hmarked txin hmem hskip wtx₁ h₁ howns
  · rw [← htx₁] at howns
    rw [← htx₂] at hconsumes
    exact hgrow.kept hash wtx₁' wtx₁ n h₁' h₁ howns.lt
      (hm hash wtx₁' hash' wtx₂' n hself h₁' h₂' hconsumes howns)

/-- The second loop loses no flag that counts where no transaction spends the outputs it clears. -/
theorem clearOutputs_keeps {m : MapWallet} (hm : FlagsKept isMine m) (hashIn : UInt256) (tx : CTransaction)
    (hfree : ∀ wtx hash' wtx' n, m hashIn = some wtx → m hash' = some wtx' → wtx.tx.owns isMine n →
      ¬ wtx'.tx.consumes hashIn n) :
    FlagsKept isMine (Function.update m hashIn ((m hashIn).map (clearOutputs isMine tx))) := by
  have hentry : ∀ {hash wtx}, Function.update m hashIn ((m hashIn).map (clearOutputs isMine tx)) hash = some wtx →
      ∃ wtx₀, m hash = some wtx₀ ∧ wtx₀.tx = wtx.tx ∧ (hash ≠ hashIn → wtx₀ = wtx) := by
    intro hash wtx h
    by_cases hh : hash = hashIn
    · subst hh
      rw [Function.update_self, Option.map_eq_some_iff] at h
      obtain ⟨wtx₀, hwtx₀, rfl⟩ := h
      exact ⟨wtx₀, hwtx₀, (tx_clearOutputs isMine tx wtx₀).symm, fun hne => absurd rfl hne⟩
    · rw [Function.update_of_ne hh] at h
      exact ⟨wtx, h, rfl, fun _ => rfl⟩
  intro hash wtx hash' wtx' n hwtx hwtx' hconsumes howns
  obtain ⟨wtx₀, hwtx₀, htx, hsame⟩ := hentry hwtx
  obtain ⟨wtx₀', hwtx₀', htx', -⟩ := hentry hwtx'
  rw [← htx] at howns
  rw [← htx'] at hconsumes
  by_cases hh : hash = hashIn
  · subst hh
    exact absurd hconsumes (hfree wtx₀ hash' wtx₀' n hwtx₀ hwtx₀' howns)
  · rw [← hsame hh]
    exact hm hash wtx₀ hash' wtx₀' n hwtx₀ hwtx₀' hconsumes howns

/-- One call. -/
theorem addToWallet_keeps {m : MapWallet} (hm : FlagsKept isMine m) {call : WalletCallTx}
    (hcall : CallKeeps isMine m call) : FlagsKept isMine (addToWallet isMine m call).2 := by
  have hbut := insertWalletTx_keeps isMine hm hcall
  rw [addToWallet]
  split
  · -- a record that is not written belongs to a known transaction
    rename_i hfailed
    cases hknown : m call.hashIn with
    | none => simp [hcall.written hknown] at hfailed
    | some wtx =>
      have hgrow := (FlagsGrow.merge hknown call.wtxIn).flagsKept isMine hm
      simpa only [insertWalletTx, hknown] using hgrow
  · have hkept := markInputs_keeps isMine (Function.update_self call.hashIn _ m) hbut
    simp only [walletUpdateSpent]
    split
    · rename_i hblock
      have hconfirmed := hcall.confirmed (by simpa using hblock)
      apply clearOutputs_keeps isMine hkept
      -- the loop over the inputs changes no transaction
      have hgrow := (markInputs_spec isMine (insertWalletTx m call.wtxIn call.hashIn).1.tx
        (insertWalletTx m call.wtxIn call.hashIn).1.tx.vin
        (Function.update m call.hashIn (some (insertWalletTx m call.wtxIn call.hashIn).1))).1
      intro wtx hash' wtx' n hwtx hwtx' howns hconsumes
      obtain ⟨wtx₀, hwtx₀, htx⟩ := hgrow.entry hwtx
      obtain ⟨wtx₀', hwtx₀', htx'⟩ := hgrow.entry hwtx'
      rw [Function.update_self, Option.some.injEq] at hwtx₀
      rw [← htx, ← hwtx₀] at howns
      rw [← htx'] at hconsumes
      by_cases hh : hash' = call.hashIn
      · subst hh
        rw [Function.update_self, Option.some.injEq] at hwtx₀'
        rw [← hwtx₀'] at hconsumes
        exact (hconfirmed n howns).1 hconsumes
      · rw [Function.update_of_ne hh] at hwtx₀'
        exact (hconfirmed n howns).2 hash' wtx₀' hwtx₀' hconsumes
    · exact hkept

/-- The wallet after a sequence of calls. -/
def walletRun (m : MapWallet) (calls : List WalletCallTx) : MapWallet :=
  calls.foldl (fun m call => (addToWallet isMine m call).2) m

/-- Every call of the sequence keeps the flags in the state in which it is made. -/
def CallsKeep : MapWallet → List WalletCallTx → Prop
  | _, [] => True
  | m, call :: calls => CallKeeps isMine m call ∧ CallsKeep (addToWallet isMine m call).2 calls

/-- No run of such calls loses a spent flag. -/
theorem spentFlags_kept (m : MapWallet) (hm : FlagsKept isMine m) (calls : List WalletCallTx)
    (hcalls : CallsKeep isMine m calls) (pre post : List WalletCallTx) (hsplit : calls = pre ++ post) :
    FlagsKept isMine (walletRun isMine m pre) := by
  induction pre generalizing m calls with
  | nil => exact hm
  | cons call pre ih =>
    subst hsplit
    exact ih _ (addToWallet_keeps isMine hm hcalls.1) (pre ++ post) hcalls.2 rfl

theorem flagsKept_empty : FlagsKept isMine (fun _ => none) := by
  intro hash wtx hash' wtx' n hwtx
  cases hwtx

end Flags

section Scene

/-- The scripts of a wallet with one key. -/
def oneScript (txout : CTxOut) : Bool := txout.scriptPubKey == [0x51]

def parentTx : CTransaction where
  nVersion := 1
  nTime := 1530000000
  vin := [⟨⟨1, 0⟩, [], 0xFFFFFFFF⟩]
  vout := [⟨COIN, [0x51]⟩]
  nLockTime := 0

def parentHash : UInt256 := parentTx.getHash sha256d

/-- A spend of the parent to another wallet. -/
def childTx : CTransaction where
  nVersion := 1
  nTime := 1530000000
  vin := [⟨⟨parentHash, 0⟩, [], 0xFFFFFFFF⟩]
  vout := [⟨COIN - 10000, [0x52]⟩]
  nLockTime := 0

def childHash : UInt256 := childTx.getHash sha256d

def walletCall (tx : CTransaction) (hash hashBlock : UInt256) : WalletCallTx :=
  ⟨⟨tx, hashBlock, [], -1, true, []⟩, hash, true⟩

/-- The parent confirmed, then spent. -/
theorem confirmedFirst_flagged :
    FlagsKept oneScript (walletRun oneScript (fun _ => none)
      [walletCall parentTx parentHash 7, walletCall childTx childHash 0]) := by
  have hself : ∀ n, ¬ parentTx.consumes parentHash n := by
    rintro n ⟨txin, hmem, -, hhash, -⟩
    have hone : txin.prevout.hash = 1 := by
      rw [List.mem_singleton.mp hmem]
    rw [hone] at hhash
    exact absurd hhash (by decide +kernel)
  have hforeign : ∀ n, ¬ childTx.owns oneScript n := by
    rintro n ⟨txout, hout, hmine⟩
    have hmem := List.mem_of_getElem? hout
    rw [List.mem_singleton.mp hmem] at hmine
    exact absurd hmine (by decide)
  apply spentFlags_kept oneScript (fun _ => none) (flagsKept_empty oneScript)
    [walletCall parentTx parentHash 7, walletCall childTx childHash 0] _ _ [] rfl
  refine ⟨⟨fun _ => rfl, ?_, ?_⟩, ⟨fun _ => rfl, ?_, ?_⟩, trivial⟩
  · intro _ n _ hash' wtx' hwtx'
    cases hwtx'
  · intro _ n _
    exact ⟨hself n, fun hash' wtx' hwtx' => by cases hwtx'⟩
  · intro _ n howns
    exact absurd howns (hforeign n)
  · intro hblock
    exact absurd rfl hblock

/-- The parent spent, then confirmed: the flag is gone while the child stays in the wallet. -/
theorem confirmedLater_lost :
    ¬ FlagsKept oneScript (walletRun oneScript (fun _ => none)
      [walletCall parentTx parentHash 0, walletCall childTx childHash 0, walletCall parentTx parentHash 7]) := by
  intro h
  have hparent : ((walletRun oneScript (fun _ => none) [walletCall parentTx parentHash 0,
      walletCall childTx childHash 0, walletCall parentTx parentHash 7]) parentHash).map
        (fun wtx => (wtx.tx, wtx.isSpent 0)) = some (parentTx, false) := by
    decide +kernel
  have hchild : ((walletRun oneScript (fun _ => none) [walletCall parentTx parentHash 0,
      walletCall childTx childHash 0, walletCall parentTx parentHash 7]) childHash).map CWalletTx.tx =
        some childTx := by
    decide +kernel
  obtain ⟨wtx, hwtx, htx⟩ := Option.map_eq_some_iff.mp hparent
  obtain ⟨wtx', hwtx', htx'⟩ := Option.map_eq_some_iff.mp hchild
  obtain ⟨htx, hspent⟩ := Prod.mk.inj htx
  have hlost := h parentHash wtx childHash wtx' 0 hwtx hwtx'
    (by rw [htx']; exact ⟨⟨⟨parentHash, 0⟩, [], 0xFFFFFFFF⟩, List.mem_singleton.mpr rfl, rfl, rfl, rfl⟩)
    (by rw [htx]; exact ⟨⟨COIN, [0x51]⟩, rfl, rfl⟩)
  rw [hspent] at hlost
  cases hlost

end Scene

end AliasWallet
