import AliasWallet.Wallet.SpentFlags

/-!
# The cached balances of a wallet transaction (`CWalletTx::GetAvailableCredit`)

A query stores the sum that it computes. What changes the spent flags has to drop it.
-/

namespace AliasWallet

/-- The two cached balances, and whether each of them counts. -/
structure CachedTx where
  wtx : CWalletTx
  fAvailableCreditCached : Bool
  nAvailableCreditCached : Int64
  fAvailableSpectreCreditCached : Bool
  nAvailableSpectreCreditCached : Int64

/-- What the queries read beside the transaction: its depth, and what its outputs are worth to the wallet. Null is an
exception. -/
structure CreditView where
  /-- `(IsCoinBase() || IsCoinStake()) && GetBlocksToMaturity() > 0`. -/
  isImmature : Bool
  nDepth : Int
  getCredit : CTxOut → Option Int64
  getSpectreCredit : CTxOut → Option Int64

/-- `Init`. -/
def CachedTx.init (tx : CTransaction) : CachedTx := ⟨⟨tx, 0, [], -1, false, []⟩, false, 0, false, 0⟩

/-- An output in the loop; null is an exception. -/
def addUnspent (credit : CTxOut → Option Int64) (wtx : CWalletTx) (nCredit : Int64) (e : CTxOut × Nat) :
    Option Int64 :=
  if wtx.isSpent e.2 then some nCredit
  else do
    let n ← credit e.1
    if moneyRange (nCredit + n) then some (nCredit + n) else none

/-- The loop over the outputs that are not spent. -/
def sumUnspent (credit : CTxOut → Option Int64) (wtx : CWalletTx) : Option Int64 :=
  wtx.tx.vout.zipIdx.foldlM (addUnspent credit wtx) 0

namespace CachedTx

variable (v : CreditView) (c : CachedTx)

/-- `UpdateSpent`. -/
def updateSpent (vfNewSpent : List Bool) : CachedTx :=
  let (wtx, fReturn) := c.wtx.updateSpent vfNewSpent
  if fReturn then { c with wtx, fAvailableCreditCached := false, fAvailableSpectreCreditCached := false }
  else { c with wtx }

/-- `MarkDirty`. -/
def markDirty : CachedTx := { c with fAvailableCreditCached := false, fAvailableSpectreCreditCached := false }

/-- `MarkSpent`; null is an exception. -/
def markSpent (nOut : Nat) : Option CachedTx :=
  if nOut ≥ c.wtx.tx.vout.length then none
  else if c.wtx.isSpent nOut then some { c with wtx := { c.wtx with vfSpent := c.wtx.resized } }
  else some { c with wtx := c.wtx.markSpent nOut, fAvailableCreditCached := false }

/-- `MarkUnspent`; null is an exception. -/
def markUnspent (nOut : Nat) : Option CachedTx :=
  if nOut ≥ c.wtx.tx.vout.length then none
  else if c.wtx.isSpent nOut then some { c with wtx := c.wtx.markUnspent nOut, fAvailableCreditCached := false }
  else some { c with wtx := { c.wtx with vfSpent := c.wtx.resized } }

/-- `GetAvailableCredit`; null is an exception. -/
def getAvailableCredit (fUseCache : Bool) : Option (Int64 × CachedTx) :=
  if v.isImmature then some (0, c)
  else if fUseCache && c.fAvailableCreditCached then some (c.nAvailableCreditCached, c)
  else (sumUnspent v.getCredit c.wtx).map fun nCredit =>
    (nCredit, { c with nAvailableCreditCached := nCredit, fAvailableCreditCached := true })

/-- `GetAvailableSpectreCredit`; null is an exception. -/
def getAvailableSpectreCredit (fUseCache : Bool) : Option (Int64 × CachedTx) :=
  if v.isImmature then some (0, c)
  else if v.nDepth < MIN_ANON_SPEND_DEPTH then some (0, c)
  else if fUseCache && c.fAvailableSpectreCreditCached then some (c.nAvailableSpectreCreditCached, c)
  else (sumUnspent v.getSpectreCredit c.wtx).map fun nCredit =>
    (nCredit, { c with nAvailableSpectreCreditCached := nCredit, fAvailableSpectreCreditCached := true })

end CachedTx

inductive CreditCall
  | updateSpent (vfNewSpent : List Bool)
  | markDirty
  | markSpent (nOut : Nat)
  | markUnspent (nOut : Nat)
  | getAvailableCredit (fUseCache : Bool)
  | getAvailableSpectreCredit (fUseCache : Bool)

/-- A call; one that throws leaves everything as it is. -/
def CachedTx.step (v : CreditView) (c : CachedTx) : CreditCall → CachedTx
  | .updateSpent vfNewSpent => c.updateSpent vfNewSpent
  | .markDirty => c.markDirty
  | .markSpent nOut => (c.markSpent nOut).getD c
  | .markUnspent nOut => (c.markUnspent nOut).getD c
  | .getAvailableCredit fUseCache => ((c.getAvailableCredit v fUseCache).map Prod.snd).getD c
  | .getAvailableSpectreCredit fUseCache => ((c.getAvailableSpectreCredit v fUseCache).map Prod.snd).getD c

/-- Runs of calls on a new transaction that meet a condition. -/
inductive CreditRun (v : CreditView) (allowed : CachedTx → CreditCall → Prop) (tx : CTransaction) : CachedTx → Prop
  | init : CreditRun v allowed tx (CachedTx.init tx)
  | call {c : CachedTx} {call : CreditCall} : CreditRun v allowed tx c → allowed c call →
      CreditRun v allowed tx (c.step v call)

/-- The flag of an output changes to the given one while a Spectre balance is cached. -/
def CachedTx.HidesSpectre (c : CachedTx) (nOut : Nat) (fSpent : Bool) : Prop :=
  c.fAvailableSpectreCreditCached ∧ c.wtx.isSpent nOut ≠ fSpent

/-- `MarkSpent` and `MarkUnspent` change no flag of an output of Spectre value while a Spectre balance is cached. -/
def SpectreKept (v : CreditView) (c : CachedTx) : CreditCall → Prop
  | .markSpent nOut => ∀ txout, c.wtx.tx.vout[nOut]? = some txout → c.HidesSpectre nOut true →
      v.getSpectreCredit txout = some 0
  | .markUnspent nOut => ∀ txout, c.wtx.tx.vout[nOut]? = some txout → c.HidesSpectre nOut false →
      v.getSpectreCredit txout = some 0
  | _ => True

section Caches

variable {v : CreditView} {c : CachedTx} {tx : CTransaction}

/-- A cached balance is the sum over the unspent outputs. -/
structure CachesExact (v : CreditView) (c : CachedTx) : Prop where
  credit : c.fAvailableCreditCached → sumUnspent v.getCredit c.wtx = some c.nAvailableCreditCached
  spectre : c.fAvailableSpectreCreditCached → sumUnspent v.getSpectreCredit c.wtx = some c.nAvailableSpectreCreditCached

/-- An output that is worth nothing leaves the sum as it is, spent or not. -/
theorem addUnspent_zero {credit : CTxOut → Option Int64} {e : CTxOut × Nat} (hzero : credit e.1 = some 0)
    (wtx : CWalletTx) {nCredit : Int64} (hrange : moneyRange nCredit) :
    addUnspent credit wtx nCredit e = some nCredit := by
  rw [addUnspent, hzero, Option.bind_eq_bind, Option.bind_some, Int64.add_zero, if_pos hrange, ite_self]

theorem addUnspent_range {credit : CTxOut → Option Int64} {wtx : CWalletTx} {nCredit nCredit' : Int64}
    {e : CTxOut × Nat} (hrange : moneyRange nCredit) (h : addUnspent credit wtx nCredit e = some nCredit') :
    moneyRange nCredit' := by
  rw [addUnspent] at h
  split at h
  · rwa [← Option.some.inj h]
  · rw [Option.bind_eq_bind, Option.bind_eq_some_iff] at h
    obtain ⟨n, -, h⟩ := h
    split at h
    case isTrue hnext => rwa [← Option.some.inj h]
    case isFalse => cases h

theorem addUnspent_foldlM_congr (credit : CTxOut → Option Int64) (wtx wtx' : CWalletTx) (l : List (CTxOut × Nat))
    (hsame : ∀ e ∈ l, wtx.isSpent e.2 ≠ wtx'.isSpent e.2 → credit e.1 = some 0) (nCredit : Int64)
    (hrange : moneyRange nCredit) :
    l.foldlM (addUnspent credit wtx) nCredit = l.foldlM (addUnspent credit wtx') nCredit := by
  induction l generalizing nCredit with
  | nil => rfl
  | cons e l ih =>
    have hstep : addUnspent credit wtx nCredit e = addUnspent credit wtx' nCredit e := by
      by_cases heq : wtx.isSpent e.2 = wtx'.isSpent e.2
      · rw [addUnspent, addUnspent, heq]
      · have hzero := hsame e List.mem_cons_self heq
        rw [addUnspent_zero hzero wtx hrange, addUnspent_zero hzero wtx' hrange]
    rw [List.foldlM_cons, List.foldlM_cons, hstep]
    cases hnext : addUnspent credit wtx' nCredit e with
    | none => rfl
    | some nCredit' =>
      exact ih (fun e' he' => hsame e' (List.mem_cons_of_mem _ he')) nCredit' (addUnspent_range hrange hnext)

/-- Flags that differ only on outputs without a value do not matter. -/
theorem sumUnspent_congr (credit : CTxOut → Option Int64) {wtx wtx' : CWalletTx} (htx : wtx'.tx = wtx.tx)
    (hsame : ∀ nOut txout, wtx.tx.vout[nOut]? = some txout → wtx'.isSpent nOut ≠ wtx.isSpent nOut →
      credit txout = some 0) : sumUnspent credit wtx' = sumUnspent credit wtx := by
  rw [sumUnspent, sumUnspent, htx]
  refine addUnspent_foldlM_congr credit wtx' wtx _ (fun e he hne => ?_) 0 (by decide)
  obtain ⟨txout, nOut⟩ := e
  exact hsame nOut txout (List.mem_zipIdx_iff_getElem?.mp he) hne

theorem isSpent_resized (wtx : CWalletTx) {nOut : Nat} (hlt : nOut < wtx.tx.vout.length) :
    ({ wtx with vfSpent := wtx.resized } : CWalletTx).isSpent nOut = wtx.isSpent nOut :=
  wtx.getElem_resized hlt

theorem CachesExact.updateSpent (h : CachesExact v c) (vfNewSpent : List Bool) :
    CachesExact v (c.updateSpent vfNewSpent) := by
  rw [CachedTx.updateSpent]
  cases hflag : (c.wtx.updateSpent vfNewSpent).2 with
  | true =>
    dsimp only
    rw [hflag, if_pos rfl]
    exact ⟨(nomatch ·), (nomatch ·)⟩
  | false =>
    have hsame : (c.wtx.updateSpent vfNewSpent).1 = c.wtx := by
      rw [CWalletTx.updateSpent, bne_eq_false_iff_eq] at hflag
      rw [CWalletTx.updateSpent, hflag]
    dsimp only
    rw [hflag, if_neg (by decide), hsame]
    exact h

/-- The flags of other outputs stay. -/
theorem CachesExact.reflag (h : CachesExact v c) {wtx : CWalletTx} (htx : wtx.tx = c.wtx.tx)
    (hsame : ∀ nOut txout, c.wtx.tx.vout[nOut]? = some txout → wtx.isSpent nOut ≠ c.wtx.isSpent nOut →
      c.fAvailableSpectreCreditCached → v.getSpectreCredit txout = some 0) :
    CachesExact v { c with wtx, fAvailableCreditCached := false } where
  credit := fun hcached => nomatch hcached
  spectre := fun hcached => by
    rw [sumUnspent_congr v.getSpectreCredit htx fun nOut txout hout hne => hsame nOut txout hout hne hcached]
    exact h.spectre hcached

theorem CachesExact.resized (h : CachesExact v c) :
    CachesExact v { c with wtx := { c.wtx with vfSpent := c.wtx.resized } } := by
  have hsum : ∀ credit, sumUnspent credit { c.wtx with vfSpent := c.wtx.resized } = sumUnspent credit c.wtx :=
    fun credit => sumUnspent_congr credit rfl fun nOut txout hout hne =>
      absurd (isSpent_resized c.wtx (List.getElem?_eq_some_iff.mp hout).1) hne
  exact ⟨fun hcached => (hsum _).trans (h.credit hcached), fun hcached => (hsum _).trans (h.spectre hcached)⟩

theorem CachesExact.markSpent (h : CachesExact v c) (nOut : Nat) (hkept : SpectreKept v c (.markSpent nOut)) :
    CachesExact v ((c.markSpent nOut).getD c) := by
  rw [CachedTx.markSpent]
  split
  · exact h
  · split
    · exact h.resized
    case isFalse hspent =>
      refine h.reflag rfl fun n txout hout hne hcached => ?_
      rw [c.wtx.isSpent_markSpent (List.getElem?_eq_some_iff.mp hout).1] at hne
      by_cases hn : n = nOut
      · exact hkept txout (hn ▸ hout) ⟨hcached, fun htrue => hspent htrue⟩
      · simp [hn] at hne

theorem CachesExact.markUnspent (h : CachesExact v c) (nOut : Nat) (hkept : SpectreKept v c (.markUnspent nOut)) :
    CachesExact v ((c.markUnspent nOut).getD c) := by
  rw [CachedTx.markUnspent]
  split
  · exact h
  · split
    case isTrue hspent =>
      refine h.reflag rfl fun n txout hout hne hcached => ?_
      rw [c.wtx.isSpent_markUnspent (List.getElem?_eq_some_iff.mp hout).1] at hne
      by_cases hn : n = nOut
      · exact hkept txout (hn ▸ hout) ⟨hcached, fun hfalse => by rw [hspent] at hfalse; cases hfalse⟩
      · simp [hn] at hne
    · exact h.resized

theorem CachesExact.step (h : CachesExact v c) (call : CreditCall) (hkept : SpectreKept v c call) :
    CachesExact v (c.step v call) := by
  cases call with
  | updateSpent vfNewSpent => exact h.updateSpent vfNewSpent
  | markDirty => exact ⟨(nomatch ·), (nomatch ·)⟩
  | markSpent nOut => exact h.markSpent nOut hkept
  | markUnspent nOut => exact h.markUnspent nOut hkept
  | getAvailableCredit fUseCache =>
    rw [CachedTx.step, CachedTx.getAvailableCredit]
    split
    · exact h
    · split
      · exact h
      · cases hsum : sumUnspent v.getCredit c.wtx with
        | none => exact h
        | some nCredit => exact ⟨fun _ => hsum, h.spectre⟩
  | getAvailableSpectreCredit fUseCache =>
    rw [CachedTx.step, CachedTx.getAvailableSpectreCredit]
    split
    · exact h
    · split
      · exact h
      · split
        · exact h
        · cases hsum : sumUnspent v.getSpectreCredit c.wtx with
          | none => exact h
          | some nCredit => exact ⟨h.credit, fun _ => hsum⟩

theorem CreditRun.exact (hrun : CreditRun v (SpectreKept v) tx c) : CachesExact v c := by
  induction hrun with
  | init => exact ⟨(nomatch ·), (nomatch ·)⟩
  | call _ hkept ih => exact ih.step _ hkept

/-- In a run that keeps the Spectre balance, both balances are the same from the cache and computed again. -/
theorem cached_credit_eq (v : CreditView) (tx : CTransaction) (c : CachedTx)
    (hrun : CreditRun v (SpectreKept v) tx c) :
    (c.getAvailableCredit v true).map Prod.fst = (c.getAvailableCredit v false).map Prod.fst ∧
      (c.getAvailableSpectreCredit v true).map Prod.fst = (c.getAvailableSpectreCredit v false).map Prod.fst := by
  have h := hrun.exact
  constructor
  · rw [CachedTx.getAvailableCredit, CachedTx.getAvailableCredit]
    cases hcached : c.fAvailableCreditCached with
    | false => rfl
    | true =>
      rw [h.credit hcached]
      split <;> rfl
  · rw [CachedTx.getAvailableSpectreCredit, CachedTx.getAvailableSpectreCredit]
    cases hcached : c.fAvailableSpectreCreditCached with
    | false => rfl
    | true =>
      rw [h.spectre hcached]
      split
      · rfl
      · split <;> rfl

/-- A transaction deep in the chain whose output is of Spectre value. -/
def spectreView : CreditView := ⟨false, 10, fun _ => some 0, fun txout => some txout.nValue⟩

def spectreTx : CTransaction := ⟨1, 0, [], [⟨5, [0x6a]⟩], 0⟩

/-- The output is marked before the query. -/
theorem cached_credit_eq_marked : ∃ c : CachedTx, c.fAvailableSpectreCreditCached = true ∧ c.wtx.isSpent 0 = true ∧
    (c.getAvailableCredit spectreView true).map Prod.fst = (c.getAvailableCredit spectreView false).map Prod.fst ∧
    (c.getAvailableSpectreCredit spectreView true).map Prod.fst =
      (c.getAvailableSpectreCredit spectreView false).map Prod.fst := by
  refine ⟨((CachedTx.init spectreTx).step spectreView (.markSpent 0)).step spectreView
    (.getAvailableSpectreCredit true), by decide, by decide, ?_⟩
  have hkept : SpectreKept spectreView (CachedTx.init spectreTx) (.markSpent 0) :=
    fun txout _ hhides => absurd hhides.1 (by decide)
  exact cached_credit_eq spectreView spectreTx _ (.call (.call .init hkept) trivial)

/-- The output is marked by `MarkSpent` between two queries. -/
theorem hidden_spectre : ∃ c : CachedTx, CreditRun spectreView (fun _ _ => True) spectreTx c ∧
    (c.getAvailableSpectreCredit spectreView true).map Prod.fst ≠
      (c.getAvailableSpectreCredit spectreView false).map Prod.fst := by
  refine ⟨((CachedTx.init spectreTx).step spectreView (.getAvailableSpectreCredit true)).step spectreView
    (.markSpent 0), .call (.call .init trivial) trivial, ?_⟩
  decide

end Caches

end AliasWallet
