import Mathlib.Data.Nat.Digits.Lemmas
import AliasWallet.Chain.TemplateSpec
import AliasWallet.Stake.CoinStake

/-!
# What a signed stake pays

The coinstake is created with the fees of the whole template, and `SignBlock` leaves out what is newer
than the coinstake. The coinstake then still claims the fees of what was left out.
-/

namespace AliasWallet
open Lib

section Split

theorem splitDigit_sum (i : Nat) : (splitDigit i).sum = i := by
  unfold splitDigit
  split <;> simp

theorem sum_map_ofNat (l : List Nat) : (l.map Int64.ofNat).sum = Int64.ofNat l.sum := by
  induction l with
  | nil => rfl
  | cons n l ih =>
    rw [List.map_cons, List.sum_cons, ih, List.sum_cons, Int64.ofNat_add]

theorem sum_map_mul (l : List Nat) (n : Nat) : (l.map (· * n)).sum = l.sum * n := by
  induction l with
  | nil => simp
  | cons m l ih =>
    rw [List.map_cons, List.sum_cons, ih, List.sum_cons, Nat.add_mul]

theorem map_mapIdx {A B C : Type} (f : Nat → A → B) (g : B → C) (l : List A) :
    (l.mapIdx f).map g = l.mapIdx fun k a => g (f k a) := by
  rw [List.mapIdx_eq_zipIdx_map, List.mapIdx_eq_zipIdx_map, List.map_map]
  rfl

theorem sum_replicate_int64 (n : Nat) (a : Int64) :
    (List.replicate n a).sum = Int64.ofInt (n * a.toInt) := by
  rw [← ofInt_sum, List.map_replicate, List.sum_replicate, nsmul_eq_mul]

/-- The digits of a value are split without a loss. -/
theorem splitDigits_sum (n : Nat) :
    (((Nat.digits 10 n).mapIdx fun k i =>
      (splitDigit i).map fun j => Int64.ofNat (j * 10 ^ k)).flatten).sum = Int64.ofNat n := by
  have hround : ∀ k i, ((splitDigit i).map fun j => Int64.ofNat (j * 10 ^ k)).sum =
      Int64.ofNat (i * 10 ^ k) := by
    intro k i
    have hmap : ((splitDigit i).map fun j => Int64.ofNat (j * 10 ^ k)) =
        ((splitDigit i).map (· * 10 ^ k)).map Int64.ofNat := by
      rw [List.map_map]
      rfl
    rw [hmap, sum_map_ofNat, sum_map_mul, splitDigit_sum]
  have hflat : (((Nat.digits 10 n).mapIdx fun k i =>
      (splitDigit i).map fun j => Int64.ofNat (j * 10 ^ k)).flatten).sum =
      ((Nat.digits 10 n).mapIdx fun k i => Int64.ofNat (i * 10 ^ k)).sum := by
    rw [List.sum_flatten, map_mapIdx]
    simp only [hround]
  have hmap : ((Nat.digits 10 n).mapIdx fun k i => Int64.ofNat (i * 10 ^ k)) =
      ((Nat.digits 10 n).mapIdx fun k i => i * 10 ^ k).map Int64.ofNat := by
    rw [map_mapIdx]
  rw [hflat, hmap, sum_map_ofNat, ← Nat.ofDigits_eq_sum_mapIdx, Nat.ofDigits_digits]

/-- `splitAmount` loses nothing where the number of the largest outputs fits into an `int`. -/
theorem splitAmount_sum (nValue maxAnonOutput : Int64) (hvalue : 0 ≤ nValue)
    (hmax : 2 ^ 32 ≤ maxAnonOutput.toInt) : (splitAmount nValue maxAnonOutput).sum = nValue := by
  have hnonneg := toInt_nonneg hvalue
  have hlt := nValue.toInt_lt
  have hdiv : nValue.toInt / maxAnonOutput.toInt < 2 ^ 31 :=
    Int.ediv_lt_of_lt_mul (by omega) (by omega)
  have hdiv0 : 0 ≤ nValue.toInt / maxAnonOutput.toInt := Int.ediv_nonneg hnonneg (by omega)
  have hcount : (nValue / maxAnonOutput).toInt32.toInt = nValue.toInt / maxAnonOutput.toInt := by
    rw [Int64.toInt_toInt32, Int64.toInt_div, Int.tdiv_eq_ediv_of_nonneg hnonneg,
      Int.bmod_eq_of_le (n := nValue.toInt / maxAnonOutput.toInt) (by omega) (by omega),
      Int.bmod_eq_of_le (by omega) (by omega)]
  have hrest : (nValue % maxAnonOutput).toInt = nValue.toInt % maxAnonOutput.toInt := by
    rw [Int64.toInt_mod, Int.tmod_eq_emod_of_nonneg hnonneg]
  have hrest0 : 0 ≤ nValue.toInt % maxAnonOutput.toInt := Int.emod_nonneg _ (by omega)
  unfold splitAmount
  rw [List.sum_append, splitDigits_sum, hcount, hrest, sum_replicate_int64, Int.toNat_of_nonneg hdiv0,
    ← Int64.ofInt_eq_ofNat, Int.toNat_of_nonneg hrest0, ← Int64.ofInt_add, Int.mul_comm,
    Int.mul_ediv_add_emod, Int64.ofInt_toInt]

end Split

section Coins

variable {Pt L K : Type} (env : NodeEnv Pt L) (c : ChainState) (pool : CTxMemPool) (s : Session L)
  (w : StakeWallet K)

/-- What a coinstake pays beyond what it spends, as `ConnectBlock` counts it. -/
def stakePaid (tx : CTransaction) : Int64 :=
  tx.getValueOut - (getValueIn (prevTxs env pool s.disk) tx +
    Int64.ofInt (tx.ringInputs.map
      (ringValue (env.anonView c pool s.disk s.disk.txIndex))).sum)

/-- The coins are outputs of the chain. -/
structure CoinsSound : Prop where
  found : ∀ nTarget nTime setCoins, w.selectCoinsForStaking nTarget nTime = some setCoins →
    ∀ pcoin ∈ setCoins, prevTx env pool s.disk (env.txid pcoin.ptx) = some pcoin.ptx ∧
      ¬ (pcoin.outpoint env).isNull
  threshold : 0 ≤ w.nStakeSplitThreshold

theorem findKernel_mem (nBits nTime : UInt32) (nSearchInterval : Int) (setCoins : List StakeCoin)
    (kernel : StakeKernel K) (h : findKernel env w nBits nTime nSearchInterval setCoins = some kernel) :
    kernel.pcoin ∈ setCoins ∧ kernel.nTime ∈ searchTimes nTime nSearchInterval := by
  induction setCoins with
  | nil => cases h
  | cons pcoin setCoins ih =>
    have hlater : findKernel env w nBits nTime nSearchInterval setCoins = some kernel →
        kernel.pcoin ∈ pcoin :: setCoins ∧ kernel.nTime ∈ searchTimes nTime nSearchInterval := by
      intro hrest
      exact ⟨List.mem_cons_of_mem pcoin (ih hrest).1, (ih hrest).2⟩
    unfold findKernel at h
    split at h
    · exact hlater h
    · rename_i nTimeKernel hfound
      split at h
      · exact hlater h
      · cases h
        exact ⟨List.mem_cons_self, List.mem_of_find?_eq_some hfound⟩

/-- `nCredit` is the value of the coins so far. -/
theorem combineCoins_spec (kernel : StakeKernel K) (setCoins vwtxPrev : List StakeCoin) (nCredit : Int64)
    (hcredit : nCredit = (vwtxPrev.map StakeCoin.nValue).sum) :
    (combineCoins env w kernel setCoins vwtxPrev nCredit).2 =
        ((combineCoins env w kernel setCoins vwtxPrev nCredit).1.map StakeCoin.nValue).sum ∧
      ∀ pcoin ∈ (combineCoins env w kernel setCoins vwtxPrev nCredit).1,
        pcoin ∈ vwtxPrev ∨ pcoin ∈ setCoins := by
  induction setCoins generalizing vwtxPrev nCredit with
  | nil => exact ⟨hcredit, fun pcoin h => Or.inl h⟩
  | cons pcoin setCoins ih =>
    have hskip := ih vwtxPrev nCredit hcredit
    have hadd := ih (vwtxPrev ++ [pcoin]) (nCredit + pcoin.nValue) (by simp [hcredit])
    simp only [combineCoins]
    split
    · split
      · exact ⟨hcredit, fun pcoin h => Or.inl h⟩
      · split
        · exact ⟨hskip.1, fun pcoin' h => (hskip.2 pcoin' h).imp_right (List.mem_cons_of_mem pcoin)⟩
        · refine ⟨hadd.1, fun pcoin' h => ?_⟩
          have hcases := hadd.2 pcoin' h
          rw [List.mem_append, List.mem_singleton] at hcases
          rw [List.mem_cons]
          tauto
    · exact ⟨hskip.1, fun pcoin' h => (hskip.2 pcoin' h).imp_right (List.mem_cons_of_mem pcoin)⟩

theorem reduceOutput_value (txout txout' : CTxOut) (reduction : Int64) (hreduction : 0 ≤ reduction)
    (h : reduceOutput txout reduction = some txout') : txout'.nValue + reduction = txout.nValue := by
  unfold reduceOutput at h
  split at h
  · split at h
    · cases h
    · cases h
      exact Int64.sub_add_cancel _ _
  · rename_i hzero
    cases h
    have hle : reduction ≤ 0 := Int64.not_lt.mp hzero
    rw [Int64.le_antisymm hle hreduction, Int64.add_zero]

theorem sub_nonneg_int64 {a b : Int64} (ha : 0 ≤ a) (hab : a ≤ b) : 0 ≤ b - a := by
  have ha' := toInt_nonneg ha
  have hab' := Int64.le_iff_toInt_le.mp hab
  have hb := b.toInt_lt
  rw [Int64.le_iff_toInt_le, Int64.toInt_sub, Int.bmod_eq_of_le (by omega) (by omega)]
  simpa using hab'

/-- The outputs add up to the credit, split or not. -/
theorem stakeOutputs_sum (scriptPubKey : Bytes) (nCredit : Int64) :
    ((stakeOutputs w scriptPubKey nCredit).map CTxOut.nValue).sum = nCredit := by
  unfold stakeOutputs
  split
  · simp only [List.map_cons, List.map_nil, List.sum_cons, List.sum_nil]
    grind
  · simp

theorem toInt_div_of_nonneg {a b : Int64} (ha : 0 ≤ a) (hb : 0 < b.toInt) :
    (a / b).toInt = a.toInt / b.toInt := by
  have ha' := toInt_nonneg ha
  have hle : a.toInt / b.toInt ≤ a.toInt := Int.ediv_le_self _ ha'
  have hnonneg : 0 ≤ a.toInt / b.toInt := Int.ediv_nonneg ha' (by omega)
  have hlt := a.toInt_lt
  rw [Int64.toInt_div, Int.tdiv_eq_ediv_of_nonneg ha', Int.bmod_eq_of_le (by omega) (by omega)]

/-- The first half of a split stake is in range. -/
theorem firstHalf_bounds {nCredit : Int64} (h : 0 ≤ nCredit) :
    0 ≤ nCredit / 2 / CENT * CENT ∧ nCredit / 2 / CENT * CENT ≤ nCredit := by
  have h0 := toInt_nonneg h
  have hlt := nCredit.toInt_lt
  have htwo : (2 : Int64).toInt = 2 := by decide
  have hcent : CENT.toInt = 1000000 := by decide
  have hhalf : (nCredit / 2).toInt = nCredit.toInt / 2 := by
    rw [toInt_div_of_nonneg h (by rw [htwo]; decide), htwo]
  have hcents : (nCredit / 2 / CENT).toInt = nCredit.toInt / 2 / 1000000 := by
    rw [toInt_div_of_nonneg _ (by rw [hcent]; decide), hhalf, hcent]
    rw [Int64.le_iff_toInt_le, hhalf]
    exact Int.ediv_nonneg h0 (by decide)
  have hfirst : (nCredit / 2 / CENT * CENT).toInt = nCredit.toInt / 2 / 1000000 * 1000000 := by
    rw [Int64.toInt_mul, hcents, hcent, Int.bmod_eq_of_le (by omega) (by omega)]
  rw [Int64.le_iff_toInt_le, Int64.le_iff_toInt_le, hfirst]
  exact ⟨by simpa using by omega, by omega⟩

/-- A donation moves the reward within the outputs. -/
theorem donateStake_sum (scriptDonation scriptPubKey : Bytes) (nReward nCredit : Int64)
    (hthreshold : 0 ≤ w.nStakeSplitThreshold) (hreward : 0 < nReward) (vout : List CTxOut)
    (h : donateStake scriptDonation nReward (stakeOutputs w scriptPubKey nCredit) = some vout) :
    (vout.map CTxOut.nValue).sum = nCredit := by
  unfold stakeOutputs at h
  split at h
  · rename_i hsplit
    have hcredit : 0 ≤ nCredit := Int64.le_trans hthreshold hsplit
    have hsecond : 0 ≤ nCredit - nCredit / 2 / CENT * CENT :=
      sub_nonneg_int64 (firstHalf_bounds hcredit).1 (firstHalf_bounds hcredit).2
    simp only [donateStake] at h
    split at h
    · rename_i hsmall
      obtain ⟨first, hfirst, rfl⟩ := Option.map_eq_some_iff.mp h
      have hvalue := reduceOutput_value _ _ _ (sub_nonneg_int64 hsecond hsmall) hfirst
      simp only [List.map_cons, List.map_nil, List.sum_cons, List.sum_nil] at hvalue ⊢
      grind
    · cases h
      simp only [List.map_cons, List.map_nil, List.sum_cons, List.sum_nil]
      grind
  · simp only [donateStake] at h
    obtain ⟨first, hfirst, rfl⟩ := Option.map_eq_some_iff.mp h
    have hvalue := reduceOutput_value _ _ _ (Int64.le_of_lt hreward) hfirst
    simp only [List.map_cons, List.map_nil, List.sum_cons, List.sum_nil] at hvalue ⊢
    grind

/-- Signing changes the scripts of the inputs only. -/
theorem signInputs_spec (tx tx' : CTransaction) (vwtxPrev : List StakeCoin)
    (h : signInputs w tx vwtxPrev = some tx') :
    tx'.nVersion = tx.nVersion ∧ tx'.nTime = tx.nTime ∧ tx'.vout = tx.vout ∧
      tx'.vin.map CTxIn.prevout = tx.vin.map CTxIn.prevout := by
  unfold signInputs at h
  apply foldlM_preserves (fun t => t.nVersion = tx.nVersion ∧ t.nTime = tx.nTime ∧ t.vout = tx.vout ∧
    t.vin.map CTxIn.prevout = tx.vin.map CTxIn.prevout) _ tx tx' ⟨rfl, rfl, rfl, rfl⟩ _ h
  intro t e _ t' ht hround
  simp only [Option.bind_eq_bind, Option.bind_eq_some_iff, Option.pure_def, Option.some.injEq] at hround
  obtain ⟨scriptSig, -, rfl⟩ := hround
  exact ⟨ht.1, ht.2.1, ht.2.2.1, (prevouts_signed t.vin e.2 scriptSig).trans ht.2.2.2⟩

theorem isCoinBase_of_prevouts {tx : CTransaction} (h : ∀ o ∈ tx.vin.map CTxIn.prevout, ¬ o.isNull) :
    tx.isCoinBase = false := by
  unfold CTransaction.isCoinBase
  split
  · rename_i txin hvin
    have hnull := h txin.prevout (by simp [hvin])
    simp [hnull]
  · rfl

/-- The coin age reads the outpoints and the time only. -/
theorem getCoinAge_congr (pindexPrev : CBlockIndex) {tx tx' : CTransaction}
    (hbase : tx.isCoinBase = tx'.isCoinBase) (htime : tx.nTime = tx'.nTime)
    (hvin : tx.vin.map CTxIn.prevout = tx'.vin.map CTxIn.prevout) :
    getCoinAge env s pindexPrev tx = getCoinAge env s pindexPrev tx' := by
  have hages : ∀ t : CTransaction, t.vin.mapM (coinAgeOf env s pindexPrev t) =
      (t.vin.map CTxIn.prevout).mapM fun o =>
        coinAgeOf env s pindexPrev { t with nTime := t.nTime, vin := [], vout := [] } ⟨o, [], 0⟩ := by
    intro t
    rw [List.mapM_map]
    rfl
  have hround : (fun o => coinAgeOf env s pindexPrev { tx with vin := [], vout := [] } ⟨o, [], 0⟩) =
      fun o => coinAgeOf env s pindexPrev { tx' with vin := [], vout := [] } ⟨o, [], 0⟩ := by
    funext o
    simp only [coinAgeOf, htime]
  unfold getCoinAge
  rw [hages, hages, hvin, hbase]
  simp only [hround]

/-- The value of the coins, as `ConnectBlock` finds it. -/
theorem getValueIn_coins (tx : CTransaction) (vwtxPrev : List StakeCoin) (hversion : tx.nVersion = 1)
    (hvin : tx.vin.map CTxIn.prevout = vwtxPrev.map (StakeCoin.outpoint env))
    (hcoins : ∀ pcoin ∈ vwtxPrev, prevTx env pool s.disk (env.txid pcoin.ptx) = some pcoin.ptx ∧
      ¬ (pcoin.outpoint env).isNull) :
    getValueIn (prevTxs env pool s.disk) tx = (vwtxPrev.map StakeCoin.nValue).sum := by
  have hbase : tx.isCoinBase = false := by
    apply isCoinBase_of_prevouts
    intro o ho
    rw [hvin] at ho
    obtain ⟨pcoin, hpcoin, rfl⟩ := List.mem_map.mp ho
    exact (hcoins pcoin hpcoin).2
  have hclear : tx.transparentInputs = tx.vin := by
    simp [CTransaction.transparentInputs, CTransaction.skipsInput, hversion, ANON_TXN_VERSION]
  have hvalues : (tx.vin.map fun txin =>
      ((getOutputFor (prevTxs env pool s.disk) txin).map CTxOut.nValue).getD 0) =
      (tx.vin.map CTxIn.prevout).map fun o =>
        ((getOutputFor (prevTxs env pool s.disk) ⟨o, [], 0⟩).map CTxOut.nValue).getD 0 := by
    rw [List.map_map]
    rfl
  rw [getValueIn, hbase, hclear, hvalues, hvin, List.map_map]
  simp only [Bool.false_eq_true, if_false]
  congr 1
  apply List.map_congr_left
  intro pcoin hpcoin
  simp [getOutputFor_prevTxs, StakeCoin.outpoint, (hcoins pcoin hpcoin).1, StakeCoin.nValue,
    StakeCoin.txout, pcoin.inRange]

theorem withDonation_sum (scriptPubKey : Bytes) (nReward nCredit : Int64)
    (hthreshold : 0 ≤ w.nStakeSplitThreshold) (hreward : 0 < nReward) (vout : List CTxOut)
    (h : withDonation env c w nReward (stakeOutputs w scriptPubKey nCredit) = some vout) :
    (vout.map CTxOut.nValue).sum = nCredit := by
  unfold withDonation at h
  split at h
  · exact donateStake_sum w _ scriptPubKey nReward nCredit hthreshold hreward vout h
  · cases h
    exact stakeOutputs_sum w scriptPubKey nCredit

/-- The outputs of a stake begin with the one behind the marker; a donation of the reward comes after it. -/
def DonatesBehind (nReward : Int64) (vout : List CTxOut) : Prop :=
  ∃ txout rest, vout = txout :: rest ∧ (donatesStake env c w → ⟨nReward, donationScript env c⟩ ∈ rest)

theorem donateStake_behind {scriptDonation : Bytes} {nReward : Int64} {vout vout' : List CTxOut}
    (h : donateStake scriptDonation nReward vout = some vout') :
    ∃ txout rest, vout' = txout :: rest ∧ ⟨nReward, scriptDonation⟩ ∈ rest := by
  rw [donateStake.eq_def] at h
  split at h
  · split at h
    · obtain ⟨first, -, rfl⟩ := Option.map_eq_some_iff.mp h
      exact ⟨first, _, rfl, List.mem_singleton_self _⟩
    · rw [← Option.some.inj h]
      exact ⟨_, _, rfl, List.mem_cons_of_mem _ (List.mem_singleton_self _)⟩
  · obtain ⟨first, -, rfl⟩ := Option.map_eq_some_iff.mp h
    exact ⟨first, _, rfl, List.mem_singleton_self _⟩
  · cases h

theorem withDonation_behind (scriptPubKey : Bytes) (nReward nCredit : Int64) (vout : List CTxOut)
    (h : withDonation env c w nReward (stakeOutputs w scriptPubKey nCredit) = some vout) :
    DonatesBehind env c w nReward vout := by
  rw [withDonation] at h
  split at h
  · obtain ⟨txout, rest, rfl, hmem⟩ := donateStake_behind h
    exact ⟨txout, rest, rfl, fun _ => hmem⟩
  case isFalse hkeeps =>
    rw [← Option.some.inj h, stakeOutputs]
    split
    · exact ⟨_, _, rfl, fun hdonates => absurd hdonates hkeeps⟩
    · exact ⟨_, _, rfl, fun hdonates => absurd hdonates hkeeps⟩

/-- A transparent stake pays the reward that it was created with. -/
theorem createCoinStake_spec (hcoins : CoinsSound env pool s w) (nBits : UInt32) (nSearchInterval : Int)
    (nFees : Int64) (nTime : UInt32) (tx : CTransaction) (key : K)
    (h : createCoinStake env c s w nBits nSearchInterval nFees nTime = some (tx, key)) :
    tx.nVersion = 1 ∧ tx.nTime ∈ searchTimes nTime nSearchInterval ∧
      ∃ nCoinAge, stakeCoinAge env s c.pindexBest tx = some nCoinAge ∧
        stakePaid env c pool s tx = getProofOfStakeReward env.p c.pindexBest
          (s.supply (CBlockIndex.getBlockHash c.pindexBest)).nMoneySupply nCoinAge nFees ∧
        0 < stakePaid env c pool s tx ∧
        ∃ vout, tx.vout = ⟨0, []⟩ :: vout ∧ DonatesBehind env c w (stakePaid env c pool s tx) vout := by
  simp only [createCoinStake, Option.bind_eq_bind, Option.bind_none, Option.ite_none_left_eq_some,
    Option.bind_eq_some_iff, Option.pure_def, Option.some.injEq, Prod.mk.injEq, Int64.not_le] at h
  obtain ⟨-, setCoins, hselect, kernel, hkernel, -, nCoinAge, hage, hreward, vout, hvout, tx', hsign, -,
    rfl, -⟩ := h
  obtain ⟨hmem, htime⟩ := findKernel_mem env w nBits nTime nSearchInterval setCoins kernel hkernel
  obtain ⟨hcredit, hpicked⟩ := combineCoins_spec env w kernel setCoins [kernel.pcoin] kernel.pcoin.nValue
    (by simp)
  generalize combineCoins env w kernel setCoins [kernel.pcoin] kernel.pcoin.nValue = r at *
  obtain ⟨vwtxPrev, nCredit⟩ := r
  dsimp only at hcredit hpicked hage hvout hsign
  have hfound : ∀ pcoin ∈ vwtxPrev, prevTx env pool s.disk (env.txid pcoin.ptx) = some pcoin.ptx ∧
      ¬ (pcoin.outpoint env).isNull := by
    intro pcoin hpcoin
    apply hcoins.found _ _ setCoins hselect
    cases hpicked pcoin hpcoin with
    | inl hfirst => rwa [List.mem_singleton.mp hfirst]
    | inr hother => exact hother
  obtain ⟨hversion, htime', hout, hvin⟩ := signInputs_spec w _ _ vwtxPrev hsign
  dsimp only at hversion htime' hout hvin
  have hprevouts : tx'.vin.map CTxIn.prevout = vwtxPrev.map (StakeCoin.outpoint env) := by
    rw [hvin, List.map_map]
    rfl
  have hnotNull : ∀ o ∈ vwtxPrev.map (StakeCoin.outpoint env), ¬ o.isNull := by
    intro o ho
    obtain ⟨pcoin, hpcoin, rfl⟩ := List.mem_map.mp ho
    exact (hfound pcoin hpcoin).2
  have hage' : stakeCoinAge env s c.pindexBest tx' = some nCoinAge := by
    rw [← hage, stakeCoinAge, stakeCoinAge]
    split
    · rfl
    · apply getCoinAge_congr env s c.pindexBest _ htime' hvin
      rw [isCoinBase_of_prevouts (hprevouts ▸ hnotNull), isCoinBase_of_prevouts]
      rw [List.map_map]
      exact hnotNull
  have hpaid : stakePaid env c pool s tx' = getProofOfStakeReward env.p c.pindexBest
      (s.supply (CBlockIndex.getBlockHash c.pindexBest)).nMoneySupply nCoinAge nFees := by
    have hrings : tx'.ringInputs = [] := by
      simp [CTransaction.ringInputs, CTransaction.skipsInput, hversion, ANON_TXN_VERSION]
    have hsum := withDonation_sum env c w _ _ _ hcoins.threshold hreward vout hvout
    rw [stakePaid, getValueIn_coins env pool s tx' vwtxPrev hversion hprevouts hfound, ← hcredit, hrings,
      CTransaction.getValueOut, hout, List.map_cons, List.sum_cons, hsum]
    simp only [List.map_nil, List.sum_nil]
    grind
  exact ⟨hversion, htime' ▸ htime, nCoinAge, hage', hpaid, hpaid ▸ hreward, vout, hout,
    hpaid ▸ withDonation_behind env c w _ _ _ vout hvout⟩

end Coins

section AnonCoins

variable {Pt L K : Type} (env : NodeEnv Pt L) (c : ChainState) (pool : CTxMemPool) (s : Session L)
  (w : StakeWallet K)

/-- The value of coins, over the integers. -/
def anonTotal (coins : List COwnedAnonOutput) : Int := (coins.map fun oao => oao.nValue.toInt).sum

@[simp]
theorem anonTotal_nil : anonTotal [] = 0 := rfl

@[simp]
theorem anonTotal_cons (oao : COwnedAnonOutput) (coins : List COwnedAnonOutput) :
    anonTotal (oao :: coins) = oao.nValue.toInt + anonTotal coins := rfl

@[simp]
theorem anonTotal_append (coins coins' : List COwnedAnonOutput) :
    anonTotal (coins ++ coins') = anonTotal coins + anonTotal coins' := by
  simp [anonTotal]

theorem anonTotal_nonneg {coins : List COwnedAnonOutput} (h : ∀ oao ∈ coins, 0 ≤ oao.nValue) :
    0 ≤ anonTotal coins := by
  apply List.sum_nonneg
  intro n hn
  obtain ⟨oao, hoao, rfl⟩ := List.mem_map.mp hn
  exact toInt_nonneg (h oao hoao)

/-- The coins of the list other than the one of the kernel. -/
def otherCoins (n : Nat) (coins : List (COwnedAnonOutput × Nat)) : List COwnedAnonOutput :=
  (coins.filter fun e => e.2 ≠ n).map Prod.fst

theorem anonTotal_others (coins : List COwnedAnonOutput) (k n : Nat) (oao : COwnedAnonOutput)
    (h : coins[n]? = some oao) :
    oao.nValue.toInt + anonTotal (otherCoins (k + n) (coins.zipIdx k)) = anonTotal coins := by
  induction coins generalizing k n with
  | nil => cases h
  | cons oaoc coins ih =>
    cases n with
    | zero =>
      have hothers : otherCoins k (coins.zipIdx (k + 1)) = coins := by
        have hall : ∀ e ∈ coins.zipIdx (k + 1), decide (e.2 ≠ k) = true := by
          intro e he
          have hle := List.le_snd_of_mem_zipIdx he
          simp only [ne_eq, decide_eq_true_eq]
          omega
        rw [otherCoins, List.filter_eq_self.mpr hall, List.zipIdx_map_fst]
      have hhead : otherCoins k ((oaoc :: coins).zipIdx k) = otherCoins k (coins.zipIdx (k + 1)) := by
        simp [otherCoins, List.zipIdx_cons]
      rw [List.getElem?_cons_zero, Option.some.injEq] at h
      rw [Nat.add_zero, hhead, hothers, anonTotal_cons, h]
    | succ n =>
      have hrest := ih (k + 1) n h
      have hhead : otherCoins (k + (n + 1)) ((oaoc :: coins).zipIdx k) =
          oaoc :: otherCoins (k + 1 + n) (coins.zipIdx (k + 1)) := by
        simp [otherCoins, List.zipIdx_cons, Nat.add_assoc, Nat.add_comm 1 n]
      rw [hhead, anonTotal_cons, anonTotal_cons]
      omega

/-- What holds in every round: the credit is that of the picked coins, the coins of a group are alike,
and no coin is counted twice. -/
structure ConsolidationInv (lowest : Int64) (total : Int) (coins : List COwnedAnonOutput) (first : COwnedAnonOutput)
    (rest : List COwnedAnonOutput) (st : Consolidation) : Prop where
  credit : st.nCredit = (st.vPickedCoins.map COwnedAnonOutput.nValue).sum - lowest
  alike : ∀ oao ∈ st.vConsolidateCoins, oao.nValue = st.lastCombineValue
  group : ∀ oao ∈ st.vConsolidateCoins, oao ∈ coins
  picked : ∀ oao ∈ st.vPickedCoins, oao ∈ coins
  begins : ∃ others, st.vPickedCoins = first :: others
  bounded : anonTotal st.vPickedCoins + anonTotal st.vConsolidateCoins + anonTotal rest ≤ total

variable {lowest : Int64} {total : Int} {coins : List COwnedAnonOutput} {first : COwnedAnonOutput}

theorem ConsolidationInv.startGroup {rest : List COwnedAnonOutput} {st : Consolidation}
    (h : ConsolidationInv lowest total coins first rest st) (hcoins : ∀ oao ∈ coins, 0 ≤ oao.nValue)
    (nValue : Int64) : ConsolidationInv lowest total coins first rest (st.startGroup w nValue) ∧
      (st.startGroup w nValue).lastCombineValue = nValue := by
  unfold Consolidation.startGroup
  split
  · have hgroup := anonTotal_nonneg fun oao hoao => hcoins oao (h.group oao hoao)
    have hbounded := h.bounded
    refine ⟨⟨h.credit, by simp, by simp, h.picked, h.begins, ?_⟩, rfl⟩
    dsimp only
    rw [anonTotal_nil]
    omega
  · rename_i hsame
    exact ⟨h, not_not.mp hsame⟩

theorem sum_of_alike (l : List COwnedAnonOutput) (nValue : Int64) (hlength : l.length = 10)
    (h : ∀ oao ∈ l, oao.nValue = nValue) : (l.map COwnedAnonOutput.nValue).sum = nValue * 10 := by
  have hmap : l.map COwnedAnonOutput.nValue = List.replicate 10 nValue := by
    rw [List.eq_replicate_iff, List.length_map]
    refine ⟨hlength, fun n hn => ?_⟩
    obtain ⟨oao, hoao, rfl⟩ := List.mem_map.mp hn
    exact h oao hoao
  rw [hmap]
  simp only [List.replicate, List.sum_cons, List.sum_nil]
  grind

theorem ConsolidationInv.addCoin {rest : List COwnedAnonOutput} {st : Consolidation}
    {oaoc : COwnedAnonOutput} (h : ConsolidationInv lowest total coins first (oaoc :: rest) st)
    (hmem : oaoc ∈ coins) (hvalue : st.lastCombineValue = oaoc.nValue) :
    ConsolidationInv lowest total coins first rest (st.addCoin oaoc) := by
  have halike : ∀ oao ∈ st.vConsolidateCoins ++ [oaoc], oao.nValue = st.lastCombineValue := by
    intro oao hoao
    cases List.mem_append.mp hoao with
    | inl hold => exact h.alike oao hold
    | inr hnew => rw [List.mem_singleton.mp hnew, hvalue]
  have hgroup : ∀ oao ∈ st.vConsolidateCoins ++ [oaoc], oao ∈ coins := by
    intro oao hoao
    cases List.mem_append.mp hoao with
    | inl hold => exact h.group oao hold
    | inr hnew => rwa [List.mem_singleton.mp hnew]
  have hbounded := h.bounded
  rw [anonTotal_cons] at hbounded
  unfold Consolidation.addCoin
  dsimp only
  split
  · rename_i hten
    obtain ⟨others, hbegins⟩ := h.begins
    refine ⟨?_, by simp, by simp, ?_, ⟨others ++ (st.vConsolidateCoins ++ [oaoc]), by simp [hbegins]⟩, ?_⟩
    · rw [h.credit, List.map_append, List.sum_append, sum_of_alike _ _ hten.2 halike, hvalue]
      grind
    · intro oao hoao
      exact (List.mem_append.mp hoao).elim (h.picked oao) (hgroup oao)
    · simp only [anonTotal_append, anonTotal_cons, anonTotal_nil]
      omega
  · refine ⟨h.credit, halike, hgroup, h.picked, h.begins, ?_⟩
    simp only [anonTotal_append, anonTotal_cons, anonTotal_nil]
    omega

theorem ConsolidationInv.dropRest {rest : List COwnedAnonOutput} {st : Consolidation}
    (h : ConsolidationInv lowest total coins first rest st) (hrest : ∀ oao ∈ rest, 0 ≤ oao.nValue) :
    ConsolidationInv lowest total coins first [] st := by
  have hbounded := h.bounded
  have hnonneg := anonTotal_nonneg hrest
  refine ⟨h.credit, h.alike, h.group, h.picked, h.begins, ?_⟩
  rw [anonTotal_nil]
  omega

/-- The loop keeps the invariant to its end. -/
theorem consolidate_inv (n : Nat) (hcoins : ∀ oao ∈ coins, 0 ≤ oao.nValue)
    (l : List (COwnedAnonOutput × Nat)) (st : Consolidation) (hl : ∀ e ∈ l, e.1 ∈ coins)
    (h : ConsolidationInv lowest total coins first (otherCoins n l) st) :
    ConsolidationInv lowest total coins first [] (consolidate w n l st) := by
  have hends : ∀ l' st', (∀ e ∈ l', e.1 ∈ coins) →
      ConsolidationInv lowest total coins first (otherCoins n l') st' →
      ConsolidationInv lowest total coins first [] st' := by
    intro l' st' hl' h'
    apply h'.dropRest
    intro oao hoao
    obtain ⟨e, he, rfl⟩ := List.mem_map.mp hoao
    exact hcoins _ (hl' e (List.mem_filter.mp he).1)
  induction l generalizing st with
  | nil => exact h
  | cons e l ih =>
    have hl' : ∀ e' ∈ l, e'.1 ∈ coins := fun e' he' => hl e' (List.mem_cons_of_mem e he')
    unfold consolidate
    split
    · exact hends _ st hl h
    · by_cases hown : e.2 = n
      · have hothers : otherCoins n (e :: l) = otherCoins n l := by simp [otherCoins, hown]
        rw [if_pos hown]
        exact ih st hl' (hothers ▸ h)
      · have hothers : otherCoins n (e :: l) = e.1 :: otherCoins n l := by simp [otherCoins, hown]
        rw [if_neg hown]
        rw [hothers] at h
        obtain ⟨hstart, hlast⟩ := h.startGroup w hcoins e.1.nValue
        have hadd := hstart.addCoin (hl e List.mem_cons_self) hlast
        dsimp only
        split
        · exact hends l _ hl' hadd
        · exact ih _ hl' hadd

/-- The denomination that is split off is worth no more than the coin. -/
theorem lowestAOC_bounds (hstats : ∀ it ∈ w.mapAnonOutputStats, 0 ≤ it.2.nValue ∧ it.2.nValue ≤ it.1)
    (nValue : Int64) (count : CAnonOutputCount) (h : lowestAOC env w nValue = some count) :
    0 ≤ count.nValue ∧ count.nValue ≤ nValue := by
  unfold lowestAOC at h
  have hmem : ∀ it ∈ w.mapAnonOutputStats.reverse.takeWhile fun it =>
      !decide (it.1 < env.p.nMinTxFee * 10), it ∈ w.mapAnonOutputStats := by
    intro it hit
    exact List.mem_reverse.mp ((List.takeWhile_prefix _).sublist.subset hit)
  revert hmem h
  generalize w.mapAnonOutputStats.reverse.takeWhile
    (fun it => !decide (it.1 < env.p.nMinTxFee * 10)) = l
  have hgeneral : ∀ (l : List (Int64 × CAnonOutputCount)) (lowest : Option CAnonOutputCount),
      (∀ count', lowest = some count' → 0 ≤ count'.nValue ∧ count'.nValue ≤ nValue) →
      (∀ it ∈ l, it ∈ w.mapAnonOutputStats) → ∀ count',
        l.foldl (lowerAOC nValue) lowest = some count' → 0 ≤ count'.nValue ∧ count'.nValue ≤ nValue := by
    intro l
    induction l with
    | nil => exact fun lowest hlowest _ => hlowest
    | cons it l ih =>
      intro lowest hlowest hmem count' hfold
      refine ih _ ?_ (fun it' h' => hmem it' (List.mem_cons_of_mem it h')) count' hfold
      intro count'' hround
      unfold lowerAOC at hround
      split at hround
      · exact hlowest count'' hround
      · rename_i hbelow
        have hit := hstats it (hmem it List.mem_cons_self)
        have hnew : 0 ≤ it.2.nValue ∧ it.2.nValue ≤ nValue := by
          rw [not_or, ge_iff_le, Int64.not_le] at hbelow
          exact ⟨hit.1, Int64.le_trans hit.2 (Int64.le_of_lt hbelow.1)⟩
        split at hround
        · cases hround
          exact hnew
        · split at hround
          · cases hround
            exact hnew
          · exact hlowest count'' hround
  intro h hmem
  exact hgeneral l none (by simp) hmem count h

/-- A map that may fail, seen through functions of the elements before and after. -/
theorem mapM_map_eq {A B C : Type} {f : A → Option B} (g : A → C) (g' : B → C) (l : List A) (r : List B)
    (h : l.mapM f = some r) (hf : ∀ a ∈ l, ∀ b, f a = some b → g' b = g a) : r.map g' = l.map g := by
  induction l generalizing r with
  | nil =>
    simp only [List.mapM_nil, Option.pure_def, Option.some.injEq] at h
    rw [← h]
    rfl
  | cons a l ih =>
    simp only [List.mapM_cons, Option.bind_eq_bind, Option.bind_eq_some_iff, Option.pure_def,
      Option.some.injEq] at h
    obtain ⟨b, hb, r', hr', rfl⟩ := h
    rw [List.map_cons, List.map_cons, hf a List.mem_cons_self b hb,
      ih r' hr' fun a' ha' => hf a' (List.mem_cons_of_mem a ha')]

theorem mapM_mem {A B : Type} {f : A → Option B} (l : List A) (r : List B) (h : l.mapM f = some r) :
    ∀ b ∈ r, ∃ a ∈ l, f a = some b := by
  induction l generalizing r with
  | nil =>
    simp only [List.mapM_nil, Option.pure_def, Option.some.injEq] at h
    rw [← h]
    simp
  | cons a l ih =>
    simp only [List.mapM_cons, Option.bind_eq_bind, Option.bind_eq_some_iff, Option.pure_def,
      Option.some.injEq] at h
    obtain ⟨b, hb, r', hr', rfl⟩ := h
    intro b' hb'
    cases List.mem_cons.mp hb' with
    | inl heq => exact ⟨a, List.mem_cons_self, heq ▸ hb⟩
    | inr hrest =>
      obtain ⟨a', ha', hb''⟩ := ih r' hr' b' hrest
      exact ⟨a', List.mem_cons_of_mem a ha', hb''⟩

/-- Anonymous coins in range, with rings of their own value. -/
structure AnonCoinsSound (nFees : Int64) : Prop where
  nonneg : ∀ nTarget coins, w.listAvailableAnonOutputs nTarget = some coins →
    ∀ oao ∈ coins, 0 ≤ oao.nValue
  inRange : ∀ nTarget coins, w.listAvailableAnonOutputs nTarget = some coins →
    anonTotal coins + (getProofOfAnonStakeReward env.p c.pindexBest nFees).toInt < 2 ^ 63
  rings : ∀ nTarget coins, w.listAvailableAnonOutputs nTarget = some coins → ∀ oao ∈ coins,
    ∀ i txin, addAnonInput w MIN_RING_SIZE oao i = some txin → txin.isAnonInput ∧
      ringValue (env.anonView c pool s.disk s.disk.txIndex) txin = oao.nValue.toInt
  stats : ∀ it ∈ w.mapAnonOutputStats, 0 ≤ it.2.nValue ∧ it.2.nValue ≤ it.1
  maxOutput : 2 ^ 32 ≤ w.nMaxAnonStakeOutput.toInt

theorem addAnonInput_notNull (oao : COwnedAnonOutput) (i : Nat) (txin : CTxIn)
    (h : addAnonInput w MIN_RING_SIZE oao i = some txin) : ¬ txin.prevout.isNull := by
  obtain ⟨script, -, rfl⟩ := Option.map_eq_some_iff.mp h
  have hlow : (oao.vchImage.getD 32 0).toNat % 256 < 256 := Nat.mod_lt _ (by decide)
  generalize (oao.vchImage.getD 32 0).toNat % 256 = m at hlow
  intro hnull
  simp only [COutPoint.isNull, Bool.and_eq_true, beq_iff_eq] at hnull
  have hn := congrArg UInt32.toNat hnull.2
  simp [MIN_RING_SIZE] at hn
  omega

theorem isCoinStake_of_shape {tx : CTransaction} (hvin : tx.vin ≠ [])
    (hprevout : ∀ txin ∈ tx.vin, ¬ txin.prevout.isNull) (txout : CTxOut) (vout : List CTxOut)
    (hvout : tx.vout = ⟨0, []⟩ :: txout :: vout) : tx.isCoinStake := by
  unfold CTransaction.isCoinStake
  cases h : tx.vin with
  | nil => exact absurd h hvin
  | cons txin vin =>
    have hfirst := hprevout txin (by simp [h])
    simp [hvout, hfirst, CTxOut.isEmpty]

/-- The credit that is split stays in range. -/
theorem anonCredit_nonneg {st : Consolidation} {nReward : Int64} (hreward : 0 < nReward)
    (hinv : ConsolidationInv lowest total coins first [] st) (hcoins : ∀ oao ∈ coins, 0 ≤ oao.nValue)
    (htotal : total + nReward.toInt < 2 ^ 63) (hlowest : 0 ≤ lowest ∧ lowest ≤ first.nValue)
    (fDonate : Bool) : 0 ≤ if fDonate then st.nCredit else st.nCredit + nReward := by
  obtain ⟨others, hbegins⟩ := hinv.begins
  have hothers : 0 ≤ anonTotal others :=
    anonTotal_nonneg fun oao hoao => hcoins oao (hinv.picked oao (by simp [hbegins, hoao]))
  have hgroup := anonTotal_nonneg fun oao hoao => hcoins oao (hinv.group oao hoao)
  have hbounded := hinv.bounded
  have hlow := toInt_nonneg hlowest.1
  have hle := Int64.le_iff_toInt_le.mp hlowest.2
  have hpos : 0 < nReward.toInt := by simpa using Int64.lt_iff_toInt_lt.mp hreward
  have hpicked : anonTotal st.vPickedCoins = first.nValue.toInt + anonTotal others := by
    rw [hbegins, anonTotal_cons]
  rw [anonTotal_nil] at hbounded
  have hcredit : st.nCredit = Int64.ofInt (anonTotal st.vPickedCoins - lowest.toInt) := by
    rw [hinv.credit, Int64.ofInt_sub, Int64.ofInt_toInt, anonTotal, ← ofInt_sum, List.map_map]
    rfl
  rw [hcredit, Int64.le_iff_toInt_le]
  cases fDonate with
  | true =>
    rw [if_pos rfl, Int64.toInt_ofInt_of_le (by omega) (by omega)]
    simpa using by omega
  | false =>
    rw [if_neg Bool.false_ne_true, ← Int64.ofInt_toInt nReward, ← Int64.ofInt_add,
      Int64.toInt_ofInt_of_le (by omega) (by omega)]
    simpa using by omega

theorem findAnonKernel_spec (nBits nTime : UInt32) (nSearchInterval : Int) (coins : List COwnedAnonOutput)
    (oao : COwnedAnonOutput) (n : Nat) (nTimeKernel : UInt32)
    (h : findAnonKernel w nBits nTime nSearchInterval coins = some ((oao, n), nTimeKernel)) :
    coins[n]? = some oao ∧ nTimeKernel ∈ searchTimes nTime nSearchInterval := by
  obtain ⟨e, he, hround⟩ := List.exists_of_findSome?_eq_some h
  obtain ⟨nTime', htime, heq⟩ := Option.map_eq_some_iff.mp hround
  rw [Prod.mk.injEq] at heq
  rw [heq.1, List.mem_zipIdx_iff_getElem?] at he
  exact ⟨he, heq.2 ▸ List.mem_of_find?_eq_some htime⟩

theorem stakePaid_of_rings {tx : CTransaction} (hversion : tx.nVersion = ANON_TXN_VERSION)
    (hrings : ∀ txin ∈ tx.vin, txin.isAnonInput) :
    stakePaid env c pool s tx = tx.getValueOut - Int64.ofInt (tx.vin.map
      (ringValue (env.anonView c pool s.disk s.disk.txIndex))).sum := by
  have hskip : ∀ txin ∈ tx.vin, tx.skipsInput txin := by
    intro txin htxin
    simp [CTransaction.skipsInput, hversion, hrings txin htxin]
  have hclear : tx.transparentInputs = [] := by
    rw [CTransaction.transparentInputs, List.filter_eq_nil_iff]
    intro txin htxin
    simp [hskip txin htxin]
  have hring : tx.ringInputs = tx.vin := List.filter_eq_self.mpr hskip
  have hvalueIn : getValueIn (prevTxs env pool s.disk) tx = 0 := by
    simp [getValueIn, hclear]
  rw [stakePaid, hvalueIn, hring, Int64.zero_add]

theorem splitCredit_sum (hmax : 2 ^ 32 ≤ w.nMaxAnonStakeOutput.toInt) (nCredit : Int64) (h : 0 ≤ nCredit) :
    (if nCredit ≠ 0 then splitAmount nCredit w.nMaxAnonStakeOutput else []).sum = nCredit := by
  split
  · exact splitAmount_sum nCredit w.nMaxAnonStakeOutput h hmax
  · rename_i hzero
    rw [not_not.mp hzero]
    rfl

theorem lowestValue_bounds (hstats : ∀ it ∈ w.mapAnonOutputStats, 0 ≤ it.2.nValue ∧ it.2.nValue ≤ it.1)
    (nValue : Int64) (hvalue : 0 ≤ nValue) :
    0 ≤ ((lowestAOC env w nValue).map CAnonOutputCount.nValue).getD 0 ∧
      ((lowestAOC env w nValue).map CAnonOutputCount.nValue).getD 0 ≤ nValue := by
  cases hlowest : lowestAOC env w nValue with
  | none => exact ⟨Int64.le_refl 0, hvalue⟩
  | some count => exact lowestAOC_bounds env w hstats nValue count hlowest

/-- The inputs for picked coins are rings of their values. -/
theorem addAnonInputs_rings {nFees : Int64} (hcoins : AnonCoinsSound env c pool s w nFees) {nTarget : Int64}
    {coins : List COwnedAnonOutput} (hlist : w.listAvailableAnonOutputs nTarget = some coins)
    {vPickedCoins : List COwnedAnonOutput} (hpicked : ∀ oao ∈ vPickedCoins, oao ∈ coins) {vin : List CTxIn}
    (hvin : vPickedCoins.zipIdx.mapM (fun e => addAnonInput w MIN_RING_SIZE e.1 e.2) = some vin) :
    (∀ txin ∈ vin, txin.isAnonInput ∧ ¬ txin.prevout.isNull) ∧
      vin.map (ringValue (env.anonView c pool s.disk s.disk.txIndex)) =
        vPickedCoins.map fun oao => oao.nValue.toInt := by
  constructor
  · intro txin htxin
    obtain ⟨e, he, hinput⟩ := mapM_mem _ vin hvin txin htxin
    have hcoin := hpicked e.1 (List.fst_mem_of_mem_zipIdx he)
    exact ⟨(hcoins.rings _ coins hlist e.1 hcoin e.2 txin hinput).1,
      addAnonInput_notNull w e.1 e.2 txin hinput⟩
  · have hmap := mapM_map_eq (fun e : COwnedAnonOutput × Nat => e.1.nValue.toInt)
      (ringValue (env.anonView c pool s.disk s.disk.txIndex)) _ vin hvin (by
        intro e he txin hinput
        have hcoin := hpicked e.1 (List.fst_mem_of_mem_zipIdx he)
        exact (hcoins.rings _ coins hlist e.1 hcoin e.2 txin hinput).2)
    rw [hmap, ← List.zipIdx_map_fst 0 vPickedCoins, List.map_map, List.zipIdx_map_fst]
    rfl

/-- An anonymous stake pays the reward that it was created with. -/
theorem createAnonCoinStake_spec (nBits : UInt32) (nSearchInterval : Int) (nFees : Int64)
    (hcoins : AnonCoinsSound env c pool s w nFees) (nTime : UInt32) (tx : CTransaction) (key : K)
    (h : createAnonCoinStake env c s.disk w nBits nSearchInterval nFees nTime = some (tx, key)) :
    tx.isAnonCoinStake ∧ tx.nTime ∈ searchTimes nTime nSearchInterval ∧
      stakePaid env c pool s tx = getProofOfAnonStakeReward env.p c.pindexBest nFees ∧
      0 < stakePaid env c pool s tx ∧
      ∃ vout, tx.vout = ⟨0, []⟩ :: vout ∧ DonatesBehind env c w (stakePaid env c pool s tx) vout := by
  simp only [createAnonCoinStake, Option.bind_eq_bind, Option.bind_none, Option.ite_none_left_eq_some,
    Option.bind_eq_some_iff, Option.pure_def, Option.some.injEq, Prod.mk.injEq, Int64.not_le,
    Prod.exists] at h
  obtain ⟨-, coins, hlist, oao, n, nTimeKernel, hkernel, hreward, outs, houts, txout, key', hhead, vin,
    hvin, -, -, htx, -⟩ := h
  obtain ⟨hposition, htime⟩ := findAnonKernel_spec w nBits nTime nSearchInterval coins oao n nTimeKernel
    hkernel
  have hnonneg := hcoins.nonneg _ coins hlist
  have hmem : oao ∈ coins := List.mem_of_getElem? hposition
  have hlowest := lowestValue_bounds env w hcoins.stats oao.nValue (hnonneg oao hmem)
  generalize (lowestAOC env w oao.nValue).map CAnonOutputCount.nValue = lowest at *
  have hstart : ConsolidationInv (lowest.getD 0) (anonTotal coins) coins oao (otherCoins n coins.zipIdx)
      ⟨[oao], oao.nValue - lowest.getD 0, -1, [], 0, 0⟩ := by
    have hothers := anonTotal_others coins 0 n oao hposition
    rw [Nat.zero_add] at hothers
    refine ⟨by simp, by simp, by simp, by simpa using hmem, ⟨[], rfl⟩, ?_⟩
    simp only [anonTotal_cons, anonTotal_nil]
    omega
  have hinv := consolidate_inv w n hnonneg coins.zipIdx _ (fun e he => List.fst_mem_of_mem_zipIdx he) hstart
  generalize consolidate w n coins.zipIdx _ = st at *
  have hcredit := anonCredit_nonneg hreward hinv hnonneg (hcoins.inRange _ coins hlist) hlowest
    (donatesStake env c w)
  -- the outputs
  have hamounts : (outs.map fun out => out.1.nValue).sum = lowest.getD 0 +
      if donatesStake env c w then st.nCredit
      else st.nCredit + getProofOfAnonStakeReward env.p c.pindexBest nFees := by
    have hmap := mapM_map_eq Prod.fst (fun out : CTxOut × K => out.1.nValue) _ outs houts (by
      intro e _ out hout
      obtain ⟨script, -, rfl⟩ := Option.map_eq_some_iff.mp hout
      rfl)
    rw [List.zipIdx_map_fst] at hmap
    rw [hmap, List.sum_append, splitCredit_sum w hcoins.maxOutput _ hcredit]
    cases lowest with
    | none => rfl
    | some nValue => simp
  -- the inputs
  obtain ⟨hrings, hvalues⟩ := addAnonInputs_rings env c pool s w hcoins hlist hinv.picked hvin
  have hvinNil : vin ≠ [] := by
    intro hnil
    obtain ⟨others, hbegins⟩ := hinv.begins
    rw [hnil, hbegins] at hvalues
    cases hvalues
  obtain ⟨sorted, hsorted⟩ := List.head?_eq_some_iff.mp hhead
  have hpicked : Int64.ofInt (st.vPickedCoins.map fun oao => oao.nValue.toInt).sum =
      (st.vPickedCoins.map COwnedAnonOutput.nValue).sum := by
    rw [← ofInt_sum, List.map_map]
    rfl
  have hsum : (((outs.mergeSort fun a b => decide (a.1.nValue ≤ b.1.nValue)).map Prod.fst).map
      CTxOut.nValue).sum = (outs.map fun out => out.1.nValue).sum := by
    have hperm := (List.mergeSort_perm outs fun a b => decide (a.1.nValue ≤ b.1.nValue)).map
      fun out : CTxOut × K => out.1.nValue
    rw [List.map_map]
    exact sum_perm hperm
  have hversion : tx.nVersion = ANON_TXN_VERSION := by rw [← htx]
  have htime' : tx.nTime = nTimeKernel := by rw [← htx]
  have htxin : tx.vin = vin := by rw [← htx]
  have htxout : tx.vout =
      ⟨0, []⟩ :: (outs.mergeSort fun a b => decide (a.1.nValue ≤ b.1.nValue)).map Prod.fst ++
        if donatesStake env c w then
          [⟨getProofOfAnonStakeReward env.p c.pindexBest nFees, donationScript env c⟩] else [] := by
    rw [← htx]
  have hpaid : stakePaid env c pool s tx = getProofOfAnonStakeReward env.p c.pindexBest nFees := by
    rw [stakePaid_of_rings env c pool s hversion fun txin h => (hrings txin (htxin ▸ h)).1, htxin, hvalues,
      hpicked, CTransaction.getValueOut, htxout, List.cons_append, List.map_cons, List.sum_cons,
      List.map_append, List.sum_append, hsum, hamounts, hinv.credit]
    cases donatesStake env c w with
    | true =>
      simp only [if_true, List.map_cons, List.map_nil, List.sum_cons, List.sum_nil]
      grind
    | false =>
      simp only [Bool.false_eq_true, if_false, List.map_nil, List.sum_nil]
      grind
  refine ⟨?_, htime' ▸ htime, hpaid, hpaid ▸ hreward, _, htxout, ?_⟩
  rotate_left
  · refine ⟨txout, _, by rw [hsorted]; rfl, fun hdonates => ?_⟩
    rw [if_pos hdonates, hpaid]
    exact List.mem_append_right _ (List.mem_singleton_self _)
  rw [CTransaction.isAnonCoinStake, hversion, beq_self_eq_true, Bool.true_and]
  apply isCoinStake_of_shape (htxin ▸ hvinNil) (fun txin h => (hrings txin (htxin ▸ h)).2) txout
    (sorted.map Prod.fst ++ if donatesStake env c w then
      [⟨getProofOfAnonStakeReward env.p c.pindexBest nFees, donationScript env c⟩] else [])
  rw [htxout, hsorted]
  rfl

end AnonCoins

section Signed

variable {Pt L K D : Type} (env : NodeEnv Pt L) (c : ChainState) (pool : CTxMemPool) (s : Session L)
  (w : StakeWallet K) (F : DoubleOps D) (heap : HeapOps (TxPriority D)) (limits : BlockLimits)

/-- The fees of the transactions behind the coinstake. -/
def feesLeft (block : CBlock) : Int64 := ((block.vtx.drop 2).map (txFee env c pool s.disk)).sum

theorem getMinFeeAt_pos {p : ChainParams} (hfee : 0 < p.nMinTxFee ∧ p.nMinTxFee ≤ 10000)
    (nBlockSize : Nat) : 0 < getMinFeeAt p nBlockSize := by
  have hlow : 0 < p.nMinTxFee.toInt := by simpa using Int64.lt_iff_toInt_lt.mp hfee.1
  have hhigh : p.nMinTxFee.toInt ≤ 10000 := by simpa using Int64.le_iff_toInt_le.mp hfee.2
  have hmax : (0 : Int64) < MAX_MONEY := by decide
  unfold getMinFeeAt
  split
  · rename_i hlarge
    split
    · exact hmax
    · rename_i hsmall
      have hgen : MAX_BLOCK_SIZE_GEN / (MAX_BLOCK_SIZE_GEN - nBlockSize) ≤ MAX_BLOCK_SIZE_GEN :=
        Nat.div_le_self _ _
      have hone : 1 ≤ MAX_BLOCK_SIZE_GEN / (MAX_BLOCK_SIZE_GEN - nBlockSize) := by
        apply (Nat.one_le_div_iff (by omega)).mpr
        exact Nat.sub_le _ _
      have hlimit : MAX_BLOCK_SIZE_GEN ≤ 2 ^ 30 := by decide
      generalize MAX_BLOCK_SIZE_GEN / (MAX_BLOCK_SIZE_GEN - nBlockSize) = k at hgen hone
      have hk : (Int64.ofNat k).toInt = k := Int64.toInt_ofNat_of_lt (by omega)
      have hprod : 0 < p.nMinTxFee.toInt * k := Int.mul_pos hlow (by omega)
      have hprod' : p.nMinTxFee.toInt * k ≤ 10000 * 2 ^ 30 :=
        Int.mul_le_mul hhigh (by omega) (by omega) (by omega)
      dsimp only
      split
      · rw [Int64.lt_iff_toInt_lt, Int64.toInt_mul, hk, Int.bmod_eq_of_le (by omega) (by omega)]
        simpa using hprod
      · exact hmax
  · dsimp only
    split
    · exact hfee.1
    · exact hmax

/-- The reward rises with the fees. -/
theorem calculatedStakeReward_fees (block : CBlock) (pindex : CBlockIndex) (nFees nReward : Int64)
    (h : calculatedStakeReward env s block pindex nFees = some nReward) (nFees' : Int64) :
    calculatedStakeReward env s block pindex nFees' = some (nReward - nFees + nFees') := by
  unfold calculatedStakeReward at h ⊢
  obtain ⟨nCoinAge, hage, hreward⟩ := Option.map_eq_some_iff.mp h
  rw [hage, Option.map_some, ← hreward]
  congr 1
  split
  · simp only [getProofOfAnonStakeReward]
    grind
  · simp only [getProofOfStakeReward]
    grind

theorem sub_lt_int64 {a d : Int64} (ha : 0 < a) (hd : 0 < d) : a - d < a := by
  have ha' : 0 < a.toInt := by simpa using Int64.lt_iff_toInt_lt.mp ha
  have hd' : 0 < d.toInt := by simpa using Int64.lt_iff_toInt_lt.mp hd
  have hlt := a.toInt_lt
  have hlt' := d.toInt_lt
  rw [Int64.lt_iff_toInt_lt, Int64.toInt_sub, Int.bmod_eq_of_le (by omega) (by omega)]
  omega

/-- What `createStake` returns pays the reward of a block with the fees it was given. -/
theorem createStake_spec (nBits : UInt32) (nSearchTime nSearchInterval : Int) (nFees : Int64)
    (hcoins : CoinsSound env pool s w) (hanon : AnonCoinsSound env c pool s w nFees) (tx : CTransaction)
    (key : K) (h : createStake env c s w nBits nSearchTime nSearchInterval nFees = some (tx, key))
    (block : CBlock) (b : BlockNode) (tx0 : CTransaction) (rest : List CTransaction)
    (hvtx : block.vtx = tx0 :: tx :: rest) :
    tx.nTime ∈ searchTimes nSearchTime.toNat.toUInt32 nSearchInterval ∧
      0 < stakePaid env c pool s tx ∧
      ∀ nReward, calculatedStakeReward env s block (b :: c.pindexBest) nFees = some nReward →
        stakePaid env c pool s tx = nReward := by
  unfold createStake at h
  dsimp only at h
  cases Option.or_eq_some_iff.mp h with
  | inl hstake =>
    split at hstake
    · obtain ⟨hkind, htime, hpaid, hpos, -⟩ := createAnonCoinStake_spec env c pool s w _ _ _ hanon _ tx key
        hstake
      refine ⟨htime, hpos, fun nReward hreward => ?_⟩
      obtain ⟨nCoinAge, -, rfl⟩ := Option.map_eq_some_iff.mp hreward
      have hblock : block.isProofOfAnonStake = true := by
        rw [CBlock.isProofOfAnonStake, hvtx]
        exact hkind
      rw [hblock, if_pos rfl, hpaid]
      rfl
    · cases hstake
  | inr hstake =>
    obtain ⟨hversion, htime, nCoinAge, hage, hpaid, hpos, -⟩ := createCoinStake_spec env c pool s w hcoins _ _
      _ _ tx key hstake.2
    refine ⟨htime, hpos, fun nReward hreward => ?_⟩
    have hblock : block.isProofOfAnonStake = false := by
      rw [CBlock.isProofOfAnonStake, hvtx]
      simp [CTransaction.isAnonCoinStake, hversion, ANON_TXN_VERSION]
    rw [calculatedStakeReward, hvtx, hblock] at hreward
    simp only [List.getElem?_cons_succ, List.getElem?_cons_zero, Option.bind_some, List.tail_cons, hage,
      Option.map_some, Bool.false_eq_true, if_false, Option.some.injEq] at hreward
    rw [hpaid, hreward]

/-- A block that `SignBlock` has signed: the coinstake it found, and the transactions that are not newer. -/
theorem signBlock_eq_some (nAdjustedTime : Int) (search : StakeSearch) (block block' : CBlock)
    (nFees : Int64) (hwork : block.isProofOfStake = false)
    (h : (signBlock env c s w nAdjustedTime search block nFees).1 = some block') :
    ∃ tx0 rest nSearchInterval txCoinStake key, block.vtx = tx0 :: rest ∧
      (env.p.isProtocolV2 (c.nBestHeight + 1) → nSearchInterval = 1) ∧
      createStake env c s w block.nBits (stakeSearchTime env c nAdjustedTime) nSearchInterval nFees =
        some (txCoinStake, key) ∧
      block'.nTime = txCoinStake.nTime ∧
      block'.vtx = { tx0 with nTime := txCoinStake.nTime } :: txCoinStake ::
        rest.filter fun tx => !decide (tx.nTime > txCoinStake.nTime) := by
  unfold signBlock at h
  split at h
  · cases h
  · rename_i htemplate
    rw [hwork, if_neg Bool.false_ne_true] at h
    dsimp only at h
    split at h
    · cases h
    · split at h
      · rename_i txCoinStake key hstake
        obtain ⟨vchBlockSig, -, rfl⟩ := Option.map_eq_some_iff.mp h
        rw [Option.filter_eq_some_iff] at hstake
        cases hvtx : block.vtx with
        | nil => simp [CBlock.isStakeTemplate, hvtx] at htemplate
        | cons tx0 rest =>
          refine ⟨tx0, rest, _, txCoinStake, key, rfl, ?_, hstake.1, rfl, ?_⟩
          · intro hv2
            rw [if_pos hv2]
          · simp [CBlock.withStake, hvtx]
      · cases h

/-- The transactions of a template behind the coinbase, their fees, and what each of them pays. -/
theorem createNewBlock_fees (hpool : PoolSound env c pool s.disk) (fProofOfStake : Bool) (nBits : UInt32)
    (scriptSig scriptPubKey : Bytes) (block : CBlock) (nFees : Int64)
    (h : createNewBlock env c pool s.disk F heap limits fProofOfStake nBits scriptSig scriptPubKey =
      some (block, nFees)) :
    nFees = (block.vtx.tail.map (txFee env c pool s.disk)).sum ∧
      (∀ tx ∈ block.vtx.tail, ¬ tx.isCoinStake ∧
        ∃ nBlockSize, getMinFeeAt env.p nBlockSize ≤ txFee env c pool s.disk tx) := by
  obtain ⟨st, hcollect, hinv, -, -⟩ := collectTransactions_spec env c pool s.disk F heap limits hpool
  simp only [createNewBlock, hcollect, Option.bind_eq_bind, Option.bind_some, Option.pure_def,
    Option.some.injEq, Prod.mk.injEq] at h
  obtain ⟨rfl, rfl⟩ := h
  refine ⟨hinv.nFees, fun tx htx => ⟨?_, hinv.paying tx htx⟩⟩
  have hconsidered := (hinv.checked tx htx).1
  simp only [considered, Bool.and_eq_true, Bool.not_eq_true'] at hconsidered
  simp [hconsidered.1.2]

theorem sum_pos_int64 {A : Type} (f : A → Int64) (l : List A) (hne : l ≠ [])
    (hpos : ∀ a ∈ l, 0 < (f a).toInt) (hrange : (l.map fun a => (f a).toInt).sum < 2 ^ 63) :
    0 < (l.map f).sum := by
  have hsum : 0 < (l.map fun a => (f a).toInt).sum := by
    apply List.sum_pos
    · intro n hn
      obtain ⟨a, ha, rfl⟩ := List.mem_map.mp hn
      exact hpos a ha
    · simpa using hne
  rw [Int64.lt_iff_toInt_lt, toInt_sum, List.map_map]
  change (0 : Int64).toInt < ((l.map fun a => (f a).toInt).sum).bmod (2 ^ 64)
  rw [Int.bmod_eq_of_le (by omega) (by omega)]
  exact hsum

/-- What is left out, where something is, has fees. -/
theorem droppedFees_pos {rest : List CTransaction} (nTime : UInt32)
    (hpos : ∀ tx ∈ rest, 0 < (txFee env c pool s.disk tx).toInt)
    (hrange : (rest.map fun tx => (txFee env c pool s.disk tx).toInt).sum < 2 ^ 63) {tx : CTransaction}
    (htx : tx ∈ rest) (hnewer : tx.nTime > nTime) :
    0 < ((rest.filter fun tx => decide (tx.nTime > nTime)).map (txFee env c pool s.disk)).sum := by
  apply sum_pos_int64
  · exact List.ne_nil_of_mem (List.mem_filter.mpr ⟨htx, by simpa using hnewer⟩)
  · intro tx' htx'
    exact hpos tx' (List.mem_filter.mp htx').1
  · refine lt_of_le_of_lt ?_ hrange
    apply List.Sublist.sum_le_sum (List.filter_sublist.map _)
    intro n hn
    obtain ⟨tx', htx', rfl⟩ := List.mem_map.mp hn
    exact (hpos tx' htx').le

/-- A signed stake pays no more than the reward of its block exactly where nothing was left out. From
protocol V2 on its time is the clock in steps of 16 seconds. -/
theorem signBlock_paid_iff (hpool : PoolSound env c pool s.disk) (hcoins : CoinsSound env pool s w)
    (nBits : UInt32) (scriptSig scriptPubKey : Bytes) (block block' : CBlock) (nFees : Int64)
    (hanon : AnonCoinsSound env c pool s w nFees)
    (htemplate : createNewBlock env c pool s.disk F heap limits true nBits scriptSig scriptPubKey =
      some (block, nFees))
    (nAdjustedTime : Int) (search : StakeSearch)
    (hsign : (signBlock env c s w nAdjustedTime search block nFees).1 = some block') (b : BlockNode) :
    (env.p.isProtocolV2 (c.nBestHeight + 1) →
      block'.nTime = (stakeSearchTime env c nAdjustedTime).toNat.toUInt32) ∧
    ∃ txCoinStake, block'.vtx[1]? = some txCoinStake ∧ ∀ nReward,
      calculatedStakeReward env s block' (b :: c.pindexBest) (feesLeft env c pool s block') =
        some nReward →
      ((∀ tx ∈ block.vtx.tail, tx.nTime ≤ block'.nTime) → stakePaid env c pool s txCoinStake ≤ nReward) ∧
      (0 < env.p.nMinTxFee → env.p.nMinTxFee ≤ 10000 →
        (block.vtx.tail.map fun tx => (txFee env c pool s.disk tx).toInt).sum < 2 ^ 63 →
        stakePaid env c pool s txCoinStake ≤ nReward → ∀ tx ∈ block.vtx.tail, tx.nTime ≤ block'.nTime) := by
  obtain ⟨hfees, hpaying⟩ := createNewBlock_fees env c pool s F heap limits hpool true nBits scriptSig
    scriptPubKey block nFees htemplate
  have hwork : block.isProofOfStake = false := by
    unfold CBlock.isProofOfStake
    split
    · rename_i tx0 tx rest hvtx
      have hplain := (hpaying tx (by simp [hvtx])).1
      simpa using hplain
    · rfl
  obtain ⟨tx0, rest, nSearchInterval, txCoinStake, key, hvtx, hinterval, hstake, htime, hvtx'⟩ :=
    signBlock_eq_some env c s w nAdjustedTime search block block' nFees hwork hsign
  obtain ⟨hkernel, hpos, hpaid⟩ := createStake_spec env c pool s w _ _ _ nFees hcoins hanon txCoinStake key
    hstake block' b _ _ hvtx'
  rw [htime]
  refine ⟨?_, txCoinStake, by rw [hvtx']; rfl, fun nReward hreward => ?_⟩
  · intro hv2
    rw [hinterval hv2] at hkernel
    simpa [searchTimes, nMaxStakeSearchInterval] using hkernel
  have hall : nReward - feesLeft env c pool s block' + nFees = stakePaid env c pool s txCoinStake :=
    (hpaid _ (calculatedStakeReward_fees env s block' _ _ nReward hreward nFees)).symm
  rw [hvtx, List.tail_cons] at hfees hpaying ⊢
  have hleft : feesLeft env c pool s block' =
      ((rest.filter fun tx => !decide (tx.nTime > txCoinStake.nTime)).map (txFee env c pool s.disk)).sum := by
    rw [feesLeft, hvtx']
    rfl
  constructor
  · intro hnone
    have hkept : rest.filter (fun tx => !decide (tx.nTime > txCoinStake.nTime)) = rest := by
      rw [List.filter_eq_self]
      intro tx htx
      simpa using hnone tx htx
    rw [hleft, hkept, ← hfees, Int64.sub_add_cancel] at hall
    rw [← hall]
    exact Int64.le_refl _
  · intro hfee hfee' hrange hle tx htx
    have hfeePos : ∀ tx ∈ rest, 0 < (txFee env c pool s.disk tx).toInt := by
      intro tx htx
      obtain ⟨nBlockSize, hmin⟩ := (hpaying tx htx).2
      have hlt := Int64.lt_of_lt_of_le (getMinFeeAt_pos ⟨hfee, hfee'⟩ nBlockSize) hmin
      simpa using Int64.lt_iff_toInt_lt.mp hlt
    by_contra hnewer
    -- the fees of what was left out are paid on top
    have hsplit : nFees = ((rest.filter fun tx => decide (tx.nTime > txCoinStake.nTime)).map
        (txFee env c pool s.disk)).sum + feesLeft env c pool s block' := by
      have hperm := (List.filter_append_perm (fun tx : CTransaction =>
        decide (tx.nTime > txCoinStake.nTime)) rest).map (txFee env c pool s.disk)
      rw [hfees, hleft, ← sum_perm hperm, List.map_append, List.sum_append]
    have hdropped := droppedFees_pos env c pool s txCoinStake.nTime hfeePos hrange htx
      (by simpa using hnewer)
    have hless := sub_lt_int64 hpos hdropped
    have hreward' : stakePaid env c pool s txCoinStake -
        ((rest.filter fun tx => decide (tx.nTime > txCoinStake.nTime)).map
          (txFee env c pool s.disk)).sum = nReward := by
      rw [← hall, hsplit]
      grind
    rw [hreward'] at hless
    exact Int64.not_le.mpr hless hle

end Signed

section LateSpend

/-- The chain that the stake is on; block 1 paid the coin. -/
def stakedIndex : CBlockIndex :=
  (List.range 40).reverse.map fun i =>
    { hash := BitVec.ofNat 256 (i + 1), nFile := 1, nBlockPos := (1000 * i).toUInt32
      nTime := (1540000000 + 16 * i).toUInt32, nChainTrust := i + 1 }

/-- Three coins for the key `coinPk`. -/
def stakedCoinTx : CTransaction where
  nVersion := 1
  nTime := 1540000016
  vin := [⟨.null, [1, 1], 0xFFFFFFFF⟩]
  vout := [⟨3 * COIN, payToPubKeyHash 0x8f53d77e5c082cb18bf3353b3ce9e37a55870ad3⟩]
  nLockTime := 0

def stakedFile : BlockFile := [(1000, sealedBlock 1 1540000016 0 [stakedCoinTx])]

def stakedCoin : StakeCoin := ⟨stakedCoinTx, 0, by decide⟩

/-- A wallet with that coin. Its value lifts the target above every hash. -/
def stakedWallet : StakeWallet Unit where
  nBalance := 3 * COIN
  nSpectreBalance := 0
  nReserveBalance := 0
  nStakeCombineThreshold := 1000 * COIN
  nStakeSplitThreshold := 2000 * COIN
  nMaxAnonStakeOutput := 1000 * COIN
  nStakingDonation := 0
  sample := 50
  selectCoinsForStaking _ _ := some [stakedCoin]
  checkKernel _ _ _ := true
  kernelKey _ := some ((), 33 :: coinPk ++ [0xac])
  signSignature _ _ _ := some [0]
  listAvailableAnonOutputs _ := none
  checkAnonKernel _ _ _ := false
  mapAnonOutputStats := []
  anonOutputScript _ _ := none
  ringScript _ _ := none
  keySign _ _ := some [0]

def stakedSession : Session Unit :=
  { oldCoinSession [] with
    disk := { (oldCoinSession []).disk with txIndex := stakedFile.txIndex }
    supply := fun _ => ⟨0, 20000000 * COIN, 0⟩ }

/-- A spend that was made ten seconds after a full step of the stake time. -/
def lateSpend : CTransaction := { rivalSpend 0 with nTime := 1540000650 }

def stakedChain : ChainState := singleChain stakedIndex 1540000655

/-- The template, and the block signed at the given time. -/
def stakedTemplate : Option (CBlock × Int64) :=
  createNewBlock (fileNode regTestParams stakedFile) stakedChain (poolOf [lateSpend]) stakedSession.disk
    quotients plainQueue (BlockLimits.ofArgs 250000 0 27000) true 0x207fffff [] []

def signedStake (nAdjustedTime : Int) : Option CBlock := do
  let (block, nFees) ← stakedTemplate
  (signBlock (fileNode regTestParams stakedFile) stakedChain stakedSession stakedWallet nAdjustedTime
    ⟨0, 0⟩ block nFees).1

theorem stakedPool_sound :
    PoolSound (fileNode regTestParams stakedFile) stakedChain (poolOf [lateSpend]) stakedSession.disk := by
  apply poolOf_sound (fileNode regTestParams stakedFile) stakedChain stakedSession.disk [lateSpend] rfl
  · decide +kernel
  · decide +kernel
  · decide +kernel
  · decide +kernel
  · have hindex : stakedSession.disk.txIndex = stakedFile.txIndex := by
      simp only [stakedSession]
    rw [hindex]
    intro hash e he hpool
    have hpos := stakedFile.txIndex_pos hash e he
    have hplaces : stakedFile.map Prod.fst = [1000] := rfl
    rw [hpool, hplaces] at hpos
    revert hpos
    decide

theorem stakedCoins_sound :
    CoinsSound (fileNode regTestParams stakedFile) (poolOf [lateSpend]) stakedSession stakedWallet := by
  constructor
  · intro nTarget nTime setCoins hselect pcoin hpcoin
    cases hselect
    rw [List.mem_singleton.mp hpcoin]
    exact ⟨by decide +kernel, by decide +kernel⟩
  · decide

theorem stakedAnonCoins_sound (nFees : Int64) :
    AnonCoinsSound (fileNode regTestParams stakedFile) stakedChain (poolOf [lateSpend]) stakedSession
      stakedWallet nFees where
  nonneg _ _ h := by cases h
  inRange _ _ h := by cases h
  rings _ _ h := by cases h
  stats _ h := by cases h
  maxOutput := by decide

/-- What the coinstake of a block pays, and the reward of the block. -/
def stakeAmounts (block : CBlock) : Option (Int64 × Int64) := do
  let txCoinStake ← block.vtx[1]?
  let nReward ← calculatedStakeReward (fileNode regTestParams stakedFile) stakedSession block
    (⟨41, 1, 40000, block.nTime, 41⟩ :: stakedIndex)
    (feesLeft (fileNode regTestParams stakedFile) stakedChain (poolOf [lateSpend]) stakedSession block)
  return (stakePaid (fileNode regTestParams stakedFile) stakedChain (poolOf [lateSpend]) stakedSession
    txCoinStake, nReward)

private theorem lateSpend_amounts :
    (signedStake 1540000655).bind stakeAmounts = some (203858662, 203848662) := by
  simp only [stakeAmounts, signedStake, stakedTemplate, stakedSession, stakedFile, poolOf, fileNode_eq_eval,
    sealedBlock_eq_eval, BlockFile.txIndex_eq_eval, sha256d_eq_eval]
  decide +kernel

/-- The block signed in the same second as the template was made: the spend is left out, and the coinstake
still claims its fee. -/
theorem lateSpend_overpaid :
    ∃ block paid nReward, signedStake 1540000655 = some block ∧
      stakeAmounts block = some (paid, nReward) ∧ nReward < paid := by
  obtain ⟨block, hsigned, hamounts⟩ := Option.bind_eq_some_iff.mp lateSpend_amounts
  exact ⟨block, _, _, hsigned, hamounts, by decide⟩

/-- The block signed in the next step of the stake time pays no more than its reward. -/
theorem lateSpend_paid :
    ∃ block block' nFees, stakedTemplate = some (block, nFees) ∧
      (signBlock (fileNode regTestParams stakedFile) stakedChain stakedSession stakedWallet 1540000660
        ⟨0, 0⟩ block nFees).1 = some block' ∧
      ∀ paid nReward, stakeAmounts block' = some (paid, nReward) → paid ≤ nReward := by
  have htemplate : (let r := stakedTemplate
      r.elim false fun r => (signBlock (fileNode regTestParams stakedFile) stakedChain stakedSession
        stakedWallet 1540000660 ⟨0, 0⟩ r.1 r.2).1.elim false fun block' =>
          r.1.vtx.tail.all fun tx => decide (tx.nTime ≤ block'.nTime)) = true := by
    simp only [stakedTemplate, stakedSession, stakedFile, poolOf, fileNode_eq_eval, sealedBlock_eq_eval,
      BlockFile.txIndex_eq_eval, sha256d_eq_eval]
    decide +kernel
  dsimp only at htemplate
  generalize hr : stakedTemplate = r at htemplate
  cases r with
  | none => cases htemplate
  | some r =>
    obtain ⟨block, nFees⟩ := r
    rw [Option.elim_some] at htemplate
    generalize hsign : (signBlock (fileNode regTestParams stakedFile) stakedChain stakedSession stakedWallet
      1540000660 ⟨0, 0⟩ block nFees).1 = signed at htemplate
    cases signed with
    | none => cases htemplate
    | some block' =>
      simp only [Option.elim_some, List.all_eq_true, decide_eq_true_eq] at htemplate
      refine ⟨block, block', nFees, rfl, hsign, fun paid nReward hamounts => ?_⟩
      obtain ⟨-, txCoinStake, htx, hpaid⟩ := signBlock_paid_iff (fileNode regTestParams stakedFile)
        stakedChain (poolOf [lateSpend]) stakedSession stakedWallet quotients plainQueue
        (BlockLimits.ofArgs 250000 0 27000) stakedPool_sound stakedCoins_sound 0x207fffff [] [] block block'
        nFees (stakedAnonCoins_sound nFees) hr 1540000660 ⟨0, 0⟩ hsign ⟨41, 1, 40000, block'.nTime, 41⟩
      simp only [stakeAmounts, htx, Option.bind_eq_bind, Option.bind_some, Option.bind_eq_some_iff,
        Option.pure_def, Option.some.injEq, Prod.mk.injEq] at hamounts
      obtain ⟨nReward', hreward, rfl, rfl⟩ := hamounts
      exact (hpaid nReward' hreward).1 htemplate

end LateSpend

end AliasWallet
