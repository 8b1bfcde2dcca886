import AliasWallet.Wallet.CoinSelection

/-!
# Paying recipients (`CreateTransaction`, `GetMinFee`)

Each round selects coins for the amount and the fee so far, adds the change and signs. Where the fee is too low for the
size of the transaction, it is raised and the next round begins. Amounts are added over the integers.
-/

namespace AliasWallet
open Lib

/-- `GetMinFee` over the base fee of the mode. -/
def getMinFee (nBaseFee : Int) (tx : CTransaction) (nBlockSize nBytes : Nat) : Int :=
  let nNewBlockSize := nBlockSize + nBytes
  let nMinFee := (1 + nBytes / 1000) * nBaseFee
  let nMinFee := if nMinFee < nBaseFee ∧ ∃ txout ∈ tx.vout, txout.nValue < CENT then nBaseFee else nMinFee
  let range (nMinFee : Int) := if 0 ≤ nMinFee ∧ nMinFee ≤ MAX_MONEY.toInt then nMinFee else MAX_MONEY.toInt
  -- the price rises as the block approaches full
  if nBlockSize ≠ 1 ∧ nNewBlockSize ≥ MAX_BLOCK_SIZE_GEN / 2 then
    if nNewBlockSize ≥ MAX_BLOCK_SIZE_GEN then MAX_MONEY.toInt
    else range (nMinFee * (MAX_BLOCK_SIZE_GEN / (MAX_BLOCK_SIZE_GEN - nNewBlockSize) : Nat))
  else range nMinFee

/-- What `CreateTransaction` reads of the wallet, and what is drawn anew in each round. -/
structure PayingWallet where
  nTransactionFee : Int
  nMinTxFee : Int
  txid : CTransaction → UInt256
  isFromMe : CTransaction → Bool
  /-- `AvailableCoins`. -/
  vCoins : List COutput
  distinct : (vCoins.map COutput.toStakeCoin).Nodup
  /-- `coinControl && coinControl->HasSelected()`. -/
  hasSelected : Bool
  choices : Nat → Nat → SelectChoices
  /-- A set of coins in the order of their addresses. -/
  setOrder : Finset StakeCoin → List StakeCoin
  setOrder_nodup : ∀ setCoins, (setOrder setCoins).Nodup
  setOrder_toFinset : ∀ setCoins, (setOrder setCoins).toFinset = setCoins
  /-- The script for the change: of the coin control, or of a new key where there is one. -/
  scriptChange : Nat → Option Bytes
  getRandInt : Nat → Nat → Nat
  getRandInt_lt : ∀ k nMax, 0 < nMax → getRandInt k nMax < nMax
  signSignature : Nat → CTransaction → CTransaction → Nat → Option Bytes

/-- A transaction that was created, with its coins and its fee. -/
structure CreatedTx where
  tx : CTransaction
  setCoins : List StakeCoin
  nFeeRet : Int

namespace PayingWallet

variable (w : PayingWallet)

/-- A position for the change, moved before the narration outputs in front of it. -/
def changePosition (vout : List CTxOut) : Nat → Nat
  | 0 => 0
  | position + 1 =>
    if vout[position + 1]?.elim true fun txout => decide (txout.nValue ≠ 0) then position + 1
    else changePosition vout position

/-- The outputs with the change, where there is one. -/
def withChange (k : Nat) (vout : List CTxOut) (nChange : Int) : Option (List CTxOut) :=
  if nChange > 0 then
    (w.scriptChange k).map fun scriptChange =>
      let position := changePosition vout (w.getRandInt k (vout.length + 1))
      vout.take position ++ ⟨Int64.ofInt nChange, scriptChange⟩ :: vout.drop position
  else some vout

/-- The loop over the signatures. -/
def signCoins (k : Nat) (tx : CTransaction) (setCoins : List StakeCoin) : Option CTransaction :=
  setCoins.zipIdx.foldlM (fun tx e => do
    let scriptSig ← w.signSignature k e.1.ptx tx e.2
    return { tx with vin := tx.vin.modify e.2 fun txin => { txin with scriptSig } }) tx

/-- What is moved from the change to the fee, so that no change below a cent goes with a fee below the minimum. -/
def moveToFee (nFeeRet nChange : Int) : Int :=
  if nFeeRet < w.nMinTxFee ∧ nChange > 0 ∧ nChange < CENT.toInt then min nChange (w.nMinTxFee - nFeeRet) else 0

/-- `max(nPayFee, nMinFee)`. -/
def requiredFee (tx : CTransaction) : Int :=
  max (w.nTransactionFee * (1 + tx.size / 1000)) (getMinFee w.nMinTxFee tx 1 tx.size)

/-- A round of the loop: a transaction, or the fee of the next round. -/
def createRound (vecSend : List CTxOut) (wtxNew : CTransaction) (nValue : Int) (k : Nat) (nFeeRet : Int) :
    Option (Int ⊕ CreatedTx) := do
  let nTotalValue := nValue + nFeeRet
  let (setCoins, nValueIn) ← selectCoins w.isFromMe (w.choices k) w.hasSelected nTotalValue wtxNew.nTime w.vCoins
  let nChange := nValueIn - nValue - nFeeRet
  let nMoveToFee := w.moveToFee nFeeRet nChange
  let nChange := nChange - nMoveToFee
  let nFeeRet := nFeeRet + nMoveToFee
  let vout ← w.withChange k vecSend nChange
  let setCoins := w.setOrder setCoins
  let vin := setCoins.map fun pcoin => (⟨⟨w.txid pcoin.ptx, pcoin.n⟩, [], 0xFFFFFFFF⟩ : CTxIn)
  let tx ← w.signCoins k { wtxNew with vin, vout } setCoins
  if tx.size ≥ MAX_BLOCK_SIZE_GEN / 5 then none
  return if nFeeRet < w.requiredFee tx then .inl (w.requiredFee tx) else .inr ⟨tx, setCoins, nFeeRet⟩

/-- The loop, for at most some rounds; the outer null is that it has not ended. -/
def createRounds (vecSend : List CTxOut) (wtxNew : CTransaction) (nValue : Int) :
    Nat → Nat → Int → Option (Option CreatedTx)
  | 0, _, _ => none
  | rounds + 1, k, nFeeRet =>
    match w.createRound vecSend wtxNew nValue k nFeeRet with
    | none => some none
    | some (.inl nFeeRet) => createRounds vecSend wtxNew nValue rounds (k + 1) nFeeRet
    | some (.inr created) => some (some created)

/-- The sum of the amounts; null where it turns negative before the last one. -/
def sumRecipients (vecSend : List CTxOut) : Option Int :=
  vecSend.foldlM (fun nValue txout => if nValue < 0 then none else some (nValue + txout.nValue.toInt)) 0

/-- `CreateTransaction`, with the recipients as outputs. -/
def createTransaction (vecSend : List CTxOut) (wtxNew : CTransaction) (rounds : Nat) : Option (Option CreatedTx) :=
  match sumRecipients vecSend with
  | none => some none
  | some nValue =>
    if vecSend = [] ∨ nValue < 0 then some none
    else w.createRounds vecSend wtxNew nValue rounds 0 w.nTransactionFee

end PayingWallet

section Balance

variable {isFromMe : CTransaction → Bool} {w : PayingWallet}

theorem int64_max : Int64.maxValue.toInt = 2 ^ 63 - 1 := by decide

/-- The value of some coins. -/
def coinsTotal (setCoins : List StakeCoin) : Int := (setCoins.map fun pcoin => pcoin.nValue.toInt).sum

/-- What `SelectCoins` returns: available coins, their total, and that it reaches the target. -/
structure SelectsCoins (vCoins : List COutput) (nTargetValue : Int) (setCoinsRet : Finset StakeCoin) (nValueRet : Int) :
    Prop where
  available : ∀ c ∈ setCoinsRet, c ∈ vCoins.map COutput.toStakeCoin
  total : ∑ c ∈ setCoinsRet, c.nValue.toInt = nValueRet
  reached : nTargetValue ≤ nValueRet

theorem selectCoinsMinConf_selects {vCoins : List COutput} (hdistinct : (vCoins.map COutput.toStakeCoin).Nodup)
    {nTargetValue nValueRet : Int} {nSpendTime : UInt32} {nConfMine nConfTheirs : Int} {choices : SelectChoices}
    {setCoinsRet : Finset StakeCoin}
    (h : selectCoinsMinConf isFromMe nTargetValue nSpendTime nConfMine nConfTheirs choices vCoins =
      some (setCoinsRet, nValueRet)) : SelectsCoins vCoins nTargetValue setCoinsRet nValueRet := by
  obtain ⟨chosen, hresult, hfrom, hreached⟩ :=
    (selectCoinsMinConf_exits isFromMe nTargetValue nSpendTime nConfMine nConfTheirs choices vCoins).resolve_right
      fun hnone => nomatch hnone.1.symm.trans h
  have hnodup := (List.filter_sublist (p := eligibleCoin isFromMe nSpendTime nConfMine nConfTheirs).map
    COutput.toStakeCoin).nodup hdistinct
  obtain ⟨hcoins, htotal⟩ := selectedCoins_total hnodup hfrom
  have heq := Option.some.inj (hresult.symm.trans h)
  rw [heq] at hcoins htotal
  refine ⟨fun c hc => ?_, htotal, hreached.trans (congrArg Prod.snd heq).le⟩
  obtain ⟨output, ho, rfl⟩ := hcoins c hc
  exact List.mem_map_of_mem (List.mem_of_mem_filter ho)

theorem selectCoins_selects {vCoins : List COutput} (hdistinct : (vCoins.map COutput.toStakeCoin).Nodup)
    {choices : Nat → SelectChoices} {hasSelected : Bool} {nTargetValue nValueRet : Int} {nSpendTime : UInt32}
    {setCoinsRet : Finset StakeCoin}
    (h : selectCoins isFromMe choices hasSelected nTargetValue nSpendTime vCoins = some (setCoinsRet, nValueRet)) :
    SelectsCoins vCoins nTargetValue setCoinsRet nValueRet := by
  rw [selectCoins] at h
  split at h
  case isTrue =>
    dsimp only at h
    split at h
    case isTrue hreached =>
      obtain ⟨rfl, rfl⟩ := Prod.mk.inj (Option.some.inj h)
      refine ⟨fun c hc => List.mem_toFinset.mp hc, ?_, hreached⟩
      rw [List.sum_toFinset _ hdistinct, List.map_map]
      rfl
    case isFalse => cases h
  case isFalse =>
    rw [Option.or_eq_some_iff, Option.or_eq_some_iff] at h
    rcases h with (hfirst | ⟨-, hsecond⟩) | ⟨-, hthird⟩
    · exact selectCoinsMinConf_selects hdistinct hfirst
    · exact selectCoinsMinConf_selects hdistinct hsecond
    · exact selectCoinsMinConf_selects hdistinct hthird

/-- Distinct available coins are worth no more than all of them. -/
theorem SelectsCoins.le_total {vCoins : List COutput} {nTargetValue nValueRet : Int} {setCoinsRet : Finset StakeCoin}
    (h : SelectsCoins vCoins nTargetValue setCoinsRet nValueRet) (hdistinct : (vCoins.map COutput.toStakeCoin).Nodup)
    (hpos : ∀ output ∈ vCoins, 0 ≤ output.nValue) : nValueRet ≤ eligibleTotal vCoins := by
  have hall : eligibleTotal vCoins = ∑ c ∈ (vCoins.map COutput.toStakeCoin).toFinset, c.nValue.toInt := by
    rw [List.sum_toFinset _ hdistinct, List.map_map]
    rfl
  rw [← h.total, hall]
  refine Finset.sum_le_sum_of_subset_of_nonneg (fun c hc => List.mem_toFinset.mpr (h.available c hc)) ?_
  intro c hc _
  obtain ⟨output, ho, rfl⟩ := List.mem_map.mp (List.mem_toFinset.mp hc)
  exact toInt_nonneg (hpos output ho)

/-- The value of some outputs. -/
def outputsTotal (vout : List CTxOut) : Int := (vout.map fun txout => txout.nValue.toInt).sum

theorem toInt_ofInt_of_nonneg {n : Int} (hn : 0 ≤ n) (hmax : n ≤ Int64.maxValue.toInt) : (Int64.ofInt n).toInt = n := by
  rw [int64_max] at hmax
  rw [Int64.toInt_ofInt]
  exact Int.bmod_eq_of_le (by simp only [Int64.size]; omega) (by simp only [Int64.size]; omega)

/-- The change is what the outputs lack, wherever it is put. -/
theorem withChange_total {k : Nat} {vout vout' : List CTxOut} {nChange : Int} (hn : 0 ≤ nChange)
    (hmax : nChange ≤ Int64.maxValue.toInt) (h : w.withChange k vout nChange = some vout') :
    outputsTotal vout' = outputsTotal vout + nChange := by
  rw [PayingWallet.withChange] at h
  split at h
  case isTrue =>
    obtain ⟨scriptChange, -, rfl⟩ := Option.map_eq_some_iff.mp h
    dsimp only
    generalize PayingWallet.changePosition _ _ = position
    have hsplit : outputsTotal vout = outputsTotal (vout.take position) + outputsTotal (vout.drop position) := by
      rw [outputsTotal, outputsTotal, outputsTotal, ← List.sum_append, ← List.map_append, List.take_append_drop]
    rw [hsplit, outputsTotal, List.map_append, List.map_cons, List.sum_append, List.sum_cons,
      toInt_ofInt_of_nonneg hn hmax]
    show outputsTotal (vout.take position) + (nChange + outputsTotal (vout.drop position)) = _
    omega
  case isFalse hnone =>
    rw [← Option.some.inj h]
    omega

/-- Signing changes the scripts of the inputs only. -/
theorem signCoins_spec {k : Nat} {tx tx' : CTransaction} {setCoins : List StakeCoin}
    (h : w.signCoins k tx setCoins = some tx') :
    tx'.vout = tx.vout ∧ tx'.vin.map CTxIn.prevout = tx.vin.map CTxIn.prevout := by
  rw [PayingWallet.signCoins] at h
  apply foldlM_preserves (fun t => t.vout = tx.vout ∧ t.vin.map CTxIn.prevout = tx.vin.map CTxIn.prevout) _ tx tx'
    ⟨rfl, rfl⟩ _ h
  intro t e _ t' ht hround
  obtain ⟨scriptSig, -, hscript⟩ := Option.bind_eq_some_iff.mp hround
  rw [← Option.some.inj hscript]
  exact ⟨ht.1, (prevouts_signed t.vin e.2 scriptSig).trans ht.2⟩

theorem moveToFee_bounds {nFeeRet nChange : Int} (hchange : 0 ≤ nChange) :
    0 ≤ w.moveToFee nFeeRet nChange ∧ w.moveToFee nFeeRet nChange ≤ nChange := by
  rw [PayingWallet.moveToFee]
  split <;> omega

theorem getMinFee_range (nBaseFee : Int) (tx : CTransaction) (nBlockSize nBytes : Nat) :
    0 ≤ getMinFee nBaseFee tx nBlockSize nBytes ∧ getMinFee nBaseFee tx nBlockSize nBytes ≤ MAX_MONEY.toInt := by
  have hmax : 0 ≤ MAX_MONEY.toInt ∧ MAX_MONEY.toInt ≤ MAX_MONEY.toInt := ⟨by decide, le_rfl⟩
  have hrange : ∀ n : Int, 0 ≤ (if 0 ≤ n ∧ n ≤ MAX_MONEY.toInt then n else MAX_MONEY.toInt) ∧
      (if 0 ≤ n ∧ n ≤ MAX_MONEY.toInt then n else MAX_MONEY.toInt) ≤ MAX_MONEY.toInt := by
    intro n
    split
    case isTrue h => exact h
    case isFalse => exact hmax
  rw [getMinFee]
  dsimp only
  split
  · split
    · exact hmax
    · exact hrange _
  · exact hrange _

/-- No transaction below the size limit needs a higher fee. -/
def feeLimit (w : PayingWallet) : Int := max (w.nTransactionFee * (1 + MAX_BLOCK_SIZE_GEN)) MAX_MONEY.toInt

theorem requiredFee_le {tx : CTransaction} (hfee : 0 ≤ w.nTransactionFee) (hsize : tx.size < MAX_BLOCK_SIZE_GEN / 5) :
    w.requiredFee tx ≤ feeLimit w := by
  have hbytes : (tx.size : Int) / 1000 ≤ MAX_BLOCK_SIZE_GEN := by omega
  exact max_le_max (mul_le_mul_of_nonneg_left (by omega) hfee) (getMinFee_range _ _ _ _).2

/-- The inputs are distinct available coins, worth the outputs and the fee. -/
structure CreatedTx.Balanced (w : PayingWallet) (created : CreatedTx) : Prop where
  distinct : created.setCoins.Nodup
  available : ∀ pcoin ∈ created.setCoins, pcoin ∈ w.vCoins.map COutput.toStakeCoin
  vin : created.tx.vin.map CTxIn.prevout = created.setCoins.map fun pcoin => ⟨w.txid pcoin.ptx, pcoin.n⟩
  balance : coinsTotal created.setCoins = outputsTotal created.tx.vout + created.nFeeRet
  fee : w.requiredFee created.tx ≤ created.nFeeRet

/-- The amounts of the wallet are not negative, and all its coins together are worth an `int64_t`. -/
structure PayingWallet.InRange (w : PayingWallet) : Prop where
  fee : 0 ≤ w.nTransactionFee
  coins : ∀ output ∈ w.vCoins, 0 ≤ output.nValue
  total : eligibleTotal w.vCoins ≤ Int64.maxValue.toInt

/-- The fee grows up to its limit, or the transaction is balanced. -/
def RoundSound (w : PayingWallet) (nFeeRet : Int) : Int ⊕ CreatedTx → Prop
  | .inl nFeeNext => nFeeRet < nFeeNext ∧ nFeeNext ≤ feeLimit w
  | .inr created => created.Balanced w

theorem createRound_spec (hw : w.InRange) {vecSend : List CTxOut} {wtxNew : CTransaction} {k : Nat} {nFeeRet : Int}
    {r : Int ⊕ CreatedTx} (hvalue : 0 ≤ outputsTotal vecSend) (hfee : 0 ≤ nFeeRet)
    (h : w.createRound vecSend wtxNew (outputsTotal vecSend) k nFeeRet = some r) : RoundSound w nFeeRet r := by
  rw [PayingWallet.createRound, Option.bind_eq_bind, Option.bind_eq_some_iff] at h
  obtain ⟨⟨setCoins, nValueIn⟩, hselect, h⟩ := h
  have hsel := selectCoins_selects w.distinct hselect
  have hle := (hsel.le_total w.distinct hw.coins).trans hw.total
  have hreached := hsel.reached
  dsimp only at h
  have hmove : 0 ≤ w.moveToFee nFeeRet (nValueIn - outputsTotal vecSend - nFeeRet) ∧
      w.moveToFee nFeeRet (nValueIn - outputsTotal vecSend - nFeeRet) ≤ nValueIn - outputsTotal vecSend - nFeeRet :=
    moveToFee_bounds (by omega)
  generalize w.moveToFee nFeeRet (nValueIn - outputsTotal vecSend - nFeeRet) = nMoveToFee at h hmove
  rw [Option.bind_eq_bind, Option.bind_eq_some_iff] at h
  obtain ⟨vout, hvout, h⟩ := h
  have houts := withChange_total (by omega) (by omega) hvout
  rw [Option.bind_eq_bind, Option.bind_eq_some_iff] at h
  obtain ⟨tx, hsign, h⟩ := h
  obtain ⟨hout, hvin⟩ := signCoins_spec hsign
  split at h
  case isTrue => cases h
  case isFalse hsize =>
    rw [← Option.some.inj h]
    split
    case isTrue hlow =>
      exact ⟨by omega, requiredFee_le hw.fee (not_le.mp hsize)⟩
    case isFalse henough =>
      refine ⟨w.setOrder_nodup setCoins, fun pcoin hpcoin => ?_, ?_, ?_, not_lt.mp henough⟩
      · refine hsel.available pcoin ?_
        rw [← w.setOrder_toFinset setCoins]
        exact List.mem_toFinset.mpr hpcoin
      · rw [hvin, List.map_map]
        rfl
      · have hcoins : coinsTotal (w.setOrder setCoins) = nValueIn := by
          rw [← hsel.total, ← w.setOrder_toFinset setCoins, List.sum_toFinset _ (w.setOrder_nodup setCoins),
            w.setOrder_toFinset]
          rfl
        show coinsTotal (w.setOrder setCoins) = outputsTotal tx.vout + (nFeeRet + nMoveToFee)
        rw [hcoins, hout, houts]
        omega

/-- The loop returns after as many rounds as the fee can grow, and what it returns is balanced. -/
theorem createRounds_spec (hw : w.InRange) {vecSend : List CTxOut} {wtxNew : CTransaction}
    (hvalue : 0 ≤ outputsTotal vecSend) (rounds k : Nat) {nFeeRet : Int} (hfee : 0 ≤ nFeeRet)
    (hlimit : nFeeRet ≤ feeLimit w) :
    (feeLimit w - nFeeRet < rounds →
      w.createRounds vecSend wtxNew (outputsTotal vecSend) rounds k nFeeRet ≠ none) ∧
    ∀ created, w.createRounds vecSend wtxNew (outputsTotal vecSend) rounds k nFeeRet = some (some created) →
      created.Balanced w := by
  induction rounds generalizing k nFeeRet with
  | zero => exact ⟨fun hrounds => by omega, fun created h => (nomatch h)⟩
  | succ rounds ih =>
    rw [PayingWallet.createRounds]
    split
    case h_1 => exact ⟨fun _ h => (nomatch h), fun created h => (nomatch h)⟩
    case h_2 nFeeNext hround =>
      obtain ⟨hgrows, hnext⟩ := createRound_spec hw hvalue hfee hround
      obtain ⟨hends, hbalanced⟩ := ih (k + 1) (by omega) hnext
      exact ⟨fun hrounds => hends (by omega), hbalanced⟩
    case h_3 created hround =>
      refine ⟨fun _ h => (nomatch h), fun created' h => ?_⟩
      rw [← Option.some.inj (Option.some.inj h)]
      exact createRound_spec hw hvalue hfee hround

theorem sumRecipients_eq {vecSend : List CTxOut} {nValue : Int}
    (h : PayingWallet.sumRecipients vecSend = some nValue) : nValue = outputsTotal vecSend := by
  have hfold : ∀ (l : List CTxOut) (n : Int),
      l.foldlM (fun nValue txout => if nValue < 0 then none else some (nValue + txout.nValue.toInt)) n = some nValue →
      nValue = n + outputsTotal l := by
    intro l
    induction l with
    | nil =>
      intro n hn
      rw [← Option.some.inj hn]
      exact (Int.add_zero n).symm
    | cons txout l ih =>
      intro n hn
      rw [List.foldlM_cons, Option.bind_eq_bind, Option.bind_eq_some_iff] at hn
      obtain ⟨m, hm, hrest⟩ := hn
      split at hm
      · cases hm
      · rw [ih m hrest, ← Option.some.inj hm]
        exact Int.add_assoc _ _ _
  rw [hfold vecSend 0 h]
  exact Int.zero_add _

/-- A wallet with one coin. -/
noncomputable def oneCoinWallet : PayingWallet where
  nTransactionFee := 10000
  nMinTxFee := 10000
  txid := fun _ => 1
  isFromMe := fun _ => false
  vCoins := [confirmedOutput 500000000]
  distinct := List.nodup_singleton _
  hasSelected := false
  choices := fun _ _ => plainChoices
  setOrder := Finset.toList
  setOrder_nodup := Finset.nodup_toList
  setOrder_toFinset := Finset.toList_toFinset
  scriptChange := fun _ => some []
  getRandInt := fun _ _ => 0
  getRandInt_lt := fun _ _ h => h
  signSignature := fun _ _ _ _ => some []

end Balance

end AliasWallet
