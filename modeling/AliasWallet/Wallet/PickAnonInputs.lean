import AliasWallet.Stake.StakePayment
import AliasWallet.Wallet.CheckCombinations
import AliasWallet.Wallet.CreateTransaction

/-!
# The fee of an anonymous payment (`PickAnonInputs`)

The fee is estimated with an expected number of change outputs, and the change is what the estimate leaves. Then the fee
is computed again with the change outputs that there are, and reported where it is not higher.
-/

namespace AliasWallet
open Lib

inductive RingSigType
  | ringSig1
  | ringSig2

/-- `nByteSizePerInCoin`. -/
def byteSizePerInCoin (rsType : RingSigType) (nRingSize : Nat) : Nat :=
  let nSigSize := match rsType with
    | .ringSig1 => 2 + (33 + 32 + 32) * nRingSize
    | .ringSig2 => 2 + 32 + (33 + 32) * nRingSize
  (36 + 4) + (compactSize nSigSize).length + nSigSize

/-- What `PickAnonInputs` reads; `createsChange` is whether an address and scripts for the change are found. -/
structure AnonPayment where
  rsType : RingSigType
  nRingSize : Nat
  nValue : Int64
  wtxNew : CTransaction
  nOutputs : Nat
  nSizeOutputs : Nat
  /-- The values of `lAvailableCoins`. -/
  vData : List Int64
  nMinTxFee : Int
  nMaxAnonOutput : Int64
  feeMode : Int
  createsChange : Nat → Bool

/-- The return value, and the arguments that are written. -/
structure PickedInputs where
  rv : Nat
  nFee : Int64
  nExpectChangeOuts : Nat
  vPickedCoins : List Nat
  vecChange : List Int64
deriving DecidableEq

namespace AnonPayment

variable (pay : AnonPayment)

def nAmountCheck : Int64 := pay.vData.sum

/-- `nTotalBytes` for `i + 1` coins. -/
def totalBytes (i nChangeOuts : Nat) : Nat :=
  (4 + 4 + 4) + (compactSize (pay.nOutputs + nChangeOuts)).length + pay.nSizeOutputs +
    ((compactSize MIN_ANON_OUT_SIZE).length + MIN_ANON_OUT_SIZE + 8) * nChangeOuts + (compactSize (i + 1)).length +
    byteSizePerInCoin pay.rsType pay.nRingSize * (i + 1)

def minFee (i nChangeOuts : Nat) : Int64 :=
  Int64.ofInt (getMinFee pay.nMinTxFee pay.wtxNew 0 (pay.totalBytes i nChangeOuts))

/-- The fee goes on top, and all coins together do not cover it. -/
def exhaustive (nFee : Int64) : Bool :=
  decide (pay.feeMode ≠ 1) && decide (pay.nAmountCheck - (pay.nValue + nFee) < 0)

/-- `nValueTest`. -/
def valueTest (nFee : Int64) : Int64 :=
  if pay.feeMode = 1 then pay.nValue
  else if pay.exhaustive nFee then pay.nValue + nFee + (pay.nAmountCheck - (pay.nValue + nFee))
  else pay.nValue + nFee

def change (nFee : Int64) (vecInputIndex : List Nat) : List Int64 :=
  splitAmount (totalAt pay.vData vecInputIndex - pay.valueTest nFee) pay.nMaxAnonOutput

/-- The end of a round that has found coins. -/
def finish (i nExpectChangeOuts : Nat) (nFee : Int64) (vecInputIndex : List Nat) : PickedInputs :=
  if ¬ pay.createsChange i then ⟨3, nFee, nExpectChangeOuts, vecInputIndex, []⟩
  else
    let vecChange := pay.change nFee vecInputIndex
    let nTestFee := pay.minFee i vecChange.length
    if nTestFee > nFee then ⟨2, nFee, vecChange.length, vecInputIndex, vecChange⟩
    else if pay.feeMode ≠ 1 ∧ pay.nValue + nTestFee > pay.nAmountCheck then
      ⟨3, nTestFee, nExpectChangeOuts, vecInputIndex, vecChange⟩
    else ⟨1, nTestFee, nExpectChangeOuts, vecInputIndex, vecChange⟩

/-- The loop over the number of coins, from `i + 1` on; `rounds` is for the search. -/
def pickLoop (rounds : Nat) : Nat → Nat → Nat → Int64 → Option PickedInputs
  | 0, _, nExpectChangeOuts, nFee => some ⟨0, nFee, nExpectChangeOuts, [], []⟩
  | left + 1, i, nExpectChangeOuts, _ =>
    let nFee := pay.minFee i nExpectChangeOuts
    if nFee = MAX_MONEY then some ⟨3, nFee, nExpectChangeOuts, [], []⟩
    else if pay.exhaustive nFee ∧ pay.valueTest nFee ≤ 0 then some ⟨3, nFee, nExpectChangeOuts, [], []⟩
    else do
      let nExpectChangeOuts := if pay.exhaustive nFee then 0 else nExpectChangeOuts
      let (fFound, vecInputIndex) ← checkCombinations (pay.valueTest nFee) (i + 1) pay.vData rounds
      if fFound then return pay.finish i nExpectChangeOuts nFee vecInputIndex
      else pickLoop rounds left (i + 1) nExpectChangeOuts nFee

/-- `PickAnonInputs`. -/
def pickAnonInputs (nExpectChangeOuts : Nat) (nFee : Int64) (rounds : Nat) : Option PickedInputs :=
  pay.pickLoop rounds pay.vData.length 0 nExpectChangeOuts nFee

/-- The picked coins are worth the amount, the change and the reported fee, which covers the final size. -/
def Reports (r : PickedInputs) : Prop :=
  totalAt pay.vData r.vPickedCoins = pay.nValue + r.vecChange.sum + r.nFee ∧
    pay.minFee (r.vPickedCoins.length - 1) r.vecChange.length ≤ r.nFee

end AnonPayment

section Search

variable {nReq : Int64} {m : Nat} {vData : List Int64}

theorem coarseSeek_sound {rounds : Nat} {vecInputIndex out : List Nat} {fFound fSeekFine : Bool}
    (h : coarseSeek nReq vData rounds vecInputIndex = some (fFound, fSeekFine, out)) :
    out.length = vecInputIndex.length ∧ (fFound = true → nReq ≤ totalAt vData out) := by
  induction rounds generalizing vecInputIndex with
  | zero => cases h
  | succ rounds ih =>
    rw [coarseSeek] at h
    split at h
    · dsimp only at h
      split at h
      case isTrue hexact =>
        obtain ⟨rfl, -, rfl⟩ : true = fFound ∧ false = fSeekFine ∧ _ = out := by simpa using h
        exact ⟨List.length_mapIdx, fun _ => hexact ▸ Int64.le_refl _⟩
      split at h
      · obtain ⟨rfl, hout⟩ := Prod.mk.inj (Option.some.inj h)
        rw [← (Prod.mk.inj hout).2, List.length_mapIdx, List.length_mapIdx]
        exact ⟨rfl, fun hfalse => absurd hfalse (by decide)⟩
      · have hrest := ih h
        rw [List.length_mapIdx] at hrest
        exact hrest
    · obtain ⟨rfl, -, rfl⟩ : false = fFound ∧ false = fSeekFine ∧ vecInputIndex = out := by simpa using h
      exact ⟨rfl, fun hfalse => absurd hfalse (by decide)⟩

theorem fillDown_length (i : Nat) (vecInputIndex : List Nat) :
    (fillDown i vecInputIndex).length = vecInputIndex.length := by
  induction i generalizing vecInputIndex with
  | zero => rfl
  | succ i ih => rw [fillDown, ih, List.length_set]

theorem fineSeek_sound {l rounds : Nat} {vecInputIndex out : List Nat} {fFound : Bool}
    (h : fineSeek nReq m vData l rounds vecInputIndex = some (fFound, out)) :
    out.length = vecInputIndex.length ∧ (fFound = true → nReq ≤ totalAt vData out) := by
  induction rounds generalizing vecInputIndex with
  | zero => cases h
  | succ rounds ih =>
    rw [fineSeek] at h
    split at h
    case isTrue hfound =>
      obtain ⟨rfl, rfl⟩ := Prod.mk.inj (Option.some.inj h)
      exact ⟨rfl, fun _ => hfound.2⟩
    case isFalse =>
      split at h
      · obtain ⟨rfl, rfl⟩ := Prod.mk.inj (Option.some.inj h)
        exact ⟨rfl, fun hfalse => absurd hfalse (by decide)⟩
      · have hrest := ih h
        rw [fillNext, fillDown_length, List.length_set] at hrest
        exact hrest

/-- A level as two searches in a row. -/
theorem seekLevels_succ (rounds levels l : Nat) (vecInputIndex : List Nat) :
    seekLevels nReq m vData rounds (levels + 1) l vecInputIndex =
      (if m ≤ 2 then some (false, true, firstIndexes m l)
        else coarseSeek nReq vData rounds (firstIndexes m l)).bind fun r =>
      if r.1 then some (true, r.2.2)
      else if ¬ r.2.1 ∧ l < vData.length then seekLevels nReq m vData rounds levels (l + 1) r.2.2
      else (fineSeek nReq m vData l rounds r.2.2).bind fun r =>
        if r.1 then some (true, r.2)
        else if m + 1 > vData.length then some (false, r.2)
        else seekLevels nReq m vData rounds levels (l + 1) r.2 := by
  rw [seekLevels]
  split
  · rfl
  · rfl

theorem seekLevels_sound {rounds levels l : Nat} {vecInputIndex out : List Nat} (hlength : vecInputIndex.length = m)
    {fFound : Bool} (h : seekLevels nReq m vData rounds levels l vecInputIndex = some (fFound, out)) :
    out.length = m ∧ (fFound = true → nReq ≤ totalAt vData out) := by
  induction levels generalizing l vecInputIndex with
  | zero =>
    obtain ⟨rfl, rfl⟩ := Prod.mk.inj (Option.some.inj h)
    exact ⟨hlength, fun hfalse => absurd hfalse (by decide)⟩
  | succ levels ih =>
    have hfirst : (firstIndexes m l).length = m := by rw [firstIndexes, List.length_map, List.length_range]
    rw [seekLevels_succ, Option.bind_eq_some_iff] at h
    obtain ⟨⟨fCoarse, fSeekFine, idx⟩, hcoarse, h⟩ := h
    have hidx : idx.length = m ∧ (fCoarse = true → nReq ≤ totalAt vData idx) := by
      split at hcoarse
      · obtain ⟨rfl, hout⟩ := Prod.mk.inj (Option.some.inj hcoarse)
        exact ⟨(Prod.mk.inj hout).2 ▸ hfirst, fun hfalse => absurd hfalse (by decide)⟩
      · have hsound := coarseSeek_sound hcoarse
        exact ⟨hsound.1.trans hfirst, hsound.2⟩
    split at h
    case isTrue hfound =>
      obtain ⟨rfl, rfl⟩ := Prod.mk.inj (Option.some.inj h)
      exact ⟨hidx.1, fun _ => hidx.2 hfound⟩
    split at h
    · exact ih hidx.1 h
    · obtain ⟨⟨fFine, idx'⟩, hfine, h⟩ := Option.bind_eq_some_iff.mp h
      have hsound := fineSeek_sound hfine
      split at h
      case isTrue hfound =>
        obtain ⟨rfl, rfl⟩ := Prod.mk.inj (Option.some.inj h)
        exact ⟨hsound.1.trans hidx.1, fun _ => hsound.2 hfound⟩
      split at h
      · obtain ⟨rfl, rfl⟩ := Prod.mk.inj (Option.some.inj h)
        exact ⟨hsound.1.trans hidx.1, fun hfalse => absurd hfalse (by decide)⟩
      · exact ih (hsound.1.trans hidx.1) h

/-- What the search finds are as many coins as it should, and they reach the amount. -/
theorem checkCombinations_sound {rounds : Nat} {out : List Nat}
    (h : checkCombinations nReq m vData rounds = some (true, out)) : out.length = m ∧ nReq ≤ totalAt vData out := by
  rw [checkCombinations] at h
  split at h
  · cases h
  · split at h
    · cases h
    · have hsound := seekLevels_sound List.length_replicate h
      exact ⟨hsound.1, hsound.2 rfl⟩

end Search

namespace AnonPayment

variable (pay : AnonPayment)

/-- The first round whose search finds coins, with the estimated fee and the positions. -/
def firstFound (rounds : Nat) : Nat → Nat → Nat → Option (Nat × Int64 × List Nat)
  | 0, _, _ => none
  | left + 1, i, nExpectChangeOuts =>
    let nFee := pay.minFee i nExpectChangeOuts
    if nFee = MAX_MONEY ∨ pay.exhaustive nFee ∧ pay.valueTest nFee ≤ 0 then none
    else
      match checkCombinations (pay.valueTest nFee) (i + 1) pay.vData rounds with
      | none => none
      | some (true, vecInputIndex) => some (i, nFee, vecInputIndex)
      | some (false, _) => firstFound rounds left (i + 1) (if pay.exhaustive nFee then 0 else nExpectChangeOuts)

/-- The fee for the change outputs that there are is the estimate; and where all coins do not cover the estimate,
they are worth the amount and the fee. -/
def FeeKept (i : Nat) (nFee : Int64) (vecInputIndex : List Nat) : Prop :=
  let nTestFee := pay.minFee i (pay.change nFee vecInputIndex).length
  if pay.exhaustive nFee then pay.nAmountCheck = pay.nValue + nTestFee else nTestFee = nFee

/-- The amount with any fee is an `int64_t`, and the largest output is one of many coins. -/
structure InRange : Prop where
  nonneg : 0 ≤ pay.nValue
  withFee : ∀ i nChangeOuts, pay.minFee i nChangeOuts ≠ MAX_MONEY →
    pay.nValue.toInt + (pay.minFee i nChangeOuts).toInt < 2 ^ 63
  maxOutput : 2 ^ 32 ≤ pay.nMaxAnonOutput.toInt

variable {pay}

theorem minFee_toInt (pay : AnonPayment) (i nChangeOuts : Nat) :
    (pay.minFee i nChangeOuts).toInt = getMinFee pay.nMinTxFee pay.wtxNew 0 (pay.totalBytes i nChangeOuts) :=
  toInt_ofInt_of_nonneg (getMinFee_range _ _ _ _).1 (getMinFee_range _ _ _ _).2

theorem valueTest_eq (hmode : pay.feeMode ≠ 1) (nFee : Int64) :
    pay.valueTest nFee = if pay.exhaustive nFee then pay.nAmountCheck else pay.nValue + nFee := by
  rw [valueTest, if_neg hmode]
  split
  · grind
  · rfl

/-- A loop that returns 1 ends in the first round that finds coins. -/
theorem pickLoop_eq_one {rounds left i nExpectChangeOuts : Nat} {nFee : Int64} {r : PickedInputs}
    (h : pay.pickLoop rounds left i nExpectChangeOuts nFee = some r) (hrv : r.rv = 1) :
    ∃ i' nExpect' n nFee' vecInputIndex, nFee' = pay.minFee i' n ∧ nFee' ≠ MAX_MONEY ∧
      ¬ (pay.exhaustive nFee' ∧ pay.valueTest nFee' ≤ 0) ∧
      checkCombinations (pay.valueTest nFee') (i' + 1) pay.vData rounds = some (true, vecInputIndex) ∧
      pay.firstFound rounds left i nExpectChangeOuts = some (i', nFee', vecInputIndex) ∧
      r = pay.finish i' nExpect' nFee' vecInputIndex := by
  induction left generalizing i nExpectChangeOuts nFee with
  | zero =>
    rw [← Option.some.inj h] at hrv
    cases hrv
  | succ left ih =>
    rw [pickLoop] at h
    dsimp only at h
    split at h
    case isTrue =>
      rw [← Option.some.inj h] at hrv
      cases hrv
    case isFalse hmax =>
      split at h
      case isTrue =>
        rw [← Option.some.inj h] at hrv
        cases hrv
      case isFalse hpos =>
        rw [Option.bind_eq_bind, Option.bind_eq_some_iff] at h
        obtain ⟨⟨fFound, vecInputIndex⟩, hcheck, h⟩ := h
        rw [firstFound]
        rw [if_neg (not_or.mpr ⟨hmax, hpos⟩), hcheck]
        cases fFound with
        | true => exact ⟨i, _, _, _, vecInputIndex, rfl, hmax, hpos, hcheck, rfl, (Option.some.inj h).symm⟩
        | false => exact ih h

/-- A round that returns 1 reports the fee for the change outputs that there are. -/
theorem finish_one {i nExpectChangeOuts : Nat} {nFee : Int64} {vecInputIndex : List Nat}
    (hrv : (pay.finish i nExpectChangeOuts nFee vecInputIndex).rv = 1) :
    pay.finish i nExpectChangeOuts nFee vecInputIndex =
      ⟨1, pay.minFee i (pay.change nFee vecInputIndex).length, nExpectChangeOuts, vecInputIndex,
        pay.change nFee vecInputIndex⟩ := by
  rw [finish] at hrv ⊢
  dsimp only at hrv ⊢
  split
  case isTrue hnone =>
    rw [if_pos hnone] at hrv
    cases hrv
  case isFalse hcreates =>
    rw [if_neg hcreates] at hrv
    split
    case isTrue hretry =>
      rw [if_pos hretry] at hrv
      cases hrv
    case isFalse hkept =>
      rw [if_neg hkept] at hrv
      split
      case isTrue hless =>
        rw [if_pos hless] at hrv
        cases hrv
      case isFalse => rfl

/-- A fee of the usual rate leaves room for every amount of coins. -/
theorem getMinFee_small (tx : CTransaction) (nBytes : Nat)
    (h : getMinFee 10000 tx 0 nBytes ≠ MAX_MONEY.toInt) : getMinFee 10000 tx 0 nBytes < 2 ^ 60 := by
  have hrange : ∀ n : Int, n < 2 ^ 60 → (if 0 ≤ n ∧ n ≤ MAX_MONEY.toInt then n else MAX_MONEY.toInt) ≠ MAX_MONEY.toInt →
      (if 0 ≤ n ∧ n ≤ MAX_MONEY.toInt then n else MAX_MONEY.toInt) < 2 ^ 60 := by
    intro n hn hne
    split
    case isTrue => exact hn
    case isFalse hout => rw [if_neg hout] at hne; exact absurd rfl hne
  have hdust : ¬ ((1 + (nBytes : Int) / 1000) * 10000 < 10000 ∧ ∃ txout ∈ tx.vout, txout.nValue < CENT) := by
    intro hsmall
    have hlow := hsmall.1
    omega
  have hgen : MAX_BLOCK_SIZE_GEN = 500000 := by decide
  rw [getMinFee, if_neg hdust] at h ⊢
  dsimp only at h ⊢
  split
  case isTrue hlarge =>
    rw [if_pos hlarge] at h
    split
    case isTrue hmax =>
      rw [if_pos hmax] at h
      exact absurd rfl h
    case isFalse hfits =>
      rw [if_neg hfits] at h
      refine hrange _ ?_ h
      have hquot : MAX_BLOCK_SIZE_GEN / (MAX_BLOCK_SIZE_GEN - (0 + nBytes)) ≤ 500000 := by
        rw [hgen]
        exact Nat.div_le_self _ _
      generalize MAX_BLOCK_SIZE_GEN / (MAX_BLOCK_SIZE_GEN - (0 + nBytes)) = k at hquot
      calc (1 + (nBytes : Int) / 1000) * 10000 * (k : Int) ≤ (1 + 500) * 10000 * 500000 :=
            mul_le_mul (by omega) (by omega) (by omega) (by decide)
        _ < 2 ^ 60 := by decide
  case isFalse hsmall =>
    rw [if_neg hsmall] at h
    refine hrange _ ?_ h
    omega

/-- One coin that covers the amount with the fee for one change output. -/
def oneCoinPayment : AnonPayment where
  rsType := .ringSig2
  nRingSize := 10
  nValue := 100000000
  wtxNew := ⟨1000, 0, [], [], 0⟩
  nOutputs := 2
  nSizeOutputs := 200
  vData := [100020000]
  nMinTxFee := 10000
  nMaxAnonOutput := 1000 * COIN
  feeMode := 0
  createsChange := fun _ => true

theorem oneCoinPayment_inRange : oneCoinPayment.InRange where
  nonneg := by decide
  withFee := by
    intro i n hne
    have hfee := minFee_toInt oneCoinPayment i n
    have hsmall := getMinFee_small oneCoinPayment.wtxNew (oneCoinPayment.totalBytes i n) fun heq =>
      hne (Int64.toInt_inj.mp (hfee.trans heq))
    have hvalue : oneCoinPayment.nValue.toInt = 100000000 := by decide
    rw [hfee, hvalue]
    have hrate : oneCoinPayment.nMinTxFee = 10000 := rfl
    rw [hrate]
    omega
  maxOutput := by decide

end AnonPayment

end AliasWallet
