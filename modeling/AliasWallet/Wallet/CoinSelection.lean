import Mathlib.Algebra.BigOperators.Group.Finset.Basic
import Mathlib.Algebra.Order.BigOperators.Group.Finset
import Mathlib.Algebra.Order.BigOperators.Group.List
import AliasWallet.Stake.CoinStake

/-!
# Coin selection (`SelectCoinsMinConf`, `ApproximateBestSubset`)

A coin of exactly the target, all smaller coins, a subset of them found by random tries, or the smallest larger coin.
Amounts are added over the integers. The shuffle, the order of equal values and `rand` are left open.
-/

namespace AliasWallet
open Lib

deriving instance DecidableEq for StakeCoin

/-- `COutput`: an output of a wallet transaction with its depth. -/
structure COutput extends StakeCoin where
  nDepth : Int

/-- `pair<int64_t, pair<const CWalletTx*, unsigned int>>`. -/
abbrev ValuedCoin := Int × StakeCoin

def COutput.coin (output : COutput) : ValuedCoin := (output.nValue.toInt, output.toStakeCoin)

/-- The random choices of one selection. -/
structure SelectChoices where
  shuffle : List COutput → List COutput
  shuffle_perm : ∀ vCoins, (shuffle vCoins).Perm vCoins
  sort : List ValuedCoin → List ValuedCoin
  sort_perm : ∀ vValue, (sort vValue).Perm vValue
  sort_values : ∀ vValue, ((sort vValue).map Prod.fst).Pairwise (· ≥ ·)
  /-- The numbers that `rand` returns, call by call. -/
  rand : Nat → Nat

/-- The variables of `ApproximateBestSubset`. -/
structure SubsetSearch where
  vfIncluded : List Bool
  nTotal : Int
  fReachedTarget : Bool
  vfBest : List Bool
  nBest : Int
  /-- The calls of `rand` so far. -/
  nCalls : Nat

section Search

variable (rand : Nat → Nat) (nTargetValue : Int)

/-- One coin of a pass: by chance in the first pass, and where it is not included yet in the second one. -/
def tryCoin (nPass : Nat) (st : SubsetSearch) (e : ValuedCoin × Nat) : SubsetSearch :=
  let fTry := if nPass = 0 then decide (rand st.nCalls % 2 ≠ 0) else !st.vfIncluded.getD e.2 false
  let st := if nPass = 0 then { st with nCalls := st.nCalls + 1 } else st
  if fTry then
    let nTotal := st.nTotal + e.1.1
    let vfIncluded := st.vfIncluded.set e.2 true
    if nTotal ≥ nTargetValue then
      { st with
        fReachedTarget := true
        nBest := if nTotal < st.nBest then nTotal else st.nBest
        vfBest := if nTotal < st.nBest then vfIncluded else st.vfBest
        nTotal := nTotal - e.1.1
        vfIncluded := vfIncluded.set e.2 false }
    else { st with nTotal, vfIncluded }
  else st

def tryCoins (nPass : Nat) (vValue : List ValuedCoin) (st : SubsetSearch) : SubsetSearch :=
  vValue.zipIdx.foldl (tryCoin rand nTargetValue nPass) st

/-- The body of the outer loop. -/
def searchRound (vValue : List ValuedCoin) (st : SubsetSearch) : SubsetSearch :=
  let st := tryCoins rand nTargetValue 0 vValue
    { st with vfIncluded := List.replicate vValue.length false, nTotal := 0, fReachedTarget := false }
  if st.fReachedTarget then st else tryCoins rand nTargetValue 1 vValue st

def searchRounds (vValue : List ValuedCoin) : Nat → SubsetSearch → SubsetSearch
  | 0, st => st
  | iterations + 1, st =>
    if st.nBest ≠ nTargetValue then searchRounds vValue iterations (searchRound rand nTargetValue vValue st) else st

/-- `ApproximateBestSubset`, from a number of calls of `rand` on. -/
def approximateBestSubset (vValue : List ValuedCoin) (nTotalLower : Int) (iterations nCalls : Nat) : SubsetSearch :=
  searchRounds rand nTargetValue vValue iterations
    ⟨[], 0, false, List.replicate vValue.length true, nTotalLower, nCalls⟩

end Search

/-- The coins that a vector of flags chooses. -/
def chosenCoins (vValue : List ValuedCoin) (vf : List Bool) : List ValuedCoin :=
  ((vValue.zip vf).filter Prod.snd).map Prod.fst

/-- The variables of the loop over the available coins. -/
structure CoinScan where
  vValue : List ValuedCoin
  nTotalLower : Int
  coinLowestLarger : Option ValuedCoin

/-- A coin counts where it is deep enough, and is not newer than the spend. -/
def eligibleCoin (isFromMe : CTransaction → Bool) (nSpendTime : UInt32) (nConfMine nConfTheirs : Int)
    (output : COutput) :
    Bool :=
  !decide (output.nDepth < if isFromMe output.ptx then nConfMine else nConfTheirs) &&
    !decide (output.ptx.nTime > nSpendTime)

section Select

variable (isFromMe : CTransaction → Bool) (nTargetValue : Int) (nSpendTime : UInt32) (nConfMine nConfTheirs : Int)

/-- The loop over the shuffled coins: a coin of exactly the target, or what the loop collects. -/
def scanCoins : List COutput → CoinScan → ValuedCoin ⊕ CoinScan
  | [], st => .inr st
  | output :: vCoins, st =>
    if ¬ eligibleCoin isFromMe nSpendTime nConfMine nConfTheirs output then scanCoins vCoins st
    else
      let n := output.nValue.toInt
      if n = nTargetValue then .inl output.coin
      else if n < nTargetValue + CENT.toInt then
        scanCoins vCoins { st with vValue := st.vValue ++ [output.coin], nTotalLower := st.nTotalLower + n }
      else if n < st.coinLowestLarger.elim Int64.maxValue.toInt Prod.fst then
        scanCoins vCoins { st with coinLowestLarger := some output.coin }
      else scanCoins vCoins st

/-- `setCoinsRet` and `nValueRet` for some coins. -/
def selectedCoins (coins : List ValuedCoin) : Finset StakeCoin × Int :=
  ((coins.map Prod.snd).toFinset, (coins.map Prod.fst).sum)

/-- The subset search, and another one where the smaller coins leave room for change. -/
def searchSubset (choices : SelectChoices) (vValue : List ValuedCoin) (nTotalLower : Int) : SubsetSearch :=
  let search := approximateBestSubset choices.rand nTargetValue vValue nTotalLower 1000 0
  if search.nBest ≠ nTargetValue ∧ nTotalLower ≥ nTargetValue + CENT.toInt then
    approximateBestSubset choices.rand (nTargetValue + CENT.toInt) vValue nTotalLower 1000 search.nCalls
  else search

/-- `SelectCoinsMinConf`: the selected coins and their value where it returns true. -/
def selectCoinsMinConf (choices : SelectChoices) (vCoins : List COutput) : Option (Finset StakeCoin × Int) :=
  match scanCoins isFromMe nTargetValue nSpendTime nConfMine nConfTheirs (choices.shuffle vCoins) ⟨[], 0, none⟩ with
  | .inl coin => some (selectedCoins [coin])
  | .inr st =>
    if st.nTotalLower = nTargetValue then some (selectedCoins st.vValue)
    else if st.nTotalLower < nTargetValue then st.coinLowestLarger.map fun coin => selectedCoins [coin]
    else
      let vValue := choices.sort st.vValue
      let search := searchSubset nTargetValue choices vValue st.nTotalLower
      -- the larger coin where no good subset was found, or where it is closer
      match st.coinLowestLarger.filter fun coin =>
          decide ((search.nBest ≠ nTargetValue ∧ search.nBest < nTargetValue + CENT.toInt) ∨ coin.1 ≤ search.nBest) with
      | some coin => some (selectedCoins [coin])
      | none => some (selectedCoins (chosenCoins vValue search.vfBest))

end Select

/-- `SelectCoins` over the available coins; with coin control all selected ones are taken. -/
def selectCoins (isFromMe : CTransaction → Bool) (choices : Nat → SelectChoices) (hasSelected : Bool)
    (nTargetValue : Int) (nSpendTime : UInt32) (vCoins : List COutput) : Option (Finset StakeCoin × Int) :=
  if hasSelected then
    let nValueRet := (vCoins.map fun output => output.nValue.toInt).sum
    if nValueRet ≥ nTargetValue then some ((vCoins.map COutput.toStakeCoin).toFinset, nValueRet) else none
  else
    ((selectCoinsMinConf isFromMe nTargetValue nSpendTime 1 10 (choices 0) vCoins).or
      (selectCoinsMinConf isFromMe nTargetValue nSpendTime 1 1 (choices 1) vCoins)).or
      (selectCoinsMinConf isFromMe nTargetValue nSpendTime 0 1 (choices 2) vCoins)

section SearchSpec

variable {rand : Nat → Nat} {nTargetValue : Int} {vValue : List ValuedCoin} {st : SubsetSearch}

/-- The value of the coins that a vector of flags chooses. -/
def chosenTotal (vValue : List ValuedCoin) (vf : List Bool) : Int := ((chosenCoins vValue vf).map Prod.fst).sum

theorem chosenCoins_cons (coin : ValuedCoin) (vValue : List ValuedCoin) (b : Bool) (vf : List Bool) :
    chosenCoins (coin :: vValue) (b :: vf) = if b then coin :: chosenCoins vValue vf else chosenCoins vValue vf := by
  rw [chosenCoins, List.zip_cons_cons, List.filter_cons]
  cases b with
  | true => rfl
  | false => rfl

theorem chosenCoins_sublist (vValue : List ValuedCoin) (vf : List Bool) :
    List.Sublist (chosenCoins vValue vf) vValue := by
  induction vValue generalizing vf with
  | nil => exact List.Sublist.refl _
  | cons coin vValue ih =>
    cases vf with
    | nil => exact List.nil_sublist _
    | cons b vf =>
      rw [chosenCoins_cons]
      split
      · exact (ih vf).cons_cons coin
      · exact (ih vf).cons coin

theorem chosenCoins_all (vValue : List ValuedCoin) :
    chosenCoins vValue (List.replicate vValue.length true) = vValue := by
  induction vValue with
  | nil => rfl
  | cons coin vValue ih =>
    rw [List.length_cons, List.replicate_succ, chosenCoins_cons, if_pos rfl, ih]

theorem chosenTotal_none (vValue : List ValuedCoin) (n : Nat) : chosenTotal vValue (List.replicate n false) = 0 := by
  induction vValue generalizing n with
  | nil => rfl
  | cons coin vValue ih =>
    cases n with
    | zero => rfl
    | succ n =>
      rw [chosenTotal, List.replicate_succ, chosenCoins_cons]
      exact ih n

/-- A coin that is not chosen yet adds its value. -/
theorem chosenTotal_set {i : Nat} {coin : ValuedCoin} {vf : List Bool} (hcoin : vValue[i]? = some coin)
    (hfree : vf[i]? = some false) : chosenTotal vValue (vf.set i true) = chosenTotal vValue vf + coin.1 := by
  induction vValue generalizing vf i with
  | nil => cases hcoin
  | cons first vValue ih =>
    cases vf with
    | nil => cases hfree
    | cons b vf =>
      cases i with
      | zero =>
        obtain rfl := Option.some.inj hcoin
        obtain rfl := Option.some.inj hfree
        rw [List.set_cons_zero, chosenTotal, chosenTotal, chosenCoins_cons, chosenCoins_cons]
        exact Int.add_comm _ _
      | succ i =>
        have hrest : chosenTotal vValue (vf.set i true) = chosenTotal vValue vf + coin.1 := ih hcoin hfree
        rw [List.set_cons_succ, chosenTotal, chosenTotal, chosenCoins_cons, chosenCoins_cons]
        cases b with
        | true =>
          show first.1 + chosenTotal vValue (vf.set i true) = first.1 + chosenTotal vValue vf + coin.1
          rw [hrest, Int.add_assoc]
        | false => exact hrest

/-- The running total and the best total are those of their flags, and the best one reaches the target. -/
structure SubsetSearch.Sound (vValue : List ValuedCoin) (nTargetValue : Int) (st : SubsetSearch) : Prop where
  included : st.vfIncluded.length = vValue.length
  total : st.nTotal = chosenTotal vValue st.vfIncluded
  best : st.nBest = chosenTotal vValue st.vfBest
  reached : nTargetValue ≤ st.nBest

/-- The coins from a position on are not chosen yet. -/
def SubsetSearch.FreeFrom (st : SubsetSearch) (i : Nat) : Prop :=
  ∀ j, i ≤ j → j < st.vfIncluded.length → st.vfIncluded[j]? = some false

theorem SubsetSearch.FreeFrom.set {i : Nat} {vf : List Bool} (b : Bool)
    (h : ∀ j, i ≤ j → j < vf.length → vf[j]? = some false) :
    ∀ j, i + 1 ≤ j → j < (vf.set i b).length → (vf.set i b)[j]? = some false := by
  intro j hj hlt
  rw [List.length_set] at hlt
  rw [List.getElem?_set_ne (by omega)]
  exact h j (by omega) hlt

variable (rand) in
theorem tryCoin_sound {nPass i : Nat} {coin : ValuedCoin} (hst : st.Sound vValue nTargetValue)
    (hcoin : vValue[i]? = some coin) (hfree : nPass = 0 → st.FreeFrom i) :
    (tryCoin rand nTargetValue nPass st (coin, i)).Sound vValue nTargetValue ∧
      (nPass = 0 → (tryCoin rand nTargetValue nPass st (coin, i)).FreeFrom (i + 1)) := by
  have hi : i < st.vfIncluded.length := by
    rw [hst.included]
    exact (List.getElem?_eq_some_iff.mp hcoin).1
  have hcalls : ∃ n, (if nPass = 0 then { st with nCalls := st.nCalls + 1 } else st) = { st with nCalls := n } := by
    split
    · exact ⟨_, rfl⟩
    · exact ⟨st.nCalls, rfl⟩
  obtain ⟨n, hn⟩ := hcalls
  rw [tryCoin]
  dsimp only
  rw [hn]
  generalize htry : (if nPass = 0 then decide (rand st.nCalls % 2 ≠ 0) else !st.vfIncluded.getD i false) = fTry
  cases fTry with
  | false =>
    refine ⟨⟨hst.included, hst.total, hst.best, hst.reached⟩, fun hpass j hj hlt => ?_⟩
    exact hfree hpass j (by omega) hlt
  | true =>
    have hnot : st.vfIncluded[i]? = some false := by
      by_cases hpass : nPass = 0
      · exact hfree hpass i le_rfl hi
      · rw [if_neg hpass, List.getD_eq_getElem?_getD, List.getElem?_eq_getElem hi] at htry
        rw [List.getElem?_eq_getElem hi]
        simpa using htry
    have hadded : st.nTotal + coin.1 = chosenTotal vValue (st.vfIncluded.set i true) := by
      rw [chosenTotal_set hcoin hnot, hst.total]
    rw [if_pos rfl]
    split
    case isTrue hreached =>
      have hback : (st.vfIncluded.set i true).set i false = st.vfIncluded := by
        have hget : st.vfIncluded[i] = false := (List.getElem?_eq_some_iff.mp hnot).2
        calc (st.vfIncluded.set i true).set i false = st.vfIncluded.set i st.vfIncluded[i] := by
              rw [List.set_set, hget]
          _ = st.vfIncluded := List.set_getElem_self hi
      refine ⟨⟨?_, ?_, ?_, ?_⟩, fun hpass => ?_⟩
      · rw [hback]
        exact hst.included
      · rw [hback, ← hst.total]
        exact Int.add_sub_cancel _ _
      · dsimp only
        split
        · exact hadded
        · exact hst.best
      · dsimp only
        split
        · exact hreached
        · exact hst.reached
      · show ∀ j, _ → j < ((st.vfIncluded.set i true).set i false).length → _
        rw [hback]
        exact fun j hj hlt => hfree hpass j (by omega) hlt
    case isFalse =>
      refine ⟨⟨by rw [List.length_set]; exact hst.included, hadded, hst.best, hst.reached⟩, fun hpass => ?_⟩
      exact SubsetSearch.FreeFrom.set true (hfree hpass)

theorem tryCoins_sound {nPass : Nat} (hst : st.Sound vValue nTargetValue) (hfree : nPass = 0 → st.FreeFrom 0) :
    (tryCoins rand nTargetValue nPass vValue st).Sound vValue nTargetValue := by
  -- the coins from `k` on are still to be tried
  have hpass : ∀ (coins : List ValuedCoin) (k : Nat) (st : SubsetSearch), vValue.drop k = coins →
      st.Sound vValue nTargetValue → (nPass = 0 → st.FreeFrom k) →
      ((coins.zipIdx k).foldl (tryCoin rand nTargetValue nPass) st).Sound vValue nTargetValue := by
    intro coins
    induction coins with
    | nil => exact fun k st _ hst _ => hst
    | cons coin coins ih =>
      intro k st hdrop hst hfree
      have hcoin : vValue[k]? = some coin := by
        rw [← List.head?_drop, hdrop]
        rfl
      obtain ⟨hnext, hfree⟩ := tryCoin_sound rand hst hcoin hfree
      refine ih (k + 1) _ ?_ hnext hfree
      rw [← List.tail_drop, hdrop]
      rfl
  exact hpass vValue 0 st List.drop_zero hst hfree

variable (rand) in
theorem searchRound_sound (hst : st.nBest = chosenTotal vValue st.vfBest) (hreached : nTargetValue ≤ st.nBest) :
    (searchRound rand nTargetValue vValue st).Sound vValue nTargetValue := by
  have hfirst : (tryCoins rand nTargetValue 0 vValue
      { st with vfIncluded := List.replicate vValue.length false, nTotal := 0, fReachedTarget := false }).Sound vValue
        nTargetValue := by
    refine tryCoins_sound ⟨List.length_replicate, (chosenTotal_none vValue _).symm, hst, hreached⟩ ?_
    intro _ j _ hlt
    rw [List.length_replicate] at hlt
    rw [List.getElem?_replicate, if_pos hlt]
  rw [searchRound]
  split
  · exact hfirst
  · exact tryCoins_sound hfirst fun h => absurd h (by decide)

theorem searchRounds_sound (iterations : Nat) (hst : st.nBest = chosenTotal vValue st.vfBest)
    (hreached : nTargetValue ≤ st.nBest) :
    (searchRounds rand nTargetValue vValue iterations st).nBest =
        chosenTotal vValue (searchRounds rand nTargetValue vValue iterations st).vfBest ∧
      nTargetValue ≤ (searchRounds rand nTargetValue vValue iterations st).nBest := by
  induction iterations generalizing st with
  | zero => exact ⟨hst, hreached⟩
  | succ iterations ih =>
    rw [searchRounds]
    split
    · have hround := searchRound_sound rand hst hreached
      exact ih hround.best hround.reached
    · exact ⟨hst, hreached⟩

variable (rand) in
/-- Whatever `rand` returns, the best subset has the best total, and that reaches the target. -/
theorem approximateBestSubset_sound {nTotalLower : Int} (iterations nCalls : Nat)
    (htotal : nTotalLower = (vValue.map Prod.fst).sum) (hreached : nTargetValue ≤ nTotalLower) :
    (approximateBestSubset rand nTargetValue vValue nTotalLower iterations nCalls).nBest =
        chosenTotal vValue (approximateBestSubset rand nTargetValue vValue nTotalLower iterations nCalls).vfBest ∧
      nTargetValue ≤ (approximateBestSubset rand nTargetValue vValue nTotalLower iterations nCalls).nBest := by
  refine searchRounds_sound iterations ?_ hreached
  rw [chosenTotal, chosenCoins_all]
  exact htotal

end SearchSpec

section SelectSpec

variable {isFromMe : CTransaction → Bool} {nTargetValue : Int} {nSpendTime : UInt32} {nConfMine nConfTheirs : Int}

/-- What the loop collects: the smaller coins with their total, and a larger coin where there is one. -/
structure CoinScan.Sound (nTargetValue : Int) (coins : List COutput) (st : CoinScan) : Prop where
  lower : st.vValue = (coins.filter fun output => decide (output.nValue.toInt < nTargetValue + CENT.toInt)).map
    COutput.coin
  total : st.nTotalLower = (st.vValue.map Prod.fst).sum
  larger : ∀ coin, st.coinLowestLarger = some coin → nTargetValue + CENT.toInt ≤ coin.1 ∧
    ∃ output ∈ coins, coin = output.coin
  smaller : st.coinLowestLarger = none → ∀ output ∈ coins, output.nValue ≠ Int64.maxValue →
    output.nValue.toInt < nTargetValue + CENT.toInt

/-- What the loop returns for the coins that count. -/
def ScanSound (nTargetValue : Int) (coins : List COutput) : ValuedCoin ⊕ CoinScan → Prop
  | .inl coin => coin.1 = nTargetValue ∧ ∃ output ∈ coins, coin = output.coin
  | .inr st => st.Sound nTargetValue coins

theorem CoinScan.Sound.addLower {coins : List COutput} {st : CoinScan} (hst : st.Sound nTargetValue coins)
    {output : COutput} (hlower : output.nValue.toInt < nTargetValue + CENT.toInt) :
    CoinScan.Sound nTargetValue (coins ++ [output])
      { st with vValue := st.vValue ++ [output.coin], nTotalLower := st.nTotalLower + output.nValue.toInt } where
  lower := by
    rw [List.filter_append, List.map_append, List.filter_cons_of_pos (by simpa using hlower)]
    exact congrArg (· ++ [output.coin]) hst.lower
  total := by
    rw [List.map_append, List.sum_append, hst.total]
    simp [COutput.coin]
  larger := by
    intro coin hcoin
    obtain ⟨hvalue, o, ho, heq⟩ := hst.larger coin hcoin
    exact ⟨hvalue, o, List.mem_append_left _ ho, heq⟩
  smaller := by
    intro hnone o ho hmax
    cases List.mem_append.mp ho with
    | inl hold => exact hst.smaller hnone o hold hmax
    | inr hnew => rwa [List.mem_singleton.mp hnew]

theorem CoinScan.Sound.addLarger {coins : List COutput} {st : CoinScan} (hst : st.Sound nTargetValue coins)
    {output : COutput} (hlarger : nTargetValue + CENT.toInt ≤ output.nValue.toInt) {lowest : Option ValuedCoin}
    (hlowest : lowest = some output.coin ∨ lowest = st.coinLowestLarger ∧
      (st.coinLowestLarger = none → output.nValue = Int64.maxValue)) :
    CoinScan.Sound nTargetValue (coins ++ [output]) { st with coinLowestLarger := lowest } where
  lower := by
    rw [List.filter_append, List.filter_cons_of_neg (by simpa using hlarger), List.filter_nil, List.append_nil]
    exact hst.lower
  total := hst.total
  larger := by
    intro coin hcoin
    cases hlowest with
    | inl hnew =>
      obtain rfl := Option.some.inj (hnew.symm.trans hcoin)
      exact ⟨hlarger, output, List.mem_append_right _ (List.mem_singleton_self _), rfl⟩
    | inr hold =>
      obtain ⟨hvalue, o, ho, heq⟩ := hst.larger coin (hold.1 ▸ hcoin)
      exact ⟨hvalue, o, List.mem_append_left _ ho, heq⟩
  smaller := by
    intro hnone o ho hmax
    cases hlowest with
    | inl hnew => exact absurd (hnew.symm.trans hnone) (Option.some_ne_none _)
    | inr hold =>
      have hnone : st.coinLowestLarger = none := hold.1.symm.trans hnone
      cases List.mem_append.mp ho with
      | inl hbefore => exact hst.smaller hnone o hbefore hmax
      | inr hlast => exact absurd (hold.2 hnone) (List.mem_singleton.mp hlast ▸ hmax)

theorem scanCoins_sound {before : List COutput} {st : CoinScan} (vCoins : List COutput)
    (hst : st.Sound nTargetValue before) :
    ScanSound nTargetValue (before ++ vCoins.filter (eligibleCoin isFromMe nSpendTime nConfMine nConfTheirs))
      (scanCoins isFromMe nTargetValue nSpendTime nConfMine nConfTheirs vCoins st) := by
  induction vCoins generalizing before st with
  | nil =>
    rw [scanCoins, List.filter_nil, List.append_nil]
    exact hst
  | cons output vCoins ih =>
    rw [scanCoins]
    split
    case isTrue hnot =>
      rw [List.filter_cons_of_neg hnot]
      exact ih hst
    case isFalse hcounts =>
      rw [List.filter_cons_of_pos (not_not.mp hcounts), List.append_cons]
      dsimp only
      split
      case isTrue hexact =>
        exact ⟨hexact, output, List.mem_append_left _ (List.mem_append_right _ (List.mem_singleton_self _)), rfl⟩
      split
      case isTrue hlower => exact ih (hst.addLower hlower)
      case isFalse hlarger =>
        have hlarger := not_lt.mp hlarger
        split
        · exact ih (hst.addLarger hlarger (Or.inl rfl))
        case isFalse hnot =>
          refine ih (hst.addLarger hlarger (Or.inr ⟨rfl, fun hnone => ?_⟩))
          rw [hnone] at hnot
          exact Int64.toInt_inj.mp (le_antisymm (Int64.toInt_le _) (not_lt.mp hnot))

/-- Coins that are eligible, each at most once, with their values. -/
def SelectsFrom (coins : List COutput) (chosen : List ValuedCoin) : Prop :=
  List.Subperm chosen (coins.map COutput.coin)

/-- The selected coins are distinct, and their total is the value that is returned. -/
theorem selectedCoins_total {coins : List COutput} (hdistinct : (coins.map COutput.toStakeCoin).Nodup)
    {chosen : List ValuedCoin} (h : SelectsFrom coins chosen) :
    (∀ c ∈ (selectedCoins chosen).1, ∃ output ∈ coins, output.toStakeCoin = c) ∧
      ∑ c ∈ (selectedCoins chosen).1, c.nValue.toInt = (selectedCoins chosen).2 := by
  have hcoins : List.Subperm (chosen.map Prod.snd) (coins.map COutput.toStakeCoin) := by
    obtain ⟨l, hperm, hsub⟩ := h
    refine ⟨l.map Prod.snd, hperm.map Prod.snd, ?_⟩
    have hmap := hsub.map Prod.snd
    rwa [List.map_map] at hmap
  have hvalues : chosen.map Prod.fst = (chosen.map Prod.snd).map fun c => c.nValue.toInt := by
    rw [List.map_map]
    refine List.map_congr_left fun coin hcoin => ?_
    obtain ⟨output, -, rfl⟩ := List.mem_map.mp (h.subset hcoin)
    rfl
  refine ⟨fun c hc => ?_, ?_⟩
  · obtain ⟨output, ho, heq⟩ := List.mem_map.mp (hcoins.subset (List.mem_toFinset.mp hc))
    exact ⟨output, ho, heq⟩
  · have hnodup : (chosen.map Prod.snd).Nodup := by
      obtain ⟨l, hperm, hsub⟩ := hcoins
      exact hperm.nodup_iff.mp (hsub.nodup hdistinct)
    rw [selectedCoins, List.sum_toFinset _ hnodup, hvalues]

theorem SelectsFrom.perm {coins coins' : List COutput} {chosen : List ValuedCoin} (h : SelectsFrom coins chosen)
    (hperm : coins.Perm coins') : SelectsFrom coins' chosen :=
  h.trans (hperm.map COutput.coin).subperm

def eligibleTotal (coins : List COutput) : Int := (coins.map fun output => output.nValue.toInt).sum

theorem SelectsFrom.le_total {coins : List COutput} {chosen : List ValuedCoin} (h : SelectsFrom coins chosen)
    (hpos : ∀ output ∈ coins, 0 ≤ output.nValue.toInt) : (chosen.map Prod.fst).sum ≤ eligibleTotal coins := by
  obtain ⟨l, hperm, hsub⟩ := h
  have hvalues : List.Sublist (l.map Prod.fst) (coins.map fun output => output.nValue.toInt) := by
    have hmap := hsub.map Prod.fst
    rwa [List.map_map] at hmap
  rw [← (hperm.map Prod.fst).sum_eq]
  refine hvalues.sum_le_sum fun n hn => ?_
  obtain ⟨output, ho, rfl⟩ := List.mem_map.mp hn
  exact hpos output ho

/-- One coin of some eligible ones. -/
theorem SelectsFrom.single {coins : List COutput} {coin : ValuedCoin} (h : ∃ output ∈ coins, coin = output.coin) :
    SelectsFrom coins [coin] := by
  obtain ⟨output, ho, rfl⟩ := h
  exact (List.singleton_sublist.mpr (List.mem_map_of_mem ho)).subperm

theorem CoinScan.Sound.lower_selects {coins : List COutput} {st : CoinScan} (hst : st.Sound nTargetValue coins) :
    SelectsFrom coins st.vValue := by
  rw [SelectsFrom, hst.lower]
  exact (List.filter_sublist.map COutput.coin).subperm

/-- Where there is no larger coin, the smaller ones are all. -/
theorem CoinScan.Sound.total_of_none {coins : List COutput} {st : CoinScan} (hst : st.Sound nTargetValue coins)
    (hnone : st.coinLowestLarger = none) (hmax : ∀ output ∈ coins, output.nValue ≠ Int64.maxValue) :
    st.nTotalLower = eligibleTotal coins := by
  have hall : coins.filter (fun output => decide (output.nValue.toInt < nTargetValue + CENT.toInt)) = coins :=
    List.filter_eq_self.mpr fun output ho => decide_eq_true (hst.smaller hnone output ho (hmax output ho))
  rw [hst.total, hst.lower, hall, List.map_map]
  rfl

theorem cent_pos : 0 < CENT.toInt := by decide

/-- The subset search ends in coins that reach the target. -/
theorem searchedCoins_sound {coins : List COutput} {st : CoinScan} (hst : st.Sound nTargetValue coins)
    (choices : SelectChoices) (hreached : nTargetValue ≤ st.nTotalLower) :
    SelectsFrom coins (chosenCoins (choices.sort st.vValue)
        (searchSubset nTargetValue choices (choices.sort st.vValue) st.nTotalLower).vfBest) ∧
      nTargetValue ≤ ((chosenCoins (choices.sort st.vValue)
        (searchSubset nTargetValue choices (choices.sort st.vValue) st.nTotalLower).vfBest).map Prod.fst).sum := by
  have hperm := choices.sort_perm st.vValue
  have htotal : st.nTotalLower = ((choices.sort st.vValue).map Prod.fst).sum := by
    rw [hst.total, (hperm.map Prod.fst).sum_eq]
  refine ⟨((chosenCoins_sublist _ _).subperm.trans hperm.subperm).trans hst.lower_selects, ?_⟩
  rw [searchSubset]
  split
  case isTrue hagain =>
    obtain ⟨hbest, hle⟩ := approximateBestSubset_sound choices.rand 1000
      (approximateBestSubset choices.rand nTargetValue (choices.sort st.vValue) st.nTotalLower 1000 0).nCalls htotal
      hagain.2
    have hcent := cent_pos
    exact le_trans (by omega) (hle.trans hbest.le)
  case isFalse =>
    obtain ⟨hbest, hle⟩ := approximateBestSubset_sound choices.rand 1000 0 htotal hreached
    exact hle.trans hbest.le

variable (isFromMe nTargetValue nSpendTime nConfMine nConfTheirs) in
/-- The exits: the selected coins reach the target, or all that are eligible do not. -/
theorem selectCoinsMinConf_exits (choices : SelectChoices) (vCoins : List COutput) :
    (∃ chosen, selectCoinsMinConf isFromMe nTargetValue nSpendTime nConfMine nConfTheirs choices vCoins =
        some (selectedCoins chosen) ∧
      SelectsFrom (vCoins.filter (eligibleCoin isFromMe nSpendTime nConfMine nConfTheirs)) chosen ∧
      nTargetValue ≤ (chosen.map Prod.fst).sum) ∨
    selectCoinsMinConf isFromMe nTargetValue nSpendTime nConfMine nConfTheirs choices vCoins = none ∧
      ((∀ output ∈ vCoins, output.nValue ≠ Int64.maxValue) →
        eligibleTotal (vCoins.filter (eligibleCoin isFromMe nSpendTime nConfMine nConfTheirs)) < nTargetValue) := by
  have hperm := (choices.shuffle_perm vCoins).filter (eligibleCoin isFromMe nSpendTime nConfMine nConfTheirs)
  have hscan : ScanSound nTargetValue
      ((choices.shuffle vCoins).filter (eligibleCoin isFromMe nSpendTime nConfMine nConfTheirs))
      (scanCoins isFromMe nTargetValue nSpendTime nConfMine nConfTheirs (choices.shuffle vCoins) ⟨[], 0, none⟩) := by
    rw [← List.nil_append (List.filter _ _)]
    exact scanCoins_sound (choices.shuffle vCoins)
      ⟨rfl, rfl, fun _ h => (nomatch h), fun _ _ h => absurd h List.not_mem_nil⟩
  have hsingle : ∀ coin : ValuedCoin, ([coin].map Prod.fst).sum = coin.1 := fun coin => List.sum_singleton
  rw [selectCoinsMinConf]
  generalize scanCoins _ _ _ _ _ _ _ = r at hscan ⊢
  cases r with
  | inl coin =>
    obtain ⟨hexact, hcoin⟩ := hscan
    exact Or.inl ⟨[coin], rfl, (SelectsFrom.single hcoin).perm hperm, (hsingle coin).symm ▸ hexact.ge⟩
  | inr st =>
    have hlarger : ∀ coin, st.coinLowestLarger = some coin →
        SelectsFrom (vCoins.filter (eligibleCoin isFromMe nSpendTime nConfMine nConfTheirs)) [coin] ∧
          nTargetValue ≤ ([coin].map Prod.fst).sum := by
      intro coin hcoin
      obtain ⟨hvalue, houtput⟩ := hscan.larger coin hcoin
      have hcent := cent_pos
      exact ⟨(SelectsFrom.single houtput).perm hperm, by rw [hsingle]; omega⟩
    dsimp only
    split
    case isTrue hexact =>
      exact Or.inl ⟨st.vValue, rfl, hscan.lower_selects.perm hperm, (hscan.total ▸ hexact).ge⟩
    split
    case isTrue hless =>
      cases hlowest : st.coinLowestLarger with
      | none =>
        right
        refine ⟨rfl, fun hmax => ?_⟩
        have hmaxs : ∀ output ∈ (choices.shuffle vCoins).filter
            (eligibleCoin isFromMe nSpendTime nConfMine nConfTheirs), output.nValue ≠ Int64.maxValue :=
          fun output ho => hmax output ((choices.shuffle_perm vCoins).mem_iff.mp (List.mem_of_mem_filter ho))
        have hall : eligibleTotal (vCoins.filter (eligibleCoin isFromMe nSpendTime nConfMine nConfTheirs)) =
            st.nTotalLower := by
          rw [hscan.total_of_none hlowest hmaxs, eligibleTotal, eligibleTotal, (hperm.map _).sum_eq]
        exact hall ▸ hless
      | some coin => exact Or.inl ⟨[coin], rfl, hlarger coin hlowest⟩
    case isFalse hnot =>
      left
      split
      case h_1 coin hfilter =>
        exact ⟨[coin], rfl, hlarger coin (Option.eq_some_of_filter_eq_some hfilter)⟩
      case h_2 =>
        obtain ⟨hfrom, hreached⟩ := searchedCoins_sound hscan choices (not_lt.mp hnot)
        exact ⟨_, rfl, hfrom.perm hperm, hreached⟩

/-- The coins as they stand, and coins of equal value in their order. -/
def plainChoices : SelectChoices where
  shuffle := id
  shuffle_perm := fun vCoins => List.Perm.refl vCoins
  sort := fun vValue => vValue.mergeSort fun a b => decide (a.1 ≥ b.1)
  sort_perm := fun vValue => List.mergeSort_perm vValue _
  sort_values := fun vValue => by
    have hsorted : (vValue.mergeSort fun a b => decide (a.1 ≥ b.1)).Pairwise fun a b => decide (a.1 ≥ b.1) := by
      apply List.pairwise_mergeSort
      · intro a b c hab hbc
        simp only [decide_eq_true_eq] at *
        omega
      · intro a b
        simp only [Bool.or_eq_true, decide_eq_true_eq]
        omega
    exact List.pairwise_map.mpr (hsorted.imp fun h => of_decide_eq_true h)
  rand := fun _ => 0

/-- A confirmed output of some value. -/
def confirmedOutput (nValue : Int64) : COutput where
  ptx := ⟨1, 0, [], [⟨nValue, []⟩], 0⟩
  n := 0
  inRange := Nat.one_pos
  nDepth := 10

end SelectSpec

end AliasWallet
