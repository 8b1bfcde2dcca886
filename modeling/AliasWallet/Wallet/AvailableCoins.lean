import AliasWallet.Stake.CoinStake
import Mathlib.Data.List.SplitBy

/-!
# The anonymous coins that may be spent (`ListAvailableAnonOutputs`)

Coins are held back so that no denomination is spent in full. One pass counts the coins of each value, with `-1` for no
limit.
-/

namespace AliasWallet

def UNSPENT_ANON_SELECT_MIN : Int := 20

/-- The statistics of a denomination with the number of its mixins. -/
structure MixinCount extends CAnonOutputCount where
  nMixins : Int
  nMixinsStaking : Int

/-- The arguments of `ListAvailableAnonOutputs` and the statistics; a missing entry is zero. -/
structure AnonFilter where
  nRingSize : Int
  /-- `nFilter == MaturityFilter::FOR_STAKING`. -/
  forStaking : Bool
  nMaxAmount : Int64
  nMaxAnonOutput : Int64
  mapAnonOutputStats : Int64 → MixinCount

/-- The variables of the loop. -/
structure AnonPass where
  nAmountCheck : Int64
  nCoinsPerValue : Int
  nLastCoinValue : Int64
  nMaxSpendable : Int
  nAvailableMixins : Int

def AnonPass.start : AnonPass := ⟨0, 0, -1, -1, 0⟩

namespace AnonFilter

variable (f : AnonFilter)

/-- The coins that stay unspent. -/
def minUnspent : Int := if f.forStaking then 1 else UNSPENT_ANON_SELECT_MIN

/-- The mature unspent outputs of the denomination without those that stay unspent. -/
def spendable (nValue : Int64) : Int :=
  (f.mapAnonOutputStats nValue).nMature - (f.mapAnonOutputStats nValue).nSpends - f.minUnspent

def availableMixins (nValue : Int64) : Int :=
  if f.forStaking then (f.mapAnonOutputStats nValue).nMixinsStaking else (f.mapAnonOutputStats nValue).nMixins

/-- A new value starts a new count. -/
def enter (st : AnonPass) (nValue : Int64) : AnonPass :=
  if st.nLastCoinValue ≠ nValue then
    { st with
      nCoinsPerValue := 0
      nLastCoinValue := nValue
      nAvailableMixins := f.availableMixins nValue
      nMaxSpendable := if nValue ≤ f.nMaxAnonOutput then f.spendable nValue else -1 }
  else st

def drops (st : AnonPass) (nValue : Int64) : Bool :=
  decide (st.nAvailableMixins < f.nRingSize) ||
    (decide (st.nMaxSpendable ≠ -1) && decide (st.nCoinsPerValue ≥ st.nMaxSpendable)) ||
    decide (st.nAmountCheck + nValue > f.nMaxAmount)

/-- The loop of `ListAvailableAnonOutputs` over the unspent outputs: the coins that stay, and its variables. -/
def pass : List COwnedAnonOutput → AnonPass → List COwnedAnonOutput × AnonPass
  | [], st => ([], st)
  | it :: lAvailableAnonOutputs, st =>
    let st := f.enter st it.nValue
    if f.drops st it.nValue then pass lAvailableAnonOutputs st
    else
      let (kept, st) := pass lAvailableAnonOutputs
        { st with nAmountCheck := st.nAmountCheck + it.nValue, nCoinsPerValue := st.nCoinsPerValue + 1 }
      (it :: kept, st)

/-- `ListAvailableAnonOutputs`: the coins that stay and their amount. -/
def listAvailableAnonOutputs (lUnspent : List COwnedAnonOutput) : List COwnedAnonOutput × Int64 :=
  let (kept, st) := f.pass lUnspent AnonPass.start
  (kept, st.nAmountCheck)

/-- The coins of one value stand together. -/
def Grouped (lUnspent : List COwnedAnonOutput) : Prop :=
  ∀ nValue : Int64, ∃ before group after, lUnspent = before ++ group ++ after ∧ (∀ it ∈ group, it.nValue = nValue) ∧
    (∀ it ∈ before, it.nValue ≠ nValue) ∧ ∀ it ∈ after, it.nValue ≠ nValue

def countValue (nValue : Int64) (coins : List COwnedAnonOutput) : Nat := coins.countP fun it => it.nValue = nValue

/-- The amount with so many coins of a value, as far as it goes. -/
def addCoins (nMaxAmount nValue : Int64) : Nat → Int64 → Int64
  | 0, nAmount => nAmount
  | nCoins + 1, nAmount =>
    if nAmount + nValue > nMaxAmount then nAmount else addCoins nMaxAmount nValue nCoins (nAmount + nValue)

/-- Of so many coins of a denomination those that its statistics let through; a limit of minus one is none. -/
def letThrough (nValue : Int64) (nCoins : Nat) : Nat :=
  if f.availableMixins nValue < f.nRingSize then 0
  else if nValue ≤ f.nMaxAnonOutput ∧ f.spendable nValue ≠ -1 then min nCoins (f.spendable nValue).toNat
  else nCoins

/-- The amount with the coins of one denomination. -/
def addGroup (nAmount : Int64) : List COwnedAnonOutput → Int64
  | [] => nAmount
  | it :: group => addCoins f.nMaxAmount it.nValue (f.letThrough it.nValue (group.length + 1)) nAmount

/-- What coins take of the amount, one denomination after the other. -/
def amountTaken (coins : List COwnedAnonOutput) : Int64 :=
  (coins.splitBy fun it it' => it.nValue == it'.nValue).foldl f.addGroup 0

variable {f}

theorem pass_append (coins coins' : List COwnedAnonOutput) (st : AnonPass) :
    f.pass (coins ++ coins') st =
      ((f.pass coins st).1 ++ (f.pass coins' (f.pass coins st).2).1, (f.pass coins' (f.pass coins st).2).2) := by
  induction coins generalizing st with
  | nil => rfl
  | cons it coins ih =>
    rw [List.cons_append, pass, pass]
    dsimp only
    split
    · exact ih _
    · rw [ih]
      rfl

theorem pass_sublist (coins : List COwnedAnonOutput) (st : AnonPass) : List.Sublist (f.pass coins st).1 coins := by
  induction coins generalizing st with
  | nil => exact List.Sublist.refl _
  | cons it coins ih =>
    rw [pass]
    dsimp only
    split
    · exact (ih _).cons it
    · exact (ih _).cons_cons it

theorem countValue_eq_zero {nValue : Int64} {coins : List COwnedAnonOutput} (h : ∀ it ∈ coins, it.nValue ≠ nValue) :
    countValue nValue coins = 0 :=
  List.countP_eq_zero.mpr fun it hit => by simpa using h it hit

/-- The last value is one of the list, or the one before it. -/
theorem pass_nLastCoinValue (coins : List COwnedAnonOutput) (st : AnonPass) :
    (f.pass coins st).2.nLastCoinValue = st.nLastCoinValue ∨
      ∃ it ∈ coins, (f.pass coins st).2.nLastCoinValue = it.nValue := by
  induction coins generalizing st with
  | nil => exact Or.inl rfl
  | cons it coins ih =>
    have henter : (f.enter st it.nValue).nLastCoinValue = it.nValue := by
      rw [enter]
      split
      · rfl
      case isFalse hsame => exact not_not.mp hsame
    have hrest : ∀ st', st'.nLastCoinValue = it.nValue → ∃ it' ∈ it :: coins,
        (f.pass coins st').2.nLastCoinValue = it'.nValue := by
      intro st' hst'
      cases ih st' with
      | inl hsame => exact ⟨it, List.mem_cons_self, hsame.trans hst'⟩
      | inr hlater =>
        obtain ⟨it', hit', heq⟩ := hlater
        exact ⟨it', List.mem_cons_of_mem _ hit', heq⟩
    right
    rw [pass]
    dsimp only
    split
    · exact hrest _ henter
    · exact hrest _ henter

theorem enter_of_last {st : AnonPass} {nValue : Int64} (hlast : st.nLastCoinValue = nValue) :
    f.enter st nValue = st := by
  rw [enter, if_neg (not_not.mpr hlast)]

theorem enter_nLastCoinValue (st : AnonPass) (nValue : Int64) : (f.enter st nValue).nLastCoinValue = nValue := by
  rw [enter]
  split
  · rfl
  case isFalse hsame => exact not_not.mp hsame

/-- A group starts with the variables of its own value. -/
theorem pass_enter {nValue : Int64} {group : List COwnedAnonOutput} (hne : group ≠ [])
    (hgroup : ∀ it ∈ group, it.nValue = nValue) (st : AnonPass) :
    f.pass group st = f.pass group (f.enter st nValue) := by
  cases group with
  | nil => exact absurd rfl hne
  | cons it group =>
    rw [pass, pass, hgroup it List.mem_cons_self, enter_of_last (enter_nLastCoinValue st nValue)]

/-- Within a group no more coins stay than the limit leaves, where there is one. -/
theorem pass_group_le {nValue : Int64} (group : List COwnedAnonOutput) (hgroup : ∀ it ∈ group, it.nValue = nValue)
    (st : AnonPass) (hlast : st.nLastCoinValue = nValue) (hlimit : st.nMaxSpendable ≠ -1) :
    ((f.pass group st).1.length : Int) ≤ max 0 (st.nMaxSpendable - st.nCoinsPerValue) := by
  induction group generalizing st with
  | nil => exact le_max_left _ _
  | cons it group ih =>
    have hrest : ∀ it ∈ group, it.nValue = nValue := fun it hit => hgroup it (List.mem_cons_of_mem _ hit)
    rw [pass, hgroup it List.mem_cons_self, enter_of_last hlast]
    dsimp only
    by_cases hdrops : f.drops st nValue = true
    · rw [if_pos hdrops]
      exact ih hrest st hlast hlimit
    · rw [if_neg hdrops, List.length_cons]
      have hnext := ih hrest { st with
        nAmountCheck := st.nAmountCheck + nValue, nCoinsPerValue := st.nCoinsPerValue + 1 } hlast hlimit
      have hbelow : st.nCoinsPerValue < st.nMaxSpendable := by
        by_contra hge
        refine hdrops ?_
        rw [drops, decide_eq_true hlimit, decide_eq_true (not_lt.mp hge), Bool.and_self, Bool.or_true, Bool.true_or]
      have hpos : max 0 (st.nMaxSpendable - st.nCoinsPerValue) = st.nMaxSpendable - st.nCoinsPerValue :=
        max_eq_right (by omega)
      have hpos' : max 0 (st.nMaxSpendable - (st.nCoinsPerValue + 1)) = st.nMaxSpendable - (st.nCoinsPerValue + 1) :=
        max_eq_right (by omega)
      rw [hpos'] at hnext
      rw [hpos]
      push_cast
      omega

/-- Without a limit a group is dropped in full where its first coin is. -/
theorem pass_group_nil_iff {nValue : Int64} {group : List COwnedAnonOutput} (hne : group ≠ [])
    (hgroup : ∀ it ∈ group, it.nValue = nValue) (st : AnonPass) (hlast : st.nLastCoinValue = nValue) :
    (f.pass group st).1 = [] ↔ f.drops st nValue = true := by
  induction group with
  | nil => exact absurd rfl hne
  | cons it group ih =>
    rw [pass, hgroup it List.mem_cons_self, enter_of_last hlast]
    dsimp only
    by_cases hdrops : f.drops st nValue = true
    · rw [if_pos hdrops]
      refine iff_of_true ?_ hdrops
      by_cases hnil : group = []
      · rw [hnil, pass]
      · exact (ih hnil fun it hit => hgroup it (List.mem_cons_of_mem _ hit)).mpr hdrops
    · rw [if_neg hdrops]
      exact iff_of_false (List.cons_ne_nil _ _) hdrops

theorem addCoins_full {nMaxAmount nValue nAmount : Int64} (hfull : nAmount + nValue > nMaxAmount) (nCoins : Nat) :
    addCoins nMaxAmount nValue nCoins nAmount = nAmount := by
  cases nCoins with
  | zero => rfl
  | succ nCoins => rw [addCoins, if_pos hfull]

/-- Within a group the amount grows by the coins that the mixins and what is left of the limit let through. -/
theorem pass_group_amount {nValue : Int64} (group : List COwnedAnonOutput) (hgroup : ∀ it ∈ group, it.nValue = nValue)
    (st : AnonPass) (hlast : st.nLastCoinValue = nValue) :
    (f.pass group st).2.nAmountCheck = addCoins f.nMaxAmount nValue
      (if st.nAvailableMixins < f.nRingSize then 0
        else if st.nMaxSpendable ≠ -1 then min group.length (st.nMaxSpendable - st.nCoinsPerValue).toNat
        else group.length) st.nAmountCheck := by
  induction group generalizing st with
  | nil =>
    rw [List.length_nil, Nat.zero_min]
    simp [pass, addCoins]
  | cons it group ih =>
    have hrest : ∀ it ∈ group, it.nValue = nValue := fun it hit => hgroup it (List.mem_cons_of_mem _ hit)
    rw [pass, hgroup it List.mem_cons_self, enter_of_last hlast]
    dsimp only
    by_cases hmixins : st.nAvailableMixins < f.nRingSize
    · have hdrops : f.drops st nValue = true := by simp [drops, hmixins]
      rw [if_pos hdrops, if_pos hmixins, ih hrest st hlast, if_pos hmixins]
    by_cases hfull : st.nAmountCheck + nValue > f.nMaxAmount
    · have hdrops : f.drops st nValue = true := by simp [drops, hfull]
      rw [if_pos hdrops, ih hrest st hlast, addCoins_full hfull, addCoins_full hfull]
    by_cases hlimit : st.nMaxSpendable ≠ -1
    · by_cases hout : st.nCoinsPerValue ≥ st.nMaxSpendable
      · have hdrops : f.drops st nValue = true := by simp [drops, hlimit, hout]
        have hzero : (st.nMaxSpendable - st.nCoinsPerValue).toNat = 0 := by omega
        rw [if_pos hdrops, if_neg hmixins, if_pos hlimit, ih hrest st hlast, if_neg hmixins, if_pos hlimit, hzero,
          Nat.min_zero, Nat.min_zero]
      · have hkept : ¬ f.drops st nValue = true := by simp [drops, hmixins, hfull, hout]
        have hone : min (group.length + 1) (st.nMaxSpendable - st.nCoinsPerValue).toNat =
            min group.length (st.nMaxSpendable - (st.nCoinsPerValue + 1)).toNat + 1 := by omega
        have hnext := ih hrest { st with
          nAmountCheck := st.nAmountCheck + nValue, nCoinsPerValue := st.nCoinsPerValue + 1 } hlast
        rw [if_neg hmixins, if_pos hlimit] at hnext
        rw [if_neg hkept, if_neg hmixins, if_pos hlimit, List.length_cons, hone, addCoins, if_neg hfull]
        exact hnext
    · have hkept : ¬ f.drops st nValue = true := by simp [drops, hmixins, hfull, hlimit]
      have hnext := ih hrest { st with
        nAmountCheck := st.nAmountCheck + nValue, nCoinsPerValue := st.nCoinsPerValue + 1 } hlast
      rw [if_neg hmixins, if_neg hlimit] at hnext
      rw [if_neg hkept, if_neg hmixins, if_neg hlimit, List.length_cons, addCoins, if_neg hfull]
      exact hnext

/-- A group behind one of another value. -/
theorem pass_addGroup {nValue : Int64} {group : List COwnedAnonOutput} (hne : group ≠ [])
    (hgroup : ∀ it ∈ group, it.nValue = nValue) (st : AnonPass) (hlast : st.nLastCoinValue ≠ nValue) :
    (f.pass group st).2.nAmountCheck = f.addGroup st.nAmountCheck group := by
  rw [pass_enter hne hgroup, pass_group_amount group hgroup _ (enter_nLastCoinValue st nValue), enter, if_pos hlast]
  obtain ⟨it, rest, rfl⟩ := List.exists_cons_of_ne_nil hne
  rw [addGroup, letThrough, hgroup it List.mem_cons_self, List.length_cons]
  dsimp only
  by_cases hmax : nValue ≤ f.nMaxAnonOutput
  · rw [if_pos hmax, Int.sub_zero]
    simp only [hmax, true_and]
  · rw [if_neg hmax]
    simp [hmax]

/-- The last value of a group is its own. -/
theorem pass_group_last {nValue : Int64} {group : List COwnedAnonOutput} (hne : group ≠ [])
    (hgroup : ∀ it ∈ group, it.nValue = nValue) (st : AnonPass) :
    (f.pass group st).2.nLastCoinValue = nValue := by
  rw [pass_enter hne hgroup]
  cases pass_nLastCoinValue group (f.enter st nValue) with
  | inl hsame => exact hsame.trans (enter_nLastCoinValue st nValue)
  | inr hmem =>
    obtain ⟨it, hit, heq⟩ := hmem
    exact heq.trans (hgroup it hit)

/-- Groups of one value each, neighbours of different ones. -/
theorem pass_groups_amount (groups : List (List COwnedAnonOutput)) (st : AnonPass)
    (hgroups : ∀ group ∈ groups, ∃ nValue, group ≠ [] ∧ ∀ it ∈ group, it.nValue = nValue)
    (hfirst : ∀ group ∈ groups.head?, ∀ it ∈ group, it.nValue ≠ st.nLastCoinValue)
    (hdiffer : groups.IsChain fun group group' => ∀ it ∈ group, ∀ it' ∈ group', it.nValue ≠ it'.nValue) :
    (f.pass groups.flatten st).2.nAmountCheck = groups.foldl f.addGroup st.nAmountCheck := by
  induction groups generalizing st with
  | nil => rfl
  | cons group groups ih =>
    obtain ⟨nValue, hne, hgroup⟩ := hgroups group List.mem_cons_self
    obtain ⟨it, hit⟩ := List.exists_mem_of_ne_nil group hne
    have hlast : st.nLastCoinValue ≠ nValue := by
      intro heq
      exact hfirst group rfl it hit ((hgroup it hit).trans heq.symm)
    rw [List.flatten_cons, pass_append, List.foldl_cons, ← pass_addGroup hne hgroup st hlast]
    apply ih
    · exact fun group' hgroup' => hgroups group' (List.mem_cons_of_mem _ hgroup')
    · intro group' hgroup' it' hit'
      rw [pass_group_last hne hgroup]
      have hnext := (List.isChain_cons.mp hdiffer).1 group' hgroup' it hit it' hit'
      rw [hgroup it hit] at hnext
      exact hnext.symm
    · exact (List.isChain_cons.mp hdiffer).2

/-- The amount that the loop counts is what the denominations take. -/
theorem pass_amountTaken {coins : List COwnedAnonOutput} (hvalues : ∀ it ∈ coins, 0 ≤ it.nValue) :
    (f.pass coins AnonPass.start).2.nAmountCheck = f.amountTaken coins := by
  have hflat := List.flatten_splitBy (fun it it' : COwnedAnonOutput => it.nValue == it'.nValue) coins
  have hdiffer := List.isChain_getLast_head_splitBy (fun it it' : COwnedAnonOutput => it.nValue == it'.nValue) coins
  have hgroups : ∀ group ∈ coins.splitBy (fun it it' => it.nValue == it'.nValue),
      ∃ nValue, group ≠ [] ∧ ∀ it ∈ group, it.nValue = nValue := by
    intro group hgroup
    have hne := List.ne_nil_of_mem_splitBy hgroup
    have hpair : (group.map COwnedAnonOutput.nValue).Pairwise (· = ·) := by
      rw [← List.isChain_iff_pairwise, List.isChain_map]
      exact (List.isChain_of_mem_splitBy hgroup).imp fun _ _ heq => beq_iff_eq.mp heq
    obtain ⟨it, rest, rfl⟩ := List.exists_cons_of_ne_nil hne
    refine ⟨it.nValue, hne, ?_⟩
    intro it' hit'
    rw [List.map_cons, List.pairwise_cons] at hpair
    cases List.mem_cons.mp hit' with
    | inl hfirst => rw [hfirst]
    | inr hrest => exact (hpair.1 it'.nValue (List.mem_map_of_mem hrest)).symm
  rw [amountTaken]
  generalize coins.splitBy (fun it it' => it.nValue == it'.nValue) = groups at hflat hdiffer hgroups ⊢
  subst hflat
  apply pass_groups_amount groups AnonPass.start hgroups
  · intro group hgroup it hit
    have hin : it ∈ groups.flatten := List.mem_flatten.mpr ⟨group, List.mem_of_mem_head? hgroup, hit⟩
    intro heq
    have hpos := hvalues it hin
    rw [heq] at hpos
    exact absurd hpos (by decide)
  · refine hdiffer.imp_of_mem_imp fun group group' hgroup hgroup' hends it hit it' hit' => ?_
    obtain ⟨ha, hb, hends⟩ := hends
    obtain ⟨nValue, -, hsame⟩ := hgroups group hgroup
    obtain ⟨nValue', -, hsame'⟩ := hgroups group' hgroup'
    rw [hsame _ (List.getLast_mem ha), hsame' _ (List.head_mem hb), beq_eq_false_iff_ne] at hends
    rw [hsame it hit, hsame' it' hit']
    exact hends

/-- The coins of one value that stay are those of its group. -/
theorem countValue_pass {nValue : Int64} {before group after : List COwnedAnonOutput}
    (hgroup : ∀ it ∈ group, it.nValue = nValue) (hbefore : ∀ it ∈ before, it.nValue ≠ nValue)
    (hafter : ∀ it ∈ after, it.nValue ≠ nValue) (st : AnonPass) :
    countValue nValue (f.pass (before ++ group ++ after) st).1 = (f.pass group (f.pass before st).2).1.length := by
  have hzero : ∀ coins st', (∀ it ∈ coins, it.nValue ≠ nValue) → countValue nValue (f.pass coins st').1 = 0 :=
    fun coins st' hcoins => countValue_eq_zero fun it hit => hcoins it ((pass_sublist coins st').subset hit)
  have hall : countValue nValue (f.pass group (f.pass before st).2).1 = (f.pass group (f.pass before st).2).1.length :=
    List.countP_eq_length.mpr fun it hit => decide_eq_true (hgroup it ((pass_sublist group _).subset hit))
  rw [pass_append, pass_append, countValue, List.countP_append, List.countP_append]
  change countValue nValue _ + countValue nValue _ + countValue nValue _ = _
  rw [hzero before st hbefore, hzero after _ hafter, hall, Nat.zero_add, Nat.add_zero]

/-- For a denomination without a limit of its own making, its first coin decides. -/
theorem enter_drops_iff {st : AnonPass} {nValue : Int64} (hlast : st.nLastCoinValue ≠ nValue)
    (hmax : nValue ≤ f.nMaxAnonOutput) (hnone : f.spendable nValue = -1) :
    f.drops (f.enter st nValue) nValue = true ↔
      f.availableMixins nValue < f.nRingSize ∨ f.nMaxAmount < st.nAmountCheck + nValue := by
  rw [enter, if_pos hlast, if_pos hmax, hnone, drops]
  simp only [Bool.or_eq_true, Bool.and_eq_true, decide_eq_true_eq, ne_eq, not_true_eq_false, false_and, or_false,
    gt_iff_lt]

/-- Coins are held back exactly where no denomination with a limit of minus one has a coin that is let through: it has
too few mixins, or the denominations before it leave too little of the amount. -/
theorem heldBack_iff (f : AnonFilter) (lUnspent : List COwnedAnonOutput) (hgrouped : Grouped lUnspent)
    (hvalues : ∀ it ∈ lUnspent, 0 ≤ it.nValue) :
    (∀ nValue, nValue ≤ f.nMaxAnonOutput →
        (countValue nValue (f.listAvailableAnonOutputs lUnspent).1 : Int) ≤ max 0 (f.spendable nValue)) ↔
      ∀ nValue ∈ lUnspent.map COwnedAnonOutput.nValue, nValue ≤ f.nMaxAnonOutput → f.spendable nValue = -1 →
        f.availableMixins nValue < f.nRingSize ∨
        f.nMaxAmount < f.amountTaken (lUnspent.takeWhile fun it => it.nValue ≠ nValue) + nValue := by
  refine forall_congr' fun nValue => ?_
  obtain ⟨before, group, after, rfl, hgroup, hbefore, hafter⟩ := hgrouped nValue
  have hcount := countValue_pass (f := f) hgroup hbefore hafter AnonPass.start
  change countValue nValue (f.listAvailableAnonOutputs _).1 = _ at hcount
  rw [hcount]
  by_cases hne : group = []
  · rw [hne]
    refine iff_of_true (fun _ => le_max_left _ _) fun hin => ?_
    rw [List.append_nil, List.map_append, List.mem_append, List.mem_map, List.mem_map] at hin
    obtain ⟨it, hit, heq⟩ | ⟨it, hit, heq⟩ := hin
    · exact absurd heq (hbefore it hit)
    · exact absurd heq (hafter it hit)
  · obtain ⟨it, group', hcons⟩ := List.exists_cons_of_ne_nil hne
    have hit : it ∈ group := hcons ▸ List.mem_cons_self
    have hin : nValue ∈ (before ++ group ++ after).map COwnedAnonOutput.nValue := by
      refine List.mem_map.mpr ⟨it, ?_, hgroup it hit⟩
      exact List.mem_append_left _ (List.mem_append_right _ hit)
    have htake : (before ++ group ++ after).takeWhile (fun it => it.nValue ≠ nValue) = before := by
      rw [List.append_assoc, List.takeWhile_append_of_pos fun it hit => decide_eq_true (hbefore it hit), hcons,
        List.cons_append, List.takeWhile_cons_of_neg (by simpa using hgroup it hit), List.append_nil]
    -- the value before the group is another one
    have hlast : (f.pass before AnonPass.start).2.nLastCoinValue ≠ nValue := by
      cases pass_nLastCoinValue before AnonPass.start with
      | inl hstart =>
        rw [hstart]
        intro heq
        have hpos := hvalues it (List.mem_append_left _ (List.mem_append_right _ hit))
        rw [hgroup it hit, ← heq] at hpos
        exact absurd hpos (by decide)
      | inr hmem =>
        obtain ⟨it', hit', heq⟩ := hmem
        rw [heq]
        exact hbefore it' hit'
    have hentered := enter_nLastCoinValue (f := f) (f.pass before AnonPass.start).2 nValue
    have hbeforeValues : ∀ it ∈ before, 0 ≤ it.nValue := fun it hit =>
      hvalues it (List.mem_append_left _ (List.mem_append_left _ hit))
    rw [htake, ← pass_amountTaken hbeforeValues, pass_enter hne hgroup]
    constructor
    · intro hheld _ hmax hnone
      have hlen := hheld hmax
      rw [hnone, max_eq_left (by decide), Int.natCast_nonpos_iff, List.length_eq_zero_iff] at hlen
      exact (enter_drops_iff hlast hmax hnone).mp ((pass_group_nil_iff hne hgroup _ hentered).mp hlen)
    · intro hcond hmax
      by_cases hnone : f.spendable nValue = -1
      · have hdrops := (enter_drops_iff hlast hmax hnone).mpr (hcond hin hmax hnone)
        rw [(pass_group_nil_iff hne hgroup _ hentered).mpr hdrops]
        exact le_max_left _ _
      · have hlimit : (f.enter (f.pass before AnonPass.start).2 nValue).nMaxSpendable = f.spendable nValue := by
          rw [enter, if_pos hlast]
          exact if_pos hmax
        have hcount : (f.enter (f.pass before AnonPass.start).2 nValue).nCoinsPerValue = 0 := by
          rw [enter, if_pos hlast]
        have hle := pass_group_le (f := f) group hgroup _ hentered (by rwa [hlimit])
        rwa [hlimit, hcount, Int.sub_zero] at hle

/-- Twenty outputs of value 5 are mature and one is spent. -/
def almostSpent : AnonFilter where
  nRingSize := 3
  forStaking := false
  nMaxAmount := MAX_MONEY
  nMaxAnonOutput := 1000
  mapAnonOutputStats := fun nValue => ⟨⟨nValue, 20, 1, 20⟩, 10, 10⟩

def twoCoins : List COwnedAnonOutput := [⟨[], 5, COutPoint.null⟩, ⟨[1], 5, COutPoint.null⟩]

theorem twoCoins_grouped : Grouped twoCoins := by
  intro nValue
  by_cases hvalue : nValue = 5
  · subst hvalue
    exact ⟨[], twoCoins, [], rfl, by simp [twoCoins], by simp, by simp⟩
  · refine ⟨twoCoins, [], [], rfl, by simp, ?_, by simp⟩
    intro it hit
    simp only [twoCoins, List.mem_cons, List.not_mem_nil, or_false] at hit
    rcases hit with rfl | rfl
    · exact Ne.symm hvalue
    · exact Ne.symm hvalue

/-- With 25 mature outputs, four are spendable. -/
def wellStocked : AnonFilter :=
  { almostSpent with mapAnonOutputStats := fun nValue => ⟨⟨nValue, 25, 1, 25⟩, 10, 10⟩ }

theorem heldBack_iff_wellStocked :
    (countValue 5 (wellStocked.listAvailableAnonOutputs twoCoins).1 : Int) ≤ max 0 (wellStocked.spendable 5) := by
  have hheld := (heldBack_iff wellStocked twoCoins twoCoins_grouped (by simp [twoCoins])).mpr
  apply hheld
  · intro nValue hin hmax hnone
    have hfour : wellStocked.spendable nValue = 4 := rfl
    rw [hfour] at hnone
    cases hnone
  · decide

/-- Both coins stay, though no output may be spent. -/
theorem almostSpent_unlimited : ∃ nValue, nValue ≤ almostSpent.nMaxAnonOutput ∧
    max 0 (almostSpent.spendable nValue) < countValue nValue (almostSpent.listAvailableAnonOutputs twoCoins).1 :=
  ⟨5, by decide, by decide⟩

end AnonFilter

end AliasWallet
