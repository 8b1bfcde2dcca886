import AliasWallet.Stake.StakePayment

/-!
# The contribution of a coinstake

`ConnectBlock` demands that some coinstakes pay their reward to an address of the network, with an output from the
third one on. A created coinstake pays it wherever it is demanded.
-/

namespace AliasWallet

section Contribution

variable {Pt L K : Type} (env : NodeEnv Pt L) (c : ChainState) (pool : CTxMemPool) (s : Session L) (w : StakeWallet K)

/-- The condition under which `ConnectBlock` looks for a contribution, for a block of some time. -/
def demandsContribution (p : ChainParams) (pindex : CBlockIndex) (nTime : UInt32) : Bool :=
  isForkV4SupplyIncrease p pindex.tail ||
    (p.isForkV2 nTime.toNat && decide (CBlockIndex.nHeight pindex % 6 = 0))

/-- The outputs are worth the inputs and the reward, and a block with the coinstake has the contribution that is
demanded. -/
structure AccountsFor (tx : CTransaction) (nReward : Int64) : Prop where
  total : tx.getValueOut = getValueIn (prevTxs env pool s.disk) tx +
    Int64.ofInt (tx.ringInputs.map (ringValue (env.anonView c pool s.disk s.disk.txIndex))).sum + nReward
  contribution : ∀ (b : BlockNode) (nTime : UInt32), demandsContribution env.p (b :: c.pindexBest) nTime →
    ∃ i txout, 2 ≤ i ∧ tx.vout[i]? = some txout ∧ nReward ≤ txout.nValue ∧
      txout.scriptPubKey = if isForkV4SupplyIncrease env.p c.pindexBest then env.p.supplyIncreaseScript
        else env.p.devContributionScript

variable {env c pool s w}

/-- Where a contribution is demanded, the reward is donated. -/
theorem donatesStake_of_demanded {b : BlockNode} {nTime : UInt32}
    (h : demandsContribution env.p (b :: c.pindexBest) nTime) : donatesStake env c w := by
  have hheight : CBlockIndex.nHeight (b :: c.pindexBest) = c.nBestHeight + 1 := by
    rw [ChainState.nBestHeight, CBlockIndex.nHeight, CBlockIndex.nHeight, List.length_cons]
    push_cast
    omega
  rw [demandsContribution, hheight, List.tail_cons, Bool.or_eq_true, Bool.and_eq_true] at h
  rw [donatesStake, Bool.or_eq_true, Bool.or_eq_true]
  cases h with
  | inl hincrease => exact Or.inl (Or.inl hincrease)
  | inr hsixth => exact Or.inr hsixth.2

theorem accountsFor {tx : CTransaction} {nReward : Int64} {vout : List CTxOut}
    (hpaid : stakePaid env c pool s tx = nReward) (hvout : tx.vout = ⟨0, []⟩ :: vout)
    (hbehind : DonatesBehind env c w (stakePaid env c pool s tx) vout) : AccountsFor env c pool s tx nReward where
  total := by
    rw [← hpaid, stakePaid]
    grind
  contribution := by
    intro b nTime hdemanded
    obtain ⟨txout, rest, rfl, hmem⟩ := hbehind
    obtain ⟨i, hi⟩ := List.mem_iff_getElem?.mp (hmem (donatesStake_of_demanded hdemanded))
    refine ⟨i + 2, ⟨stakePaid env c pool s tx, donationScript env c⟩, Nat.le_add_left 2 i, ?_, ?_, rfl⟩
    · rw [hvout]
      exact hi
    · rw [hpaid]
      exact Int64.le_refl _

end Contribution

/-- Each coinstake that the wallet creates pays its inputs and the reward that it was created with, and the reward goes
to the address of the network wherever `ConnectBlock` demands it. -/
theorem coinStake_accounts {Pt L K : Type} (env : NodeEnv Pt L) (c : ChainState) (pool : CTxMemPool) (s : Session L)
    (w : StakeWallet K) (nFees : Int64) (hcoins : CoinsSound env pool s w) (hanon : AnonCoinsSound env c pool s w nFees)
    (nBits : UInt32) (nSearchInterval : Int) (nTime : UInt32) (tx : CTransaction) (key : K) :
    (createCoinStake env c s w nBits nSearchInterval nFees nTime = some (tx, key) →
      ∃ nCoinAge, stakeCoinAge env s c.pindexBest tx = some nCoinAge ∧
        AccountsFor env c pool s tx (getProofOfStakeReward env.p c.pindexBest
          (s.supply (CBlockIndex.getBlockHash c.pindexBest)).nMoneySupply nCoinAge nFees)) ∧
    (createAnonCoinStake env c s.disk w nBits nSearchInterval nFees nTime = some (tx, key) →
      AccountsFor env c pool s tx (getProofOfAnonStakeReward env.p c.pindexBest nFees)) := by
  constructor
  · intro h
    obtain ⟨-, -, nCoinAge, hage, hpaid, -, vout, hvout, hbehind⟩ := createCoinStake_spec env c pool s w hcoins _ _ _ _
      tx key h
    exact ⟨nCoinAge, hage, accountsFor hpaid hvout hbehind⟩
  · intro h
    obtain ⟨-, -, hpaid, -, vout, hvout, hbehind⟩ := createAnonCoinStake_spec env c pool s w _ _ _ hanon _ tx key h
    exact accountsFor hpaid hvout hbehind

/-- The stake of the wallet with one coin, on block 40. -/
theorem coinStake_accounts_staked :
    ∃ tx nReward, createCoinStake (fileNode regTestParams stakedFile) stakedChain stakedSession stakedWallet 0x207fffff
        1 0 1540000655 = some (tx, ()) ∧
      AccountsFor (fileNode regTestParams stakedFile) stakedChain (poolOf [lateSpend]) stakedSession tx nReward := by
  have hsome : (createCoinStake (fileNode regTestParams stakedFile) stakedChain stakedSession stakedWallet 0x207fffff
      1 0 1540000655).isSome := by
    simp only [stakedSession, stakedFile, fileNode_eq_eval, sealedBlock_eq_eval, BlockFile.txIndex_eq_eval]
    decide +kernel
  obtain ⟨⟨tx, key⟩, h⟩ := Option.isSome_iff_exists.mp hsome
  obtain ⟨nCoinAge, -, haccounts⟩ := (coinStake_accounts (fileNode regTestParams stakedFile) stakedChain
    (poolOf [lateSpend]) stakedSession stakedWallet 0 stakedCoins_sound (stakedAnonCoins_sound 0) 0x207fffff 1
    1540000655 tx key).1 h
  exact ⟨tx, _, h, haccounts⟩

end AliasWallet
