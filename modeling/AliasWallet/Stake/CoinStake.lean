import Mathlib.Data.Nat.Digits.Defs
import AliasWallet.Chain.BlockTemplate
import AliasWallet.Chain.Supply

/-!
# Making a stake (`wallet.cpp`, `CBlock::SignBlock`)

`CreateCoinStake` and `CreateAnonCoinStake` look for a kernel among the coins of the wallet and pay the
coins back with the reward. `SignBlock` puts the coinstake into a template and leaves out what is newer.
Kernels, keys and signatures are left open.
-/

namespace AliasWallet
open Lib

section Split

/-- The outputs for one decimal digit. -/
def splitDigit : Nat → List Nat
  | 0 => []
  | 2 => [1, 1]
  | 6 => [5, 1]
  | 7 => [3, 4]
  | 8 => [5, 3]
  | 9 => [5, 4]
  | i => [i]

/-- `splitAmount`. `nTest` runs through the powers of ten up to the value, so that the loop takes its
decimal digits one by one. -/
def splitAmount (nValue maxAnonOutput : Int64) : List Int64 :=
  -- the number of the largest outputs is an `int`
  List.replicate (nValue / maxAnonOutput).toInt32.toInt.toNat maxAnonOutput ++
    ((Nat.digits 10 (nValue % maxAnonOutput).toInt.toNat).mapIdx fun k i =>
      (splitDigit i).map fun j => Int64.ofNat (j * 10 ^ k)).flatten

end Split

/-- An output of a wallet transaction. -/
structure StakeCoin where
  ptx : CTransaction
  n : UInt32
  inRange : n.toNat < ptx.vout.length

namespace StakeCoin

variable (pcoin : StakeCoin)

def txout : CTxOut := pcoin.ptx.vout.get ⟨pcoin.n.toNat, pcoin.inRange⟩

def nValue : Int64 := pcoin.txout.nValue

end StakeCoin

/-- What the search reads of `COwnedAnonOutput`. -/
structure COwnedAnonOutput where
  vchImage : Bytes
  nValue : Int64
  outpoint : COutPoint

/-- What the search reads of the statistics of a denomination. -/
structure CAnonOutputCount where
  nValue : Int64
  nExists : Int
  nSpends : Int
  nMature : Int

namespace CAnonOutputCount

variable (count : CAnonOutputCount)

def numOfUnspends : Int := count.nExists - count.nSpends

def numOfMatureUnspends : Int := count.nMature - count.nSpends

end CAnonOutputCount

/-- The wallet as the search for a stake uses it. -/
structure StakeWallet (K : Type) where
  nBalance : Int64
  nSpectreBalance : Int64
  nReserveBalance : Int64
  nStakeCombineThreshold : Int64
  nStakeSplitThreshold : Int64
  nMaxAnonStakeOutput : Int64
  nStakingDonation : Int
  /-- The drawn number that decides about a donation. -/
  sample : Int
  selectCoinsForStaking : Int64 → UInt32 → Option (List StakeCoin)
  checkKernel : UInt32 → UInt32 → COutPoint → Bool
  /-- The key for the script of a kernel, and the script that the stake is paid to. -/
  kernelKey : Bytes → Option (K × Bytes)
  signSignature : CTransaction → CTransaction → Nat → Option Bytes
  listAvailableAnonOutputs : Int64 → Option (List COwnedAnonOutput)
  checkAnonKernel : UInt32 → COwnedAnonOutput → UInt32 → Bool
  /-- By ascending denomination. -/
  mapAnonOutputStats : List (Int64 × CAnonOutputCount)
  /-- The script of a new output to the address of a coin, and the key that spends it. -/
  anonOutputScript : COwnedAnonOutput → Nat → Option (Bytes × K)
  /-- The ring around a coin and its signature. -/
  ringScript : COwnedAnonOutput → Nat → Option Bytes
  keySign : K → UInt256 → Option Bytes

def UNSPENT_ANON_BALANCE_MIN : Int := 100

def UNSPENT_ANON_BALANCE_MAX : Int := 200

/-- `nMaxStakeSearchInterval`. -/
def nMaxStakeSearchInterval : Int := 60

/-- The times tried for a coin, backwards from the given one. -/
def searchTimes (nTime : UInt32) (nSearchInterval : Int) : List UInt32 :=
  (List.range (min nSearchInterval nMaxStakeSearchInterval).toNat).map fun n => nTime - n.toUInt32

section CoinStake

variable {Pt L K : Type} (env : NodeEnv Pt L) (c : ChainState) (s : Session L) (w : StakeWallet K)

def StakeCoin.outpoint (pcoin : StakeCoin) : COutPoint := ⟨env.txid pcoin.ptx, pcoin.n⟩

/-- `CTxIn(hash, n)`. -/
def StakeCoin.txin (pcoin : StakeCoin) : CTxIn := ⟨pcoin.outpoint env, [], 0xFFFFFFFF⟩

/-- A kernel: the coin, its time, the key and the script of the stake. -/
structure StakeKernel (K : Type) where
  pcoin : StakeCoin
  nTime : UInt32
  key : K
  scriptPubKeyOut : Bytes

/-- The loop up to the first kernel. One whose key is not found ends the search for its coin only. -/
def findKernel (nBits nTime : UInt32) (nSearchInterval : Int) : List StakeCoin → Option (StakeKernel K)
  | [] => none
  | pcoin :: setCoins =>
    match (searchTimes nTime nSearchInterval).find? fun nTime =>
        w.checkKernel nBits nTime (pcoin.outpoint env) with
    | none => findKernel nBits nTime nSearchInterval setCoins
    | some nTimeKernel =>
      match w.kernelKey pcoin.txout.scriptPubKey with
      | none => findKernel nBits nTime nSearchInterval setCoins
      | some (key, scriptPubKeyOut) => some ⟨pcoin, nTimeKernel, key, scriptPubKeyOut⟩

/-- The loop that adds further coins of the same address. -/
def combineCoins (kernel : StakeKernel K) :
    List StakeCoin → List StakeCoin → Int64 → List StakeCoin × Int64
  | [], vwtxPrev, nCredit => (vwtxPrev, nCredit)
  | pcoin :: setCoins, vwtxPrev, nCredit =>
    if (pcoin.txout.scriptPubKey = kernel.pcoin.txout.scriptPubKey ∨
        pcoin.txout.scriptPubKey = kernel.scriptPubKeyOut) ∧
        env.txid pcoin.ptx ≠ env.txid kernel.pcoin.ptx then
      if vwtxPrev.length ≥ 100 ∨ nCredit ≥ w.nStakeCombineThreshold ∨
          nCredit + pcoin.nValue > w.nBalance - w.nReserveBalance then (vwtxPrev, nCredit)
      else if pcoin.nValue ≥ w.nStakeCombineThreshold then
        combineCoins kernel setCoins vwtxPrev nCredit
      else combineCoins kernel setCoins (vwtxPrev ++ [pcoin]) (nCredit + pcoin.nValue)
    else combineCoins kernel setCoins vwtxPrev nCredit

/-- The outputs behind the marker: one, or two from the threshold on. -/
def stakeOutputs (scriptPubKey : Bytes) (nCredit : Int64) : List CTxOut :=
  if nCredit ≥ w.nStakeSplitThreshold then
    [⟨nCredit / 2 / CENT * CENT, scriptPubKey⟩, ⟨nCredit - nCredit / 2 / CENT * CENT, scriptPubKey⟩]
  else [⟨nCredit, scriptPubKey⟩]

/-- The second reduction; `none` where the output is too small. -/
def reduceOutput (txout : CTxOut) (reduction : Int64) : Option CTxOut :=
  if reduction > 0 then
    if txout.nValue ≤ reduction then none
    else some { txout with nValue := txout.nValue - reduction }
  else some txout

/-- The reward is taken from the outputs, the last one first, and paid to the address of the donation. -/
def donateStake (scriptDonation : Bytes) (nReward : Int64) : List CTxOut → Option (List CTxOut)
  | [first, second] =>
    if second.nValue ≤ nReward then
      (reduceOutput first (nReward - second.nValue)).map fun first => [first, ⟨nReward, scriptDonation⟩]
    else
      some [first, { second with nValue := second.nValue - nReward }, ⟨nReward, scriptDonation⟩]
  | [first] => (reduceOutput first nReward).map fun first => [first, ⟨nReward, scriptDonation⟩]
  | _ => none

/-- The reward is donated. -/
def donatesStake : Bool :=
  isForkV4SupplyIncrease env.p c.pindexBest || decide (w.sample < w.nStakingDonation) ||
    decide ((c.nBestHeight + 1) % 6 = 0)

def donationScript : Bytes :=
  if isForkV4SupplyIncrease env.p c.pindexBest then env.p.supplyIncreaseScript
  else env.p.devContributionScript

/-- The outputs, with the donation where there is one. -/
def withDonation (nReward : Int64) (vout : List CTxOut) : Option (List CTxOut) :=
  if donatesStake env c w then donateStake (donationScript env c) nReward vout else some vout

/-- The loop over the signatures. -/
def signInputs (tx : CTransaction) (vwtxPrev : List StakeCoin) : Option CTransaction :=
  vwtxPrev.zipIdx.foldlM (fun tx e => do
    let scriptSig ← w.signSignature e.1.ptx tx e.2
    return { tx with vin := tx.vin.modify e.2 fun txin => { txin with scriptSig } }) tx

/-- A signature changes the script of its input only. -/
theorem prevouts_signed (vin : List CTxIn) (nIn : Nat) (scriptSig : Bytes) :
    (vin.modify nIn fun txin => { txin with scriptSig }).map CTxIn.prevout = vin.map CTxIn.prevout := by
  apply List.ext_getElem?
  intro i
  rw [List.getElem?_map, List.getElem?_modify, List.getElem?_map]
  cases vin[i]? with
  | none => rfl
  | some txin =>
    by_cases hi : nIn = i
    · simp [hi]
    · simp [hi]

/-- `CreateCoinStake`. -/
def createCoinStake (nBits : UInt32) (nSearchInterval : Int) (nFees : Int64) (nTime : UInt32) :
    Option (CTransaction × K) := do
  if w.nBalance ≤ w.nReserveBalance then none
  let setCoins ← w.selectCoinsForStaking (w.nBalance - w.nReserveBalance) nTime
  let kernel ← findKernel env w nBits nTime nSearchInterval setCoins
  if kernel.pcoin.nValue = 0 ∨ kernel.pcoin.nValue > w.nBalance - w.nReserveBalance then none
  let (vwtxPrev, nCredit) := combineCoins env w kernel setCoins [kernel.pcoin] kernel.pcoin.nValue
  let txNew : CTransaction := {
    nVersion := 1
    nTime := kernel.nTime
    vin := vwtxPrev.map (StakeCoin.txin env)
    vout := [⟨0, []⟩, ⟨0, kernel.scriptPubKeyOut⟩]
    nLockTime := 0 }
  let nCoinAge ← stakeCoinAge env s c.pindexBest txNew
  let nReward := getProofOfStakeReward env.p c.pindexBest
    (s.supply (CBlockIndex.getBlockHash c.pindexBest)).nMoneySupply nCoinAge nFees
  if nReward ≤ 0 then none
  let vout := stakeOutputs w kernel.scriptPubKeyOut (nCredit + nReward)
  let vout ← withDonation env c w nReward vout
  let txNew ← signInputs w { txNew with vout := ⟨0, []⟩ :: vout } vwtxPrev
  if txNew.size ≥ MAX_BLOCK_SIZE_GEN / 5 then none
  return (txNew, kernel.key)

end CoinStake

section AnonCoinStake

variable {Pt L K : Type} (env : NodeEnv Pt L) (c : ChainState) (disk : Disk) (w : StakeWallet K)

/-- The first coin with a kernel, with its position in the list and the time. -/
def findAnonKernel (nBits nTime : UInt32) (nSearchInterval : Int)
    (lAvailableCoins : List COwnedAnonOutput) : Option ((COwnedAnonOutput × Nat) × UInt32) :=
  lAvailableCoins.zipIdx.findSome? fun e =>
    ((searchTimes nTime nSearchInterval).find? fun nTime => w.checkAnonKernel nBits e.1 nTime).map
      fun nTime => (e, nTime)

/-- One round of the search for the denomination with the fewest unspent outputs. -/
def lowerAOC (nValue : Int64) (lowest : Option CAnonOutputCount) (it : Int64 × CAnonOutputCount) :
    Option CAnonOutputCount :=
  if it.1 ≥ nValue ∨ it.2.numOfUnspends > UNSPENT_ANON_BALANCE_MIN then lowest
  else
    match lowest with
    | none => some it.2
    | some count => if count.numOfUnspends > it.2.numOfUnspends then some it.2 else lowest

/-- The search, from the largest denomination on. -/
def lowestAOC (nValue : Int64) : Option CAnonOutputCount :=
  (w.mapAnonOutputStats.reverse.takeWhile fun it => !decide (it.1 < env.p.nMinTxFee * 10)).foldl
    (lowerAOC nValue) none

/-- The state of the loop that adds coins for consolidation. -/
structure Consolidation where
  vPickedCoins : List COwnedAnonOutput
  nCredit : Int64
  lastCombineValue : Int64
  vConsolidateCoins : List COwnedAnonOutput
  nMaxConsolidation : Int
  nNumOfConsolidated : Int

/-- `mapAnonOutputStats[nValue].numOfMatureUnspends()`; a missing entry counts nothing. -/
def matureUnspends (nValue : Int64) : Int :=
  ((w.mapAnonOutputStats.lookup nValue).map CAnonOutputCount.numOfMatureUnspends).getD 0

/-- A new value starts a new group. -/
def Consolidation.startGroup (st : Consolidation) (nValue : Int64) : Consolidation :=
  if st.lastCombineValue ≠ nValue then
    { st with
      vConsolidateCoins := []
      lastCombineValue := nValue
      nMaxConsolidation := matureUnspends w nValue - UNSPENT_ANON_BALANCE_MAX
      nNumOfConsolidated := 0 }
  else st

/-- A coin joins its group, and ten of them are picked. -/
def Consolidation.addCoin (st : Consolidation) (oaoc : COwnedAnonOutput) : Consolidation :=
  let vConsolidateCoins := st.vConsolidateCoins ++ [oaoc]
  let nNumOfConsolidated := st.nNumOfConsolidated + 1
  if nNumOfConsolidated ≤ st.nMaxConsolidation ∧ vConsolidateCoins.length = 10 then
    { st with
      vPickedCoins := st.vPickedCoins ++ vConsolidateCoins
      vConsolidateCoins := []
      nCredit := st.nCredit + oaoc.nValue * 10
      nNumOfConsolidated }
  else { st with vConsolidateCoins, nNumOfConsolidated }

/-- The loop; `n` is the position of the coin of the kernel. -/
def consolidate (n : Nat) : List (COwnedAnonOutput × Nat) → Consolidation → Consolidation
  | [], st => st
  | e :: lAvailableCoins, st =>
    if e.1.nValue > w.nMaxAnonStakeOutput / 10 then st
    else if e.2 = n then consolidate n lAvailableCoins st
    else
      let st := (st.startGroup w e.1.nValue).addCoin e.1
      if st.vPickedCoins.length = 51 then st else consolidate n lAvailableCoins st

/-- `CreateAnonOutputs`: a script for each amount. -/
def createAnonOutputs (oao : COwnedAnonOutput) (vOutAmounts : List Int64) : Option (List (CTxOut × K)) :=
  vOutAmounts.zipIdx.mapM fun e =>
    (w.anonOutputScript oao e.2).map fun out => (⟨e.1, out.1⟩, out.2)

/-- `AddAnonInput` and `GenerateRingSignature`: the key image and the ring size stand in the outpoint. -/
def addAnonInput (nRingSize : Nat) (oao : COwnedAnonOutput) (i : Nat) : Option CTxIn :=
  (w.ringScript oao i).map fun script => {
    prevout := ⟨BitVec.ofNat 256 (leNat (oao.vchImage.take 32)),
      (((oao.vchImage.getD 32 0).toNat % 256) + nRingSize % 2 ^ 15 * 2 ^ 16).toUInt32⟩
    scriptSig := [OP_RETURN, OP_ANON_MARKER] ++ script
    nSequence := 0xFFFFFFFF }

/-- `AreOutputsUnique`. -/
def areOutputsUnique (tx : CTransaction) : Bool :=
  tx.vout.all fun txout => !txout.isAnonOutput ||
    (disk.anonOutputs (cpubKeyBytes txout.extractAnonPk)).isNone

/-- `CreateAnonCoinStake`. -/
def createAnonCoinStake (nBits : UInt32) (nSearchInterval : Int) (nFees : Int64) (nTime : UInt32) :
    Option (CTransaction × K) := do
  if w.nSpectreBalance ≤ w.nReserveBalance then none
  let lAvailableCoins ← w.listAvailableAnonOutputs (w.nSpectreBalance - w.nReserveBalance)
  let ((oao, n), nTime) ← findAnonKernel w nBits nTime nSearchInterval lAvailableCoins
  let lowest := (lowestAOC env w oao.nValue).map CAnonOutputCount.nValue
  let st := consolidate w n lAvailableCoins.zipIdx {
    vPickedCoins := [oao]
    nCredit := oao.nValue - lowest.getD 0
    lastCombineValue := -1
    vConsolidateCoins := []
    nMaxConsolidation := 0
    nNumOfConsolidated := 0 }
  let nReward := getProofOfAnonStakeReward env.p c.pindexBest nFees
  if nReward ≤ 0 then none
  let donateReward := donatesStake env c w
  let nCredit := if donateReward then st.nCredit else st.nCredit + nReward
  let vOutAmounts := lowest.toList ++ if nCredit ≠ 0 then splitAmount nCredit w.nMaxAnonStakeOutput else []
  let vTxOutSecret ← createAnonOutputs w oao vOutAmounts
  -- outputs of one value are in no particular order
  let vTxOutSecret := vTxOutSecret.mergeSort fun a b => decide (a.1.nValue ≤ b.1.nValue)
  let (_, key) ← vTxOutSecret.head?
  let vin ← st.vPickedCoins.zipIdx.mapM fun e => addAnonInput w MIN_RING_SIZE e.1 e.2
  let txNew : CTransaction := {
    nVersion := ANON_TXN_VERSION
    nTime
    vin
    vout := ⟨0, []⟩ :: vTxOutSecret.map Prod.fst ++
      if donateReward then [⟨nReward, donationScript env c⟩] else []
    nLockTime := 0 }
  if ¬ areOutputsUnique disk txNew then none
  if txNew.size ≥ MAX_BLOCK_SIZE_GEN / 5 then none
  return (txNew, key)

end AnonCoinStake

section Sign

variable {Pt L K : Type} (env : NodeEnv Pt L) (c : ChainState) (s : Session L) (w : StakeWallet K)

/-- The time of the clock, from protocol V2 on in steps of 16 seconds. -/
def stakeSearchTime (nAdjustedTime : Int) : Int :=
  if env.p.isProtocolV2 (c.nBestHeight + 1) then nAdjustedTime / 16 * 16 else nAdjustedTime

/-- The anonymous stake, or else the transparent one. -/
def createStake (nBits : UInt32) (nSearchTime nSearchInterval : Int) (nFees : Int64) :
    Option (CTransaction × K) :=
  let anon := if env.p.isForkV3 nSearchTime ∧ env.p.isProtocolV3 (c.nBestHeight + 1) then
    createAnonCoinStake env c s.disk w nBits nSearchInterval nFees nSearchTime.toNat.toUInt32 else none
  anon.or (createCoinStake env c s w nBits nSearchInterval nFees nSearchTime.toNat.toUInt32)

/-- The template with the coinstake. The coinbase takes the time of the block, so that it stays. -/
def CBlock.withStake (block : CBlock) (txCoinStake : CTransaction) : CBlock :=
  let vtx := match block.vtx with
    | tx0 :: rest => { tx0 with nTime := txCoinStake.nTime } :: txCoinStake ::
        rest.filter fun tx => !decide (tx.nTime > txCoinStake.nTime)
    | [] => []
  let block := { block with nTime := txCoinStake.nTime, vtx }
  { block with hashMerkleRoot := block.buildMerkleTree env.C.hash }

/-- The static variables of the search. -/
structure StakeSearch where
  nLastCoinStakeSearchTime : Int
  nLastCoinStakeSearchInterval : Int

/-- The first output of the first transaction is empty. -/
def CBlock.isStakeTemplate (block : CBlock) : Bool :=
  (block.vtx.head?.bind fun tx => tx.vout.head?).elim false CTxOut.isEmpty

/-- `SignBlock`: the signed block where it returns true. -/
def signBlock (nAdjustedTime : Int) (search : StakeSearch) (block : CBlock) (nFees : Int64) :
    Option CBlock × StakeSearch :=
  if ¬ block.isStakeTemplate then (none, search)
  else if block.isProofOfStake then (some block, search)
  else
    let nSearchTime := stakeSearchTime env c nAdjustedTime
    let nLast := search.nLastCoinStakeSearchTime
    if nSearchTime ≤ nLast then (none, search)
    else
      let nSearchInterval := if env.p.isProtocolV2 (c.nBestHeight + 1) then 1 else nSearchTime - nLast
      match (createStake env c s w block.nBits nSearchTime nSearchInterval nFees).filter fun e =>
          decide ((e.1.nTime.toNat : Int) ≥ getPastTimeLimit env.p c.pindexBest + 1) with
      | some (txCoinStake, key) =>
        let block := block.withStake env txCoinStake
        ((w.keySign key (block.getHash env.H)).map fun vchBlockSig => { block with vchBlockSig }, search)
      | none => (none, ⟨nSearchTime, nSearchTime - nLast⟩)

end Sign

end AliasWallet
