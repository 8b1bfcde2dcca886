import AliasWallet.Anon.OutputBinding
import AliasWallet.Chain.ConnectBlock
import Mathlib.Data.List.Sort

/-!
# Block times and stakes on arrival

`AcceptBlock` holds the time of a block against its parent, and `ProcessBlock` turns away a stake it
has seen. The parent's past-time limit is its own time from protocol V2 on, so that times increase
there; the one-off supply increase is recognised by the time at which the chain passes the fork.
-/

namespace AliasWallet
open Lib

section PastTimeLimit

variable (p : ChainParams)

def nMedianTimeSpan : Nat := 11

/-- `GetMedianTimePast`. -/
def getMedianTimePast (pindex : CBlockIndex) : Int :=
  let pmedian := ((pindex.take nMedianTimeSpan).map fun b => (b.nTime.toNat : Int)).insertionSort (· ≤ ·)
  (pmedian[pmedian.length / 2]?).getD 0

/-- `GetPastTimeLimit`. -/
def getPastTimeLimit (pindex : CBlockIndex) : Int :=
  if p.isProtocolV2 (CBlockIndex.nHeight pindex) then CBlockIndex.getBlockTime pindex
  else getMedianTimePast pindex

/-- The check of a timestamp against the previous block in `AcceptBlock`. -/
def acceptTimestamp (pindexPrev : CBlockIndex) (nTime : UInt32) : Bool :=
  decide (getPastTimeLimit p pindexPrev < nTime.toNat) &&
    decide (CBlockIndex.getBlockTime pindexPrev ≤
      futureDrift p nTime.toNat (CBlockIndex.nHeight pindexPrev + 1))

/-- Every block but the first is later than the past-time limit of its parent. -/
def LaterThanParents (pindex : CBlockIndex) : Prop :=
  ∀ b pprev, b :: pprev <:+ pindex → pprev ≠ [] → getPastTimeLimit p pprev < b.nTime.toNat

variable {p}

theorem LaterThanParents.single (b : BlockNode) : LaterThanParents p [b] := by
  intro b' pprev hb hne
  have hlen := hb.length_le
  rw [List.length_cons, List.length_singleton] at hlen
  exact absurd (List.length_eq_zero_iff.mp (Nat.le_zero.mp (Nat.le_of_succ_le_succ hlen))) hne

theorem LaterThanParents.cons {b : BlockNode} {pprev : CBlockIndex} (h : LaterThanParents p pprev)
    (hb : acceptTimestamp p pprev b.nTime) : LaterThanParents p (b :: pprev) := by
  intro b' q hq hne
  rcases List.suffix_cons_iff.mp hq with heq | hq
  · obtain ⟨rfl, rfl⟩ := List.cons_eq_cons.mp heq
    rw [acceptTimestamp, Bool.and_eq_true] at hb
    exact of_decide_eq_true hb.1
  · exact h b' q hq hne

theorem LaterThanParents.of_suffix {q pindex : CBlockIndex} (h : LaterThanParents p pindex)
    (hq : q <:+ pindex) : LaterThanParents p q :=
  fun b pprev hb hne => h b pprev (hb.trans hq) hne

theorem isProtocolV2_of_suffix {q r : CBlockIndex} (hq : q <:+ r)
    (hv2 : p.isProtocolV2 (CBlockIndex.nHeight q)) : p.isProtocolV2 (CBlockIndex.nHeight r) := by
  have hlen := hq.length_le
  have hheight : CBlockIndex.nHeight q ≤ CBlockIndex.nHeight r := by
    rw [CBlockIndex.nHeight, CBlockIndex.nHeight]
    omega
  exact decide_eq_true (lt_of_lt_of_le (of_decide_eq_true hv2) hheight)

/-- From protocol V2 on no block is older than one it builds on. -/
theorem getBlockTime_le_of_suffix {q pindex : CBlockIndex} (h : LaterThanParents p pindex)
    (hq : q <:+ pindex) (hq0 : q ≠ []) (hv2 : p.isProtocolV2 (CBlockIndex.nHeight q)) :
    CBlockIndex.getBlockTime q ≤ CBlockIndex.getBlockTime pindex := by
  induction pindex with
  | nil => exact absurd (List.suffix_nil.mp hq) hq0
  | cons b pprev ih =>
    rcases List.suffix_cons_iff.mp hq with rfl | hq
    · exact le_rfl
    · have hpprev : pprev ≠ [] := by
        rintro rfl
        exact hq0 (List.suffix_nil.mp hq)
      have hlimit := h b pprev List.suffix_rfl hpprev
      rw [getPastTimeLimit, if_pos (isProtocolV2_of_suffix hq hv2)] at hlimit
      calc CBlockIndex.getBlockTime q
          ≤ CBlockIndex.getBlockTime pprev := ih (h.of_suffix (List.suffix_cons b pprev)) hq
        _ ≤ b.nTime.toNat := hlimit.le

end PastTimeLimit

section SupplyIncrease

variable (p : ChainParams)

/-- The subsidy of a stake where the supply is not increased. -/
def regularSubsidy (pindexPrev : CBlockIndex) (nMoneySupply nCoinAge : Int64) : Int64 :=
  if p.isProtocolV3 (CBlockIndex.nHeight pindexPrev) then
    if p.isForkV3 (CBlockIndex.getBlockTime pindexPrev) then p.nStakeReward
    else nMoneySupply / COIN * COIN_YEAR_REWARD / (365 * 24 * (60 * 60 / 64))
  else nCoinAge * COIN_YEAR_REWARD * 33 / (365 * 33 + 8)

/-- A block at which the supply is increased, at a height where times increase. -/
structure IncreasesSupply (pindexPrev : CBlockIndex) : Prop where
  v2 : p.isProtocolV2 (CBlockIndex.nHeight pindexPrev)
  passes : isForkV4SupplyIncrease p pindexPrev

variable {p}

theorem IncreasesSupply.times {q : CBlockIndex} (h : IncreasesSupply p q) :
    p.nForkV4Time ≤ CBlockIndex.getBlockTime q ∧ CBlockIndex.getBlockTime q.tail < p.nForkV4Time := by
  have hpasses := h.passes
  rw [isForkV4SupplyIncrease, Bool.and_eq_true, decide_eq_true_eq, decide_eq_true_eq] at hpasses
  exact hpasses

theorem IncreasesSupply.ne_nil {q : CBlockIndex} (h : IncreasesSupply p q) : q ≠ [] := by
  rintro rfl
  exact absurd h.times.1 (not_le.mpr h.times.2)

/-- Once the chain has passed the fork time, it does not pass it again. -/
theorem IncreasesSupply.eq_of_suffix {q r : CBlockIndex} (hr : LaterThanParents p r)
    (hincq : IncreasesSupply p q) (hincr : IncreasesSupply p r) (hqr : q <:+ r) : q = r := by
  cases r with
  | nil => exact absurd rfl hincr.ne_nil
  | cons b pprev =>
    rcases List.suffix_cons_iff.mp hqr with heq | hq
    · exact heq
    · have hle := getBlockTime_le_of_suffix (hr.of_suffix (List.suffix_cons b pprev)) hq hincq.ne_nil
        hincq.v2
      exact absurd (hincq.times.1.trans hle) (not_le.mpr hincr.times.2)

theorem IncreasesSupply.unique {pindex q r : CBlockIndex} (h : LaterThanParents p pindex)
    (hq : q <:+ pindex) (hr : r <:+ pindex) (hincq : IncreasesSupply p q)
    (hincr : IncreasesSupply p r) : q = r := by
  rcases List.suffix_or_suffix_of_suffix hq hr with hqr | hrq
  · exact hincq.eq_of_suffix (h.of_suffix hr) hincr hqr
  · exact (hincr.eq_of_suffix (h.of_suffix hq) hincq hrq).symm

theorem rewards_of_not_increase {q : CBlockIndex} (hq : ¬ isForkV4SupplyIncrease p q)
    (nMoneySupply nCoinAge nFees : Int64) :
    getProofOfStakeReward p q nMoneySupply nCoinAge nFees =
        regularSubsidy p q nMoneySupply nCoinAge + nFees ∧
      getProofOfAnonStakeReward p q nFees = p.nAnonStakeReward + nFees := by
  constructor
  · simp only [getProofOfStakeReward, if_neg hq, regularSubsidy]
  · simp only [getProofOfAnonStakeReward, if_neg hq]

/-- On a chain whose times follow the rule, at most one block at a protocol V2 height increases the
supply, and a stake on any other block is paid the regular reward. -/
theorem supplyIncrease_at_most_once (pindex : CBlockIndex) (h : LaterThanParents p pindex) :
    (∀ q r, q <:+ pindex → r <:+ pindex → IncreasesSupply p q → IncreasesSupply p r → q = r) ∧
      ∃ pindexIncrease : CBlockIndex, ∀ q, q <:+ pindex →
        p.isProtocolV2 (CBlockIndex.nHeight q) → q ≠ pindexIncrease →
        ∀ nMoneySupply nCoinAge nFees : Int64,
          getProofOfStakeReward p q nMoneySupply nCoinAge nFees =
              regularSubsidy p q nMoneySupply nCoinAge + nFees ∧
            getProofOfAnonStakeReward p q nFees = p.nAnonStakeReward + nFees := by
  refine ⟨fun q r hq hr => IncreasesSupply.unique h hq hr, ?_⟩
  by_cases hsome : ∃ r, r <:+ pindex ∧ IncreasesSupply p r
  · obtain ⟨r, hr, hincr⟩ := hsome
    refine ⟨r, fun q hq hv2 hne => rewards_of_not_increase fun hinc => hne ?_⟩
    exact IncreasesSupply.unique h hq hr ⟨hv2, hinc⟩ hincr
  · refine ⟨[], fun q hq hv2 _ => rewards_of_not_increase fun hinc => hsome ?_⟩
    exact ⟨q, hq, hv2, hinc⟩

/-- A chain that passes the fork time in its third block. -/
def forkCrossing : CBlockIndex :=
  [1567972880, 1567972816, 1567972784, 1567972720].map fun nTime =>
    { hash := 0, nFile := 1, nBlockPos := 0, nTime, nChainTrust := 0 }

theorem forkCrossing_once :
    IncreasesSupply regTestParams forkCrossing.tail ∧
      ∀ q, q <:+ forkCrossing → IncreasesSupply regTestParams q → q = forkCrossing.tail := by
  have htimes : LaterThanParents regTestParams forkCrossing :=
    (((LaterThanParents.single _).cons (by decide)).cons (by decide)).cons (by decide)
  have hinc : IncreasesSupply regTestParams forkCrossing.tail := ⟨by decide, by decide⟩
  exact ⟨hinc, fun q hq hincq => (supplyIncrease_at_most_once forkCrossing htimes).1 q
    forkCrossing.tail hq (List.tail_suffix _) hincq hinc⟩

end SupplyIncrease

section SeenStakes

def COutPoint.null : COutPoint := ⟨0, 0xFFFFFFFF⟩

namespace CBlock

variable (b : CBlock)

/-- `vtx[1].vin[0]`. -/
def kernelInput : Option CTxIn := b.vtx[1]?.bind fun tx => tx.vin.head?

def stakeTime : Option UInt32 := b.vtx[1]?.map CTransaction.nTime

/-- `GetProofOfStake`. -/
def getProofOfStake : COutPoint × UInt32 :=
  if b.isProofOfStake then ((b.kernelInput.map CTxIn.prevout).getD .null, b.stakeTime.getD 0)
  else (.null, 0)

end CBlock

/-- What `ProcessBlock` looks at to tell a stake that it has seen. -/
structure StakeGuard where
  fReindexing : Bool
  fImporting : Bool
  setStakeSeen : List (COutPoint × UInt32)
  mapOrphanBlocksByPrev : UInt256 → List CBlock

namespace StakeGuard

variable (g : StakeGuard)

/-- The entry that `AddToBlockIndex` makes. -/
def addStake (block : CBlock) : StakeGuard :=
  if block.isProofOfStake then { g with setStakeSeen := block.getProofOfStake :: g.setStakeSeen } else g

/-- The test for which `ProcessBlock` turns a block away as a duplicate stake. -/
def duplicateStake (hash : UInt256) (block : CBlock) : Bool :=
  !g.fReindexing && !g.fImporting && block.isProofOfStake &&
    g.setStakeSeen.contains block.getProofOfStake && (g.mapOrphanBlocksByPrev hash).isEmpty

end StakeGuard

theorem extractKeyImage_eq_iff (txin txin' : CTxIn) :
    txin.extractKeyImage = txin'.extractKeyImage ↔
      txin.prevout.hash = txin'.prevout.hash ∧
        txin.prevout.n.toNat % 2 ^ 8 = txin'.prevout.n.toNat % 2 ^ 8 := by
  constructor
  · intro h
    obtain ⟨hhash, hbyte⟩ := List.append_inj h (by simp [uint256Bytes])
    have hbyte := congrArg UInt8.toNat (List.cons_eq_cons.mp hbyte).1
    rw [UInt8.toNat_ofNat_of_lt' (Nat.mod_lt _ (by decide)),
      UInt8.toNat_ofNat_of_lt' (Nat.mod_lt _ (by decide))] at hbyte
    exact ⟨uint256Bytes_injective _ _ hhash, hbyte⟩
  · rintro ⟨hhash, hbyte⟩
    rw [CTxIn.extractKeyImage, CTxIn.extractKeyImage, hhash]
    exact congrArg (fun k => uint256Bytes txin'.prevout.hash ++ [UInt8.ofNat k]) hbyte

/-- The key image leaves the upper three bytes of `prevout.n` open. -/
theorem prevout_eq_iff_of_keyImage {txin txin' : CTxIn}
    (himage : txin.extractKeyImage = txin'.extractKeyImage) :
    txin.prevout = txin'.prevout ↔
      txin.prevout.n.toNat / 2 ^ 8 = txin'.prevout.n.toNat / 2 ^ 8 := by
  obtain ⟨hhash, hbyte⟩ := (extractKeyImage_eq_iff txin txin').mp himage
  constructor
  · intro heq
    rw [heq]
  · intro hupper
    have hn : txin.prevout.n = txin'.prevout.n := by
      apply UInt32.toNat_inj.mp
      rw [← Nat.div_add_mod txin.prevout.n.toNat (2 ^ 8), hupper, hbyte, Nat.div_add_mod]
    exact congrArg₂ COutPoint.mk hhash hn

theorem getProofOfStake_eq {b : CBlock} {txin : CTxIn} (hb : b.isProofOfStake)
    (hkernel : b.kernelInput = some txin) :
    b.getProofOfStake = (txin.prevout, b.stakeTime.getD 0) := by
  rw [CBlock.getProofOfStake, if_pos hb, hkernel]
  rfl

theorem isProofOfStake_of_anon {b : CBlock} (hb : b.isProofOfAnonStake) : b.isProofOfStake := by
  unfold CBlock.isProofOfAnonStake at hb
  unfold CBlock.isProofOfStake
  split at hb
  · exact (Bool.and_eq_true _ _ ▸ hb : _ ∧ _).2
  · exact absurd hb Bool.false_ne_true

theorem duplicateStake_addStake (g : StakeGuard) (hash : UInt256) {b b' : CBlock}
    (hb : b.isProofOfStake) (hb' : b'.isProofOfStake) (heq : b.getProofOfStake = b'.getProofOfStake)
    (hreindex : g.fReindexing = false) (himport : g.fImporting = false)
    (horphan : g.mapOrphanBlocksByPrev hash = []) : (g.addStake b).duplicateStake hash b' := by
  simp [StakeGuard.duplicateStake, StakeGuard.addStake, hb, hb', heq, hreindex, himport, horphan]

/-- `redirectInput` with `low` in the byte below the ring size. -/
def restakedInput (low : UInt32) : CTxIn :=
  { redirectInput with prevout := ⟨redirectInput.prevout.hash, redirectInput.prevout.n + low * 256⟩ }

def restakedTx (low : UInt32) : CTransaction where
  nVersion := ANON_TXN_VERSION
  nTime := 1550000000
  vin := [restakedInput low]
  vout := [⟨0, []⟩, ⟨500000000, payToPubKeyHash 1⟩]
  nLockTime := 0

def restakedBlock (low : UInt32) : CBlock where
  nVersion := 7
  hashPrevBlock := 1
  hashMerkleRoot := 0
  nTime := 1550000000
  nBits := 0
  nNonce := 0
  vtx := [⟨1, 1550000000, [⟨.null, [1, 1], 0xFFFFFFFF⟩], [⟨0, []⟩], 0⟩, restakedTx low]
  vchBlockSig := []

theorem signatureOk_congr {Pt : Type} (p : ChainParams) (E : Curve Pt) (hash : HashFn) (v : AnonView)
    (preimage : UInt256) {txin txin' : CTxIn} (hscript : txin.scriptSig = txin'.scriptSig)
    (himage : txin.extractKeyImage = txin'.extractKeyImage)
    (hsize : txin.extractRingSize = txin'.extractRingSize) :
    signatureOk p E hash v preimage txin = signatureOk p E hash v preimage txin' := by
  rw [signatureOk, signatureOk, hscript, himage, hsize]

private theorem restaked_accepted (low : UInt32)
    (himage : (restakedInput low).extractKeyImage = redirectInput.extractKeyImage)
    (hsize : (restakedInput low).extractRingSize = redirectInput.extractRingSize)
    (hring : ringRulesOk mainParams redirectView (restakedTx low) (restakedInput low) 0) :
    (checkAnonInputs mainParams secp256k1 sha256d redirectView (restakedTx low) false).isOk := by
  apply checkAnonInputs_isOk_of_single mainParams secp256k1 sha256d redirectView (restakedTx low) false
    (restakedInput low) rfl
  · rw [hsize]
    change 2 + redirectInput.extractRingSize * EC_COMPRESSED_SIZE ≤ redirectInput.scriptSig.length
    decide +kernel
  · rfl
  · exact hring
  · have hscript : (restakedInput low).scriptSig = redirectInput.scriptSig := rfl
    rw [signatureOk_congr mainParams secp256k1 sha256d redirectView _ hscript himage hsize]
    exact redirect_signed _

end SeenStakes

end AliasWallet
