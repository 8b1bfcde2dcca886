import AliasWallet.Core.Transaction

/-!
# Chain parameters (`chainparams.cpp`, `state.cpp`)

The values of the three networks, with the globals that `-testnet` divides by ten at start-up.
-/

namespace AliasWallet
open Lib

inductive Network
  | main
  | testnet
  | regtest
  deriving DecidableEq, Repr

def COIN : Int64 := 100000000

def CENT : Int64 := 1000000

def COIN_YEAR_REWARD : Int64 := 5 * CENT

structure ChainParams where
  networkID : Network
  hashGenesisBlock : UInt256
  nLastPOWBlock : Int
  nFirstPosv2Block : Int
  nFirstPosv3Block : Int
  bnProofOfWorkLimit : Nat
  nStakeMinConfirmationsLegacy : Int
  nStakeMinConfirmations : Int
  nForkV2Time : Int
  nForkV3Time : Int
  nForkV4Time : Int
  /-- `scriptPubKey` of the address, as `SetDestination` writes it. -/
  devContributionScript : Bytes
  supplyIncreaseScript : Bytes
  nMinTxFee : Int64
  nStakeReward : Int64
  nAnonStakeReward : Int64
  nStakeMinAge : Nat
  nMaxAnonOutput : Int64
  /-- `Checkpoints::GetTotalBlocksEstimate()`. -/
  totalBlocksEstimate : Int

namespace ChainParams

variable (p : ChainParams)

def isProtocolV2 (nHeight : Int) : Bool := decide (nHeight > p.nFirstPosv2Block)

def isProtocolV3 (nHeight : Int) : Bool := decide (nHeight > p.nFirstPosv3Block)

def isForkV2 (nTime : Int) : Bool := decide (nTime > p.nForkV2Time)

def isForkV3 (nTime : Int) : Bool := decide (nTime > p.nForkV3Time)

def getStakeMinConfirmations (nTime : Int) : Int :=
  if p.isForkV3 nTime then p.nStakeMinConfirmations else p.nStakeMinConfirmationsLegacy

def getAnonStakeMinConfirmations : Int := p.nStakeMinConfirmations

def fTestNet : Bool := p.networkID == .testnet

end ChainParams

/-- `OP_DUP OP_HASH160 <20 bytes> OP_EQUALVERIFY OP_CHECKSIG`. -/
def payToPubKeyHash (keyID : Nat) : Bytes :=
  [0x76, 0xa9, 20] ++ beBytes 20 keyID ++ [0x88, 0xac]

def mainParams : ChainParams where
  networkID := .main
  hashGenesisBlock := 0x000001fd6111f0d71d90b7d8c827c6028dbc867f6c527d90794a0d22f68fecd4
  nLastPOWBlock := 17000
  nFirstPosv2Block := 17001
  nFirstPosv3Block := 17010
  bnProofOfWorkLimit := (2 ^ 256 - 1) / 2 ^ 20
  nStakeMinConfirmationsLegacy := 288
  nStakeMinConfirmations := 450
  nForkV2Time := 1534888800
  nForkV3Time := 1558123200
  nForkV4Time := 1569614400
  devContributionScript := payToPubKeyHash 0xb5adc55af565d5826fafc5710fbaa3faf7bddc38
  supplyIncreaseScript := payToPubKeyHash 0x36812521be204a572fc04e682d210951f57b757b
  nMinTxFee := 10000
  nStakeReward := 2 * COIN
  nAnonStakeReward := 3 * COIN
  nStakeMinAge := 8 * 60 * 60
  nMaxAnonOutput := 1000 * COIN
  totalBlocksEstimate := 1245000

def testNetParams : ChainParams where
  networkID := .testnet
  hashGenesisBlock := 0x0a3e03a153b1713ebc1f03fefa5d013bba4d2677ae189fcb727396b98043d95c
  nLastPOWBlock := 20
  nFirstPosv2Block := 20
  nFirstPosv3Block := 500
  bnProofOfWorkLimit := (2 ^ 256 - 1) / 2
  nStakeMinConfirmationsLegacy := 28
  nStakeMinConfirmations := 30
  nForkV2Time := 1532466000
  nForkV3Time := 1546470000
  nForkV4Time := 1567972800
  devContributionScript := payToPubKeyHash 0xd49d020c1d14f25c8a5ea9bae044ecddf113a8e2
  supplyIncreaseScript := payToPubKeyHash 0xd49d020c1d14f25c8a5ea9bae044ecddf113a8e2
  nMinTxFee := 10000 / 10
  nStakeReward := 2 * COIN / 10
  nAnonStakeReward := 3 * COIN / 10
  nStakeMinAge := 15 * 60
  nMaxAnonOutput := 1000 * COIN / 10
  totalBlocksEstimate := 0

def regTestParams : ChainParams where
  networkID := .regtest
  hashGenesisBlock := 0x562dba63b74b056329585b9779306f3d3caf447b5df40fb088cebbfb31fd5d5d
  nLastPOWBlock := 20
  nFirstPosv2Block := -1
  nFirstPosv3Block := -1
  bnProofOfWorkLimit := (2 ^ 256 - 1) / 2
  nStakeMinConfirmationsLegacy := 28
  nStakeMinConfirmations := 30
  nForkV2Time := 1532466000
  nForkV3Time := 1546470000
  nForkV4Time := 1567972800
  devContributionScript := payToPubKeyHash 0xd49d020c1d14f25c8a5ea9bae044ecddf113a8e2
  supplyIncreaseScript := payToPubKeyHash 0xd49d020c1d14f25c8a5ea9bae044ecddf113a8e2
  nMinTxFee := 10000
  nStakeReward := 2 * COIN
  nAnonStakeReward := 3 * COIN
  nStakeMinAge := 8 * 60 * 60
  nMaxAnonOutput := 1000 * COIN
  totalBlocksEstimate := 1245000

def MIN_RING_SIZE : Nat := 10

def MAX_RING_SIZE : Nat := 32

def MIN_ANON_SPEND_DEPTH : Int := 10

/-- `GetRingSizeMinMax`. -/
def getRingSizeMinMax (p : ChainParams) (nTime : Int) : Nat × Nat :=
  if nTime = 0 ∨ p.isForkV3 nTime then
    (MIN_RING_SIZE, if nTime = 0 ∨ ¬ p.fTestNet then MIN_RING_SIZE else MAX_RING_SIZE)
  else (1, MAX_RING_SIZE)

end AliasWallet
