import AliasWallet.Lib.Bytes
import AliasWallet.Lib.PrimeGroup
import AliasWallet.Lib.Loop
import AliasWallet.Lib.LinkableRing
import AliasWallet.Lib.Patch
import AliasWallet.Lib.Fold
import AliasWallet.Lib.GreedyMatching
import AliasWallet.Lib.OrderedSet
import AliasWallet.Lib.Selection
import AliasWallet.Lib.Rebase
import AliasWallet.Lib.Decimal
import AliasWallet.Lib.BitSet
import AliasWallet.Lib.FrontShuffle
import AliasWallet.Lib.Murmur
import AliasWallet.Lib.BitGroups
import AliasWallet.Lib.Regrouped
import AliasWallet.Lib.KeyOrder
import AliasWallet.Lib.CString
import AliasWallet.Lib.ReplaceStr
import AliasWallet.Lib.Sha256
import AliasWallet.Lib.Ripemd160
import AliasWallet.Lib.Secp256k1
import AliasWallet.Crypto.Curve
import AliasWallet.Crypto.RingSig
import AliasWallet.Crypto.RingSigAB
import AliasWallet.Crypto.Binding
import AliasWallet.Crypto.Completeness
import AliasWallet.Crypto.CompletenessAB
import AliasWallet.Crypto.Concrete
import AliasWallet.Core.Transaction
import AliasWallet.Core.Params
import AliasWallet.Core.Money
import AliasWallet.Script.Opcodes
import AliasWallet.Script.Interpreter
import AliasWallet.Core.Base58
import AliasWallet.Core.BaseText
import AliasWallet.Core.BaseTextSpec
import AliasWallet.Core.BaseTextRoundTrip
import AliasWallet.Script.Parsing
import AliasWallet.Script.Checks
import AliasWallet.Script.MultiSig
import AliasWallet.Script.SigOps
import AliasWallet.Script.Solver
import AliasWallet.Script.Combine
import AliasWallet.Script.CombineSpec
import AliasWallet.Script.PartialSigs
import AliasWallet.Script.FindAndDelete
import AliasWallet.Core.Block
import AliasWallet.Anon.CheckInputs
import AliasWallet.Anon.MemberRules
import AliasWallet.Anon.RingSize
import AliasWallet.Anon.OutputBinding
import AliasWallet.Chain.State
import AliasWallet.Chain.TxDB
import AliasWallet.Chain.ConnectInputs
import AliasWallet.Wallet.AnonTransaction
import AliasWallet.Wallet.AnonSpec
import AliasWallet.Chain.ConnectBlock
import AliasWallet.Chain.ConnectSpec
import AliasWallet.Chain.ConcreteNode
import AliasWallet.Chain.ScriptHash
import AliasWallet.Chain.PoolIndependence
import AliasWallet.Chain.BestChain
import AliasWallet.Chain.FailedSwitch
import AliasWallet.Chain.BlockIndex
import AliasWallet.Chain.ChainRecords
import AliasWallet.Chain.SwitchRecords
import AliasWallet.Chain.BestChainSpec
import AliasWallet.Chain.Runs
import AliasWallet.Chain.NoDoubleSpend
import AliasWallet.Chain.UndoBlock
import AliasWallet.Chain.ValueConservation
import AliasWallet.Chain.TipAgreement
import AliasWallet.Chain.MemPool
import AliasWallet.Stake.Difficulty
import AliasWallet.Stake.Modifier
import AliasWallet.Stake.KernelModifier
import AliasWallet.Stake.ProofOfStake
import AliasWallet.Wallet.UndoExact
import AliasWallet.Lib.MerkleTree
import AliasWallet.Chain.PartialMerkleTree
import AliasWallet.Chain.MerkleSoundness
import AliasWallet.Chain.AcceptBlock
import AliasWallet.Wallet.Recording
import AliasWallet.Wallet.SpentFlags
import AliasWallet.Wallet.ExtKey
import AliasWallet.Wallet.KeyCreation
import AliasWallet.Wallet.KeyMaps
import AliasWallet.Wallet.FreshKeys
import AliasWallet.Chain.Supply
import AliasWallet.Lib.Ledger
import AliasWallet.Chain.BlockTemplate
import AliasWallet.Chain.TemplateSpec
import AliasWallet.Stake.CoinStake
import AliasWallet.Stake.StakePayment
import AliasWallet.Stake.ForkedStake
import AliasWallet.Wallet.LookAhead
import AliasWallet.Wallet.KeyRestart
import AliasWallet.Wallet.ExtKeyCrypt
import AliasWallet.Wallet.ExtKeyPath
import AliasWallet.Wallet.WordLists
import AliasWallet.Wallet.Mnemonic
import AliasWallet.Wallet.MnemonicBits
import AliasWallet.Wallet.MnemonicPhrases
import AliasWallet.Wallet.MnemonicRoundTrip
import AliasWallet.Wallet.ChecksumWord
import AliasWallet.Wallet.MnemonicLanguage
import AliasWallet.Wallet.MnemonicReads
import AliasWallet.Chain.IndexRuns
import AliasWallet.Chain.SpendMarks
import AliasWallet.Stake.SplitAmount
import AliasWallet.Chain.ActiveChain
import AliasWallet.Chain.ForkSearch
import AliasWallet.Chain.MerkleBranch
import AliasWallet.Stake.TargetRange
import AliasWallet.Wallet.CheckCombinations
import AliasWallet.Chain.OrphanTx
import AliasWallet.Chain.RelayScripts
import AliasWallet.Lib.Placement
import AliasWallet.Net.Address
import AliasWallet.Net.NetBase
import AliasWallet.Net.NetBaseSpec
import AliasWallet.Net.OverlayNames
import AliasWallet.Net.AddrMan
import AliasWallet.Net.AddrManSpec
import AliasWallet.Net.AddrManSteps
import AliasWallet.Net.AddrManTried
import AliasWallet.Net.AddrManCalls
import AliasWallet.Net.AddrManCheck
import AliasWallet.Net.Eviction
import AliasWallet.Net.Checked
import AliasWallet.Net.AddrFile
import AliasWallet.Net.Bloom
import AliasWallet.Net.BloomSpec
import AliasWallet.Crypto.KeyDerivation
import AliasWallet.Crypto.Stealth
import AliasWallet.Crypto.CompactSig
import AliasWallet.Lib.Codec
import AliasWallet.Core.Unserialize
import AliasWallet.Chain.BlockFile
import AliasWallet.Chain.BlockFileSpec
import AliasWallet.Chain.Locator
import AliasWallet.Chain.HeaderLookup
import AliasWallet.Chain.OrphanBlocks
import AliasWallet.Chain.MerkleBlocks
import AliasWallet.Chain.MatchedTxs
import AliasWallet.Wallet.StealthAddresses
import AliasWallet.Wallet.StealthText
import AliasWallet.Wallet.CachedCredit
import AliasWallet.Wallet.AvailableCoins
import AliasWallet.Wallet.AnonStats
import AliasWallet.Wallet.CoinSelection
import AliasWallet.Wallet.CreateTransaction
import AliasWallet.Stake.StakeContribution
import AliasWallet.Anon.Mixins
import AliasWallet.Wallet.PickAnonInputs
import AliasWallet.Wallet.StealthNarrations
import AliasWallet.Chain.FilteredSync
import AliasWallet.Chain.ArrivalOrder
import AliasWallet.Net.AddrFileSpec
import AliasWallet.Net.AddrFileRead
import AliasWallet.Net.AddrFileKept
import AliasWallet.Net.AddrRestored
import AliasWallet.Lib.OrderedMap
import AliasWallet.Wallet.CryptoStore
import AliasWallet.Wallet.CryptoStoreSpec
import AliasWallet.Wallet.Passphrase
import AliasWallet.Wallet.PassphraseSpec
import AliasWallet.Lib.Framing
import AliasWallet.Net.Transport
import AliasWallet.Net.Connection
import AliasWallet.Lib.Limbs
import AliasWallet.Net.ReceiveSpec
import AliasWallet.Core.BaseUint
import AliasWallet.Script.Limits
import AliasWallet.Net.TimeData
import AliasWallet.Script.Destinations
import AliasWallet.Wallet.AddressGroupings
import AliasWallet.Net.Alerts
import AliasWallet.Core.LockedPages
