import Lycancoin.Chain.ActivationRun
import Lycancoin.Chain.ActiveChain
import Lycancoin.Chain.BestChain
import Lycancoin.Chain.ChainWork
import Lycancoin.Chain.FileRanges
import Lycancoin.Chain.FlushRun
import Lycancoin.Chain.GravityWell
import Lycancoin.Chain.HeaderRun
import Lycancoin.Chain.LoadIndex
import Lycancoin.Chain.Locator
import Lycancoin.Chain.ScanRounds
import Lycancoin.Coins.AmountCode
import Lycancoin.Coins.CacheRefinement
import Lycancoin.Coins.CoinsRecord
import Lycancoin.Coins.Supply
import Lycancoin.Consensus.MerkleArray
import Lycancoin.Consensus.MerkleRoot
import Lycancoin.Consensus.Params
import Lycancoin.Crypto.Sha256
import Lycancoin.Data.DistinguishedEncoding
import Lycancoin.Data.Merging
import Lycancoin.Data.OrderedMatch
import Lycancoin.Data.StepRuns
import Lycancoin.Data.Verdict
import Lycancoin.Mempool.OrphanPool
import Lycancoin.Mempool.PoolCalls
import Lycancoin.Mempool.StandardInputs
import Lycancoin.Mining.FeeRate
import Lycancoin.Mining.PolicyEstimator
import Lycancoin.Mining.PriorityOrder
import Lycancoin.Net.AddrRun
import Lycancoin.Net.AlertRun
import Lycancoin.Net.DownloadRun
import Lycancoin.Net.InFlight
import Lycancoin.Net.LimitedMap
import Lycancoin.Net.MerkleProof
import Lycancoin.Net.MessageDelivery
import Lycancoin.Net.MruSet
import Lycancoin.Net.RollingFilter
import Lycancoin.Net.SubNet
import Lycancoin.Net.TimeData
import Lycancoin.Net.TxArrivalRun
import Lycancoin.Primitives.Base32
import Lycancoin.Primitives.Base58
import Lycancoin.Primitives.DecimalText
import Lycancoin.Primitives.MoneyText
import Lycancoin.Primitives.RoundTrip
import Lycancoin.Primitives.StringMap
import Lycancoin.Primitives.VarInt
import Lycancoin.Script.FlagOrder
import Lycancoin.Script.MultiSig
import Lycancoin.Script.RedeemScript
import Lycancoin.Script.SignatureCopy
import Lycancoin.Script.StrictEncoding
import Lycancoin.Script.TextRoundTrip
import Lycancoin.Validation.CheckQueueRun
import Lycancoin.Validation.Conservation
import Lycancoin.Validation.Undo
import Lycancoin.Validation.UndoFiles
import Lycancoin.Wallet.AccountingEntry
import Lycancoin.Wallet.AddressGroupingsRun
import Lycancoin.Wallet.BalanceRun
import Lycancoin.Wallet.CoinSelection
import Lycancoin.Wallet.CoinSelectionSpec
import Lycancoin.Wallet.CreateInputs
import Lycancoin.Wallet.CreateRun
import Lycancoin.Wallet.ExtKey
import Lycancoin.Wallet.KeyPoolRun
import Lycancoin.Wallet.KeyStoreRun
import Lycancoin.Wallet.PassphraseRun
import Lycancoin.Wallet.ReorderCounts
import Lycancoin.Wallet.RescanRun
import Lycancoin.Wallet.SpendsIndex
import Lycancoin.Wallet.SpendsIndexRun
import Lycancoin.Wallet.SpendsReload
import Lycancoin.Wallet.WalletEncryption
import Lycancoin.Wallet.WalletTxRecord
