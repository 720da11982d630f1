import Wobble.Framework.HashMap
import Wobble.Data.Types
import Wobble.Data.Encoding
import Wobble.Ledger.UtxoSet
import Wobble.Ledger.Consensus
import Wobble.Framework.GrowingTree
import Wobble.Chain.ChainIndex
import Wobble.Chain.Tree
import Wobble.Ledger.MerkleBinding
import Wobble.Data.RecordedCrypto
import Wobble.Node.Mempool
import Wobble.Node.MempoolInvariant
import Wobble.Node.Mining
import Wobble.Node.NodeState
import Wobble.Node.Invariant
import Wobble.Node.Runs
import Wobble.Node.Atomicity
import Wobble.Ledger.Supply
import Wobble.Node.Selection
import Wobble.Node.SupplyCap
import Wobble.Node.Reorg
import Wobble.Node.PoolSafety
import Wobble.Framework.SpendLog
import Wobble.Node.NoDoubleSpend
import Wobble.Ledger.Spending
import Wobble.Node.Ownership
import Wobble.Ledger.Independent
import Wobble.Node.Candidate
import Wobble.Node.Replay
import Wobble.Framework.Table
import Wobble.Store.Tables
import Wobble.Store.TransactionIndex
import Wobble.Store.Snapshot
import Wobble.Store.Reload
import Wobble.Node.ArrivalOrder
import Wobble.Store.Incremental
import Wobble.Framework.Interaction
import Wobble.Server.Wire
import Wobble.Server.Server
import Wobble.Server.Sync
import Wobble.Server.Handlers
import Wobble.Server.Frame
import Wobble.Server.Paths
import Wobble.Server.PendingRows
import Wobble.Node.CoinFrame
import Wobble.Framework.Walk
import Wobble.Server.Network
import Wobble.Server.SyncWalk
import Wobble.Store.IndexSpec
import Wobble.Store.CommitSpec
import Wobble.Node.Accepted
import Wobble.Store.Holds
import Wobble.Store.IndexUpdate
import Wobble.Store.BestChain
import Wobble.Store.BlockCommits
import Wobble.Store.BlockKinds
import Wobble.Server.BlockSave
import Wobble.Server.CrashSafety
import Wobble.Store.WalletIndex
import Wobble.Node.Admission
import Wobble.Node.MinedReward
import Wobble.Node.Payment
import Wobble.Peer.Task
import Wobble.Peer.Handshake
import Wobble.Peer.Requests
import Wobble.Peer.Reading
import Wobble.Peer.Presence
import Wobble.Server.MinerWorker
import Wobble.Server.BlockRelay
import Wobble.Server.MiningJobs
import Wobble.Ledger.CompactTarget
import Wobble.Chain.Work
import Wobble.Data.Commitment
import Wobble.Cli.HexText
import Wobble.Server.RelayTargets
import Wobble.Peer.RefusedHello
import Wobble.Framework.Bincode
import Wobble.Wallet.LegacyFile
import Wobble.Node.Catchup
import Wobble.Server.SyncConverges
import Wobble.Node.Rejected
import Wobble.Server.SavedTables
import Wobble.Server.SaveSuccess
import Wobble.Server.Offers
import Wobble.Server.Durability
import Wobble.Server.PeerFrame
import Wobble.Server.PeerRecords
import Wobble.Server.SyncChoice
import Wobble.Wallet.Keyring
import Wobble.Node.PendingLife
import Wobble.Store.HistoryQuery
import Wobble.Wallet.History
