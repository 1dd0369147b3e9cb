import Mononium.Lib.Rust
import Mononium.Lib.Emissions
import Mononium.Lib.Scale
import Mononium.Lib.HashMap
import Mononium.Lib.SparseMerkle
import Mononium.Lib.ProRata
import Mononium.Lib.StableSort
import Mononium.Lib.Relational
import Mononium.Lib.Text
import Mononium.Lib.HexText
import Mononium.Lib.LastWrite
import Mononium.Lib.FixedWindow
import Mononium.Lib.HashChain
import Mononium.Core.Types
import Mononium.Core.Codec
import Mononium.Crypto.Trie
import Mononium.Crypto.TrieRoot
import Mononium.Crypto.TrieCalls
import Mononium.Crypto.PeakHash
import Mononium.Core.State
import Mononium.Core.Execute
import Mononium.Core.Handlers
import Mononium.Core.Ledger
import Mononium.Core.Outcome
import Mononium.Core.Footprint
import Mononium.Core.Fees
import Mononium.Core.Block
import Mononium.Core.Runs
import Mononium.Core.Distribution
import Mononium.Core.Registry
import Mononium.Core.Slash
import Mononium.Core.Stakes
import Mononium.Core.Charges
import Mononium.Core.Conservation
import Mononium.Core.Atomicity
import Mononium.Core.Panics
import Mononium.Core.Election
import Mononium.Core.Standing
import Mononium.Core.Optimality
import Mononium.Core.Agreement
import Mononium.Core.Commute
import Mononium.Core.Frame
import Mononium.Core.Touches
import Mononium.Core.Refusal
import Mononium.Core.Replay
import Mononium.Core.Transfers
import Mononium.Consensus.Finality
import Mononium.Consensus.Threshold
import Mononium.Consensus.Supply
import Mononium.Consensus.Election
import Mononium.Consensus.Proposer
import Mononium.Consensus.ForkChoice
import Mononium.Consensus.Engine
import Mononium.Consensus.Binding
import Mononium.Consensus.Commitment
import Mononium.Consensus.Headers
import Mononium.Consensus.Slashing
import Mononium.Storage.Tables
import Mononium.Storage.Genesis
import Mononium.Storage.Loading
import Mononium.Storage.Spellings
import Mononium.Storage.Interrupted
import Mononium.Consensus.Loop
import Mononium.Consensus.Withdrawal
import Mononium.Consensus.Boundary
import Mononium.Consensus.Repetition
import Mononium.Consensus.Freeze
import Mononium.Node.Recovery
import Mononium.Node.GenesisLedger
import Mononium.Mempool.Pool
import Mononium.Mempool.Contents
import Mononium.Mempool.Ranking
import Mononium.Node.Cluster
import Mononium.Mempool.Selection
import Mononium.Network.Messages
import Mononium.Network.BatchHash
import Mononium.Consensus.TxRoot
import Mononium.Network.Evidence
import Mononium.Network.PeerScore
import Mononium.Network.RateLimiter
import Mononium.Network.Gossip
import Mononium.Network.SyncProtocol
import Mononium.Network.SyncServing
import Mononium.Network.Sync
import Mononium.Network.SyncLimit
import Mononium.Network.SyncSafety
import Mononium.Network.SyncProgress
import Mononium.Node.Tasks
import Mononium.Node.Split
import Mononium.Node.Interleaving
import Mononium.Node.Publishing
import Mononium.Node.Addresses
import Mononium.Node.AddressText
import Mononium.Node.Wallet
import Mononium.Node.Amounts
import Mononium.Node.Submission
import Mononium.Node.Lookup
import Mononium.Governance.Engine
import Mononium.Governance.Records
import Mononium.Governance.Calls
import Mononium.Governance.Effects
import Mononium.Governance.Bounds
import Mononium.Governance.Execution
import Mononium.Governance.Counters
import Mononium.Governance.Immutability
import Mononium.Governance.Deposits
import Mononium.Governance.Board
import Mononium.Governance.Provenance
import Mononium.Lib.Swarm
import Mononium.Network.Service
import Mononium.Network.Delivery
import Mononium.Network.Broadcast
import Mononium.Network.Scoring
import Mononium.Network.Exchange
import Mononium.Ledger.Book
import Mononium.Ledger.Reading
import Mononium.Ledger.Refinement
import Mononium.Ledger.Chain
import Mononium.Mempool.Custody
import Mononium.Node.Custody
import Mononium.Node.Isolation
import Mononium.Consensus.Contest
import Mononium.Node.Turns
import Mononium.Node.Reduction
import Mononium.Node.Staking
import Mononium.Node.Standstill
import Mononium.Node.Queries
import Mononium.Node.Views
import Mononium.Node.Roles
import Mononium.Network.SyncRestart
import Mononium.Lib.Quorum
import Mononium.Consensus.Accountability
