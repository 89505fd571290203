import Speedex.Block.BlockProduction
import Speedex.Block.Iblt
import Speedex.Block.IbltDecode
import Speedex.Block.Mempool
import Speedex.Block.MempoolRuns
import Speedex.Block.XdrFile
import Speedex.Block.XdrFileRoundTrip
import Speedex.Ledger.Account
import Speedex.Ledger.AccountCommitment
import Speedex.Ledger.AccountIDPrefix
import Speedex.Ledger.AccountView
import Speedex.Ledger.CommitmentUpdate
import Speedex.Ledger.CreationView
import Speedex.Ledger.Database
import Speedex.Ledger.Directory
import Speedex.Ledger.HeaderChain
import Speedex.Ledger.HeaderMap
import Speedex.Ledger.ModificationLog
import Speedex.Ledger.SequenceNumbers
import Speedex.Ledger.Shards
import Speedex.Ledger.Transaction
import Speedex.Ledger.ValidState
import Speedex.Ledger.ViewRuns
import Speedex.Library.Agreement
import Speedex.Library.Branches
import Speedex.Library.Bump
import Speedex.Library.Bytes
import Speedex.Library.Claims
import Speedex.Library.Collapse
import Speedex.Library.Cumulative
import Speedex.Library.Digits
import Speedex.Library.Fallible
import Speedex.Library.IndexMap
import Speedex.Library.Journal
import Speedex.Library.LimbProduct
import Speedex.Library.Loops
import Speedex.Library.Machine
import Speedex.Library.Nibbles
import Speedex.Library.OffDiagonal
import Speedex.Library.Parallel
import Speedex.Library.Peeling
import Speedex.Library.Sha2
import Speedex.Library.Simulation
import Speedex.Library.SwapRemove
import Speedex.Market.ExchangeRate
import Speedex.Market.Offer
import Speedex.Market.OfferKeys
import Speedex.Market.Price
import Speedex.Market.PriceKeys
import Speedex.Market.Tatonnement
import Speedex.Market.TatonnementRuns
import Speedex.Market.TrialPrice
import Speedex.Processing.Acceptance
import Speedex.Processing.DatabaseView
import Speedex.Processing.Effects
import Speedex.Processing.Managers
import Speedex.Processing.Merging
import Speedex.Processing.NewAccounts
import Speedex.Processing.Operations
import Speedex.Processing.Primitives
import Speedex.Processing.Schedules
import Speedex.Processing.SerialManager
import Speedex.Processing.Solvency
import Speedex.Processing.Steps
import Speedex.Processing.Transactions
import Speedex.Processing.Validation
import Speedex.Processing.Views
import Speedex.Processing.Working
import Speedex.Trie.BelowKey
import Speedex.Trie.CanonicalForm
import Speedex.Trie.Clean
import Speedex.Trie.Delete
import Speedex.Trie.Entries
import Speedex.Trie.Freeze
import Speedex.Trie.Frontier
import Speedex.Trie.Handle
import Speedex.Trie.HashRuns
import Speedex.Trie.HashSoundness
import Speedex.Trie.Hashing
import Speedex.Trie.Insert
import Speedex.Trie.Invalidation
import Speedex.Trie.Lookup
import Speedex.Trie.MarkRanges
import Speedex.Trie.Marks
import Speedex.Trie.Merge
import Speedex.Trie.MergeCorrect
import Speedex.Trie.Node
import Speedex.Trie.NodeAllocator
import Speedex.Trie.OfferTrie
import Speedex.Trie.Operations
import Speedex.Trie.PrefixType
import Speedex.Trie.ProofCompleteness
import Speedex.Trie.ProofMessages
import Speedex.Trie.ProofSoundness
import Speedex.Trie.Proofs
import Speedex.Trie.Prune
import Speedex.Trie.Ranges
import Speedex.Trie.RangesCover
import Speedex.Trie.Rollback
import Speedex.Trie.RootHash
import Speedex.Trie.Shaped
import Speedex.Trie.Split
import Speedex.Trie.SplitAt
import Speedex.Trie.SplitExact
import Speedex.Trie.SubnodeUpdate
import Speedex.Trie.UndoSplit
import Speedex.Trie.Walks
import Speedex.Unit.Blocks
import Speedex.Unit.Book
import Speedex.Unit.Categories
import Speedex.Unit.Clearing
import Speedex.Unit.Commit
import Speedex.Unit.Commitment
import Speedex.Unit.Demand
import Speedex.Unit.DoRollback
import Speedex.Unit.Manager
import Speedex.Unit.MetadataIndex
import Speedex.Unit.Production
import Speedex.Unit.Proposed
import Speedex.Unit.Replay
import Speedex.Unit.Rollback
import Speedex.Unit.RollbackThunks
import Speedex.Unit.Runs
import Speedex.Unit.SmoothMult
import Speedex.Unit.SupplyLookup
import Speedex.Unit.Undo
import Speedex.Unit.WorkUnit
