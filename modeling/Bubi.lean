import Bubi.Base.Uint256
import Bubi.Core.Chain
import Bubi.Core.Decimal
import Bubi.Core.Handles
import Bubi.Core.KeyedTable
import Bubi.Core.Locking
import Bubi.Core.LostUpdate
import Bubi.Core.Outcome
import Bubi.Core.Overlap
import Bubi.Core.Transfer
import Bubi.Core.Trie
import Bubi.Core.TrieLabels
import Bubi.Core.TrieOrder
import Bubi.Core.TriePath
import Bubi.Core.TrieShape
import Bubi.Core.TrieUpdate
import Bubi.Core.Wire
import Bubi.Ledger.Actions
import Bubi.Ledger.Alike
import Bubi.Ledger.Audit
import Bubi.Ledger.Books
import Bubi.Ledger.Conservation
import Bubi.Ledger.Crash
import Bubi.Ledger.Creation
import Bubi.Ledger.Durability
import Bubi.Ledger.Effect
import Bubi.Ledger.Fetching
import Bubi.Ledger.Fingerprint
import Bubi.Ledger.Formats
import Bubi.Ledger.Frame
import Bubi.Ledger.Freshness
import Bubi.Ledger.Growth
import Bubi.Ledger.Header
import Bubi.Ledger.History
import Bubi.Ledger.Interleaving
import Bubi.Ledger.Ledger
import Bubi.Ledger.Losses
import Bubi.Ledger.Posting
import Bubi.Ledger.Race
import Bubi.Ledger.Records
import Bubi.Ledger.Refusal
import Bubi.Ledger.Restart
import Bubi.Ledger.Server
import Bubi.Ledger.Solvency
import Bubi.Ledger.StoreKeys
import Bubi.Ledger.Table
import Bubi.Ledger.Unknown
import Bubi.Ledger.Usage
import Bubi.Net.Client
import Bubi.Net.Convergence
import Bubi.Net.Delivery
import Bubi.Net.Descriptors
import Bubi.Net.Dialing
import Bubi.Net.Footprint
import Bubi.Net.Handler
import Bubi.Net.Inbound
import Bubi.Net.Integrity
import Bubi.Net.Locks
import Bubi.Net.Malformed
import Bubi.Net.Mesh
import Bubi.Net.Network
import Bubi.Net.Node
import Bubi.Net.Once
import Bubi.Net.Peers
import Bubi.Net.Queue
import Bubi.Net.Rejection
import Bubi.Net.Replay
import Bubi.Net.Sending
import Bubi.Net.Service
import Bubi.Net.Settled
import Bubi.Net.Threads
import Bubi.Tree.Backup
import Bubi.Tree.Canonical
import Bubi.Tree.Commitment
import Bubi.Tree.Database
import Bubi.Tree.Fetching
import Bubi.Tree.FiniteMap
import Bubi.Tree.Format
import Bubi.Tree.Insertion
import Bubi.Tree.InsertionOrder
import Bubi.Tree.MerkleTrie
import Bubi.Tree.Node
import Bubi.Tree.RadixMerkleTree
import Bubi.Tree.Refinement
import Bubi.Tree.Reload
import Bubi.Tree.Resolution
import Bubi.Tree.Separation
import Bubi.Tree.Simulation
import Bubi.Tree.Totality
import Bubi.Tree.WellFormed
