import Ethlambda.Base.Runs
import Ethlambda.Base.Table
import Ethlambda.Types.Containers
import Ethlambda.StateTransition.JustifiedSlots
import Ethlambda.StateTransition.Transition
import Ethlambda.StateTransition.Steps
import Ethlambda.StateTransition.Invariant
import Ethlambda.StateTransition.Tally
import Ethlambda.StateTransition.Serialize
import Ethlambda.StateTransition.Representation
import Ethlambda.StateTransition.Rounds
import Ethlambda.StateTransition.Equivalence
import Ethlambda.Base.Quorum
import Ethlambda.StateTransition.Ledger
import Ethlambda.StateTransition.Finality
import Ethlambda.StateTransition.Accountable
import Ethlambda.StateTransition.OriginalFinalized
import Ethlambda.Base.Op
import Ethlambda.Base.Ranked
import Ethlambda.ForkChoice.LmdGhost
import Ethlambda.Storage.Store
import Ethlambda.Chain.Votes
import Ethlambda.Chain.Import
import Ethlambda.Chain.Imports
import Ethlambda.Chain.Proposal
import Ethlambda.Chain.Server
import Ethlambda.Chain.Coherence
import Ethlambda.Chain.Operations
import Ethlambda.Chain.WideSlots
import Ethlambda.Chain.Pruning
import Ethlambda.Chain.Authenticity
import Ethlambda.Chain.Handlers
import Ethlambda.Chain.Retention
import Ethlambda.Chain.HeadPath
import Ethlambda.Chain.Crash
import Ethlambda.Chain.Redelivery
import Ethlambda.Chain.Signing
import Ethlambda.Chain.CheckpointSync
import Ethlambda.Chain.Pending
import Ethlambda.Chain.Lookalike
import Ethlambda.Chain.Sync
import Ethlambda.Base.Forest
import Ethlambda.ForkChoice.Ghost
import Ethlambda.Chain.LatestMessages
import Ethlambda.Base.Queue
import Ethlambda.Chain.Buffers
import Ethlambda.Chain.Admission
import Ethlambda.Chain.Backends
import Ethlambda.Chain.Schedule
import Ethlambda.Base.Cover
import Ethlambda.Chain.Selection
import Ethlambda.Chain.KeyOrder
import Ethlambda.Chain.Grounded
import Ethlambda.Chain.Cascade
import Ethlambda.Chain.OwnVotes
import Ethlambda.Base.Journal
import Ethlambda.Storage.InMemory
import Ethlambda.Network.Fetch
import Ethlambda.Network.Tokens
import Ethlambda.Network.Leaks
import Ethlambda.Network.Codec
import Ethlambda.Chain.LiveIndex
import Ethlambda.Base.Newest
import Ethlambda.Chain.GossipCounter
import Ethlambda.Chain.SignedBlocks
import Ethlambda.Chain.StateWindow
import Ethlambda.StateTransition.Justifiable
import Ethlambda.Chain.FadedVotes
import Ethlambda.Chain.Building
import Ethlambda.Chain.Levels
import Ethlambda.Chain.Enumeration
import Ethlambda.Chain.Production
import Ethlambda.Network.Varint
import Ethlambda.StateTransition.Acceptance
import Ethlambda.StateTransition.Liveness
import Ethlambda.StateTransition.Forks
import Ethlambda.Chain.Agreement
import Ethlambda.Chain.ProvenVotes
import Ethlambda.Chain.Propagation
import Ethlambda.Chain.Missing
import Ethlambda.Network.Budget
import Ethlambda.Network.Exchange
import Ethlambda.Network.CatchUp
import Ethlambda.Network.Gossip
import Ethlambda.Network.Bootnodes
import Ethlambda.Chain.Joining
