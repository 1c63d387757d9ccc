import Tonic.ByteEncoding
import Tonic.FirstWinsMap
import Tonic.Transition
import Tonic.Settling
import Tonic.BoundedQueue
import Tonic.RelatedLists
import Tonic.WriteOverlay
import Tonic.OrderedIndex
import Tonic.Hex
import Tonic.SerdeModel
import Tonic.QuorumVoting
import Tonic.Borsh
import Tonic.BorshDecode
import Tonic.Primitives
import Tonic.Types
import Tonic.SignedContent
import Tonic.Backend
import Tonic.Verify
import Tonic.ConsensusMessages
import Tonic.MessageHandler
import Tonic.StoreSpec
import Tonic.Ibft
import Tonic.Engine
import Tonic.Provenance
import Tonic.RunLog
import Tonic.TaskStep
import Tonic.TaskInvariant
import Tonic.RunStep
import Tonic.NodeInvariant
import Tonic.ModelCrypto
import Tonic.NoEquivocation
import Tonic.Drive
import Tonic.CleanRun
import Tonic.StoreStep
import Tonic.RoundJumps
import Tonic.FinalizedProof
import Tonic.CancelledRuns
import Tonic.UsableRoundChange
import Tonic.StoreSoundness
import Tonic.LockPreservation
import Tonic.Network
import Tonic.ModelNetwork
import Tonic.Reproposal
import Tonic.RoundBinding
import Tonic.FirstMessage
import Tonic.NotificationLag
import Tonic.CountingLoops
import Tonic.Termination
import Tonic.Assertions
import Tonic.RoundTimeouts
import Tonic.ProposalWaits
import Tonic.Quiescence
import Tonic.Heights
import Tonic.ViewUniqueness
import Tonic.ExternalValidity
import Tonic.HonestMessages
import Tonic.Storage
import Tonic.FirstRound
import Tonic.KeptMessages
import Tonic.GoodCase
import Tonic.Decision
import Tonic.Agreement
import Tonic.DomainSeparation
import Tonic.SealBinding
import Tonic.MessageAuthenticity
import Tonic.GossipCodec
import Tonic.MessageSizes
import Tonic.BoundedBroadcasts
import Tonic.OwnReproposals
import Tonic.P2PService
import Tonic.WireNetwork
import Tonic.Database
import Tonic.Transaction
import Tonic.Sessions
import Tonic.KeyIteration
import Tonic.MultiGet
import Tonic.PooledTransaction
import Tonic.TransactionPool
import Tonic.PoolIndexes
import Tonic.PriceBump
import Tonic.PoolLedger
import Tonic.AddressSignature
import Tonic.SerdeRoundTrip
import Tonic.SignatureDecoders
