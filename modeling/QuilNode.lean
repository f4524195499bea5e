import QuilNode.Token.RejectionFrame
import QuilNode.Token.ShardDelivery
import QuilNode.Token.OrphanHistory
import QuilNode.Token.RewardMint
import QuilNode.Global.JoinGates
import QuilNode.Global.ProverRings
import QuilNode.Global.ShardGrid
import QuilNode.Global.HandoffHistory
import QuilNode.Hypergraph.StateGrowth
import QuilNode.Tries.TreeMutation
import QuilNode.Forest.MembershipProof
import QuilNode.Execution.RingRewards
import QuilNode.Engine.Difficulty
import QuilNode.Engine.FeeWindow
import QuilNode.Engine.ForkChoice
import QuilNode.Engine.HaltState
import QuilNode.Hypergraph.DeepSplit
import QuilNode.Forest.SyncTransfer
import QuilNode.Engine.TimeReelChain
import QuilNode.Global.KickCoverage
import QuilNode.Execution.RegistryIncremental
import QuilNode.Execution.LeafRootRegistration
import QuilNode.Store.Retention
import QuilNode.Token.SummaryReport
import QuilNode.Token.IndexRun
import QuilNode.Compiler.Mpa
