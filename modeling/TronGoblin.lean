import TronGoblin.Executor.ParallelProgress
import TronGoblin.Executor.ManifestLife
import TronGoblin.Executor.UndoCrash
import TronGoblin.Executor.PipelineClassic
import TronGoblin.Node.SnapshotStack
import TronGoblin.Node.ReorgAbort
import TronGoblin.Node.ReorgRefines
import TronGoblin.Node.PbftFinality
import TronGoblin.Node.PbftEquivocation
import TronGoblin.Node.FetchPoolInv
import TronGoblin.Actuator.MarketEscrow
import TronGoblin.Types.ResourceRun
import TronGoblin.Index.SmtProofSound
import TronGoblin.Index.CommitmentRuns
import TronGoblin.Tvm.FrameRevert
import TronGoblin.Node.Replay
import TronGoblin.Index.ArchivePrune
import TronGoblin.Index.ArchiveExact
import TronGoblin.Actuator.DelegationLocks
import TronGoblin.Actuator.LegacyStaking
import TronGoblin.Consensus.RewardSolvency
import TronGoblin.Consensus.KhaosBranch
import TronGoblin.Chainbase.FailedFlush
import TronGoblin.Chainbase.SessionScan
import TronGoblin.Executor.FreeNet
import TronGoblin.Consensus.DoubleSign
import TronGoblin.Consensus.RewardQuery
import TronGoblin.Node.Locator
import TronGoblin.Executor.MissedSlots
import TronGoblin.Tvm.CreatedAddress
import TronGoblin.Chainbase.DiskCodec
import TronGoblin.Chainbase.ForkStats
