import Gwead.ReadScope
import Gwead.WriterOrder
import Gwead.DataflowSafety
import Gwead.StreamTake
import Gwead.ContractGuard
import Gwead.DispatchAuthority
import Gwead.InvokeCycles
import Gwead.ReloadRollback
import Gwead.NestingDepth
import Gwead.StreamingCallee
import Gwead.Uncatchable
import Gwead.TryHandles
import Gwead.StepTypeResolution
import Gwead.StepCoverage
import Gwead.Deadlines
import Gwead.FanoutDeadlock
import Gwead.Pipe
import Gwead.AbandonedReads
import Gwead.LifecycleIndex
import Gwead.Dsl.LexerSpec
import Gwead.Dsl.Unambiguous
import Gwead.Dsl.ParserSpec
import Gwead.Dsl.ParserGrammar
import Gwead.TryResult
import Gwead.VariableBinding
import Gwead.BranchResults
import Gwead.RunKept
import Gwead.RunReached
import Gwead.SchedulerCalls
import Gwead.FrameRestored
import Gwead.CleanMarkers
import Gwead.ResultBytes
import Gwead.FailedLeaf
import Gwead.LoopResults
import Gwead.Iterations
import Gwead.SelectedItems
import Gwead.WallclockRace
import Gwead.RoleCandidates
import Gwead.StreamingRefusals
import Gwead.GuestCalls
import Gwead.DeclaredReferences
import Gwead.ParallelJoin
import Gwead.FanoutSeen
import Gwead.PlanSpec
import Gwead.InvokeCycleCheck
import Gwead.TemplateAgreement
import Gwead.StepIds
import Gwead.ResourceBudget
import Gwead.HandleRuns
import Gwead.Dsl.Bounds
import Gwead.NamespaceLaws
import Gwead.GuestBuffers
import Gwead.PermissionAgreement
import Gwead.PermissionLaws
import Gwead.PermissionGrants
import Gwead.SecretViews
import Gwead.RegistryLaws
import Gwead.WaveOnce
import Gwead.DataflowEnds
import Gwead.PipelineTerminator
import Gwead.PipelineEvents
import Gwead.FailureKept
