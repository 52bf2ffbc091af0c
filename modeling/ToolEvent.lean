import ToolEvent.StreamCompleteness
import ToolEvent.LifecycleFinish
import ToolEvent.LifecycleLedger
import ToolEvent.LifecycleForkOrder
import ToolEvent.LifecycleRollback
import ToolEvent.LifecycleAttempt
import ToolEvent.RunModelEdges
import ToolEvent.CausalOrderCorrect
import ToolEvent.SynchronizationEffect
import ToolEvent.EventRoundTrip
import ToolEvent.EventGrammar
import ToolEvent.StreamAdmission
import ToolEvent.NodeIdentity
import ToolEvent.RunModelReplay
import ToolEvent.ResourceLifetimes
import ToolEvent.InterleavingCorrect
import ToolEvent.PolicyDocument
import ToolEvent.InterleavingThreads
import ToolEvent.LifecycleOwnership
import ToolEvent.RunModelRetry
import ToolEvent.LockOrder
import ToolEvent.WaitGraph
import ToolEvent.JoinableThreads
import ToolEvent.HeldLocks
import ToolEvent.SummaryNumbers
import ToolEvent.ModelDocument
import ToolEvent.TraceTable
import ToolEvent.AnalysisTexts
import ToolEvent.FindingStorage
import ToolEvent.CallNesting
import ToolEvent.ResourceDocument
import ToolEvent.RunIdentityLimit
import ToolEvent.LineBuffer
import ToolEvent.HeapArray
import ToolEvent.SearchArrays
import ToolEvent.TraceChains
import ToolEvent.LifecycleReconcile
import ToolEvent.LifecycleForkAgain
import ToolEvent.SummaryScanCorrect
import ToolEvent.IncompleteOrder
import ToolEvent.SynchronizationBounds
import ToolEvent.AnalysisHistory
import ToolEvent.FindingCauses
import ToolEvent.LifecycleFamilies
import ToolEvent.AcyclicModels
import ToolEvent.ModelCommand
import ToolEvent.AnalysisBundle
import ToolEvent.PolicyReports
import ToolEvent.ThreadDiscipline
import ToolEvent.StreamReading
import ToolEvent.ExitStatus
