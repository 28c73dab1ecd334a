import ExecutionEngine.SemaphoreProgress
import ExecutionEngine.PoolCustody
import ExecutionEngine.Prewarm
import ExecutionEngine.Reaper
import ExecutionEngine.Sanitize
import ExecutionEngine.BatchPath
import ExecutionEngine.JobLifecycle
import ExecutionEngine.QueueDepth
import ExecutionEngine.JobOrder
import ExecutionEngine.JobStatus
import ExecutionEngine.Shutdown
import ExecutionEngine.Worker
import ExecutionEngine.Fallback
import ExecutionEngine.NamedArguments
import ExecutionEngine.CppCodec
import ExecutionEngine.Delivery
import ExecutionEngine.ResourceLeaks
import ExecutionEngine.ComparisonSymmetry
import ExecutionEngine.FirstFailure
import ExecutionEngine.FailedCase
import ExecutionEngine.SignatureDirectives
import ExecutionEngine.CppWrapper
import ExecutionEngine.RegexComments
import ExecutionEngine.SignatureOffsets
import ExecutionEngine.TopLevelSplit
import ExecutionEngine.WrittenSignature
import ExecutionEngine.GraphCodec
import ExecutionEngine.Preamble
import ExecutionEngine.OperationLines
import ExecutionEngine.VerbatimCode
import ExecutionEngine.BatchStream
import ExecutionEngine.CorrectAnswers
