import SystemsCourse.ActivityServer
import SystemsCourse.AllocationLedger
import SystemsCourse.ArrayAmortization
import SystemsCourse.ArrayRefinement
import SystemsCourse.Barriers
import SystemsCourse.BarriersLockstep
import SystemsCourse.BarriersOutcome
import SystemsCourse.BarriersOutput
import SystemsCourse.BoundedBuffer
import SystemsCourse.BoundedBufferHistory
import SystemsCourse.BoundedBufferInvariant
import SystemsCourse.BoundedBufferLosses
import SystemsCourse.BoundedBufferProgress
import SystemsCourse.BoundedBufferShutdown
import SystemsCourse.BoundedBufferTermination
import SystemsCourse.ByteStream
import SystemsCourse.CString
import SystemsCourse.CharArray
import SystemsCourse.CommandGrammar
import SystemsCourse.CyclicBarrier
import SystemsCourse.DatagramChannel
import SystemsCourse.DemoProgram
import SystemsCourse.ErrorPositions
import SystemsCourse.ForkJoin
import SystemsCourse.ForkJoinTermination
import SystemsCourse.LexicalComposition
import SystemsCourse.LexicalSyntax
import SystemsCourse.LineSpacing
import SystemsCourse.LineWriter
import SystemsCourse.LockFreeSum
import SystemsCourse.LockOwner
import SystemsCourse.LockedSum
import SystemsCourse.LoggedProgram
import SystemsCourse.MaximalRuns
import SystemsCourse.MemoryProgram
import SystemsCourse.MessageFraming
import SystemsCourse.ParseOwnership
import SystemsCourse.ParseRefinement
import SystemsCourse.ParserAccesses
import SystemsCourse.ParserArrays
import SystemsCourse.ParserBounds
import SystemsCourse.ParserData
import SystemsCourse.ParserFaults
import SystemsCourse.ParserRelease
import SystemsCourse.PipeComposition
import SystemsCourse.PipelineParse
import SystemsCourse.PipelinePrint
import SystemsCourse.PrintPointer
import SystemsCourse.ReadersWriter
import SystemsCourse.ReadersWriterOutput
import SystemsCourse.ReadersWriterStarvation
import SystemsCourse.RedirectDecoding
import SystemsCourse.RedirectSet
import SystemsCourse.RedirectionOrder
import SystemsCourse.RefusedRequests
import SystemsCourse.RingBuffer
import SystemsCourse.SizeTArrays
import SystemsCourse.SpinLock
import SystemsCourse.StepProgress
import SystemsCourse.StepSimulation
import SystemsCourse.StepSystem
import SystemsCourse.SummationRuns
import SystemsCourse.TargetWriter
import SystemsCourse.TaskMailbox
import SystemsCourse.TaskMailboxDelivery
import SystemsCourse.TaskMailboxDrain
import SystemsCourse.TaskMailboxInvariant
import SystemsCourse.TaskMailboxWakeup
import SystemsCourse.TcpSession
import SystemsCourse.TcpSessionCompletion
import SystemsCourse.TcpSessionInvariant
import SystemsCourse.TerminatedLines
import SystemsCourse.ThreadPoolDrain
import SystemsCourse.ThreadPoolOwnership
import SystemsCourse.ThreadPoolServer
import SystemsCourse.ThreadPoolSilence
import SystemsCourse.ThreadTally
import SystemsCourse.ThreadedServer
import SystemsCourse.ThreadedServerIsolation
import SystemsCourse.ThreadedServerOwnership
import SystemsCourse.Tokenize
import SystemsCourse.Transcript
import SystemsCourse.UdpExchange
import SystemsCourse.UdpExchangeNumbers
import SystemsCourse.UdpExchangeOutputs
import SystemsCourse.WellFormedPipeline
import SystemsCourse.WorkQueue
import SystemsCourse.WorkQueueTest
import SystemsCourse.WorkQueueTestVerdict
