import LibSystemCall.AtexitFinalize
import LibSystemCall.ContextMask
import LibSystemCall.ContextSlots
import LibSystemCall.ContextValid
import LibSystemCall.DeviceDescriptors
import LibSystemCall.DirentBounds
import LibSystemCall.DirentCompar
import LibSystemCall.DirentDescriptors
import LibSystemCall.DirentDevname
import LibSystemCall.DirentFill
import LibSystemCall.DirentStream
import LibSystemCall.EnvLookup
import LibSystemCall.ErrnoCell
import LibSystemCall.ExitTerminators
import LibSystemCall.GuardedSystem
import LibSystemCall.MergeSortStable
import LibSystemCall.PrintAgreement
import LibSystemCall.PrintCalls
import LibSystemCall.PrintDigits
import LibSystemCall.PrintResult
import LibSystemCall.PrintRoundTrip
import LibSystemCall.PrintScan
import LibSystemCall.PrintScratch
import LibSystemCall.PrintText
import LibSystemCall.RandSeeding
import LibSystemCall.RandSequence
import LibSystemCall.StreamOffset
import LibSystemCall.StreamReads
import LibSystemCall.StreamSeek
import LibSystemCall.StreamUpdate
import LibSystemCall.StringMemmove
import LibSystemCall.ThreadJoinGate
import LibSystemCall.ThreadJoinGraph
import LibSystemCall.ThreadJoinValue
import LibSystemCall.ThreadUnmapping
import LibSystemCall.TlvAddress
import LibSystemCall.TlvExit
import LibSystemCall.TsdCleanup
import LibSystemCall.TsdLedger
import LibSystemCall.UnfairLockWakeups
import LibSystemCall.MergeSortProbes
import LibSystemCall.InetQuads
import LibSystemCall.StringCopy
import LibSystemCall.StringError
import LibSystemCall.StringSignal
import LibSystemCall.UnfairLockLinear
import LibSystemCall.RandPeriod
import LibSystemCall.StreamRoundTrip
import LibSystemCall.SelectSet
import LibSystemCall.ThreadLedger
import LibSystemCall.ThreadStart
import LibSystemCall.ThreadExitHandlers
import LibSystemCall.ContextChain
import LibSystemCall.ContextEntry
import LibSystemCall.ProgramStart
import LibSystemCall.HeapLedger
import LibSystemCall.SyscallStub
import LibSystemCall.SyscallErrors
import LibSystemCall.ProcessFork
import LibSystemCall.ErrorReport
