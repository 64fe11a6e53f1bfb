import PreemptiveOS.DirectMap
import PreemptiveOS.WaitWakeup
import PreemptiveOS.PendingSignals
import PreemptiveOS.ContextSwitch
import PreemptiveOS.FaultStack
import PreemptiveOS.SyscallDispatch
import PreemptiveOS.ProcessLists
import PreemptiveOS.FileCounts
import PreemptiveOS.ForkFailure
import PreemptiveOS.SharedPages
import PreemptiveOS.TimerTicks
import PreemptiveOS.WaitReports
import PreemptiveOS.DescriptorTables
import PreemptiveOS.TableRelease
import PreemptiveOS.SegmentLoading
import PreemptiveOS.KeyboardDriver
import PreemptiveOS.ProcessListing
import PreemptiveOS.DirectoryListing
import PreemptiveOS.ArchiveWalk
import PreemptiveOS.PathCopies
import PreemptiveOS.ByteRoutines
import PreemptiveOS.Formatting
import PreemptiveOS.ShellTokens
import PreemptiveOS.Environment
import PreemptiveOS.DiskTransfers
import PreemptiveOS.FrameRuns
