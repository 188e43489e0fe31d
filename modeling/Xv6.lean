import Xv6.LogCrash
import Xv6.LogReservation
import Xv6.RefCounts
import Xv6.InodeLocks
import Xv6.KillTargets
import Xv6.TickAccounts
import Xv6.Aging
import Xv6.PipeWakeups
import Xv6.SleepWakeup
import Xv6.PageConservation
import Xv6.IdeQueue
import Xv6.InterruptFlag
import Xv6.BlockRuns
import Xv6.ShortestJob
import Xv6.QueueOrder
import Xv6.ChunkLog
import Xv6.ChangePrio
import Xv6.PathResolution
import Xv6.Console
import Xv6.GrowProc
import Xv6.UserArguments
import Xv6.CacheRoom
import Xv6.CopyOut
import Xv6.Memmove
import Xv6.GrepLines
import Xv6.DiskErrors
import Xv6.MpTable
