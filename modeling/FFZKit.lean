import FFZKit.Foundations.Transition
import FFZKit.Foundations.Lockstep
import FFZKit.Foundations.Accepts
import FFZKit.Foundations.Tally
import FFZKit.Foundations.Text
import FFZKit.Foundations.MapList
import FFZKit.Foundations.Mask
import FFZKit.Foundations.History
import FFZKit.Foundations.Multimap
import FFZKit.Foundations.Numeral
import FFZKit.Foundations.Decimal
import FFZKit.Foundations.DropLeast
import FFZKit.Foundations.BlockSwap
import FFZKit.Foundations.Custody
import FFZKit.Foundations.Settles
import FFZKit.Foundations.Runs
import FFZKit.Foundations.Word
import FFZKit.Foundations.Visit
import FFZKit.Foundations.FirstLeast
import FFZKit.Foundations.Holding
import FFZKit.Foundations.Pieces
import FFZKit.Foundations.Sweep
import FFZKit.Poller.TaskHandover
import FFZKit.Poller.HandoverLedger
import FFZKit.Poller.RunningLoop
import FFZKit.Poller.EdgeTrigger
import FFZKit.Poller.Shutdown
import FFZKit.Poller.SelectPoller
import FFZKit.Poller.SelectRegistration
import FFZKit.Poller.PollRound
import FFZKit.Poller.PollDispatch
import FFZKit.Poller.EpollPoller
import FFZKit.Poller.EpollRegistration
import FFZKit.Poller.EpollDispatch
import FFZKit.Poller.DelayTask
import FFZKit.Poller.DelayTaskFlush
import FFZKit.Poller.TimerWait
import FFZKit.Poller.TimerArithmetic
import FFZKit.Poller.TimerRuns
import FFZKit.Poller.SyncCall
import FFZKit.Poller.SyncRuns
import FFZKit.Poller.SyncReturns
import FFZKit.Poller.PipeRead
import FFZKit.Poller.PipeWrap
import FFZKit.Thread.Semaphore
import FFZKit.Thread.SemaphoreLedger
import FFZKit.Thread.WorkerPool
import FFZKit.Thread.PoolDrain
import FFZKit.Thread.ThreadLoadCounter
import FFZKit.Thread.LoadRange
import FFZKit.Thread.LoadReading
import FFZKit.Thread.ExecutorGetter
import FFZKit.Thread.ThreadGroup
import FFZKit.Util.NoticeCenter
import FFZKit.Util.ListenerLedger
import FFZKit.Util.NoticeCallback
import FFZKit.Util.NoticeReentry
import FFZKit.Util.Trim
import FFZKit.Util.FilePath
import FFZKit.Util.PathConfinement
import FFZKit.Util.PathNormal
import FFZKit.Util.DirectoryWalk
import FFZKit.Util.DirectoryTree
import FFZKit.Util.ScanLaw
import FFZKit.Util.FileTree
import FFZKit.Util.DeleteReach
import FFZKit.Util.DeleteInside
import FFZKit.Util.EmptyDirCleanup
import FFZKit.Util.OptionParser
import FFZKit.Util.OptionRegistry
import FFZKit.Util.OptionParse
import FFZKit.Util.OptionCompletion
import FFZKit.Util.CMDRegister
import FFZKit.Util.CommandLine
import FFZKit.Util.Mini
import FFZKit.Util.MiniLines
import FFZKit.Util.MiniRoundTrip
import FFZKit.Util.MiniReload
import FFZKit.Util.TrimTotal
import FFZKit.Util.SplitLoop
import FFZKit.Util.Strptime
import FFZKit.Util.StrptimeRoundTrip
import FFZKit.Util.MakeDirectory
import FFZKit.Util.CreatePath
import FFZKit.Util.Variant
import FFZKit.Util.SaveFile
import FFZKit.Util.AnyObject
import FFZKit.Util.ResourcePool
import FFZKit.Util.ResourceCustody
import FFZKit.Util.ResourceThrow
import FFZKit.Util.ResourceRecovery
import FFZKit.Util.Logger
import FFZKit.Util.LogAccounting
import FFZKit.Util.FileChannel
import FFZKit.Util.FileChannelRecursion
import FFZKit.Util.FileChannelReturns
import FFZKit.Util.LogFileName
import FFZKit.Util.LocalTime
import FFZKit.Util.LogDates
import FFZKit.Util.LogRetention
import FFZKit.Util.LogRetentionOrder
import FFZKit.Util.LogFileTime
import FFZKit.Util.LogExpiry
import FFZKit.Util.AsyncLog
import FFZKit.Util.AsyncLogLedger
import FFZKit.Network.SockUtil
import FFZKit.Network.DnsCache
import FFZKit.Network.BufferRaw
import FFZKit.Network.BufferRawSound
import FFZKit.Win32.Getopt
import FFZKit.Win32.GetoptReading
import FFZKit.Win32.GetoptLayout
import FFZKit.Win32.GetoptCalls
import FFZKit.Win32.CommandOptions
import FFZKit.Foundations.Heap
import FFZKit.Win32.WepollPort
import FFZKit.Win32.WepollGroup
import FFZKit.Win32.WepollSound
import FFZKit.Win32.WepollWait
import FFZKit.Win32.WepollSections
import FFZKit.Win32.WepollControl
import FFZKit.Win32.WepollRuns
import FFZKit.Win32.WepollInterest
import FFZKit.Win32.WepollWakeup
import FFZKit.Win32.WepollLifetime
