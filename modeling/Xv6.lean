import Xv6.BlockCount
import Xv6.BufferRefine
import Xv6.CacheExhaustion
import Xv6.CacheRefine
import Xv6.Console
import Xv6.CpuRun
import Xv6.FamilyRun
import Xv6.FileRead
import Xv6.FileTableRefs
import Xv6.Grep
import Xv6.InodeExhaustion
import Xv6.InterruptInvariant
import Xv6.LockOrder
import Xv6.MkfsKernel
import Xv6.PipeDelivery
import Xv6.PipeThreads
import Xv6.Printf
import Xv6.ProcSize
import Xv6.ShellParser
import Xv6.ShellRun
import Xv6.SleepLocks
import Xv6.SleepWakeup
