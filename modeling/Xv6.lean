import Xv6.User.ThreadLocks
import Xv6.User.ThreadOutcome
import Xv6.User.Script
import Xv6.User.MallocLimits
import Xv6.User.Memmove
import Xv6.User.Grep
import Xv6.Kernel.LogSpace
import Xv6.Kernel.OpenFiles
import Xv6.Kernel.ExecAtomic
import Xv6.Kernel.Pipe
import Xv6.Kernel.Console
import Xv6.Kernel.ItableRuns
import Xv6.Kernel.VirtioRuns
import Xv6.Kernel.Grow
import Xv6.Kernel.Fork
import Xv6.Kernel.SmpSleep
import Xv6.Kernel.SmpKill
import Xv6.Kernel.SmpPids
import Xv6.Kernel.SmpCtrlC
import Xv6.Kernel.Mlfq
import Xv6.Kernel.Demotion
import Xv6.Kernel.BcacheSupply
import Xv6.Kernel.Lru
import Xv6.Kernel.ShortWrite
import Xv6.Kernel.SharedOffset
import Xv6.Kernel.Directory
