import Xv6.Fs.LogProtocol
import Xv6.Fs.BlockStore
import Xv6.Fs.CacheRoom
import Xv6.Fs.SharedWrite
import Xv6.Fs.ReadOnly
import Xv6.Fs.Path
import Xv6.Fs.Icache
import Xv6.Fs.WriteBack
import Xv6.Proc.PipeCounters
import Xv6.Proc.SleepLock
import Xv6.Proc.Signals
import Xv6.Proc.Sched
import Xv6.Sys.Exec
import Xv6.Sys.Copyout
import Xv6.User.ShGrammar
import Xv6.User.Release
import Xv6.Mm.Teardown
import Xv6.Mm.Rollback
import Xv6.Mm.Translation
import Xv6.Mm.FreeList
import Xv6.Drivers.Console
import Xv6.Drivers.Ide
import Xv6.Arch.Mp
import Xv6.User.GrepLoop
import Xv6.Fs.BufList
import Xv6.User.Nulterminate
import Xv6.Sys.Spaces
import Xv6.Drivers.Screen
import Xv6.Proc.Scheduler
import Xv6.User.RunCmd
import Xv6.Arch.Idt
