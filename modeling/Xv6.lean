import Xv6.PointerCache
import Xv6.LogSpace
import Xv6.ExitWait
import Xv6.ProcIds
import Xv6.SleepLock
import Xv6.Pipe
import Xv6.Console
import Xv6.Ide
import Xv6.ShellGrammar
import Xv6.Syscall
import Xv6.AddressSpace
import Xv6.Eviction
import Xv6.Grep
import Xv6.UmallocRuns
import Xv6.PipeCall
import Xv6.LinkCall
import Xv6.DirMap
import Xv6.Printint
import Xv6.Memmove
import Xv6.KernelMap
import Xv6.Dealloc
import Xv6.Interrupts
import Xv6.Transfers
