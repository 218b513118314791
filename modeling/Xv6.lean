import Xv6.Log.CrashAtomicity
import Xv6.Log.Reservation
import Xv6.Log.GroupCommit
import Xv6.Vm.FileRefs
import Xv6.Vm.ForkLayout
import Xv6.Fs.Identity
import Xv6.Bio.Runs
import Xv6.Pipes.Sleepers
import Xv6.Procs.Accounts
import Xv6.Procs.Reaping
import Xv6.Procs.Wakeup
import Xv6.Console.Discipline
import Xv6.Shell.Parsing
import Xv6.Procs.Fairness
import Xv6.Procs.Spinlock
import Xv6.Kalloc.Guard
import Xv6.Kalloc.Refinement
import Xv6.Vm.DemandContents
import Xv6.Vm.UserCopies
import Xv6.Grep.Lines
import Xv6.Pipes.Delivery
import Xv6.Malloc.Requests
import Xv6.Vm.ExecArgs
import Xv6.Strings.Memmove
import Xv6.Sv39.Mapping
import Xv6.Vm.Isolation
