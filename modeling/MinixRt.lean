import MinixRt.Ipc.Entry
import MinixRt.Irq.Softirq
import MinixRt.Memblock.Isolate
import MinixRt.Mm.Leak
import MinixRt.Mm.Strings
import MinixRt.Mm.Tlb
import MinixRt.PageAlloc.Handover
import MinixRt.PageAlloc.Race
import MinixRt.PageAlloc.Shortage
import MinixRt.Proc.Identity
import MinixRt.Sched.FairCharge
import MinixRt.Sched.Reap
import MinixRt.Sched.Ttbr
import MinixRt.Sched.Usage
import MinixRt.Signal.Crash
import MinixRt.Signal.Pending
import MinixRt.Signal.Sigreturn
import MinixRt.System.Heap
import MinixRt.System.Initrd
import MinixRt.System.Mprotect
import MinixRt.System.UserPointers
import MinixRt.Time.HrtimerArmed
import MinixRt.Time.Sleep
import MinixRt.Time.Timekeeping
import MinixRt.Vfs.Args
import MinixRt.Vfs.Arguments
import MinixRt.Vfs.Open
import MinixRt.Vfs.Reads
