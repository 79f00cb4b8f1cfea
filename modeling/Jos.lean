import Jos.Library.RefCount
import Jos.Library.Linked
import Jos.Library.Program
import Jos.Machine.Mmu
import Jos.Machine.State
import Jos.Machine.Paging
import Jos.Kernel.Pmap
import Jos.Kernel.Env
import Jos.Kernel.Boot
import Jos.Kernel.Sched
import Jos.Kernel.Console
import Jos.Kernel.Syscall
import Jos.Kernel.Trap
import Jos.Kernel.System
import Jos.Kernel.Spinlock
import Jos.Kernel.Refs
import Jos.Kernel.Theorems.Refs
import Jos.Kernel.Theorems.Alloc
import Jos.Kernel.Theorems.Pmap
import Jos.Kernel.Theorems.Tables
import Jos.Kernel.Theorems.Insert
import Jos.Kernel.Theorems.Env
import Jos.Kernel.Theorems.Free
import Jos.Kernel.Theorems.Sched
import Jos.Kernel.Theorems.Calls
import Jos.Kernel.Theorems.Boot
import Jos.Kernel.Theorems.Pages
import Jos.Kernel.Theorems.Blank
import Jos.Kernel.Theorems.Atomic
import Jos.Kernel.Theorems.Envs
import Jos.Kernel.Theorems.EnvCalls
import Jos.Kernel.Theorems.Confine
import Jos.Kernel.Theorems.Isolation
import Jos.Kernel.Theorems.Traps
import Jos.Kernel.Theorems.Running
import Jos.Kernel.Theorems.System
import Jos.Kernel.Theorems.Memory
import Jos.Kernel.Theorems.Smp
import Jos.Kernel.Theorems.Ids
import Jos.Kernel.Theorems.UserMem
import Jos.Kernel.Theorems.Faults
import Jos.Kernel.Theorems.Turns
import Jos.Kernel.Theorems.Fair
import Jos.Kernel.Theorems.Lock
import Jos.Kernel.Theorems.Upper
import Jos.Kernel.Theorems.Protect
import Jos.Kernel.Theorems.Layout
import Jos.Kernel.Theorems.Counts
import Jos.Kernel.Theorems.Crowd
import Jos.Kernel.Theorems.Rights
import Jos.Kernel.Theorems.Recycle
import Jos.Kernel.Theorems.RoundRobin
import Jos.Kernel.Theorems.Addresses
import Jos.Kernel.Theorems.UserCheck
import Jos.Kernel.Theorems.PageInit
import Jos.Kernel.Theorems.Reclaim
import Jos.Kernel.Theorems.Mapping
import Jos.User.Theorems.Fork
import Jos.Printf.Theorems.Format
import Jos.Printf.Theorems.Fields
import Jos.Printf.Theorems.Numbers
import Jos.Printf.Theorems.Strings
import Jos.Printf.Theorems.Sprintf
import Jos.Printf.Theorems.Agree
import Jos.User.Theorems.Delivery
import Jos.Kernel.Theorems.Stabs
import Jos.Kernel.Theorems.Debuginfo
import Jos.Kernel.Theorems.Mmio
import Jos.Kernel.Theorems.Icode
import Jos.Kernel.Theorems.Reads
import Jos.Kernel.Theorems.Check
import Jos.Kernel.Theorems.Cons
import Jos.Kernel.Theorems.Cga
import Jos.Kernel.Theorems.Readline
import Jos.Kernel.Theorems.Monitor
import Jos.Kernel.Theorems.Mpconfig
import Jos.Boot.Theorems.Main
import Jos.String.Theorems.Mem
import Jos.String.Theorems.Strtol
import Jos.Kernel.Theorems.Tlb
import Jos.User.Theorems.Cow
import Jos.Kernel.Theorems.Init
import Jos.User.Theorems.Ipc
import Jos.Kernel.Theorems.Idle
