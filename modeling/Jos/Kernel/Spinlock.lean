import Jos.Kernel.Trap

-- The big kernel lock (kern/spinlock.c), and the places at which the processors take it and give it up. One step is one
-- access to memory that the processors share, or a jump. The number of processors is arbitrary.

open Function

namespace Jos

-- The lock, with what `DEBUG_SPINLOCK` records about its holder.
structure Spinlock (Cpu : Type) where
  locked : Bool := false
  cpu    : Option Cpu := none

def Spinlock.holding {Cpu : Type} [DecidableEq Cpu] (lk : Spinlock Cpu) (c : Cpu) : Bool :=
  lk.locked && lk.cpu == some c

-- The callers of `lock_kernel`. The second call in `trap` is for traps from user mode, the first one for processors
-- that were halted; the flag says where the trap came from.
inductive LockSite (Cpu : Type)
  | i386Init (aps : List Cpu)
  | mpMain
  | woken (user : Bool)
  | trap

-- The callers of `unlock_kernel`.
inductive UnlockSite
  | envRun
  | schedHalt

-- What the processor does under the lock: it ends up in `sched_yield` after it has booted, or in `trap_dispatch`.
inductive Section
  | boot
  | trap (user : Bool)

-- Where a processor is.
inductive Pc (Cpu : Type)
  | off
  | mpMain
  -- `spin_lock`: the test of `holding`, the loop with the `xchg`, and the recording of the holder.
  | spinLock (site : LockSite Cpu)
  | spin (site : LockSite Cpu)
  | record (site : LockSite Cpu)
  -- `boot_aps`: the processors still to be started, and the one it waits for.
  | bootAps (todo : List Cpu)
  | waitAp (d : Cpu) (todo : List Cpu)
  | locked (k : Section)
  -- `sched_halt`, at the `xchg` on `cpu_status`.
  | schedHalt
  -- `spin_unlock`: the test of `holding`, the clearing of the holder, and the `xchg`.
  | spinUnlock (site : UnlockSite)
  | forget (site : UnlockSite)
  | release (site : UnlockSite)
  | user
  | hlt
  -- The start of `trap`, and the test of where the trap came from.
  | trap (user : Bool)
  | dispatch (user : Bool)
  -- `trap` has found that some other processor has panicked.
  | dead
  -- The processor sits in the kernel monitor, perhaps after a panic.
  | monitor
  -- The kernel has faulted.
  | fault
  -- One of the two tests of `holding` has failed.
  | lockPanic

def LockSite.next {Cpu : Type} : LockSite Cpu → Pc Cpu
  | i386Init aps => .bootAps aps
  | mpMain       => .locked .boot
  | woken user   => .dispatch user
  | trap         => .locked (.trap true)

def UnlockSite.next {Cpu : Type} : UnlockSite → Pc Cpu
  | envRun    => .user
  | schedHalt => .hlt

-- How the functions called under the lock go on: none of them returns.
def Exit.next {Cpu : Type} : Exit → Pc Cpu
  | user            => .spinUnlock .envRun
  | halt            => .schedHalt
  | monitor | panic => .monitor
  | fault _         => .fault

-- The variables the processors share. `locks` and `unlocks` count how often a processor has taken the lock and given
-- it up; nobody reads them.
structure Smp (Cpu σ : Type) where
  lock     : Spinlock Cpu := {}
  status   : Cpu → CpuStatus
  panicstr : Bool := false
  kern     : σ
  pc       : Cpu → Pc Cpu
  locks    : Cpu → Nat := fun _ => 0
  unlocks  : Cpu → Nat := fun _ => 0

namespace Smp

variable {Cpu σ : Type} [DecidableEq Cpu]

def goto (S : Smp Cpu σ) (c : Cpu) (p : Pc Cpu) : Smp Cpu σ :=
  { S with pc := update S.pc c p }

def setStatus (S : Smp Cpu σ) (c : Cpu) (st : CpuStatus) : Smp Cpu σ :=
  { S with status := update S.status c st }

-- One step of some processor. `runs c k s x s'` says that the functions which the processor `c` calls under the lock
-- take the kernel from `s` to `s'` and leave it by `x`.
inductive Step (runs : Cpu → Section → σ → Exit → σ → Prop) (S : Smp Cpu σ) : Smp Cpu σ → Prop
  | startAp {c d : Cpu} {todo : List Cpu} (h : S.pc c = .bootAps (d :: todo)) :
    Step runs S ((S.goto d .mpMain).goto c (.waitAp d todo))
  | waitAp {c d : Cpu} {todo : List Cpu} (h : S.pc c = .waitAp d todo) (hs : S.status d = .started) :
    Step runs S (S.goto c (.bootAps todo))
  | bootAps {c : Cpu} (h : S.pc c = .bootAps []) : Step runs S (S.goto c (.locked .boot))
  | mpMain {c : Cpu} (h : S.pc c = .mpMain) : Step runs S ((S.setStatus c .started).goto c (.spinLock .mpMain))
  | spinLock {c : Cpu} {site : LockSite Cpu} (h : S.pc c = .spinLock site) :
    Step runs S (S.goto c (if S.lock.holding c then .lockPanic else .spin site))
  | spin {c : Cpu} {site : LockSite Cpu} (h : S.pc c = .spin site) (hl : S.lock.locked = true) : Step runs S S
  | acquire {c : Cpu} {site : LockSite Cpu} (h : S.pc c = .spin site) (hl : S.lock.locked = false) :
    Step runs S ({ S with
      lock := { S.lock with locked := true }
      locks := update S.locks c (S.locks c + 1) }.goto c (.record site))
  | record {c : Cpu} {site : LockSite Cpu} (h : S.pc c = .record site) :
    Step runs S ({ S with lock := { S.lock with cpu := some c } }.goto c site.next)
  | leave {c : Cpu} {k : Section} {x : Exit} {s : σ} (h : S.pc c = .locked k) (hx : runs c k S.kern x s) :
    Step runs S ({ S with kern := s, panicstr := S.panicstr || x == Exit.panic }.goto c x.next)
  | schedHalt {c : Cpu} (h : S.pc c = .schedHalt) :
    Step runs S ((S.setStatus c .halted).goto c (.spinUnlock .schedHalt))
  | spinUnlock {c : Cpu} {site : UnlockSite} (h : S.pc c = .spinUnlock site) :
    Step runs S (S.goto c (if S.lock.holding c then .forget site else .lockPanic))
  | forget {c : Cpu} {site : UnlockSite} (h : S.pc c = .forget site) :
    Step runs S ({ S with lock := { S.lock with cpu := none } }.goto c (.release site))
  | release {c : Cpu} {site : UnlockSite} (h : S.pc c = .release site) :
    Step runs S ({ S with
      lock := { S.lock with locked := false }
      unlocks := update S.unlocks c (S.unlocks c + 1) }.goto c site.next)
  -- A system call, an exception or an interrupt in user mode.
  | trapUser {c : Cpu} (h : S.pc c = .user) : Step runs S (S.goto c (.trap true))
  | interrupt {c : Cpu} (h : S.pc c = .hlt) : Step runs S (S.goto c (.trap false))
  | dead {c : Cpu} {user : Bool} (h : S.pc c = .trap user) (hp : S.panicstr = true) : Step runs S (S.goto c .dead)
  | trap {c : Cpu} {user : Bool} (h : S.pc c = .trap user) (hp : S.panicstr = false) :
    Step runs S ((S.setStatus c .started).goto c
      (if S.status c = .halted then .spinLock (.woken user) else .dispatch user))
  | dispatch {c : Cpu} {user : Bool} (h : S.pc c = .dispatch user) :
    Step runs S (S.goto c (if user then .spinLock .trap else .locked (.trap user)))

-- The processor executes what is between `lock_kernel` and `unlock_kernel`.
def Inside (S : Smp Cpu σ) (c : Cpu) : Prop :=
  S.unlocks c < S.locks c

-- The boot processor is at `lock_kernel` in `i386_init`, and will start the others.
structure Boots (S : Smp Cpu σ) (bsp : Cpu) (aps : List Cpu) : Prop where
  lock    : S.lock = {}
  pc      : S.pc bsp = .spinLock (.i386Init aps)
  off     : ∀ c, c ≠ bsp → S.pc c = .off
  status  : ∀ c, S.status c = if c = bsp then .started else .unused
  locks   : ∀ c, S.locks c = 0
  unlocks : ∀ c, S.unlocks c = 0
  nodup   : aps.Nodup
  other   : bsp ∉ aps

end Smp

-- What the kernel executes under the lock.
def kernelRuns (c : CpuIx) : Section → Kernel → Exit → Kernel → Prop
  | .boot,      s, x, s' => (schedYield c).run s = .error x s'
  | .trap user, s, x, s' =>
    ∃ tf faultVa, (tf.cs &&& 3#16 = 3#16 ↔ user = true) ∧ (trap c tf faultVa).run s = .error x s'

end Jos
