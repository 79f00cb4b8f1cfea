import Jos.Kernel.Trap

-- The machine with all of its processors (kern/init.c, kern/spinlock.c). The big kernel lock serialises the
-- kernel: between two events of a run, each processor is outside of the kernel, or it holds the lock and
-- will not give it up.

open Function

namespace Jos

inductive Mode
  -- The processor waits for the lock, at the end of `i386_init` or of `mp_main`, to call `sched_yield`.
  | boot
  | user
  -- It waits for an interrupt in `sched_halt`.
  | halted
  -- It sits in the kernel monitor, or has panicked, with the lock in its hands.
  | stopped
  -- The kernel has taken a page fault.
  | fault (va : Word)
  deriving DecidableEq

def Mode.holdsLock : Mode → Bool
  | stopped | fault _ => true
  | _                 => false

def Exit.mode : Exit → Mode
  | user            => .user
  | halt            => .halted
  | monitor | panic => .stopped
  | fault va        => .fault va

structure System where
  kern : Kernel
  mode : CpuIx → Mode

inductive Action
  | start (c : CpuIx)
  -- A system call, an exception or an interrupt in user mode. The registers are whatever the program has
  -- left in them.
  | trap (c : CpuIx) (tf : Trapframe) (faultVa : Word)
  -- An interrupt of a halted processor.
  | wake (c : CpuIx) (tf : Trapframe)
  -- The page fault of the kernel itself.
  | refault (c : CpuIx) (tf : Trapframe)
  -- A program stores a byte.
  | store (c : CpuIx) (va : Word) (b : BitVec 8)

namespace System

variable (S : System)

-- Some other processor keeps the lock.
def locked (c : CpuIx) : Bool :=
  decide (∃ c', c' ≠ c ∧ (S.mode c').holdsLock = true)

-- Runs `m` in the kernel on the processor `c`. None of the functions this is used with returns.
def enter (c : CpuIx) (m : K Unit) : System :=
  match m.run S.kern with
  | .ok _ s    => { kern := s, mode := update S.mode c .stopped }
  | .error x s => { kern := s, mode := update S.mode c x.mode }

def step : Action → Option System
  | .start c =>
    if S.mode c = .boot ∧ !S.locked c then some (S.enter c (schedYield c)) else none
  | .trap c tf faultVa =>
    if S.mode c = .user ∧ tf.cs &&& 3#16 = 3#16 ∧ !S.locked c then
      some (S.enter c (Jos.trap c tf faultVa))
    else
      none
  | .wake c tf =>
    if S.mode c = .halted ∧ tf.cs = gdKt ∧ 32#32 ≤ tf.trapno ∧ tf.trapno ≠ tSyscall ∧ !S.locked c then
      some (S.enter c (Jos.trap c tf 0#32))
    else
      none
  | .refault c tf =>
    match S.mode c with
    | .fault va =>
      if tf.cs = gdKt ∧ tf.trapno = tPgflt ∧ !S.locked c then some (S.enter c (Jos.trap c tf va)) else none
    | _ => none
  | .store c va b =>
    if S.mode c = .user ∧ va < utop then
      (S.kern.translate (S.kern.cpus c).cr3 va ⟨true, true⟩).map fun p =>
        { S with kern := S.kern.setByteAt p va b }
    else
      none

-- The state after a sequence of events.
def run : System → List Action → Option System
  | S, []      => some S
  | S, x :: xs => (S.step x).bind (run · xs)

end System

end Jos
