import Jos.Kernel.Syscall

-- Trap handling (kern/trap.c).

namespace Jos

def tBrkpt : Word := 3#32
def tPgflt : Word := 14#32
def tSyscall : Word := 48#32
def irqTimer : Word := 32#32
def irqSpurious : Word := 39#32

-- A pointer to a trap frame: the one saved in an environment, or the one on the kernel stack.
inductive TfPtr
  | env (e : EnvIx)
  | stack

-- Writes through the pointer. Nobody reads the frame on the kernel stack again.
def TfPtr.write (f : Trapframe → Trapframe) : TfPtr → K Unit
  | env e => modify (·.setEnv e fun v => { v with tf := f v.tf })
  | stack => return

-- A store of four bytes, which faults as a whole.
def storeWord (c : CpuIx) (va w : Word) : K Unit := do
  let s ← get
  let writable (a : Word) := (s.translate (s.cpus c).cr3 a ⟨false, true⟩).isSome
  if writable va && writable (va + 3#32) then
    [0, 1, 2, 3].forM fun k => storeByte c (va + BitVec.ofNat 32 k) (getByte w (8 * k))
  else
    throw (.fault va)

-- The fields of the `UTrapframe` with their offsets, in the order in which they are stored.
def utrapframe (tf : Trapframe) (faultVa : Word) : List (Word × Word) :=
  [(0, faultVa), (4, tf.err),
    (8, tf.regs.edi), (12, tf.regs.esi), (16, tf.regs.ebp), (20, tf.regs.oesp),
    (24, tf.regs.ebx), (28, tf.regs.edx), (32, tf.regs.ecx), (36, tf.regs.eax),
    (48, tf.esp), (40, tf.eip), (44, tf.eflags)]

-- The stack pointer with which the upcall is entered.
def upcallEsp (esp : Word) : Word :=
  (if esp < uxstacktop ∧ esp ≥ uxstacktop - pgsize then esp - 4#32 else uxstacktop) - 52#32

def pageFaultHandler (c : CpuIx) (ptr : TfPtr) (tf : Trapframe) (faultVa : Word) : K Unit := do
  let cur ← curenv c
  if ((← get).envs cur).pgfaultUpcall = 0#32 then
    envDestroy c cur
  let esp := upcallEsp tf.esp
  ptr.write fun t => { t with esp }
  userMemAssert c cur esp (uxstacktop - esp) (pteW ||| pteU)
  (utrapframe tf faultVa).forM fun (off, w) => storeWord c (esp + off) w
  let upcall := ((← get).envs cur).pgfaultUpcall
  ptr.write fun t => { t with eip := upcall }
  envRun c cur

def trapDispatch (c : CpuIx) (ptr : TfPtr) (tf : Trapframe) (faultVa : Word) : K Unit := do
  if tf.trapno = irqSpurious then
    return
  else if tf.trapno = tBrkpt then
    -- `monitor(tf)`
    return
  else if tf.trapno = tPgflt then
    pageFaultHandler c ptr tf faultVa
  else if tf.trapno = tSyscall then
    let r := tf.regs
    let ret ← syscall c r.eax r.edx r.ecx r.ebx r.edi r.esi
    ptr.write fun t => { t with regs.eax := ret }
  else if tf.trapno = irqTimer then
    schedYield c
  else if tf.cs = gdKt then
    throw .panic
  else
    envDestroy c (← curenv c)

-- The end of `trap`.
def trapReturn (c : CpuIx) : K Unit := do
  let s ← get
  match s.cur c with
  | none => schedYield c
  | some e => if (s.envs e).status = .running then envRun c e else schedYield c

-- `faultVa` is the content of `%cr2`.
def trap (c : CpuIx) (tf : Trapframe) (faultVa : Word) : K Unit := do
  modify (·.setCpu c fun i => { i with status := .started })
  if tf.cs &&& 3#16 = 3#16 then
    match (← get).cur c with
    -- `assert(curenv)`
    | none => throw .panic
    | some cur =>
      if ((← get).envs cur).status = .dying then
        envFree c cur
        modify (·.setCpu c fun i => { i with env := none })
        schedYield c
      else
        modify (·.setEnv cur fun v => { v with tf })
        trapDispatch c (.env cur) tf faultVa
        trapReturn c
  else
    trapDispatch c .stack tf faultVa
    trapReturn c

end Jos
