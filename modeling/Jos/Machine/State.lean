import Jos.Machine.Mmu
import Mathlib.Logic.Function.Basic

-- The data the kernel keeps: `struct PageInfo`, `struct Env`, `struct CpuInfo`, the console's input
-- ring, and the physical memory which holds the page tables and the pages of the environments.

open Function

namespace Jos

def nenv : Nat := 1024
def ncpu : Nat := 8

-- A pointer into the array `envs`.
abbrev EnvIx := Fin 1024

-- A pointer into the array `cpus`.
abbrev CpuIx := Fin 8

abbrev EnvId := Word

-- The numerals among these indices.
instance neZeroEnvs : NeZero 1024 := ⟨by decide⟩
instance neZeroCpus : NeZero 8 := ⟨by decide⟩
instance neZeroConsbuf : NeZero 512 := ⟨by decide⟩

structure PageInfo where
  link : Option Ppn
  ref  : BitVec 16
  deriving DecidableEq

inductive EnvStatus
  | free
  | dying
  | runnable
  | running
  | notRunnable
  deriving DecidableEq, Repr

inductive EnvType
  | user
  deriving DecidableEq, Repr

structure PushRegs where
  edi  : Word := 0
  esi  : Word := 0
  ebp  : Word := 0
  oesp : Word := 0
  ebx  : Word := 0
  edx  : Word := 0
  ecx  : Word := 0
  eax  : Word := 0
  deriving DecidableEq

structure Trapframe where
  regs   : PushRegs := {}
  es     : BitVec 16 := 0
  ds     : BitVec 16 := 0
  trapno : Word := 0
  err    : Word := 0
  eip    : Word := 0
  cs     : BitVec 16 := 0
  eflags : Word := 0
  esp    : Word := 0
  ss     : BitVec 16 := 0
  deriving DecidableEq

-- The page directory of an environment is known by its physical page; `none` is the null pointer.
structure Env where
  tf            : Trapframe := {}
  link          : Option EnvIx := none
  id            : EnvId := 0
  parentId      : EnvId := 0
  type          : EnvType := .user
  status        : EnvStatus := .free
  runs          : Word := 0
  cpunum        : Nat := 0
  pgdir         : Option Ppn := none
  pgfaultUpcall : Word := 0
  ipcRecving    : Bool := false
  ipcDstva      : Word := 0
  ipcValue      : Word := 0
  ipcFrom       : EnvId := 0
  ipcPerm       : Word := 0
  deriving DecidableEq

inductive CpuStatus
  | unused
  | started
  | halted
  deriving DecidableEq, Repr

-- Besides the fields of `struct CpuInfo` this holds the registers of the processor which the kernel
-- manipulates: the page directory loaded in `%cr3`, and the translations cached since it was loaded.
structure CpuInfo where
  status : CpuStatus := .unused
  env    : Option EnvIx := none
  cr3    : Ppn := 0
  tlb    : List (Ppn × Word) := []

def consbufsize : Nat := 512

-- The console input ring, and the characters its two devices hold ready.
structure Console where
  buf    : Fin 512 → BitVec 8 := fun _ => 0
  rpos   : Fin 512 := 0
  wpos   : Fin 512 := 0
  serial : List (BitVec 8) := []
  kbd    : List (BitVec 8) := []

structure Kernel where
  npages           : Nat
  pages            : Ppn → PageInfo
  pageFreeList     : Option Ppn
  kernPgdir        : Ppn
  mem              : Ppn → Ptx → Word
  envs             : EnvIx → Env
  envFreeList      : Option EnvIx
  cpus             : CpuIx → CpuInfo
  userMemCheckAddr : Word
  cons             : Console

-- The ways in which a kernel function does not return to its caller.
inductive Exit
  -- `env_pop_tf` has returned to user mode.
  | user
  -- `sched_halt` waits for an interrupt.
  | halt
  -- `sched_halt` sits in the kernel monitor.
  | monitor
  | panic
  -- The kernel itself has taken a page fault at the given address.
  | fault (va : Word)
  deriving DecidableEq

abbrev K := EStateM Exit Kernel

namespace Kernel

variable (s : Kernel)

def setPage (p : Ppn) (f : PageInfo → PageInfo) : Kernel :=
  { s with pages := update s.pages p (f (s.pages p)) }

def setMem (p : Ppn) (i : Ptx) (w : Word) : Kernel :=
  { s with mem := update s.mem p (update (s.mem p) i w) }

def zeroPage (p : Ppn) : Kernel :=
  { s with mem := update s.mem p fun _ => 0#32 }

def setEnv (e : EnvIx) (f : Env → Env) : Kernel :=
  { s with envs := update s.envs e (f (s.envs e)) }

def setCpu (c : CpuIx) (f : CpuInfo → CpuInfo) : Kernel :=
  { s with cpus := update s.cpus c (f (s.cpus c)) }

-- `curenv`.
def cur (c : CpuIx) : Option EnvIx :=
  (s.cpus c).env

end Kernel

end Jos
