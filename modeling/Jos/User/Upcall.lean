import Jos.Kernel.Trap
import Jos.Library.Bytes

-- The entry point for page faults in user mode (lib/pfentry.S), as the program sees it that has faulted: its registers
-- and its memory, in which nothing is known of pages.

open Function Bytes

namespace Jos

inductive Reg
  | edi
  | esi
  | ebp
  | esp
  | ebx
  | edx
  | ecx
  | eax
  deriving DecidableEq

structure UserCpu where
  regs   : Reg → Word
  eip    : Word
  eflags : Word
  mem    : Mem

inductive Operand
  | reg (r : Reg)
  | mem (disp : Word) (base : Reg)
  | abs (addr : Word)

-- The instructions `_pgfault_upcall` is made of.
inductive Instr
  | pushl (src : Operand)
  | movl (src dst : Operand)
  | call (dst : Operand)
  | addl (n : Word) (r : Reg)
  | subl (n : Word) (r : Reg)
  | popal
  | popfl
  | popl (r : Reg)
  | ret

-- The flags which a user program cannot change: `FL_IF`, `FL_IOPL_MASK`, `FL_RF`, `FL_VM`, `FL_VIF` and `FL_VIP`.
def flPrivileged : Word := 0x1B3200#32

-- The flags after an instruction that has computed `flags`.
def setFlags (old flags : Word) : Word :=
  (old &&& flPrivileged) ||| (flags &&& ~~~flPrivileged)

-- Where the upcall is found, where its call of the handler returns to, the address of `_pgfault_handler`, and the flags
-- that the addition and the subtraction of two numbers leave.
structure Upcall where
  entry   : Word
  back    : Word
  handler : Word
  add     : Word → Word → Word
  sub     : Word → Word → Word

namespace UserCpu

variable (u : UserCpu)

def set (r : Reg) (w : Word) : UserCpu :=
  { u with regs := update u.regs r w }

def push (w : Word) : UserCpu :=
  let esp := u.regs .esp - 4#32
  { u.set .esp esp with mem := store u.mem esp w }

-- The word on top of the stack, and the state in which it has been popped.
def top : Word :=
  load u.mem (u.regs .esp)

def pop : UserCpu :=
  u.set .esp (u.regs .esp + 4#32)

-- Pops a word into a register.
def popReg (r : Reg) : UserCpu :=
  u.pop.set r u.top

end UserCpu

def Operand.read (u : UserCpu) : Operand → Word
  | reg r => u.regs r
  | mem disp base => load u.mem (u.regs base + disp)
  | abs addr => load u.mem addr

def Operand.write (u : UserCpu) (w : Word) : Operand → UserCpu
  | reg r => u.set r w
  | mem disp base => { u with mem := store u.mem (u.regs base + disp) w }
  | abs addr => { u with mem := store u.mem addr w }

namespace Upcall

variable (k : Upcall)

def exec (u : UserCpu) : Instr → UserCpu
  | .pushl src => u.push (src.read u)
  | .movl src dst => dst.write u (src.read u)
  | .call dst => { u.push k.back with eip := dst.read u }
  | .addl n r => { u.set r (u.regs r + n) with eflags := setFlags u.eflags (k.add (u.regs r) n) }
  | .subl n r => { u.set r (u.regs r - n) with eflags := setFlags u.eflags (k.sub (u.regs r) n) }
  | .popal => ((((((((u.popReg .edi).popReg .esi).popReg .ebp).pop).popReg .ebx).popReg .edx).popReg .ecx).popReg .eax)
  | .popfl => { u.pop with eflags := setFlags u.eflags u.top }
  | .popl r => u.popReg r
  | .ret => { u.pop with eip := u.top }

-- `_pgfault_upcall`, up to the call of the handler.
def callHandler : List Instr :=
  [.pushl (.reg .esp), .movl (.abs k.handler) (.reg .eax), .call (.reg .eax)]

-- `_pgfault_upcall`, after the handler has returned.
def returnToTrap : List Instr :=
  [.addl 4#32 .esp, .movl (.mem 48#32 .esp) (.reg .eax), .subl 4#32 .eax, .movl (.mem 40#32 .esp) (.reg .ebx),
    .movl (.reg .ebx) (.mem 0#32 .eax), .movl (.reg .eax) (.mem 48#32 .esp), .addl 8#32 .esp, .popal, .addl 4#32 .esp,
    .popfl, .popl .esp, .ret]

end Upcall

-- The trap frame of a page fault. `oesp` is what `pushal` stores for `%esp`.
def UserCpu.trapframe (u : UserCpu) (oesp err : Word) : Trapframe where
  regs :=
    { edi := u.regs .edi, esi := u.regs .esi, ebp := u.regs .ebp, oesp, ebx := u.regs .ebx, edx := u.regs .edx,
      ecx := u.regs .ecx, eax := u.regs .eax }
  trapno := tPgflt
  err := err
  eip := u.eip
  eflags := u.eflags
  esp := u.regs .esp

-- What `page_fault_handler` makes of the program.
def Upcall.pageFault (k : Upcall) (oesp err faultVa : Word) (u : UserCpu) : UserCpu :=
  let esp := upcallEsp (u.regs .esp)
  { u.set .esp esp with
    eip := k.entry
    mem := storeAll u.mem esp (utrapframe (u.trapframe oesp err) faultVa) }

-- The program is on its exception stack.
def OnUxstack (esp : Word) : Prop :=
  uxstacktop - pgsize ≤ esp ∧ esp < uxstacktop

instance : DecidablePred OnUxstack :=
  fun _ => inferInstanceAs (Decidable (_ ∧ _))

-- The exception stack has room for the frame, the argument of the handler and its return address. If the program has
-- not been on this stack, the word below its stack pointer does not lie there.
structure Room (esp : Word) : Prop where
  nested : OnUxstack esp → uxstacktop - pgsize + 64#32 ≤ esp
  plain  : ¬OnUxstack esp → ∀ x, x - (esp - 4#32) < 4#32 → ¬OnUxstack x

-- A byte of the `UTrapframe` for a fault at the stack pointer `esp`.
def InFrame (esp x : Word) : Prop :=
  x - upcallEsp esp < 52#32

-- A byte which the delivery of a fault at the stack pointer `esp` may change: the word below `esp`, and the part of the
-- exception stack that is not in use.
def Scratch (esp x : Word) : Prop :=
  if OnUxstack esp then uxstacktop - pgsize ≤ x ∧ x < esp else OnUxstack x ∨ x - (esp - 4#32) < 4#32

-- The code of the handler moves the program from one state to another; `W` are the bytes it writes to, and `Faults` are
-- the faults it takes. It stays on the exception stack, below the stack pointer with which it has been entered.
inductive HandlerRuns (Faults : UserCpu → UserCpu → Set Word → Prop) (esp : Word) : UserCpu → UserCpu → Set Word → Prop
  | done {u} : HandlerRuns Faults esp u u ∅
  | step {u u' u'' W W'} : (∀ x, x ∉ W → u'.mem x = u.mem x) → u'.eflags &&& flPrivileged = u.eflags &&& flPrivileged →
    HandlerRuns Faults esp u' u'' W' → HandlerRuns Faults esp u u'' (W ∪ W')
  | fault {u u' u'' W W'} : OnUxstack (u.regs .esp) → u.regs .esp ≤ esp → Faults u u' W →
    HandlerRuns Faults esp u' u'' W' → HandlerRuns Faults esp u u'' (W ∪ W')

namespace Upcall

variable (k : Upcall)

def run (is : List Instr) (u : UserCpu) : UserCpu :=
  is.foldl k.exec u

-- The state in which the handler is entered.
def entered (oesp err faultVa : Word) (u : UserCpu) : UserCpu :=
  k.run k.callHandler (k.pageFault oesp err faultVa u)

-- The program takes a fault in the state `u`, and goes on in the state `u'`. The handler returns, does not write to the
-- frame it is given, and takes faults that are nested to a depth less than `n`; `W` are the bytes it writes to.
def Faults : Nat → UserCpu → UserCpu → Set Word → Prop
  | 0, _, _, _ => False
  | n + 1, u, u', W => ∃ oesp err faultVa v, Room (u.regs .esp) ∧
    HandlerRuns (Faults n) ((k.entered oesp err faultVa u).regs .esp) (k.entered oesp err faultVa u) v W ∧
    v.regs .esp = (k.entered oesp err faultVa u).regs .esp + 4#32 ∧ v.eip = k.back ∧
    (∀ x, InFrame (u.regs .esp) x → x ∉ W) ∧ u' = k.run returnToTrap v

end Upcall

end Jos
