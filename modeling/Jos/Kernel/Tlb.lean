import Jos.Kernel.System

-- The translations that the processors cache. A processor may cache what it finds in the page tables at any
-- time, and it uses what it has cached until it loads `%cr3`, or until `invlpg` drops it.

namespace Jos

namespace Kernel

variable (s : Kernel)

-- What the processor finds for the page of `va`: the entry of the page table, with the user bit and the write
-- bit only where the page directory has them as well.
def walk (pgdir : Ppn) (va : Word) : Option Word :=
  let pde := s.mem pgdir (pdx va)
  let pte := s.entry pgdir (pdx va) (ptx va)
  if has pte pteP then some (pte &&& (pde ||| ~~~(pteU ||| pteW))) else none

-- The processor `c` caches the translation of the page of `va`.
def fill (c : CpuIx) (va : Word) : Kernel :=
  match s.walk (s.cpus c).cr3 va with
  | none   => s
  | some w => s.setCpu c fun i => { i with tlb := (pgnum va, w) :: i.tlb }

end Kernel

-- The page which an access reaches by a cached translation.
def reach (w : Word) (a : Access) : Option Ppn :=
  if (a.user → has w pteU) ∧ (a.write → has w pteW) then entryPage w else none

inductive TlbAction
  -- An event that enters the kernel.
  | kernel (y : Action)
  | fill (c : CpuIx) (va : Word)
  -- A program stores a byte by way of the cached translation `w`.
  | store (c : CpuIx) (va w : Word) (b : BitVec 8)

namespace System

variable (S : System)

def stepTlb : TlbAction → Option System
  | .kernel (.store _ _ _) => none
  | .kernel y              => S.step y
  | .fill c va             => some { S with kern := S.kern.fill c va }
  | .store c va w b        =>
    if S.mode c = .user ∧ va < utop ∧ (pgnum va, w) ∈ (S.kern.cpus c).tlb then
      (reach w ⟨true, true⟩).map fun p => { S with kern := S.kern.setByteAt p va b }
    else
      none

def runTlb : System → List TlbAction → Option System
  | S, []      => some S
  | S, x :: xs => (S.stepTlb x).bind (runTlb · xs)

end System

end Jos
