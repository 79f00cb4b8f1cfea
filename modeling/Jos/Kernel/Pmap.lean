import Jos.Machine.Paging

-- The page allocator and the page tables (kern/pmap.c).

namespace Jos

abbrev PtePtr := Ppn × Ptx

def enomem : Word := -4#32
def efault : Word := -6#32

namespace Kernel

variable (s : Kernel)

-- Takes the head of the free list.
def popFree (pp : Ppn) : Kernel :=
  { s.setPage pp fun i => { i with link := none } with pageFreeList := (s.pages pp).link }

def pushFree (pp : Ppn) : Kernel :=
  { s.setPage pp fun i => { i with link := s.pageFreeList } with pageFreeList := some pp }

def incRef (pp : Ppn) : Kernel :=
  s.setPage pp fun i => { i with ref := i.ref + 1#16 }

def decRef (pp : Ppn) : Kernel :=
  s.setPage pp fun i => { i with ref := i.ref - 1#16 }

def pte (p : PtePtr) : Word :=
  s.mem p.1 p.2

end Kernel

-- `KADDR`: the physical page which a kernel address stands for.
def kaddr (pa : Word) : K Ppn := do
  if (← get).npages ≤ (pgnum pa).toNat then
    throw .panic
  else
    return pgnum pa

def pa2page (pa : Word) : K Ppn := do
  if (← get).npages ≤ (pgnum pa).toNat then
    throw .panic
  else
    return pgnum pa

def pageAlloc (zero : Bool) : K (Option Ppn) := do
  match (← get).pageFreeList with
  | none => return none
  | some result =>
    modify (·.popFree result)
    if zero then
      let page ← kaddr (page2pa result)
      modify (·.zeroPage page)
    return some result

def pageFree (pp : Ppn) : K Unit := do
  let info := (← get).pages pp
  if info.link ≠ none then
    throw .panic
  else if info.ref ≠ 0#16 then
    throw .panic
  else
    modify (·.pushFree pp)

def pageDecref (pp : Ppn) : K Unit := do
  modify (·.decRef pp)
  if ((← get).pages pp).ref = 0#16 then
    pageFree pp

def pgdirWalk (pgdir : Ppn) (va : Word) (create : Bool) : K (Option PtePtr) := do
  if has ((← get).mem pgdir (pdx va)) pteP then
    let pgtable ← kaddr ((← get).mem pgdir (pdx va))
    return some (pgtable, ptx va)
  else if create then
    match ← pageAlloc true with
    | none => return none
    | some pp =>
      modify (·.incRef pp)
      modify (·.setMem pgdir (pdx va) (page2pa pp ||| pteP ||| pteU ||| pteW))
      let pgtable ← kaddr ((← get).mem pgdir (pdx va))
      return some (pgtable, ptx va)
  else
    return none

-- Stores the entry's address along with the page, as callers that pass `pte_store` expect.
def pageLookup (pgdir : Ppn) (va : Word) : K (Option (Ppn × PtePtr)) := do
  match ← pgdirWalk pgdir va false with
  | none => return none
  | some p =>
    if has ((← get).pte p) pteP then
      let pp ← pa2page ((← get).pte p)
      return some (pp, p)
    else
      return none

-- Flushes the entry for `va` only if the current address space is the one being modified.
def Kernel.invalidate (s : Kernel) (c : CpuIx) (pgdir : Ppn) (va : Word) : Kernel :=
  let current := match s.cur c with
    | none   => true
    | some e => (s.envs e).pgdir == some pgdir
  s.setCpu c fun i => { i with tlb := if current then i.tlb.filter (·.1 ≠ pgnum va) else i.tlb }

def tlbInvalidate (c : CpuIx) (pgdir : Ppn) (va : Word) : K Unit :=
  modify (·.invalidate c pgdir va)

def pageRemove (c : CpuIx) (pgdir : Ppn) (va : Word) : K Unit := do
  match ← pageLookup pgdir va with
  | none => return
  | some (pp, _) =>
    pageDecref pp
    match ← pgdirWalk pgdir va false with
    | none => pure ()
    | some x => modify (·.setMem x.1 x.2 0#32)
    tlbInvalidate c pgdir va

def pageInsert (c : CpuIx) (pgdir pp : Ppn) (va perm : Word) : K Word := do
  match ← pgdirWalk pgdir va true with
  | none => return enomem
  | some p =>
    pageRemove c pgdir va
    -- Removing `pp` itself from `va` may have freed it.
    let pp ← if (← get).pageFreeList = some pp then (·.getD pp) <$> pageAlloc false else pure pp
    modify (·.setMem p.1 p.2 (page2pa pp ||| perm ||| pteP))
    modify (·.incRef pp)
    return 0#32

-- Whether the entry for the page at `lower` passes the test of `user_mem_check`.
def entryAllows (pgdir : Ppn) (lower perm : Word) : K Bool := do
  match ← pgdirWalk pgdir lower false with
  | none   => return false
  | some p => return has ((← get).pte p) (perm ||| pteP)

-- The loop of `user_mem_check` from `lower` on. It wraps around the address space at most once,
-- which bounds the number of its iterations.
def userMemCheckLoop (pgdir : Ppn) (va upper perm : Word) : Nat → Word → K Bool
  | 0, _ => return true
  | n + 1, lower => do
    if ← entryAllows pgdir lower perm then
      if lower + pgsize < upper then
        userMemCheckLoop pgdir va upper perm n (lower + pgsize)
      else
        return true
    else
      modify fun s => { s with userMemCheckAddr := if va < lower then lower else va }
      return false

def userMemCheck (pgdir : Ppn) (va len perm : Word) : K Word := do
  let lower := roundDown va pgsize
  let upper := roundDown (va + len) pgsize
  if ← userMemCheckLoop pgdir va upper perm (2 ^ 20 + 1) lower then
    if va + len ≥ ulim then
      modify fun s => { s with userMemCheckAddr := if va < ulim then ulim else va }
      return efault
    else
      return 0#32
  else
    return efault

end Jos
