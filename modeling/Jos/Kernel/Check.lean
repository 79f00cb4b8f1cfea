import Jos.Kernel.Pmap

-- The check of the list of free pages when the kernel starts (`check_page_free_list` of kern/pmap.c).

open Function

namespace Jos

-- Where a `struct PageInfo *` is stored: in a local variable, or in the link of a page.
inductive Slot
  | pp1
  | pp2
  | link (pp : Ppn)
  deriving DecidableEq

-- The local variables of the loop that moves the pages with low addresses to the front.
structure Sorting where
  pp1 : Option Ppn
  pp2 : Option Ppn
  tp  : Bool → Slot

-- `PDX(page2pa(pp)) >= pdx_limit`.
def pagetype (pdxLimit : Nat) (pp : Ppn) : Bool :=
  pdxLimit ≤ (pdx (page2pa pp)).val

namespace Kernel

variable (s : Kernel)

def setLink (pp : Ppn) (link : Option Ppn) : Kernel :=
  s.setPage pp fun i => { i with link }

-- `memset(page2kva(pp), 0x97, 128)`.
def poison (page : Ppn) : Kernel :=
  { s with mem := update s.mem page fun i => if i.val < 32 then 0x97979797#32 else s.mem page i }

end Kernel

def storeSlot (x : Sorting) (y : Slot) (v : Option Ppn) : K Sorting :=
  match y with
  | .pp1 => return { x with pp1 := v }
  | .pp2 => return { x with pp2 := v }
  | .link pp => do
    modify (·.setLink pp v)
    return x

-- There are 2^20 pages at most.
def sortLoop (pdxLimit : Nat) : Nat → Option Ppn → Sorting → K Sorting
  | 0, _, x | _, none, x => return x
  | n + 1, some pp, x => do
    let x ← storeSlot x (x.tp (pagetype pdxLimit pp)) (some pp)
    sortLoop pdxLimit n ((← get).pages pp).link { x with tp := update x.tp (pagetype pdxLimit pp) (.link pp) }

-- `pp1` and `pp2` are what the local variables contain before anything is stored in them.
def sortFreeList (pdxLimit : Nat) (pp1 pp2 : Option Ppn) : K Unit := do
  let tp (pagetype : Bool) : Slot := if pagetype then .pp2 else .pp1
  let x ← sortLoop pdxLimit (2 ^ 20) (← get).pageFreeList { pp1, pp2, tp }
  let x ← storeSlot x (x.tp true) none
  let x ← storeSlot x (x.tp false) x.pp2
  modify fun s => { s with pageFreeList := x.pp1 }

def poisonLoop (pdxLimit : Nat) : Nat → Option Ppn → K Unit
  | 0, _ | _, none => return
  | n + 1, some pp => do
    if !pagetype pdxLimit pp then
      let page ← kaddr (page2pa pp)
      modify (·.poison page)
    poisonLoop pdxLimit n ((← get).pages pp).link

def assert (b : Bool) : K Unit :=
  if b then return else throw .panic

def checkPage (firstFreePage : Word) (pp : Ppn) : K Unit := do
  let s ← get
  assert (pp.toNat < s.npages)
  assert (page2pa pp ≠ 0#32)
  assert (page2pa pp ≠ iophysmem)
  assert (page2pa pp ≠ extphysmem - pgsize)
  assert (page2pa pp ≠ extphysmem)
  if page2pa pp ≥ extphysmem then
    let page ← kaddr (page2pa pp)
    assert (page2pa page + kernbase ≥ firstFreePage)
  assert (page2pa pp ≠ mpentryPaddr)

-- The numbers of pages below and above `EXTPHYSMEM`.
def checkLoop (firstFreePage : Word) : Nat → Option Ppn → Nat × Nat → K (Nat × Nat)
  | 0, _, n | _, none, n => return n
  | k + 1, some pp, n => do
    checkPage firstFreePage pp
    checkLoop firstFreePage k ((← get).pages pp).link
      (if page2pa pp < extphysmem then (n.1 + 1, n.2) else (n.1, n.2 + 1))

-- What the function checks, and what it writes into the pages that should not be in use. `firstFreePage` is what
-- `boot_alloc(0)` returns.
def checkPages (pdxLimit : Nat) (firstFreePage : Word) : K Unit := do
  poisonLoop pdxLimit (2 ^ 20) (← get).pageFreeList
  let n ← checkLoop firstFreePage (2 ^ 20) (← get).pageFreeList (0, 0)
  assert (n.1 > 0)
  assert (n.2 > 0)

def checkPageFreeList (firstFreePage : Word) (pp1 pp2 : Option Ppn) (onlyLowMemory : Bool) : K Unit := do
  let pdxLimit := if onlyLowMemory then 1 else npdentries
  if (← get).pageFreeList = none then
    throw .panic
  else
    if onlyLowMemory then
      sortFreeList pdxLimit pp1 pp2
    checkPages pdxLimit firstFreePage

end Jos
