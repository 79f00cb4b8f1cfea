import Jos.Kernel.Env

-- Setting up the allocator and the kernel's address space (`mem_init` of kern/pmap.c). The functions
-- with which `mem_init` tests itself are left out.

open Function

namespace Jos

-- What the kernel finds when it starts: the amount of memory, and where the linker has put the end of
-- the kernel and its stacks.
structure BootInfo where
  npages        : Nat
  npagesBasemem : Nat
  -- The page number of `ROUNDUP(end, PGSIZE)`.
  kernEnd       : Nat
  bootstack     : Word
  percpuKstacks : Fin 8 → Word

def sizeofPageInfo : Nat := 8
def sizeofEnv : Nat := 124

-- `boot_alloc`, in pages: the first page of the chunk of `n` bytes at `nextfree`, and the new `nextfree`.
def bootAlloc (nextfree n : Nat) : Nat × Nat :=
  (nextfree, nextfree + (n + 4095) / 4096)

namespace BootInfo

variable (b : BootInfo)

-- The pages of `kern_pgdir`, `pages` and `envs`.
def kernPgdir : Nat := (bootAlloc b.kernEnd 4096).1
def pages : Nat := (bootAlloc (bootAlloc b.kernEnd 4096).2 (b.npages * sizeofPageInfo)).1
def envs : Nat := (bootAlloc (bootAlloc b.pages (b.npages * sizeofPageInfo)).2 (nenv * sizeofEnv)).1

-- The first page after the kernel that `page_init` makes available. Since `envs` points to objects of
-- `sizeof(struct Env)` bytes, `envs + NENV*sizeof(struct Env)` lies this size times further up than
-- the end of the array.
def low : Nat := b.envs + (nenv * sizeofEnv * sizeofEnv + 4095) / 4096

end BootInfo

-- One iteration of the loops of `page_init`.
def Kernel.initPage (s : Kernel) (i : Nat) : Kernel :=
  let p : Ppn := BitVec.ofNat 20 i
  { s with pages := update s.pages p { link := s.pageFreeList, ref := 0#16 }, pageFreeList := some p }

def pageInit (b : BootInfo) : K Unit := do
  modify fun s => { s with pageFreeList := none }
  (List.range' 1 (b.npagesBasemem - 1)).forM fun i => do
    if i ≠ (pgnum mpentryPaddr).toNat then
      modify (·.initPage i)
  (List.range' b.low (b.npages - b.low)).forM fun i => modify (·.initPage i)

-- The loop of `boot_map_region`; storing through the null pointer faults.
def bootMapLoop (pgdir : Ppn) (va size pa perm : Word) : Nat → Word → K Unit
  | 0, _ => return
  | n + 1, offset => do
    if offset < size then
      match ← pgdirWalk pgdir (va + offset) true with
      | none => throw (.fault 0#32)
      | some p =>
        modify (·.setMem p.1 p.2 ((pa + offset) ||| perm ||| pteP))
        bootMapLoop pgdir va size pa perm n (offset + pgsize)

@[irreducible]
def bootMapRegion (pgdir : Ppn) (va size pa perm : Word) : K Unit :=
  bootMapLoop pgdir va size pa perm (2 ^ 20) 0#32

def memInitMp (b : BootInfo) : K Unit := do
  let kernPgdir := (← get).kernPgdir
  (List.finRange 8).forM fun i =>
    bootMapRegion kernPgdir (kstacktop - kstksize - BitVec.ofNat 32 i * (kstksize + kstkgap)) kstksize
      (b.percpuKstacks i) pteW

def memInit (b : BootInfo) (c : CpuIx) : K Unit := do
  let kernPgdir : Ppn := BitVec.ofNat 20 b.kernPgdir
  modify fun s => { s with npages := b.npages, kernPgdir }
  modify (·.zeroPage kernPgdir)
  modify (·.setMem kernPgdir (pdx uvpt) (page2pa kernPgdir ||| pteU ||| pteP))
  modify fun s => { s with pages := fun _ => { link := none, ref := 0#16 }, envs := fun _ => {} }
  pageInit b
  bootMapRegion kernPgdir upages (roundUp (BitVec.ofNat 32 (b.npages * sizeofPageInfo)) pgsize)
    (page2pa (BitVec.ofNat 20 b.pages)) pteU
  bootMapRegion kernPgdir uenvs (roundUp (BitVec.ofNat 32 (nenv * sizeofEnv)) pgsize)
    (page2pa (BitVec.ofNat 20 b.envs)) pteU
  bootMapRegion kernPgdir (kstacktop - kstksize) kstksize b.bootstack pteW
  bootMapRegion kernPgdir kernbase (roundUp (0xFFFFFFFF#32 - kernbase + 1#32) pgsize) 0#32 pteW
  memInitMp b
  lcr3 c kernPgdir

end Jos
