import Jos.Kernel.Pmap
import Mathlib.Data.List.FinRange

-- Creating, looking up, running and freeing environments (kern/env.c).

namespace Jos

def ebadenv : Word := -2#32
def enofreeenv : Word := -5#32

def gdKt : BitVec 16 := 0x08#16
def gdUt : BitVec 16 := 0x18#16
def gdUd : BitVec 16 := 0x20#16
def flIf : Word := 0x200#32

def envgenshift : Nat := 12

def envx (envid : EnvId) : EnvIx :=
  ⟨(envid &&& 0x3FF#32).toNat, by
    rw [BitVec.toNat_and]; exact Nat.lt_of_le_of_lt Nat.and_le_right (by decide)⟩

-- The current environment, where the kernel dereferences `curenv`.
def curenv (c : CpuIx) : K EnvIx := do
  match (← get).cur c with
  | none   => throw (.fault 0#32)
  | some e => return e

-- The page directory of `e`, where the kernel dereferences `e->env_pgdir`.
def envPgdir (e : EnvIx) : K Ppn := do
  match ((← get).envs e).pgdir with
  | none   => throw (.fault 0#32)
  | some p => return p

def lcr3 (c : CpuIx) (pgdir : Ppn) : K Unit :=
  modify (·.setCpu c fun i => { i with cr3 := pgdir, tlb := [] })

-- `none` is the failure with `-E_BAD_ENV`.
def envid2env (c : CpuIx) (envid : EnvId) (checkperm : Bool) : K (Option EnvIx) := do
  if envid = 0#32 then
    return some (← curenv c)
  else
    let s ← get
    let e := envx envid
    if (s.envs e).status = .free ∨ (s.envs e).id ≠ envid then
      return none
    else if checkperm ∧ s.cur c ≠ some e then
      let cur ← curenv c
      if (s.envs e).parentId ≠ (s.envs cur).id then
        return none
      else
        return some e
    else
      return some e

def envInit : K Unit := do
  modify fun s => { s with envFreeList := none }
  (List.finRange 1024).reverse.forM fun i => do
    let s ← get
    set { s.setEnv i fun e => { e with status := .free, id := 0#32, link := s.envFreeList } with
          envFreeList := some i }

def envSetupVm (e : EnvIx) : K Word := do
  match ← pageAlloc true with
  | none => return enomem
  | some p =>
    modify (·.incRef p)
    let pgdir ← kaddr (page2pa p)
    modify (·.setEnv e fun v => { v with pgdir := some pgdir })
    modify fun s => { s with mem := Function.update s.mem pgdir (s.mem s.kernPgdir) }
    modify (·.setMem pgdir (pdx uvpt) (page2pa pgdir ||| pteP ||| pteU))
    return 0#32

-- The identifier given to the environment at `e` whose last identifier was `id`.
def nextEnvId (id : EnvId) (e : EnvIx) : EnvId :=
  let generation := (id + 1#32 <<< envgenshift) &&& ~~~0x3FF#32
  let generation := if generation.sle 0#32 then 1#32 <<< envgenshift else generation
  generation ||| BitVec.ofNat 32 e

-- The fields `env_alloc` sets once the page directory exists.
def freshEnv (v : Env) (e : EnvIx) (parentId : EnvId) : Env :=
  { v with
    id := nextEnvId v.id e
    parentId
    type := .user
    status := .runnable
    runs := 0#32
    tf :=
      { ds := gdUd ||| 3#16
        es := gdUd ||| 3#16
        ss := gdUd ||| 3#16
        esp := ustacktop
        cs := gdUt ||| 3#16
        eflags := flIf }
    pgfaultUpcall := 0#32
    ipcRecving := false }

-- Returns the error code, or the new environment.
def envAlloc (parentId : EnvId) : K (Except Word EnvIx) := do
  match (← get).envFreeList with
  | none => return .error enofreeenv
  | some e =>
    let r ← envSetupVm e
    if r.slt 0#32 then
      return .error r
    else
      modify (·.setEnv e fun v => freshEnv v e parentId)
      modify fun s => { s with envFreeList := (s.envs e).link }
      return .ok e

-- The loop of `region_alloc`; every iteration advances `lower` by a page.
def regionAllocLoop (c : CpuIx) (pgdir : Ppn) (upper : Word) : Nat → Word → K Unit
  | 0, _ => return
  | n + 1, lower => do
    if lower < upper then
      match ← pageAlloc false with
      | none => throw .panic
      | some pp =>
        let status ← pageInsert c pgdir pp lower (pteU ||| pteW)
        if status = enomem then
          throw .panic
        else
          regionAllocLoop c pgdir upper n (lower + pgsize)

def regionAlloc (c : CpuIx) (e : EnvIx) (va len : Word) : K Unit := do
  let pgdir ← envPgdir e
  regionAllocLoop c pgdir (roundUp (va + len) pgsize) (2 ^ 20) (roundDown va pgsize)

-- The page directory indices below `PDX(UTOP)`.
def userPdxs : List Ptx :=
  (List.finRange 1024).filter (·.val < pdxUtop)

-- Unmaps the pages of one page table of `env_free`.
@[irreducible]
def envFreePages (c : CpuIx) (pgdir : Ppn) (pdeno : Ptx) (pt : Ppn) : K Unit :=
  (List.finRange 1024).forM fun pteno => do
    if has ((← get).mem pt pteno) pteP then
      pageRemove c pgdir (pgaddr pdeno pteno)

-- One iteration of the outer loop of `env_free`.
def envFreeTable (c : CpuIx) (pgdir : Ppn) (pdeno : Ptx) : K Unit := do
  let pde := (← get).mem pgdir pdeno
  if has pde pteP then
    let pt ← kaddr pde
    envFreePages c pgdir pdeno pt
    modify (·.setMem pgdir pdeno 0#32)
    let pp ← pa2page pde
    pageDecref pp

-- The end of `env_free`: frees the page directory and the environment itself.
def envFreeDir (e : EnvIx) (pgdir : Ppn) : K Unit := do
  modify (·.setEnv e fun v => { v with pgdir := none })
  let pp ← pa2page (page2pa pgdir)
  pageDecref pp
  modify (·.setEnv e fun v => { v with status := .free })
  let s ← get
  set { s.setEnv e fun v => { v with link := s.envFreeList } with envFreeList := some e }

def envFree (c : CpuIx) (e : EnvIx) : K Unit := do
  if (← get).cur c = some e then
    lcr3 c (← get).kernPgdir
  let pgdir ← envPgdir e
  userPdxs.forM (envFreeTable c pgdir)
  envFreeDir e pgdir

-- Sets the current environment back to runnable if it is still running.
def Kernel.preempt (s : Kernel) (c : CpuIx) : Kernel :=
  match s.cur c with
  | none   => s
  | some x => if (s.envs x).status = .running then s.setEnv x fun v => { v with status := .runnable } else s

def envRun (c : CpuIx) (e : EnvIx) : K Unit := do
  modify (·.preempt c)
  modify (·.setCpu c fun i => { i with env := some e })
  modify (·.setEnv e fun v => { v with status := .running, runs := v.runs + 1#32 })
  match ((← get).envs e).pgdir with
  -- `PADDR` of a null pointer
  | none => throw .panic
  | some pgdir =>
    lcr3 c pgdir
    modify (·.setEnv e fun v => { v with cpunum := c })
    throw .user

end Jos
