import Jos.Kernel.Icode
import Jos.Kernel.Mmio

-- Starting the kernel (kern/init.c). What concerns devices and descriptor tables only is left out, and so is the code
-- from which the other processors get to `mp_main`.

open Function

namespace Jos

-- What the kernel finds out about the machine. `lapicaddr` is zero if there is no local interrupt controller.
structure Platform where
  boot      : BootInfo
  lapicaddr : Word
  -- The processors that `boot_aps` starts.
  aps       : List CpuIx
  -- Where `mmio_map_region` goes on, after `mem_init` has tried it out.
  mmio      : Word

-- Returns the new value of the static variable of `mmio_map_region`.
def lapicInit (lapicaddr base : Word) : K Word := do
  if lapicaddr = 0#32 then
    return base
  else
    let x ← mmioMapRegion base lapicaddr 4096#32
    return x.2

-- `mp_main`, up to where the processor waits for the kernel lock.
def mpMain (c : CpuIx) (lapicaddr base : Word) : K Word := do
  lcr3 c (← get).kernPgdir
  let base ← lapicInit lapicaddr base
  modify (·.setCpu c fun i => { i with status := .started })
  return base

def bootAps (lapicaddr : Word) : List CpuIx → Word → K Unit
  | [], _ => return
  | c :: cs, base => do
    let base ← mpMain c lapicaddr base
    bootAps lapicaddr cs base

-- The result of `env_alloc` is not checked: when it fails, the pointer to the environment is not initialised.
def envCreate (c : CpuIx) (rom : Rom) (binary : Word) (type : EnvType) : K Unit := do
  match ← envAlloc 0#32 with
  | .error _ => throw (.fault 0#32)
  | .ok e =>
    loadIcode c e rom binary
    modify (·.setEnv e fun v => { v with type })

-- `i386_init` on the processor `c`, up to its call of `sched_yield`. `images` are the programs it creates
-- environments for.
def i386Init (p : Platform) (c : CpuIx) (rom : Rom) (images : List Word) : K Unit := do
  -- The array `cpus` is in the part of the data that the kernel clears first.
  modify fun s => { s with cpus := fun _ => {} }
  memInit p.boot c
  envInit
  -- `mp_init`
  modify (·.setCpu c fun i => { i with status := .started })
  let base ← lapicInit p.lapicaddr p.mmio
  bootAps p.lapicaddr p.aps base
  images.forM fun binary => envCreate c rom binary .user

end Jos
