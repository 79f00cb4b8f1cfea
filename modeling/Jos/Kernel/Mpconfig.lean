import Jos.Library.Bytes
import Jos.Machine.State
import Jos.Printf.Printfmt

-- The processors in the multiprocessor configuration table (kern/mpconfig.c).

open Function Bytes

namespace Jos.Mpconfig

inductive MpError
  -- `KADDR` has been called for an address behind the physical memory.
  | panic
  -- A store behind `cpus`.
  | cpus
  -- The search has not come to an end yet.
  | running
  deriving DecidableEq

abbrev M := Except MpError

-- `m` is the memory as the kernel sees it, of which only `npages` pages are physical memory.
variable (npages : Nat) (m : Mem)

def kaddr (pa : Word) : M Word :=
  if (pa >>> 12).toNat < npages then return pa + kernbase else throw .panic

def load16 (a : Word) : BitVec 16 :=
  m (a + 1#32) ++ m a

-- `sum`, of the given number of bytes.
def sum : Nat → Word → BitVec 8
  | 0, _ => 0#8
  | n + 1, a => m a + sum n (a + 1#32)

def memcmp : Word → List Byte → Word
  | _, [] => 0#32
  | a, ch :: s => if m a ≠ ch then (m a).setWidth 32 - ch.setWidth 32 else memcmp (a + 1#32) s

-- The loop of `mpsearch1`, over the structures with 16 bytes from `mp` on.
def mpsearchLoop (last : Word) : Nat → Word → M (Option Word)
  | 0, _ => throw .running
  | n + 1, mp =>
    if mp < last then
      if memcmp m mp (bytes "_MP_") = 0#32 ∧ sum m 16 mp = 0#8 then
        return some mp
      else
        mpsearchLoop last n (mp + 16#32)
    else
      return none

def mpsearch1 (a : Word) (len : Nat) : M (Option Word) := do
  let mp ← kaddr npages a
  let last ← kaddr npages (a + BitVec.ofNat 32 len)
  mpsearchLoop m last (len / 16 + 1) mp

def mpsearch : M (Option Word) := do
  let bda ← kaddr npages (0x40#32 <<< 4)
  let p := (load16 m (bda + 0x0E#32)).setWidth 32
  let mp ←
    if p ≠ 0#32 then
      mpsearch1 npages m (p <<< 4) 1024
    else
      mpsearch1 npages m ((load16 m (bda + 0x13#32)).setWidth 32 * 1024#32 - 1024#32) 1024
  if mp.isSome then return mp else mpsearch1 npages m 0xF0000#32 0x10000

-- The addresses of `struct mp` and of `struct mpconf`.
def mpconfig : M (Option (Word × Word)) := do
  let some mp ← mpsearch npages m | return none
  let physaddr := load m (mp + 4#32)
  let type := m (mp + 11#32)
  if physaddr = 0#32 ∨ type ≠ 0#8 then
    return none
  let conf ← kaddr npages physaddr
  let length := load16 m (conf + 4#32)
  let version := m (conf + 6#32)
  let xlength := load16 m (conf + 40#32)
  let xchecksum := m (conf + 42#32)
  if memcmp m conf (bytes "PCMP") ≠ 0#32 then
    return none
  else if sum m length.toNat conf ≠ 0#8 then
    return none
  else if version ≠ 1#8 ∧ version ≠ 4#8 then
    return none
  else if sum m xlength.toNat (conf + length.setWidth 32) + xchecksum ≠ 0#8 then
    return none
  else
    return some (mp, conf)

-- The fields of `struct CpuInfo` which are set here.
structure Cpu where
  cpuId  : BitVec 8 := 0#8
  status : CpuStatus := .unused

-- `cpus` continues behind the array, and `bootcpu` is an index of it. `imcr` is set when the interrupts have been
-- switched away from the PIC.
structure Mp where
  cpus      : Nat → Cpu
  bootcpu   : Nat := 0
  ismp      : Bool := false
  ncpu      : Nat := 0
  lapicaddr : Word := 0#32
  imcr      : Bool := false

-- An entry for a processor, which is the bootstrap processor if the flag is given.
def Mp.mpproc (boot : Bool) (k : Mp) : Mp :=
  let k := if boot then { k with bootcpu := k.ncpu } else k
  if k.ncpu < Jos.ncpu then
    { k with
      cpus := update k.cpus k.ncpu { k.cpus k.ncpu with cpuId := BitVec.ofNat 8 k.ncpu }
      ncpu := k.ncpu + 1 }
  else
    k

-- `bootcpu->cpu_status = CPU_STARTED`.
def Mp.start (k : Mp) : M Mp :=
  if k.bootcpu < Jos.ncpu then
    return { k with cpus := update k.cpus k.bootcpu { k.cpus k.bootcpu with status := .started } }
  else
    throw .cpus

-- The loop over the entries, of which the first one left is at `p`.
def entries : Nat → Word → Mp → Mp
  | 0, _, k => k
  | n + 1, p, k =>
    if m p = 0x00#8 then
      entries n (p + 20#32) (k.mpproc (m (p + 3#32) &&& 0x02#8 ≠ 0#8))
    else if m p = 0x01#8 ∨ m p = 0x02#8 ∨ m p = 0x03#8 ∨ m p = 0x04#8 then
      entries n (p + 8#32) k
    else
      { k with ismp := false }

-- The variables are zero at first.
def mpInit : M Mp := do
  let k : Mp := { cpus := fun _ => {} }
  let some (mp, conf) ← mpconfig npages m | return k
  let k := { k with ismp := true, lapicaddr := load m (conf + 36#32) }
  let k ← (entries m (load16 m (conf + 34#32)).toNat (conf + 44#32) k).start
  if !k.ismp then
    return { k with ncpu := 1, lapicaddr := 0#32 }
  else
    return { k with imcr := m (mp + 12#32) ≠ 0#8 }

end Jos.Mpconfig
