import Jos.Library.Bytes

-- The boot loader, which reads the kernel from the disk (boot/main.c).

open Bytes

namespace Jos.Bootloader

def sectsize : Nat := 512
def elfMagic : Addr := 0x464C457F#32

-- Scratch space.
def elfhdr : Addr := 0x10000#32

inductive BootError
  -- The loops have not come to an end yet.
  | running
  deriving DecidableEq

abbrev L := Except BootError

-- The bytes of each sector.
abbrev Disk := BitVec 28 → Nat → BitVec 8

-- The sector which the registers 0x1F3 to 0x1F6 of the disk name.
def sector (lba₀ lba₁ lba₂ drive : BitVec 8) : BitVec 28 :=
  drive.extractLsb' 0 4 ++ lba₂ ++ lba₁ ++ lba₀

variable (disk : Disk)

-- The disk is ready at some time, and `insl` copies the sector word by word.
def readsect (dst offset : Addr) (m : Mem) : Mem :=
  let lba := sector (offset.setWidth 8) ((offset >>> 8).setWidth 8) ((offset >>> 16).setWidth 8)
    ((offset >>> 24).setWidth 8 ||| 0xE0#8)
  fun a => if (a - dst).toNat < sectsize then disk lba (a - dst).toNat else m a

def readsegLoop : Nat → Addr → Addr → Addr → Mem → L Mem
  | 0, _, _, _, _ => throw .running
  | n + 1, pa, endPa, offset, m =>
    if pa < endPa then
      readsegLoop n (pa + BitVec.ofNat 32 sectsize) endPa (offset + 1#32) (readsect disk pa offset m)
    else
      return m

-- The first argument bounds the number of sectors.
def readseg (n : Nat) (pa count offset : Addr) (m : Mem) : L Mem :=
  readsegLoop disk n (pa &&& ~~~(BitVec.ofNat 32 sectsize - 1#32)) (pa + count)
    (offset / BitVec.ofNat 32 sectsize + 1#32) m

-- The fields of `struct Proghdr` which are read.
structure Proghdr where
  offset : Addr
  pa     : Addr
  memsz  : Addr
  deriving DecidableEq

def sizeofProghdr : Addr := 32#32

def readProghdr (m : Mem) (ph : Addr) : Proghdr where
  offset := load m (ph + 4#32)
  pa     := load m (ph + 12#32)
  memsz  := load m (ph + 20#32)

def phoff (m : Mem) : Addr :=
  load m (elfhdr + 28#32)

def phnum (m : Mem) : BitVec 16 :=
  m (elfhdr + 45#32) ++ m (elfhdr + 44#32)

-- The loop over the program headers. The segments are read with the bound `n₀`.
def segments (n₀ : Nat) : Nat → Addr → Addr → Mem → L Mem
  | 0, _, _, _ => throw .running
  | n + 1, ph, eph, m => do
    if ph < eph then
      let p := readProghdr m ph
      segments n₀ n (ph + sizeofProghdr) eph (← readseg disk n₀ p.pa p.memsz p.offset m)
    else
      return m

-- The entry point, if there is a kernel, and the memory.
def bootmain (n : Nat) (m : Mem) : L (Option Addr × Mem) := do
  let m ← readseg disk n elfhdr (BitVec.ofNat 32 (sectsize * 8)) 0#32 m
  if load m elfhdr ≠ elfMagic then
    return (none, m)
  else
    let ph := elfhdr + phoff m
    let eph := ph + (phnum m).setWidth 32 * sizeofProghdr
    let m ← segments disk n n ph eph m
    return (some (load m (elfhdr + 24#32)), m)

end Jos.Bootloader
