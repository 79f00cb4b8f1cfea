import Jos.Kernel.Env
import Jos.Machine.Paging

-- Loading the image of a program (kern/env.c, inc/elf.h).

namespace Jos

def elfMagic : Word := 0x464C457F#32
def elfProgLoad : Word := 1#32

-- What the kernel reads at its own addresses. The image of a program is a part of the kernel, and is not written to.
abbrev Rom := Word → BitVec 8

namespace Rom

variable (rom : Rom)

def half (a : Word) : BitVec 16 :=
  rom (a + 1#32) ++ rom a

def word (a : Word) : Word :=
  rom (a + 3#32) ++ rom (a + 2#32) ++ rom (a + 1#32) ++ rom a

end Rom

structure Elf where
  magic : Word
  entry : Word
  phoff : Word
  phnum : BitVec 16

structure Proghdr where
  type   : Word
  offset : Word
  va     : Word
  filesz : Word
  memsz  : Word
  deriving DecidableEq

def readElf (rom : Rom) (a : Word) : Elf :=
  { magic := rom.word a
    entry := rom.word (a + 24#32)
    phoff := rom.word (a + 28#32)
    phnum := rom.half (a + 44#32) }

def readProghdr (rom : Rom) (a : Word) : Proghdr :=
  { type   := rom.word a
    offset := rom.word (a + 4#32)
    va     := rom.word (a + 8#32)
    filesz := rom.word (a + 16#32)
    memsz  := rom.word (a + 20#32) }

def sizeofProghdr : Word := 32#32

-- The kernel writes `n` bytes from `v` on, through the current address space.
def storeBytes (c : CpuIx) (v : Word) (f : Nat → BitVec 8) : Nat → K Unit
  | 0 => return
  | n + 1 => do
    storeBytes c v f n
    storeByte c (v + BitVec.ofNat 32 n) (f n)

def memset (c : CpuIx) (v : Word) (b : BitVec 8) (n : Word) : K Unit :=
  storeBytes c v (fun _ => b) n.toNat

def memcpy (c : CpuIx) (rom : Rom) (dst src n : Word) : K Unit :=
  storeBytes c dst (fun k => rom (src + BitVec.ofNat 32 k)) n.toNat

def loadSegment (c : CpuIx) (e : EnvIx) (rom : Rom) (binary : Word) (ph : Proghdr) : K Unit := do
  regionAlloc c e ph.va ph.memsz
  memset c ph.va 0#8 ph.memsz
  memcpy c rom ph.va (binary + ph.offset) ph.filesz

-- The loop over the program headers, of which there are `e_phnum` at most.
def loadLoop (c : CpuIx) (e : EnvIx) (rom : Rom) (binary eph : Word) : Nat → Word → K Unit
  | 0, _ => return
  | n + 1, ph => do
    if ph < eph then
      if (readProghdr rom ph).type ≠ elfProgLoad then
        loadLoop c e rom binary eph n (ph + sizeofProghdr)
      else
        loadSegment c e rom binary (readProghdr rom ph)
        loadLoop c e rom binary eph n (ph + sizeofProghdr)

def loadIcode (c : CpuIx) (e : EnvIx) (rom : Rom) (binary : Word) : K Unit := do
  match ((← get).envs e).pgdir with
  | none => throw .panic
  | some pgdir =>
    lcr3 c pgdir
    let header := readElf rom binary
    if header.magic ≠ elfMagic then
      throw .panic
    else
      let ph := binary + header.phoff
      let eph := ph + sizeofProghdr * header.phnum.setWidth 32
      loadLoop c e rom binary eph header.phnum.toNat ph
      regionAlloc c e (ustacktop - pgsize) pgsize
      modify (·.setEnv e fun v => { v with tf := { v.tf with eip := header.entry } })
      lcr3 c (← get).kernPgdir

end Jos
