import Jos.Machine.State

-- What the hardware makes of the page tables: translation of a linear address and the access to one
-- byte of memory. Physical memory is an array of words per page, so a byte is a lane of a word.

open Function

namespace Jos

-- The word of a page that contains the byte at `va`.
def wordIx (va : Word) : Ptx :=
  ⟨((va >>> 2) &&& 0x3FF#32).toNat, by
    rw [BitVec.toNat_and]; exact Nat.lt_of_le_of_lt Nat.and_le_right (by decide)⟩

theorem val_wordIx {va : Word} : (wordIx va).val = va.toNat / 2 ^ 2 % 2 ^ 10 := by
  have hm : (0x3FF#32).toNat = 2 ^ 10 - 1 := rfl
  simp only [wordIx, BitVec.toNat_and, BitVec.toNat_ushiftRight, hm, Nat.and_two_pow_sub_one_eq_mod,
    Nat.shiftRight_eq_div_pow]

-- The position, in bits, of the byte at `va` inside of its word.
def lane (va : Word) : Nat :=
  8 * (va &&& 3#32).toNat

def getByte (w : Word) (k : Nat) : BitVec 8 :=
  w.extractLsb' k 8

def putByte (w : Word) (k : Nat) (b : BitVec 8) : Word :=
  (w &&& ~~~(0xFF#32 <<< k)) ||| (b.setWidth 32 <<< k)

structure Access where
  user  : Bool
  write : Bool

namespace Kernel

variable (s : Kernel)

-- The page table that `pgdir` holds at index `i`.
def table (pgdir : Ppn) (i : Ptx) : Option Ppn :=
  entryPage (s.mem pgdir i)

-- The entry of `pgdir` for the page with the given indices; an entry without a table reads as zero.
def entry (pgdir : Ppn) (i j : Ptx) : Word :=
  match s.table pgdir i with
  | none   => 0#32
  | some t => s.mem t j

-- The two-level walk. User accesses need the user bit and, since the kernel runs with write
-- protection enabled, all writes need the write bit, in the directory entry and the table entry.
def translate (pgdir : Ppn) (va : Word) (a : Access) : Option Ppn :=
  let pde := s.mem pgdir (pdx va)
  let pte := s.entry pgdir (pdx va) (ptx va)
  if (a.user → has pde pteU ∧ has pte pteU) ∧ (a.write → has pde pteW ∧ has pte pteW) then
    entryPage pte
  else
    none

def byteAt (p : Ppn) (va : Word) : BitVec 8 :=
  getByte (s.mem p (wordIx va)) (lane va)

def setByteAt (p : Ppn) (va : Word) (b : BitVec 8) : Kernel :=
  s.setMem p (wordIx va) (putByte (s.mem p (wordIx va)) (lane va) b)

end Kernel

-- The kernel reads or writes a byte at a linear address of the address space in `%cr3`.
def loadByte (c : CpuIx) (va : Word) : K (BitVec 8) := do
  let s ← get
  match s.translate (s.cpus c).cr3 va ⟨false, false⟩ with
  | none   => throw (.fault va)
  | some p => return s.byteAt p va

def storeByte (c : CpuIx) (va : Word) (b : BitVec 8) : K Unit := do
  let s ← get
  match s.translate (s.cpus c).cr3 va ⟨false, true⟩ with
  | none   => throw (.fault va)
  | some p => set (s.setByteAt p va b)

end Jos
