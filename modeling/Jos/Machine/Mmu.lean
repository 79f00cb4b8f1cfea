import Mathlib.Tactic.IntervalCases

-- Addresses, page table entries and the virtual memory map (inc/mmu.h, inc/memlayout.h).

namespace Jos

abbrev Word := BitVec 32

-- A physical page number, which is also the index of the page's `PageInfo` in `pages`.
abbrev Ppn := BitVec 20

def npdentries : Nat := 1024
def nptentries : Nat := 1024

-- An index into a page directory or a page table.
abbrev Ptx := Fin 1024

def pgsize : Word := 4096#32
def ptsize : Word := 0x400000#32

-- Flags of page table and page directory entries.
def pteP : Word := 0x001#32
def pteW : Word := 0x002#32
def pteU : Word := 0x004#32
def ptePwt : Word := 0x008#32
def ptePcd : Word := 0x010#32
def pteAvail : Word := 0xE00#32
def pteSyscall : Word := pteAvail ||| pteP ||| pteW ||| pteU

-- The virtual memory map, from the top of the address space downwards.
def kernbase : Word := 0xF0000000#32
def kstacktop : Word := kernbase
def kstksize : Word := 8#32 * pgsize
def kstkgap : Word := 8#32 * pgsize
def mmiolim : Word := kstacktop - ptsize
def mmiobase : Word := mmiolim - ptsize
def ulim : Word := mmiobase
def uvpt : Word := ulim - ptsize
def upages : Word := uvpt - ptsize
def uenvs : Word := upages - ptsize
def utop : Word := uenvs
def uxstacktop : Word := utop
def ustacktop : Word := utop - 2#32 * pgsize
def utemp : Word := ptsize
def pftemp : Word := utemp + ptsize - pgsize

def mpentryPaddr : Word := 0x7000#32
def iophysmem : Word := 0x0A0000#32
def extphysmem : Word := 0x100000#32

-- `PGNUM`. Applied to an entry this is the page number of its `PTE_ADDR`.
def pgnum (la : Word) : Ppn :=
  la.extractLsb' 12 20

def pdx (la : Word) : Ptx :=
  ⟨(la >>> 22).toNat, by have := la.isLt; rw [BitVec.toNat_ushiftRight, Nat.shiftRight_eq_div_pow]; omega⟩

def ptx (la : Word) : Ptx :=
  ⟨((la >>> 12) &&& 0x3FF#32).toNat, by
    rw [BitVec.toNat_and]; exact Nat.lt_of_le_of_lt Nat.and_le_right (by decide)⟩

-- `PGADDR(d, t, 0)`.
def pgaddr (d t : Ptx) : Word :=
  BitVec.ofNat 32 d <<< 22 ||| BitVec.ofNat 32 t <<< 12

def page2pa (pp : Ppn) : Word :=
  pp.setWidth 32 <<< 12

def roundDown (a n : Word) : Word :=
  a - a % n

def roundUp (a n : Word) : Word :=
  roundDown (a + n - 1#32) n

-- `entry & flag`, as C reads it in a condition.
def has (entry flag : Word) : Bool :=
  entry &&& flag != 0#32

-- The page an entry refers to, if its present bit is set.
def entryPage (entry : Word) : Option Ppn :=
  if has entry pteP then some (pgnum entry) else none

-- A permission argument whose bits all lie in the flags part of an entry.
def FlagsOnly (perm : Word) : Prop :=
  perm &&& 0xFFFFF000#32 = 0#32

instance : DecidablePred FlagsOnly :=
  fun _ => inferInstanceAs (Decidable (_ = _))

-- The first page directory index of the kernel part of an address space.
def pdxUtop : Nat := 955

theorem pdx_utop : (pdx utop).val = pdxUtop := by
  decide

section

variable {p : Ppn} {perm la : Word} {d t : Ptx}

theorem FlagsOnly.getLsbD (h : FlagsOnly perm) {i : Nat} (hi : 12 ≤ i) (hi' : i < 32) :
    perm.getLsbD i = false := by
  have hb := congrArg (·.getLsbD i) h
  simp only [BitVec.getLsbD_and, BitVec.getLsbD_zero, Bool.and_eq_false_iff] at hb
  refine hb.resolve_right ?_
  interval_cases i <;> decide

theorem pgnum_page2pa_or (h : FlagsOnly perm) : pgnum (page2pa p ||| perm ||| pteP) = p := by
  ext i hi
  have hp := h.getLsbD (i := 12 + i) (by omega) (by omega)
  have hq : pteP.getLsbD (12 + i) = false := by interval_cases i <;> decide
  have hs : 12 + i < 32 ∧ ¬12 + i < 12 ∧ 12 + i - 12 = i := by omega
  rw [BitVec.getLsbD_eq_getElem hs.1] at hp hq
  simp [pgnum, page2pa, hp, hq, hs, BitVec.getLsbD_eq_getElem hi]

theorem pgnum_page2pa : pgnum (page2pa p) = p := by
  ext i hi
  have hs : 12 + i < 32 ∧ ¬12 + i < 12 ∧ 12 + i - 12 = i := by omega
  simp [pgnum, page2pa, hs, BitVec.getLsbD_eq_getElem hi]

theorem has_pteP_or : has (la ||| pteP) pteP = true := by
  have h : (la ||| pteP) &&& pteP = pteP := by
    ext i hi
    simp only [BitVec.getElem_and, BitVec.getElem_or]
    cases pteP[i] <;> simp
  rw [has, h]
  decide

theorem entryPage_insert (h : FlagsOnly perm) : entryPage (page2pa p ||| perm ||| pteP) = some p := by
  simp [entryPage, has_pteP_or, pgnum_page2pa_or h]

-- The entry `pgdir_walk` makes for a new page table.
theorem entryPage_table : entryPage (page2pa p ||| pteP ||| pteU ||| pteW) = some p := by
  have h : page2pa p ||| pteP ||| pteU ||| pteW = page2pa p ||| (pteU ||| pteW) ||| pteP := by
    simp only [BitVec.or_assoc, BitVec.or_comm pteP]
  rw [h, entryPage_insert (by decide)]

-- The entry with which a page directory refers to itself.
theorem entryPage_self : entryPage (page2pa p ||| pteP ||| pteU) = some p := by
  have h : page2pa p ||| pteP ||| pteU = page2pa p ||| pteU ||| pteP := by
    simp only [BitVec.or_assoc, BitVec.or_comm pteP]
  rw [h, entryPage_insert (by decide)]

theorem pgnum_of_entryPage (h : entryPage la = some p) : pgnum la = p := by
  simp only [entryPage] at h
  split at h
  case isTrue => exact Option.some.inj h
  case isFalse => cases h

theorem has_of_entryPage (h : entryPage la = some p) : has la pteP = true := by
  by_contra hn
  simp [entryPage, hn] at h

theorem not_has_of_entryPage (h : entryPage la = none) : has la pteP = false := by
  by_contra hn
  simp [entryPage, hn] at h

@[simp]
theorem entryPage_zero : entryPage 0#32 = none := by
  decide

theorem toNat_pgaddr : (pgaddr d t).toNat = d * 2 ^ 22 + t * 2 ^ 12 := by
  have hd := d.isLt
  have ht := t.isLt
  have h₁ : (BitVec.ofNat 32 d <<< 22).toNat = d.val <<< 22 := by
    simp only [BitVec.toNat_shiftLeft, BitVec.toNat_ofNat, Nat.shiftLeft_eq]
    omega
  have h₂ : (BitVec.ofNat 32 t <<< 12).toNat = t.val * 2 ^ 12 := by
    simp only [BitVec.toNat_shiftLeft, BitVec.toNat_ofNat, Nat.shiftLeft_eq]
    omega
  rw [pgaddr, BitVec.toNat_or, h₁, h₂, ← Nat.shiftLeft_add_eq_or_of_lt (by omega), Nat.shiftLeft_eq]

theorem val_pdx : (pdx la).val = la.toNat / 2 ^ 22 := by
  simp [pdx, Nat.shiftRight_eq_div_pow]

theorem val_ptx : (ptx la).val = la.toNat / 2 ^ 12 % 2 ^ 10 := by
  have hm : (0x3FF#32).toNat = 2 ^ 10 - 1 := rfl
  simp only [ptx, BitVec.toNat_and, BitVec.toNat_ushiftRight, hm, Nat.and_two_pow_sub_one_eq_mod,
    Nat.shiftRight_eq_div_pow]

theorem toNat_pgnum : (pgnum la).toNat = la.toNat / 4096 := by
  have hl := la.isLt
  rw [pgnum, BitVec.extractLsb'_toNat, Nat.shiftRight_eq_div_pow]
  omega

@[simp]
theorem pdx_pgaddr : pdx (pgaddr d t) = d := by
  have ht := t.isLt
  apply Fin.ext
  rw [val_pdx, toNat_pgaddr]
  omega

@[simp]
theorem ptx_pgaddr : ptx (pgaddr d t) = t := by
  have ht := t.isLt
  apply Fin.ext
  rw [val_ptx, toNat_pgaddr]
  omega

-- The indices of a page and its address.
theorem pgaddr_eq_iff (ha : la.toNat % 4096 = 0) : pgaddr d t = la ↔ d = pdx la ∧ t = ptx la := by
  constructor
  case mp =>
    rintro rfl
    exact ⟨pdx_pgaddr.symm, ptx_pgaddr.symm⟩
  case mpr =>
    rintro ⟨rfl, rfl⟩
    apply BitVec.eq_of_toNat_eq
    rw [toNat_pgaddr, val_pdx, val_ptx]
    omega

end

end Jos
