import Jos.Kernel.Theorems.Alloc
import Jos.Library.Program

-- What the functions of kern/pmap.c compute on page tables that are in order.

open Function RefCount Program

namespace Jos

namespace Kernel

-- Takes `t` off the free list and makes it the page table at index `i` of `pd`.
def addTable (s : Kernel) (pd : Ppn) (i : Ptx) (t : Ppn) : Kernel :=
  (((s.popFree t).zeroPage t).incRef t).setMem pd i (page2pa t ||| pteP ||| pteU ||| pteW)

-- Drops the reference to `p` that the entry at index `j` of the table `t` holds.
def unmap (s : Kernel) (c : CpuIx) (pd t : Ppn) (va : Word) (p : Ppn) : Kernel :=
  ((s.dropRef p).setMem t (ptx va) 0#32).invalidate c pd va

end Kernel

open Kernel

variable {s : Kernel} {c : CpuIx} {pd t p pp : Ppn} {va perm : Word} {l : List Ppn} {zero : Bool}

theorem kaddr_run (pa : Word) (h : (pgnum pa).toNat < s.npages) : (kaddr pa).run s = .ok (pgnum pa) s := by
  simp [kaddr, Nat.not_le.mpr h]

theorem pa2page_run (pa : Word) (h : (pgnum pa).toNat < s.npages) : (pa2page pa).run s = .ok (pgnum pa) s := by
  simp [pa2page, Nat.not_le.mpr h]

theorem keepsOr_kaddr {T : Kernel → Kernel → Prop} [Std.Refl T] [IsTrans Kernel T] {pa : Word} :
    KeepsOr T (· = .panic) (kaddr pa) := by
  refine KeepsOr.get.bind fun s => ?_
  split
  case isTrue => exact .throw rfl
  case isFalse => exact .pure

theorem keepsOr_pa2page {T : Kernel → Kernel → Prop} [Std.Refl T] [IsTrans Kernel T] {pa : Word} :
    KeepsOr T (· = .panic) (pa2page pa) :=
  keepsOr_kaddr

theorem pageAlloc_none (h : s.pageFreeList = none) : (pageAlloc zero).run s = .ok none s := by
  simp [pageAlloc, h]

theorem pageAlloc_some (h : s.pageFreeList = some p) :
    (pageAlloc false).run s = .ok (some p) (s.popFree p) := by
  simp [pageAlloc, h]

theorem pageAlloc_zero (h : s.pageFreeList = some p) (hb : p.toNat < s.npages) :
    (pageAlloc true).run s = .ok (some p) ((s.popFree p).zeroPage p) := by
  have hk : (kaddr (page2pa p)).run (s.popFree p) = .ok p (s.popFree p) := by
    have := kaddr_run (s := s.popFree p) (page2pa p) (by rw [pgnum_page2pa]; exact hb)
    rwa [pgnum_page2pa] at this
  simp [pageAlloc, h, hk]

theorem pageFree_run (h : (s.pages p).link = none) (hr : (s.pages p).ref = 0#16) :
    (pageFree p).run s = .ok () (s.pushFree p) := by
  simp [pageFree, h, hr]

-- `page_decref` panics only on a page that is already on the free list.
theorem pageDecref_run (h : (s.pages p).ref = 1#16 → (s.pages p).link = none) :
    (pageDecref p).run s = .ok () (s.dropRef p) := by
  by_cases h1 : (s.pages p).ref = 1#16
  case pos =>
    have hz : ((s.decRef p).pages p).ref = 0#16 := by rw [ref_decRef, h1]; rfl
    have hf := pageFree_run (s := s.decRef p) (by simpa using h h1) hz
    simp [pageDecref, hz, hf, dropRef, h1]
  case neg =>
    have hz : ((s.decRef p).pages p).ref ≠ 0#16 := by
      rw [ref_decRef]
      intro he
      exact h1 (by bv_omega)
    simp [pageDecref, hz, dropRef, h1]

theorem pgdirWalk_some {create : Bool} (ht : s.table pd (pdx va) = some t)
    (hb : t.toNat < s.npages) : (pgdirWalk pd va create).run s = .ok (some (t, ptx va)) s := by
  have hp := has_of_entryPage ht
  have hk := kaddr_run (s := s) (s.mem pd (pdx va)) (by rw [pgnum_of_entryPage ht]; exact hb)
  simp [pgdirWalk, hp, hk, pgnum_of_entryPage ht]

theorem pgdirWalk_none (ht : s.table pd (pdx va) = none) :
    (pgdirWalk pd va false).run s = .ok none s := by
  simp [pgdirWalk, not_has_of_entryPage ht]

theorem pgdirWalk_nomem (ht : s.table pd (pdx va) = none) (hl : s.pageFreeList = none) :
    (pgdirWalk pd va true).run s = .ok none s := by
  simp [pgdirWalk, not_has_of_entryPage ht, pageAlloc_none hl]

theorem pgdirWalk_create (ht : s.table pd (pdx va) = none) (hl : s.pageFreeList = some t)
    (hb : t.toNat < s.npages) :
    (pgdirWalk pd va true).run s = .ok (some (t, ptx va)) (s.addTable pd (pdx va) t) := by
  have hm : (s.addTable pd (pdx va) t).mem pd (pdx va) = page2pa t ||| pteP ||| pteU ||| pteW := by
    simp [addTable, setMem]
  have hn := pgnum_of_entryPage (entryPage_table (p := t))
  have hk := kaddr_run (s := s.addTable pd (pdx va) t) (page2pa t ||| pteP ||| pteU ||| pteW)
    (by rw [hn]; exact hb)
  rw [hn] at hk
  simp only [addTable] at hm hk
  simp [pgdirWalk, not_has_of_entryPage ht, pageAlloc_zero hl hb, addTable, hm, hk]

theorem pageLookup_some (ht : s.table pd (pdx va) = some t) (hb : t.toNat < s.npages)
    (he : entryPage (s.mem t (ptx va)) = some p) (hb' : p.toNat < s.npages) :
    (pageLookup pd va).run s = .ok (some (p, (t, ptx va))) s := by
  have hp := pgnum_of_entryPage he
  have hk := pa2page_run (s := s) (s.mem t (ptx va)) (by rw [hp]; exact hb')
  simp [pageLookup, pgdirWalk_some ht hb, pte, has_of_entryPage he, hk, hp]

theorem pageLookup_none (hb : ∀ t, s.table pd (pdx va) = some t → t.toNat < s.npages)
    (he : entryPage (s.entry pd (pdx va) (ptx va)) = none) :
    (pageLookup pd va).run s = .ok none s := by
  cases ht : s.table pd (pdx va)
  case none => simp [pageLookup, pgdirWalk_none ht]
  case some t =>
    simp only [entry, ht] at he
    simp [pageLookup, pgdirWalk_some ht (hb t ht), pte, not_has_of_entryPage he]

theorem pageRemove_none (hb : ∀ t, s.table pd (pdx va) = some t → t.toNat < s.npages)
    (he : entryPage (s.entry pd (pdx va) (ptx va)) = none) :
    (pageRemove c pd va).run s = .ok () s := by
  simp [pageRemove, pageLookup_none hb he]

theorem pageRemove_some (ht : s.table pd (pdx va) = some t) (hb : t.toNat < s.npages)
    (he : entryPage (s.mem t (ptx va)) = some p) (hb' : p.toNat < s.npages)
    (hl : (s.pages p).ref = 1#16 → (s.pages p).link = none) :
    (pageRemove c pd va).run s = .ok () (s.unmap c pd t va p) := by
  have hm : (s.dropRef p).mem = s.mem := by
    simp only [dropRef]
    split <;> rfl
  have hn : (s.dropRef p).npages = s.npages := by
    simp only [dropRef]
    split <;> rfl
  have hw : (pgdirWalk pd va false).run (s.dropRef p) = .ok (some (t, ptx va)) (s.dropRef p) :=
    pgdirWalk_some (by simpa [table, hm] using ht) (by simpa [hn] using hb)
  simp [pageRemove, pageLookup_some ht hb he hb', pageDecref_run hl, hw, tlbInvalidate, unmap]

end Jos
