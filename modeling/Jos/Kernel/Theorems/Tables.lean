import Jos.Kernel.Theorems.Pmap

-- Adding a page table to the user part of an address space, and clearing one of its entries, keeps
-- the allocator's invariant.

open Function RefCount Program

namespace Jos

open Kernel

variable {M F F' : Set Ppn} {l l' : List Ppn} {s s' : Kernel} {c : CpuIx} {e e' : EnvIx}
  {i i' j j' : Ptx} {pd t p q pp : Ppn} {va perm w : Word} {r : Ref}

namespace PageInv

theorem free_head (h : PageInv M F (p :: l) s) : s.pageFreeList = some p :=
  h.chain.1

theorem free_nil (h : PageInv M F [] s) : s.pageFreeList = none :=
  h.chain

theorem table_bound (h : PageInv M F l s) (hd : s.pgdirOf e = some pd) (hi : i.val < pdxUtop)
    (ht : s.table pd i = some t) : t.toNat < s.npages := by
  rw [← tableOf_eq hd, ← target_pde hi] at ht
  exact h.bound (h.table_mem ht)

theorem free_bound (h : PageInv M F (p :: l) s) : p.toNat < s.npages :=
  h.bound (h.pool.mem_free.mp (by simp)).1

-- A page is freed by dropping its last reference only, so `page_decref` does not panic on it.
theorem link_of_ref (h : PageInv M F l s) (hp : p ∈ M) (hr : s.target r = some p) :
    (s.pages p).link = none :=
  h.link hp (h.pool.not_free_of_ref hr)

theorem no_table_pte (hi : i.val < pdxUtop) (ht : s.tableOf e i = none) :
    s.target (.pte e i j) = none := by
  rw [target_pte hi, pteOf_no_table ht, entryPage_zero]

section AddTable

variable (h : PageInv M F (t :: l) s)

include h in
-- The state of `pgdir_walk` before the new table is linked.
theorem zeroed : PageInv M (insert t F) l ((s.popFree t).zeroPage t) :=
  h.popFree.zeroPage (h.popFree.flight_not_table (by simp))

include h in
theorem fresh_ne_pgdir (hd : s.pgdirOf e = some pd) : t ≠ pd := by
  rintro rfl
  exact h.pool.not_ref_of_free (r := Ref.pgdir e) (a := t) (by simp) (show s.target (.pgdir e) = some t from hd)

include h in
theorem target_addTable (hd : s.pgdirOf e = some pd) (hi : i.val < pdxUtop)
    (ht : s.tableOf e i = none) : (s.addTable pd i t).target = update s.target (.pde e i) (some t) := by
  have hz := h.zeroed
  have hs : ((s.popFree t).zeroPage t).target = s.target := by
    refine target_congr rfl rfl fun q hq => ?_
    have hne : q ≠ t := fun e => h.free_not_table (by simp) (e ▸ hq)
    simp [Kernel.zeroPage, Kernel.popFree, setPage, hne]
  have ht' := hz.target_setMem_pgdir (i := i) (w := page2pa t ||| pteP ||| pteU ||| pteW) hd hi
    (fun j => by rw [hs]; exact no_table_pte hi ht) fun t' ht' => by
      rw [entryPage_table] at ht'
      cases ht'
      exact ⟨h.fresh_ne_pgdir hd, fun j => by simp [Kernel.zeroPage]⟩
  rw [hs, entryPage_table] at ht'
  exact ht'

include h in
theorem addTable (hd : s.pgdirOf e = some pd) (hi : i.val < pdxUtop) (ht : s.tableOf e i = none)
    (hF : t ∉ F) : PageInv M F l (s.addTable pd i t) := by
  have hz := h.zeroed
  have hs : ((s.popFree t).zeroPage t).target = s.target := by
    refine target_congr rfl rfl fun q hq => ?_
    have hne : q ≠ t := fun e => h.free_not_table (by simp) (e ▸ hq)
    simp [Kernel.zeroPage, Kernel.popFree, setPage, hne]
  have ha : SameAlloc ((s.popFree t).zeroPage t)
      (((s.popFree t).zeroPage t).setMem pd i (page2pa t ||| pteP ||| pteU ||| pteW)) :=
    ⟨rfl, rfl, rfl, rfl⟩
  refine hz.link_flight (r := .pde e i) hF ha ?_ ?_ (by simp) h.dir
  · rw [hs]
    exact h.target_addTable hd hi ht
  · rw [hs, target_pde hi, ht]

include h in
theorem pteOf_addTable (hd : s.pgdirOf e = some pd) (ht : s.tableOf e i = none)
    (hi' : i'.val < pdxUtop) : (s.addTable pd i t).pteOf e' i' j' = s.pteOf e' i' j' := by
  have hw : ∀ t', entryPage (page2pa t ||| pteP ||| pteU ||| pteW) = some t' → t' ≠ pd := by
    intro t' ht'
    rw [entryPage_table] at ht'
    cases ht'
    exact h.fresh_ne_pgdir hd
  refine (h.zeroed.pteOf_setMem_pgdir hd hi' hw).trans ?_
  rw [entryPage_table]
  by_cases hc : e' = e ∧ i' = i
  case pos =>
    rw [if_pos hc, hc.1, hc.2, pteOf_no_table ht]
    simp [Kernel.zeroPage]
  case neg =>
    rw [if_neg hc]
    simp only [pteOf]
    have htab : ((s.popFree t).zeroPage t).tableOf e' i' = s.tableOf e' i' := by
      simp only [tableOf]
      change (s.pgdirOf e').bind _ = _
      cases hd' : s.pgdirOf e'
      case none => rfl
      case some pd' =>
        have hne := (h.fresh_ne_pgdir hd').symm
        simp [table, Kernel.zeroPage, Kernel.popFree, setPage, hne]
    rw [htab]
    cases ht' : s.tableOf e' i'
    case none => rfl
    case some t' =>
      have hne : t' ≠ t := by
        rintro rfl
        rw [← target_pde hi'] at ht'
        exact h.pool.not_ref_of_free (by simp) ht'
      simp [Kernel.zeroPage, Kernel.popFree, setPage, hne]

end AddTable

theorem mem_addTable (hq : q ≠ t) (hq' : q ≠ pd) : (s.addTable pd i t).mem q = s.mem q := by
  simp [Kernel.addTable, setMem, incRef, setPage, Kernel.zeroPage, Kernel.popFree, hq, hq']

section Unmap

theorem unmap_eq : s.unmap c pd t va p =
    ((s.setMem t (ptx va) 0#32).dropRef p).invalidate c pd va := by
  have h : (s.dropRef p).setMem t (ptx va) 0#32 = (s.setMem t (ptx va) 0#32).dropRef p := by
    simp only [dropRef]
    change _ = if (s.pages p).ref = 1#16 then _ else _
    split <;> rfl
  rw [Kernel.unmap, h]

theorem invalidate (h : PageInv M F l s) : PageInv M F l (s.invalidate c pd va) :=
  h.congr ⟨rfl, rfl, rfl, rfl⟩ rfl h.dir

theorem target_dropRef : (s.dropRef p).target = s.target := by
  simp only [dropRef]
  split <;> rfl

theorem mem_dropRef : (s.dropRef p).mem = s.mem := by
  simp only [dropRef]
  split <;> rfl

theorem pteOf_dropRef : (s.dropRef p).pteOf = s.pteOf := by
  simp only [dropRef]
  split <;> rfl

variable (h : PageInv M F l s) (ht : s.target (.pde e (pdx va)) = some t)
  (hp : s.target (.pte e (pdx va) (ptx va)) = some p) (hi : (pdx va).val < pdxUtop)

include h ht hi in
theorem target_unmap :
    (s.unmap c pd t va p).target = update s.target (.pte e (pdx va) (ptx va)) none := by
  rw [unmap_eq]
  change ((s.setMem t (ptx va) 0#32).dropRef p).target = _
  rw [target_dropRef, h.target_setMem_table ht hi, entryPage_zero]

include h ht hp hi in
theorem unmap :
    PageInv M F (if (s.pages p).ref = 1#16 then p :: l else l) (s.unmap c pd t va p) := by
  have hset := h.target_setMem_table (j := ptx va) (w := 0#32) ht hi
  rw [entryPage_zero] at hset
  have ha : SameAlloc s (s.setMem t (ptx va) 0#32) := ⟨rfl, rfl, rfl, rfl⟩
  have hu := h.unlink hp (h.page_mem hp) ha hset h.dir
  rw [unmap_eq]
  exact hu.invalidate

include h ht in
theorem pteOf_unmap (hi' : i'.val < pdxUtop) :
    (s.unmap c pd t va p).pteOf e' i' j' =
      if e' = e ∧ i' = pdx va ∧ j' = ptx va then 0#32 else s.pteOf e' i' j' := by
  rw [unmap_eq]
  change ((s.setMem t (ptx va) 0#32).dropRef p).pteOf e' i' j' = _
  rw [pteOf_dropRef, h.pteOf_setMem_table ht hi']

theorem mem_unmap (hq : q ≠ t) : (s.unmap c pd t va p).mem q = s.mem q := by
  rw [unmap_eq]
  change ((s.setMem t (ptx va) 0#32).dropRef p).mem q = _
  rw [mem_dropRef]
  simp [setMem, hq]

end Unmap

end PageInv

end Jos
