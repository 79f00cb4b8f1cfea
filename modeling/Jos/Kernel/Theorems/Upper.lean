import Jos.Kernel.Theorems.Pages

-- The part of the address spaces from `UTOP` on, which the page directories of all environments share.

open Function RefCount Program

namespace Jos

open Kernel

variable {M F : Set Ppn} {l : List Ppn} {s s' : Kernel} {c : CpuIx} {e : EnvIx} {i j : Ptx} {pd p q t : Ppn}
  {va perm w : Word} {parentId : EnvId}

namespace Kernel

-- The pages which hold the kernel's part of the address spaces.
def Upper (s : Kernel) (q : Ppn) : Prop :=
  q = s.kernPgdir ∨ ∃ i, KernIx i ∧ s.target (.kpde i) = some q

-- The kernel's part is the same in all page directories.
structure SameUpper (s s' : Kernel) : Prop where
  kern   : s'.kernPgdir = s.kernPgdir
  pgdirs : s'.pgdirOf = s.pgdirOf
  mem    : ∀ {q}, s.Upper q → s'.mem q = s.mem q
  dir    : ∀ {e pd i}, s.pgdirOf e = some pd → pdxUtop ≤ i.val → s'.mem pd i = s.mem pd i

namespace SameUpper

theorem refl : SameUpper s s :=
  ⟨rfl, rfl, fun _ => rfl, fun _ _ => rfl⟩

theorem upper (h : SameUpper s s') (hq : s.Upper q) : s'.Upper q := by
  obtain rfl | ⟨i, hi, ht⟩ := hq
  case inl => exact .inl h.kern.symm
  case inr =>
    refine .inr ⟨i, hi, ?_⟩
    simpa [target, Kernel.table, h.kern, h.mem (.inl rfl)] using ht

theorem trans {s₁ s₂ s₃ : Kernel} (h : SameUpper s₁ s₂) (h' : SameUpper s₂ s₃) : SameUpper s₁ s₃ where
  kern := h'.kern.trans h.kern
  pgdirs := h'.pgdirs.trans h.pgdirs
  mem hq := (h'.mem (h.upper hq)).trans (h.mem hq)
  dir hd hi := (h'.dir (h.pgdirs ▸ hd) hi).trans (h.dir hd hi)

theorem of_mem (hk : s'.kernPgdir = s.kernPgdir) (hp : s'.pgdirOf = s.pgdirOf) (hm : s'.mem = s.mem) :
    SameUpper s s' :=
  ⟨hk, hp, fun _ => by rw [hm], fun _ _ => by rw [hm]⟩

theorem of_sameEnvs (h : SameEnvs s s') (hm : s'.mem = s.mem) : SameUpper s s' :=
  of_mem h.kernPgdir h.pgdirOf hm

end SameUpper

end Kernel

namespace PageInv

variable (h : PageInv M F l s) (hd : s.pgdirOf e = some pd)

include h in
theorem upper_ne_table (hq : s.Upper q) (ht : s.target (.pde e i) = some t) : q ≠ t := by
  rintro rfl
  obtain rfl | ⟨i', _, ht'⟩ := hq
  case inl => exact h.table_ne_kern ht rfl
  case inr => simpa using h.unique (by trivial) ht ht'

include h hd in
theorem upper_ne_pgdir (hq : s.Upper q) : q ≠ pd := by
  rintro rfl
  obtain rfl | ⟨i', _, ht'⟩ := hq
  case inl => exact h.pgdir_ne_kern hd rfl
  case inr => simpa using h.unique (by trivial) ht' (show s.target (.pgdir e) = _ from hd)

include h in
theorem upper_not_free (hq : s.Upper q) : q ∉ l := by
  intro hl
  obtain rfl | ⟨i', _, ht'⟩ := hq
  case inl => exact h.kern (h.pool.mem_free.mp hl).1
  case inr => exact h.pool.not_ref_of_free hl ht'

-- Writing an entry of a page table below `UTOP`.
include h in
theorem sameUpper_setMem_table (ht : s.target (.pde e i) = some t) : SameUpper s (s.setMem t j w) where
  kern := rfl
  pgdirs := rfl
  mem hq := by simp [Kernel.setMem, h.upper_ne_table hq ht]
  dir hd _ := by simp [Kernel.setMem, (h.table_ne_pgdir ht hd).symm]

-- Writing an entry of a page directory below `UTOP`.
include h hd in
theorem sameUpper_setMem_pgdir (hi : i.val < pdxUtop) : SameUpper s (s.setMem pd i w) where
  kern := rfl
  pgdirs := rfl
  mem hq := by simp [Kernel.setMem, h.upper_ne_pgdir hd hq]
  dir {e' pd' i'} hd' hi' := by
    have hne : i' ≠ i := by
      rintro rfl
      omega
    by_cases hp : pd' = pd
    case pos => simp [Kernel.setMem, hp, hne]
    case neg => simp [Kernel.setMem, hp]

theorem sameUpper_zeroPage (h : PageInv M F (t :: l) s) : SameUpper s ((s.popFree t).zeroPage t) where
  kern := rfl
  pgdirs := rfl
  mem {q} hq := by
    have hne : q ≠ t := by
      rintro rfl
      exact h.upper_not_free hq (by simp)
    simp [Kernel.zeroPage, Kernel.popFree, setPage, hne]
  dir hd _ := by simp [Kernel.zeroPage, Kernel.popFree, setPage, (h.fresh_ne_pgdir hd).symm]

theorem sameUpper_addTable (h : PageInv M F (t :: l) s) (hd : s.pgdirOf e = some pd) (hi : i.val < pdxUtop) :
    SameUpper s (s.addTable pd i t) := by
  have hs := h.zeroed.sameUpper_setMem_pgdir (w := page2pa t ||| pteP ||| pteU ||| pteW) hd hi
  exact (h.sameUpper_zeroPage.trans hs).trans (.of_mem rfl rfl rfl)

include h hd in
theorem sameUpper_ensureTable (hi : i.val < pdxUtop) : SameUpper s (s.ensureTable pd i) := by
  simp only [Kernel.ensureTable]
  split
  case h_1 hl =>
    obtain ⟨l', rfl⟩ := h.free_of_head hl
    exact h.sameUpper_addTable hd hi
  case h_2 => exact .refl

include h hd in
theorem sameUpper_unmapPage (hi : (pdx va).val < pdxUtop) : SameUpper s (s.unmapPage c pd va) := by
  simp only [Kernel.unmapPage]
  split
  case h_1 => exact .refl
  case h_2 t ht =>
    split
    case h_1 => exact .refl
    case h_2 p _ =>
      have ht' : s.target (.pde e (pdx va)) = some t := by rw [target_pde hi, tableOf_eq hd, ht]
      rw [unmap_eq]
      have hs : SameUpper s (s.setMem t (ptx va) 0#32) := h.sameUpper_setMem_table ht'
      exact (hs.trans (.of_sameEnvs .dropRef mem_dropRef)).trans (.of_sameEnvs .invalidate rfl)

include h hd in
theorem sameUpper_storePte (hi : (pdx va).val < pdxUtop) : SameUpper s (s.storePte pd p va perm) := by
  simp only [Kernel.storePte]
  split
  case h_1 => exact .refl
  case h_2 t ht =>
    have ht' : s.target (.pde e (pdx va)) = some t := by rw [target_pde hi, tableOf_eq hd, ht]
    have hs : SameUpper s (s.setMem t (ptx va) (page2pa p ||| perm ||| pteP)) := h.sameUpper_setMem_table ht'
    exact hs.trans (.of_mem rfl rfl rfl)

include h hd in
theorem sameUpper_mapPage {F' : Set Ppn} (hi : (pdx va).val < pdxUtop) (hn : ¬s.NoTable pd (pdx va))
    (hx : Held F F' s p) : SameUpper s (s.mapPage c pd p va perm) := by
  obtain ⟨l₁, l₂, t, h₁, h₂, -⟩ := h.removed (c := c) hd hi hn
  obtain ⟨F₃, l₃, h₃, -⟩ := h.retaken (c := c) hd hi hn hx
  have hs₁ : SameUpper s (s.ensureTable pd (pdx va)) := h.sameUpper_ensureTable hd hi
  have hd₁ : (s.ensureTable pd (pdx va)).pgdirOf e = some pd := hs₁.pgdirs ▸ hd
  have hs₂ := hs₁.trans (h₁.sameUpper_unmapPage (c := c) hd₁ hi)
  have hs₃ : SameUpper s (((s.ensureTable pd (pdx va)).unmapPage c pd va).retake p) :=
    hs₂.trans (.of_sameEnvs .retake mem_retake)
  exact hs₃.trans (h₃.sameUpper_storePte (hs₃.pgdirs ▸ hd) hi)

include h hd in
theorem sameUpper_unmapPages (hi : i.val < pdxUtop) (js : List Ptx) :
    SameUpper s (js.foldl (fun s j => s.unmapPage c pd (pgaddr i j)) s) := by
  induction js generalizing s l
  case nil => exact .refl
  case cons j js ih =>
    have hj : (pdx (pgaddr i j)).val < pdxUtop := by simpa using hi
    obtain ⟨l', h', -⟩ := h.unmapPage (c := c) hd hj
    have hs := h.sameUpper_unmapPage (c := c) hd hj
    exact hs.trans (ih h' (hs.pgdirs ▸ hd))

include h hd in
theorem sameUpper_clearTable (hi : i.val < pdxUtop) : SameUpper s (s.clearTable c pd i) := by
  cases ht : s.table pd i
  case none =>
    rw [clearTable_none ht]
    exact .refl
  case some t =>
    obtain ⟨l', h', -⟩ := h.clearPages (c := c) hd hi
    have hs : SameUpper s (s.clearPages c pd i) := by
      unfold Kernel.clearPages
      exact h.sameUpper_unmapPages hd hi _
    have hs' : SameUpper s ((s.clearPages c pd i).setMem pd i 0#32) :=
      hs.trans (h'.sameUpper_setMem_pgdir (hs.pgdirs ▸ hd) hi)
    rw [clearTable_some ht]
    exact hs'.trans (.of_sameEnvs .dropRef mem_dropRef)

include h hd in
theorem sameUpper_clearTables (is : List Ptx) (hi : ∀ i ∈ is, i.val < pdxUtop) :
    SameUpper s (is.foldl (fun s i => s.clearTable c pd i) s) := by
  induction is generalizing s l
  case nil => exact .refl
  case cons i is ih =>
    obtain ⟨⟨l', h'⟩, -⟩ := h.clearTable (c := c) hd (hi i (by simp))
    have hs := h.sameUpper_clearTable (c := c) hd (hi i (by simp))
    exact hs.trans (ih h' (hs.pgdirs ▸ hd) fun i' hi' => hi i' (by simp [hi']))

-- Freeing an environment, up to the point at which its page directory is given up.
include h hd in
theorem sameUpper_cleared : SameUpper s ((s.leave c e).clearTables c pd) := by
  have hs : SameUpper s (s.leave c e) := .of_mem sameAlloc_leave.kernPgdir pgdirOf_leave mem_leave
  refine hs.trans ?_
  unfold Kernel.clearTables
  exact h.leave.sameUpper_clearTables (hs.pgdirs ▸ hd) _ fun i hi => mem_userPdxs.mp hi

end PageInv

-- The kernel's part of the address spaces is what it was in `s₀`, and all page directories have it.
structure KernHalf (s₀ s : Kernel) : Prop where
  kern : s.kernPgdir = s₀.kernPgdir
  mem  : ∀ {q}, s₀.Upper q → s.mem q = s₀.mem q
  dir  : ∀ {e pd i}, s.pgdirOf e = some pd → pdxUtop ≤ i.val →
    s.mem pd i = if i = pdx uvpt then page2pa pd ||| pteP ||| pteU else s.mem s.kernPgdir i

namespace KernHalf

variable {s₀ : Kernel} (hk : KernHalf s₀ s)

include hk in
theorem upper (hq : s₀.Upper q) : s.Upper q := by
  obtain rfl | ⟨i, hi, ht⟩ := hq
  case inl => exact .inl hk.kern.symm
  case inr =>
    refine .inr ⟨i, hi, ?_⟩
    simpa [target, Kernel.table, hk.kern, hk.mem (.inl rfl)] using ht

include hk in
theorem sameUpper (hs : SameUpper s s') : KernHalf s₀ s' where
  kern := hs.kern.trans hk.kern
  mem hq := (hs.mem (hk.upper hq)).trans (hk.mem hq)
  dir hd hi := by
    have hd' := hs.pgdirs ▸ hd
    rw [hs.dir hd' hi, hs.kern, hs.mem (.inl rfl)]
    exact hk.dir hd' hi

include hk in
theorem newEnv (h : PageInv M F (p :: l) s) : KernHalf s₀ (s.newEnv e p parentId) where
  kern := hk.kern
  mem {q} hq := by
    have hne : q ≠ p := by
      rintro rfl
      exact h.upper_not_free (hk.upper hq) (by simp)
    rw [mem_newEnv hne]
    exact hk.mem hq
  dir {e' pd i} hd hi := by
    have hkp : s.kernPgdir ≠ p := by
      rintro rfl
      exact h.kern (h.pool.mem_free.mp (by simp)).1
    have hkm : (s.newEnv e p parentId).mem s.kernPgdir = s.mem s.kernPgdir := mem_newEnv hkp
    change _ = if i = pdx uvpt then _ else (s.newEnv e p parentId).mem s.kernPgdir i
    rw [hkm]
    by_cases he : e' = e
    case pos =>
      rw [he, pgdirOf_newEnv] at hd
      cases hd
      simp [Kernel.newEnv, newDir, setEnv, update_apply]
    case neg =>
      rw [pgdirOf_newEnv_of_ne he] at hd
      rw [mem_newEnv (h.fresh_ne_pgdir hd).symm]
      exact hk.dir hd hi

include hk in
theorem retire : KernHalf s₀ ((s.retire e).dropRef pd) := by
  have hkern : ((s.retire e).dropRef pd).kernPgdir = s.kernPgdir := SameEnvs.dropRef.kernPgdir
  have hmem : ((s.retire e).dropRef pd).mem = s.mem := PageInv.mem_dropRef
  refine ⟨hkern.trans hk.kern, fun hq => hmem ▸ hk.mem hq, fun {e' pd' i} hd hi => ?_⟩
  rw [hmem, hkern]
  rw [SameEnvs.dropRef.pgdirOf] at hd
  refine hk.dir (e := e') ?_ hi
  by_cases he : e' = e
  case pos => simp [he, PageInv.pgdirOf_retire] at hd
  case neg => rwa [PageInv.pgdirOf_retire_of_ne he] at hd

include hk in
theorem freeEnv (h : PageInv M F l s) (hd : s.pgdirOf e = some pd) : KernHalf s₀ (s.freeEnv c e pd) :=
  (hk.sameUpper (h.sameUpper_cleared hd)).retire

end KernHalf

-- The operations on address spaces below `UTOP`, in any order. The set holds the pages which `page_alloc` has handed
-- out and which have not been mapped yet.
inductive SpaceStep : Set Ppn × Kernel → Set Ppn × Kernel → Prop
  | envAlloc {F : Set Ppn} {s s' : Kernel} {parentId : EnvId} {x : Except Word EnvIx}
    (hr : (envAlloc parentId).run s = .ok x s') : SpaceStep (F, s) (F, s')
  | pageAlloc {F : Set Ppn} {s s' : Kernel} {zero : Bool} {p : Ppn} (hr : (pageAlloc zero).run s = .ok (some p) s') :
    SpaceStep (F, s) (insert p F, s')
  | insertNew {F : Set Ppn} {s s' : Kernel} {c : CpuIx} {e : EnvIx} {pd p : Ppn} {va perm : Word}
    (hd : s.pgdirOf e = some pd) (hv : va < utop) (hp : FlagsOnly perm) (hF : p ∈ F)
    (hr : (pageInsert c pd p va perm).run s = .ok 0#32 s') : SpaceStep (F, s) (F \ {p}, s')
  -- The page is mapped at `va₀` by some environment, perhaps the same one.
  | insertMapped {F : Set Ppn} {s s' : Kernel} {c : CpuIx} {e e₀ : EnvIx} {pd pd₀ p : Ppn} {pt : PtePtr}
    {va va₀ perm : Word} (hd₀ : s.pgdirOf e₀ = some pd₀) (hv₀ : va₀ < utop)
    (hl : (pageLookup pd₀ va₀).run s = .ok (some (p, pt)) s) (hd : s.pgdirOf e = some pd) (hv : va < utop)
    (hp : FlagsOnly perm) (hr : (pageInsert c pd p va perm).run s = .ok 0#32 s') : SpaceStep (F, s) (F, s')
  | insertFails {F : Set Ppn} {s s' : Kernel} {c : CpuIx} {e : EnvIx} {pd p : Ppn} {va perm : Word}
    (hd : s.pgdirOf e = some pd) (hv : va < utop) (hr : (pageInsert c pd p va perm).run s = .ok enomem s') :
    SpaceStep (F, s) (F, s')
  | pageRemove {F : Set Ppn} {s s' : Kernel} {c : CpuIx} {e : EnvIx} {pd : Ppn} {va : Word}
    (hd : s.pgdirOf e = some pd) (hv : va < utop) (hr : (pageRemove c pd va).run s = .ok () s') :
    SpaceStep (F, s) (F, s')
  | envFree {F : Set Ppn} {s s' : Kernel} {c : CpuIx} {e : EnvIx} (he : (s.envs e).status ≠ .free)
    (hr : (envFree c e).run s = .ok () s') : SpaceStep (F, s) (F, s')

def SpaceInv (M : Set Ppn) (s₀ : Kernel) (x : Set Ppn × Kernel) : Prop :=
  ∃ l L, PageInv M x.1 l x.2 ∧ EnvInv L x.2 ∧ KernHalf s₀ x.2

section Insert

variable {s₀ : Kernel} {F' : Set Ppn} {L : List EnvIx} (h : PageInv M F l s) (hL : EnvInv L s) (hk : KernHalf s₀ s)
  (hd : s.pgdirOf e = some pd) (hv : va < utop)

include h hd hv in
theorem PageInv.pageInsert_cases {r : Word} (hr : (pageInsert c pd p va perm).run s = .ok r s') :
    r = enomem ∧ s' = s ∨ ¬s.NoTable pd (pdx va) ∧ r = 0#32 ∧ s' = s.mapPage c pd p va perm := by
  by_cases hn : s.NoTable pd (pdx va)
  case pos =>
    rw [PageInv.pageInsert_nomem hn] at hr
    cases hr
    exact .inl ⟨rfl, rfl⟩
  case neg =>
    rw [h.pageInsert_run hd (pdx_lt hv) hn] at hr
    cases hr
    exact .inr ⟨hn, rfl, rfl⟩

include h hL hk hd hv in
theorem SpaceInv.mapPage (hp : FlagsOnly perm) (hx : PageInv.Held F F' s p)
    (hr : (pageInsert c pd p va perm).run s = .ok 0#32 s') (hb : RefsFit s') : SpaceInv M s₀ (F', s') := by
  obtain ⟨h0, -⟩ | ⟨hn, -, rfl⟩ := h.pageInsert_cases hd hv hr
  case inl => exact absurd h0 (by decide)
  case inr =>
    obtain ⟨l', h'⟩ := h.mapPage (c := c) hd (pdx_lt hv) hn hp hx fun _ => hb p
    exact ⟨l', L, h', hL.sameEnvs .mapPage, hk.sameUpper (h.sameUpper_mapPage hd (pdx_lt hv) hn hx)⟩

end Insert

theorem SpaceInv.step {s₀ : Kernel} {x x' : Set Ppn × Kernel} (hi : SpaceInv M s₀ x) (hs : SpaceStep x x')
    (hb : RefsFit x'.2) : SpaceInv M s₀ x' := by
  obtain ⟨l, L, h, hL, hk⟩ := hi
  cases hs
  case envAlloc F s s' parentId x hr =>
    cases he : s.envFreeList
    case none =>
      rw [envAlloc_full he] at hr
      cases hr
      exact ⟨l, L, h, hL, hk⟩
    case some e =>
      obtain ⟨L', rfl⟩ := hL.of_head he
      cases hl : s.pageFreeList
      case none =>
        rw [envAlloc_nomem he hl] at hr
        cases hr
        exact ⟨l, _, h, hL, hk⟩
      case some p =>
        obtain ⟨l', rfl⟩ := h.free_of_head hl
        rw [h.envAlloc_run he] at hr
        cases hr
        exact ⟨l', L', h.newEnv (hL.mem.mp (by simp)), hL.newEnv, hk.newEnv h⟩
  case pageAlloc F s s' zero p hr =>
    cases hl : s.pageFreeList
    case none =>
      rw [pageAlloc_none hl] at hr
      cases hr
    case some p' =>
      obtain ⟨l', rfl⟩ := h.free_of_head hl
      cases zero
      case false =>
        rw [pageAlloc_some hl] at hr
        cases hr
        exact ⟨l', L, h.popFree, hL.sameEnvs ⟨rfl, rfl, rfl, rfl, rfl, rfl, fun _ => rfl⟩,
          hk.sameUpper (.of_mem rfl rfl rfl)⟩
      case true =>
        rw [pageAlloc_zero hl h.free_bound] at hr
        cases hr
        exact ⟨l', L, h.zeroed, hL.sameEnvs ⟨rfl, rfl, rfl, rfl, rfl, rfl, fun _ => rfl⟩,
          hk.sameUpper h.sameUpper_zeroPage⟩
  case insertNew F s s' c e pd p va perm hd hv hp hF hr =>
    have hx : PageInv.Held F (F \ {p}) s p := .flight (by simp [Set.insert_eq_of_mem hF]) (by simp)
    exact SpaceInv.mapPage h hL hk hd hv hp hx hr hb
  case insertMapped F s s' c e e₀ pd pd₀ p pt va va₀ perm hd₀ hv₀ hl hd hv hp hr =>
    obtain hnone | ⟨p', pt', hl', ht, -⟩ := pageLookup_cases h hd₀ hv₀
    case inl =>
      rw [hnone] at hl
      cases hl
    case inr =>
      rw [hl'] at hl
      cases hl
      exact SpaceInv.mapPage h hL hk hd hv hp (.mapped rfl ht) hr hb
  case insertFails F s s' c e pd p va perm hd hv hr =>
    obtain ⟨-, rfl⟩ | ⟨-, h0, -⟩ := h.pageInsert_cases hd hv hr
    case inl => exact ⟨l, L, h, hL, hk⟩
    case inr => exact absurd h0 (by decide)
  case pageRemove F s s' c e pd va hd hv hr =>
    rw [h.pageRemove_run hd (pdx_lt hv)] at hr
    cases hr
    obtain ⟨l', h', -⟩ := h.unmapPage (c := c) hd (pdx_lt hv)
    exact ⟨l', L, h', hL.sameEnvs .unmapPage, hk.sameUpper (h.sameUpper_unmapPage hd (pdx_lt hv))⟩
  case envFree F s s' c e he hr =>
    obtain ⟨pd, hd⟩ := h.pgdirOf_live he
    rw [h.envFree_run hd] at hr
    cases hr
    obtain ⟨l', h'⟩ := h.freeEnv (c := c) hd
    exact ⟨l', e :: L, h', hL.freeEnv h hd, hk.freeEnv h hd⟩

-- A run in which all reference counts fit into `pp_ref`.
abbrev SpaceRun : Set Ppn × Kernel → Set Ppn × Kernel → Prop :=
  Relation.ReflTransGen fun x x' => SpaceStep x x' ∧ RefsFit x'.2

theorem SpaceInv.run {s₀ : Kernel} {x x' : Set Ppn × Kernel} (hi : SpaceInv M s₀ x) (hr : SpaceRun x x') :
    SpaceInv M s₀ x' := by
  induction hr
  case refl => exact hi
  case tail _ hs ih => exact ih.step hs.1 hs.2

end Jos
