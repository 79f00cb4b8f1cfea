import Jos.Kernel.Theorems.Tables

-- The effect of `pgdir_walk`, `page_remove` and `page_insert` on the user part of an address space
-- in a state that satisfies the allocator's invariant.

open Function RefCount Program

namespace Jos

open Kernel

variable {M F F' : Set Ppn} {l l' : List Ppn} {s s' : Kernel} {c : CpuIx} {e e' : EnvIx}
  {i i' j j' : Ptx} {pd t p q pp : Ppn} {va perm w : Word} {r : Ref}

namespace Kernel

-- Everything outside of the allocator, the page tables and the cached translations is the same.
structure SameEnvs (s s' : Kernel) : Prop where
  envs      : s'.envs = s.envs
  free      : s'.envFreeList = s.envFreeList
  kernPgdir : s'.kernPgdir = s.kernPgdir
  npages    : s'.npages = s.npages
  cons      : s'.cons = s.cons
  checkAddr : s'.userMemCheckAddr = s.userMemCheckAddr
  cpus      : ∀ c, { s'.cpus c with tlb := [] } = { s.cpus c with tlb := [] }

namespace SameEnvs

theorem refl : SameEnvs s s :=
  ⟨rfl, rfl, rfl, rfl, rfl, rfl, fun _ => rfl⟩

theorem trans {s t u : Kernel} (h : SameEnvs s t) (h' : SameEnvs t u) : SameEnvs s u where
  envs := h'.envs.trans h.envs
  free := h'.free.trans h.free
  kernPgdir := h'.kernPgdir.trans h.kernPgdir
  npages := h'.npages.trans h.npages
  cons := h'.cons.trans h.cons
  checkAddr := h'.checkAddr.trans h.checkAddr
  cpus c := (h'.cpus c).trans (h.cpus c)

theorem pgdirOf (h : SameEnvs s s') : s'.pgdirOf = s.pgdirOf := by
  funext e
  simp only [Kernel.pgdirOf, h.envs]

theorem cur (h : SameEnvs s s') : s'.cur = s.cur := by
  funext c
  have := congrArg CpuInfo.env (h.cpus c)
  exact this

theorem cr3 (h : SameEnvs s s') : (s'.cpus c).cr3 = (s.cpus c).cr3 := by
  have := congrArg CpuInfo.cr3 (h.cpus c)
  exact this

theorem invalidate : SameEnvs s (s.invalidate c pd va) := by
  refine ⟨rfl, rfl, rfl, rfl, rfl, rfl, fun c' => ?_⟩
  by_cases hc : c' = c <;> simp [Kernel.invalidate, setCpu, hc]

theorem dropRef : SameEnvs s (s.dropRef p) := by
  simp only [Kernel.dropRef]
  split <;> exact ⟨rfl, rfl, rfl, rfl, rfl, rfl, fun _ => rfl⟩

theorem unmap : SameEnvs s (s.unmap c pd t va p) :=
  dropRef.trans (u := (s.dropRef p).setMem t (ptx va) 0#32) ⟨rfl, rfl, rfl, rfl, rfl, rfl, fun _ => rfl⟩ |>.trans
    invalidate

end SameEnvs

-- `page_remove` as a function on states.
def unmapPage (s : Kernel) (c : CpuIx) (pd : Ppn) (va : Word) : Kernel :=
  match s.table pd (pdx va) with
  | none   => s
  | some t =>
    match entryPage (s.mem t (ptx va)) with
    | none   => s
    | some p => s.unmap c pd t va p

-- What `pgdir_walk` does when it may create a page table and has memory for it.
def ensureTable (s : Kernel) (pd : Ppn) (i : Ptx) : Kernel :=
  match s.table pd i, s.pageFreeList with
  | none, some t => s.addTable pd i t
  | _, _         => s

def retake (s : Kernel) (pp : Ppn) : Kernel :=
  if s.pageFreeList = some pp then s.popFree pp else s

def storePte (s : Kernel) (pd pp : Ppn) (va perm : Word) : Kernel :=
  match s.table pd (pdx va) with
  | none   => s
  | some t => (s.setMem t (ptx va) (page2pa pp ||| perm ||| pteP)).incRef pp

-- `page_insert` as a function on states, provided there is memory for a page table.
def mapPage (s : Kernel) (c : CpuIx) (pd pp : Ppn) (va perm : Word) : Kernel :=
  (((s.ensureTable pd (pdx va)).unmapPage c pd va).retake pp).storePte pd pp va perm

-- `page_insert` needs a page table and cannot have one.
def NoTable (s : Kernel) (pd : Ppn) (i : Ptx) : Prop :=
  s.table pd i = none ∧ s.pageFreeList = none

instance : Decidable (s.NoTable pd i) :=
  inferInstanceAs (Decidable (_ ∧ _))

namespace SameEnvs

theorem unmapPage : SameEnvs s (s.unmapPage c pd va) := by
  simp only [Kernel.unmapPage]
  split
  case _ => exact refl
  case _ =>
    split
    case _ => exact refl
    case _ => exact unmap

theorem ensureTable : SameEnvs s (s.ensureTable pd i) := by
  simp only [Kernel.ensureTable]
  split <;> exact ⟨rfl, rfl, rfl, rfl, rfl, rfl, fun _ => rfl⟩

theorem retake : SameEnvs s (s.retake pp) := by
  simp only [Kernel.retake]
  split <;> exact ⟨rfl, rfl, rfl, rfl, rfl, rfl, fun _ => rfl⟩

theorem storePte : SameEnvs s (s.storePte pd pp va perm) := by
  simp only [Kernel.storePte]
  split <;> exact ⟨rfl, rfl, rfl, rfl, rfl, rfl, fun _ => rfl⟩

theorem mapPage : SameEnvs s (s.mapPage c pd pp va perm) :=
  ensureTable.trans <| unmapPage.trans <| retake.trans storePte

end SameEnvs

end Kernel

namespace PageInv

variable (h : PageInv M F l s) (hd : s.pgdirOf e = some pd) (hi : (pdx va).val < pdxUtop)

include h hd hi in
theorem pageRemove_run : (pageRemove c pd va).run s = .ok () (s.unmapPage c pd va) := by
  have hb := fun t => h.table_bound (t := t) hd hi
  simp only [unmapPage]
  split
  case _ ht => exact pageRemove_none hb (by simp [entry, ht])
  case _ t ht =>
    split
    case _ he => exact pageRemove_none hb (by simpa [entry, ht] using he)
    case _ p he =>
      have hp : s.target (.pte e (pdx va) (ptx va)) = some p := by
        rw [target_pte hi, pteOf_eq hd, entry, ht, he]
      have hm := h.page_mem hp
      exact pageRemove_some ht (hb t ht) he (h.bound hm) fun _ => h.link_of_ref hm hp

include h hd hi in
theorem table_unmapPage : (s.unmapPage c pd va).table pd i = s.table pd i := by
  simp only [unmapPage]
  split
  case _ => rfl
  case _ t ht =>
    split
    case _ => rfl
    case _ p he =>
      have hne : pd ≠ t := by
        rw [← tableOf_eq hd, ← target_pde hi] at ht
        exact (h.table_ne_pgdir ht hd).symm
      simp only [table, mem_unmap hne]

section EnsureTable

theorem ensureTable_of_table (ht : s.table pd i = some t) : s.ensureTable pd i = s := by
  simp [Kernel.ensureTable, ht]

theorem ensureTable_of_none (ht : s.table pd i = none) (hl : s.pageFreeList = some t) :
    s.ensureTable pd i = s.addTable pd i t := by
  simp [Kernel.ensureTable, ht, hl]

include h in
theorem free_of_head (hl : s.pageFreeList = some t) : ∃ l', l = t :: l' := by
  have hc := h.chain
  rw [FreeList, hl] at hc
  obtain ⟨l', hl', _⟩ := hc.head_some
  exact ⟨l', hl'⟩

theorem table_addTable : (s.addTable pd i t).table pd i = some t := by
  simp [table, Kernel.addTable, setMem, entryPage_table]

variable (hi₀ : i.val < pdxUtop)

-- Either the table exists, or the head of the free list becomes the table.
include h hd hi₀ in
theorem ensureTable (hn : ¬s.NoTable pd i) :
    ∃ l' t, PageInv M F l' (s.ensureTable pd i) ∧ (s.ensureTable pd i).table pd i = some t ∧
      (l' = l ∨ l = t :: l') ∧ (s.table pd i = some t ∨ t ∈ l) := by
  cases ht : s.table pd i
  case some t =>
    rw [ensureTable_of_table ht]
    exact ⟨l, t, h, ht, .inl rfl, .inl rfl⟩
  case none =>
    cases hl : s.pageFreeList
    case none => exact absurd ⟨ht, hl⟩ hn
    case some t =>
      have ⟨l', hl'⟩ := h.free_of_head hl
      subst hl'
      have hF : t ∉ F := (h.pool.mem_free.mp (by simp)).2.2
      rw [ensureTable_of_none ht hl]
      exact ⟨l', t, h.addTable hd hi₀ (tableOf_eq hd ▸ ht) hF, table_addTable, .inr rfl, .inr (by simp)⟩

include h hd in
theorem pteOf_ensureTable (hi' : i'.val < pdxUtop) :
    (s.ensureTable pd i).pteOf e' i' j' = s.pteOf e' i' j' := by
  cases ht : s.table pd i
  case some t => rw [ensureTable_of_table ht]
  case none =>
    cases hl : s.pageFreeList
    case none => simp [Kernel.ensureTable, ht, hl]
    case some t =>
      have ⟨l', hl'⟩ := h.free_of_head hl
      subst hl'
      rw [ensureTable_of_none ht hl]
      exact h.pteOf_addTable hd (tableOf_eq hd ▸ ht) hi'

theorem mem_ensureTable (hq : q ≠ pd) (hl : s.pageFreeList ≠ some q) :
    (s.ensureTable pd i).mem q = s.mem q := by
  simp only [Kernel.ensureTable]
  split
  case _ t _ ht => exact mem_addTable (fun e => hl (e ▸ ht)) hq
  case _ => rfl

end EnsureTable

include h hd hi in
theorem pgdirWalk_run (hn : ¬s.NoTable pd (pdx va))
    (ht : (s.ensureTable pd (pdx va)).table pd (pdx va) = some t) :
    (pgdirWalk pd va true).run s = .ok (some (t, ptx va)) (s.ensureTable pd (pdx va)) := by
  cases ht' : s.table pd (pdx va)
  case some t' =>
    rw [ensureTable_of_table ht', ht'] at ht
    cases ht
    rw [ensureTable_of_table ht']
    exact pgdirWalk_some ht' (h.table_bound hd hi ht')
  case none =>
    cases hl : s.pageFreeList
    case none => exact absurd ⟨ht', hl⟩ hn
    case some t' =>
      rw [ensureTable_of_none ht' hl, table_addTable] at ht
      cases ht
      have ⟨l', hl'⟩ := h.free_of_head hl
      subst hl'
      rw [ensureTable_of_none ht' hl]
      exact pgdirWalk_create ht' hl h.free_bound

include h hd hi in
theorem pageInsert_run (hn : ¬s.NoTable pd (pdx va)) :
    (pageInsert c pd pp va perm).run s = .ok 0#32 (s.mapPage c pd pp va perm) := by
  have ⟨l', t, h', ht, _⟩ := h.ensureTable hd hi hn
  have hd' : (s.ensureTable pd (pdx va)).pgdirOf e = some pd := by rw [SameEnvs.ensureTable.pgdirOf, hd]
  have ht' := (h'.table_unmapPage (c := c) (i := pdx va) hd' hi).trans ht
  simp only [pageInsert, run_bind, h.pgdirWalk_run hd hi hn ht, h'.pageRemove_run hd' hi, run_get,
    mapPage, retake]
  split
  case isTrue hl =>
    have ht'' : (((s.ensureTable pd (pdx va)).unmapPage c pd va).popFree pp).table pd (pdx va) = some t :=
      ht'
    simp [pageAlloc_some hl, storePte, ht'']
  case isFalse => simp [storePte, ht']

theorem pageInsert_nomem (hn : s.NoTable pd (pdx va)) :
    (pageInsert c pd pp va perm).run s = .ok enomem s := by
  simp [pageInsert, pgdirWalk_nomem hn.1 hn.2]

section UnmapPage

-- The page at `va` loses its mapping, and with the last one it becomes the head of the free list.
include h hd hi in
theorem unmapPage : ∃ l', PageInv M F l' (s.unmapPage c pd va) ∧
    (l' = l ∨ ∃ p, s.target (.pte e (pdx va) (ptx va)) = some p ∧ l' = p :: l) := by
  simp only [Kernel.unmapPage]
  split
  case _ => exact ⟨l, h, .inl rfl⟩
  case _ t ht =>
    split
    case _ => exact ⟨l, h, .inl rfl⟩
    case _ p he =>
      have hp : s.target (.pte e (pdx va) (ptx va)) = some p := by
        rw [target_pte hi, pteOf_eq hd, entry, ht, he]
      rw [← tableOf_eq hd, ← target_pde hi] at ht
      refine ⟨_, h.unmap ht hp hi, ?_⟩
      split
      case isTrue => exact .inr ⟨p, hp, rfl⟩
      case isFalse => exact .inl rfl

include h hd hi in
theorem target_unmapPage :
    (s.unmapPage c pd va).target = update s.target (.pte e (pdx va) (ptx va)) none := by
  simp only [Kernel.unmapPage]
  split
  case _ ht =>
    rw [← tableOf_eq hd] at ht
    rw [← no_table_pte hi ht, update_eq_self]
  case _ t ht =>
    split
    case _ he =>
      have hp : s.target (.pte e (pdx va) (ptx va)) = none := by
        rw [target_pte hi, pteOf_eq hd, entry, ht, he]
      rw [← hp, update_eq_self]
    case _ p he =>
      rw [← tableOf_eq hd, ← target_pde hi] at ht
      exact h.target_unmap ht hi

include h hd hi in
theorem pteOf_unmapPage (hi' : i'.val < pdxUtop) (hne : ¬(e' = e ∧ i' = pdx va ∧ j' = ptx va)) :
    (s.unmapPage c pd va).pteOf e' i' j' = s.pteOf e' i' j' := by
  simp only [Kernel.unmapPage]
  split
  case _ => rfl
  case _ t ht =>
    split
    case _ => rfl
    case _ p he =>
      rw [← tableOf_eq hd, ← target_pde hi] at ht
      rw [h.pteOf_unmap ht hi', if_neg hne]

theorem mem_unmapPage (hq : s.table pd (pdx va) ≠ some q) :
    (s.unmapPage c pd va).mem q = s.mem q := by
  simp only [Kernel.unmapPage]
  split
  case _ => rfl
  case _ t ht =>
    split
    case _ => rfl
    case _ => exact mem_unmap fun e => hq (e ▸ ht)

end UnmapPage

section StorePte

variable {e₀ : EnvIx} {i₀ j₀ : Ptx} (ht : s.table pd (pdx va) = some t) (hp : FlagsOnly perm)

theorem storePte_eq (ht : s.table pd (pdx va) = some t) : s.storePte pd pp va perm =
    (s.setMem t (ptx va) (page2pa pp ||| perm ||| pteP)).incRef pp := by
  simp [storePte, ht]

include h hd hi ht hp in
theorem target_setPte : (s.setMem t (ptx va) (page2pa pp ||| perm ||| pteP)).target =
    update s.target (.pte e (pdx va) (ptx va)) (some pp) := by
  rw [← tableOf_eq hd, ← target_pde hi] at ht
  rw [h.target_setMem_table ht hi, entryPage_insert hp]

include h hd hi ht hp in
theorem target_storePte : (s.storePte pd pp va perm).target =
    update s.target (.pte e (pdx va) (ptx va)) (some pp) := by
  rw [storePte_eq ht]
  exact h.target_setPte hd hi ht hp

include h hd hi ht in
theorem pteOf_storePte (hi' : i'.val < pdxUtop) : (s.storePte pd pp va perm).pteOf e' i' j' =
    if e' = e ∧ i' = pdx va ∧ j' = ptx va then page2pa pp ||| perm ||| pteP else s.pteOf e' i' j' := by
  rw [storePte_eq ht]
  rw [← tableOf_eq hd, ← target_pde hi] at ht
  exact h.pteOf_setMem_table ht hi'

theorem mem_storePte (hq : s.table pd (pdx va) ≠ some q) :
    (s.storePte pd pp va perm).mem q = s.mem q := by
  simp only [storePte]
  split
  case _ => rfl
  case _ t ht =>
    have hne : q ≠ t := fun e => hq (e ▸ ht)
    simp [incRef, setPage, setMem, hne]

variable (he : s.target (.pte e (pdx va) (ptx va)) = none)

omit h in
include hd hi ht hp he in
theorem storePte_flight (h : PageInv M (insert pp F) l s) (hF : pp ∉ F) :
    PageInv M F l (s.storePte pd pp va perm) := by
  rw [storePte_eq ht]
  exact h.link_flight hF ⟨rfl, rfl, rfl, rfl⟩ (h.target_setPte hd hi ht hp) he (by simp) h.dir

include h hd hi ht hp he in
theorem storePte_shared (hr : s.target (.pte e₀ i₀ j₀) = some pp) (hb : s.refs pp + 1 < 2 ^ 16) :
    PageInv M F l (s.storePte pd pp va perm) := by
  rw [storePte_eq ht]
  exact h.link_shared hr id id ⟨rfl, rfl, rfl, rfl⟩ (h.target_setPte hd hi ht hp) he hb h.dir

end StorePte

section MapPage

variable {e₀ : EnvIx} {i₀ j₀ : Ptx}

-- A page without a mapping other than the one just removed is the head of the free list.
include h in
theorem freed_head {l' : List Ppn} (h' : PageInv M F l' (s.unmapPage c pd va))
    (hr : s.target (.pte e₀ i₀ j₀) = some pp)
    (hl : l' = l ∨ ∃ p, s.target (.pte e (pdx va) (ptx va)) = some p ∧ l' = p :: l)
    (hz : (s.unmapPage c pd va).refs pp = 0) : l' = pp :: l := by
  have hF : pp ∉ F := fun hf => h.pool.not_ref_of_flight hf hr
  have hm : pp ∈ l' := h'.pool.mem_free.mpr ⟨h.page_mem hr, hz, hF⟩
  obtain rfl | ⟨p, -, rfl⟩ := hl
  case inl => exact absurd hm (h.pool.not_free_of_ref hr)
  case inr =>
    cases List.mem_cons.mp hm
    case inl he => rw [he]
    case inr hm => exact absurd hm (h.pool.not_free_of_ref hr)

-- `pp` can be mapped: it is in flight, and then `F'` is what remains in flight, or it is mapped
-- somewhere already.
inductive Held (F F' : Set Ppn) (s : Kernel) (pp : Ppn) : Prop
  | flight (hF : F = insert pp F') (hn : pp ∉ F')
  | mapped {e : EnvIx} {i j : Ptx} (hF : F' = F) (hr : s.target (.pte e i j) = some pp)

theorem pgdirOf_retake (pp : Ppn) : (s.retake pp).pgdirOf = s.pgdirOf :=
  SameEnvs.retake.pgdirOf

theorem table_retake (pp : Ppn) : (s.retake pp).table = s.table := by
  simp only [retake]
  split <;> rfl

theorem target_retake (pp : Ppn) : (s.retake pp).target = s.target := by
  simp only [retake]
  split <;> rfl

theorem pteOf_retake : (s.retake pp).pteOf = s.pteOf := by
  simp only [retake]
  split <;> rfl

theorem mem_retake : (s.retake pp).mem = s.mem := by
  simp only [retake]
  split <;> rfl

-- The state in which `page_insert` stores the new entry.
include h hd hi in
theorem removed (hn : ¬s.NoTable pd (pdx va)) :
    ∃ l₁ l₂ t, PageInv M F l₁ (s.ensureTable pd (pdx va)) ∧
      PageInv M F l₂ ((s.ensureTable pd (pdx va)).unmapPage c pd va) ∧
      (l₂ = l₁ ∨ ∃ p, s.target (.pte e (pdx va) (ptx va)) = some p ∧ l₂ = p :: l₁) ∧
      ((s.ensureTable pd (pdx va)).unmapPage c pd va).pgdirOf e = some pd ∧
      ((s.ensureTable pd (pdx va)).unmapPage c pd va).table pd (pdx va) = some t ∧
      (s.table pd (pdx va) = some t ∨ t ∈ l) := by
  have ⟨l₁, t, h₁, ht, _, ho⟩ := h.ensureTable hd hi hn
  have hd₁ : (s.ensureTable pd (pdx va)).pgdirOf e = some pd := by rw [SameEnvs.ensureTable.pgdirOf, hd]
  have ⟨l₂, h₂, hl₂⟩ := h₁.unmapPage (c := c) hd₁ hi
  rw [target_pte hi, h.pteOf_ensureTable hd hi, ← target_pte hi] at hl₂
  refine ⟨l₁, l₂, t, h₁, h₂, hl₂, by rw [SameEnvs.unmapPage.pgdirOf, hd₁], ?_, ho⟩
  rw [h₁.table_unmapPage hd₁ hi, ht]

omit h in
theorem lt_of_page (hr : s.target (.pte e₀ i₀ j₀) = some pp) : i₀.val < pdxUtop := by
  by_contra hn
  simp [target, hn] at hr

-- Taking a page back which was freed along with its last mapping makes it available again.
include h hd hi in
theorem retaken (hn : ¬s.NoTable pd (pdx va)) (hx : Held F F' s pp) :
    ∃ F₃ l₃, PageInv M F₃ l₃ (((s.ensureTable pd (pdx va)).unmapPage c pd va).retake pp) ∧
      Held F₃ F' (((s.ensureTable pd (pdx va)).unmapPage c pd va).retake pp) pp ∧ F ⊆ F₃ := by
  have ⟨l₁, l₂, t, h₁, h₂, hl, _⟩ := h.removed (c := c) hd hi hn
  have hd₁ : (s.ensureTable pd (pdx va)).pgdirOf e = some pd := by rw [SameEnvs.ensureTable.pgdirOf, hd]
  have hne {F l s} (h : PageInv M F l s) (hm : pp ∉ l) : s.pageFreeList ≠ some pp := by
    intro he
    have ⟨l', hl'⟩ := h.free_of_head he
    exact hm (by simp [hl'])
  cases hx
  case flight hF hn' =>
    subst hF
    rw [retake, if_neg (hne h₂ (h₂.pool.not_free_of_flight (by simp)))]
    exact ⟨_, l₂, h₂, .flight rfl hn', subset_rfl⟩
  case mapped e₀ i₀ j₀ hF hr =>
    subst hF
    have hr₁ : (s.ensureTable pd (pdx va)).target (.pte e₀ i₀ j₀) = some pp := by
      rw [target_pte (lt_of_page hr), h.pteOf_ensureTable hd (lt_of_page hr), ← target_pte (lt_of_page hr), hr]
    rw [target_pte hi, ← h.pteOf_ensureTable (i := pdx va) hd hi, ← target_pte hi] at hl
    by_cases hz : ((s.ensureTable pd (pdx va)).unmapPage c pd va).refs pp = 0
    case pos =>
      have hl₂ := h₁.freed_head h₂ hr₁ hl hz
      subst hl₂
      rw [retake, if_pos h₂.free_head]
      exact ⟨_, l₁, h₂.popFree, .flight rfl fun hf => h.pool.not_ref_of_flight hf hr, Set.subset_insert _ _⟩
    case neg =>
      have ⟨r, hr₂⟩ := refs_pos_iff.mp (Nat.pos_of_ne_zero hz)
      rw [retake, if_neg (hne h₂ (h₂.pool.not_free_of_ref hr₂))]
      have hr₃ := hr₂
      rw [h₁.target_unmapPage hd₁ hi, update_apply] at hr₃
      cases r
      case pte => exact ⟨_, l₂, h₂, .mapped rfl hr₂, subset_rfl⟩
      all_goals
        rw [if_neg (by simp)] at hr₃
        have hu := h₁.unique (by trivial) hr₃ hr₁
        simp at hu

include h hd hi in
theorem target_mapPage (hn : ¬s.NoTable pd (pdx va)) (hp : FlagsOnly perm) (hx : Held F F' s pp) :
    (s.mapPage c pd pp va perm).target =
      update (s.ensureTable pd (pdx va)).target (.pte e (pdx va) (ptx va)) (some pp) := by
  have ⟨l₁, l₂, t, h₁, _, _, hd₂, ht, _⟩ := h.removed (c := c) hd hi hn
  have ⟨F₃, l₃, h₃, _⟩ := h.retaken (c := c) hd hi hn hx
  rw [← pgdirOf_retake pp] at hd₂
  rw [← table_retake pp] at ht
  rw [Kernel.mapPage, h₃.target_storePte hd₂ hi ht hp, target_retake,
    h₁.target_unmapPage (by rw [SameEnvs.ensureTable.pgdirOf, hd]) hi, update_idem]

include h hd hi in
theorem mapPage (hn : ¬s.NoTable pd (pdx va)) (hp : FlagsOnly perm) (hx : Held F F' s pp)
    (hb : pp ∉ F → (s.mapPage c pd pp va perm).refs pp < 2 ^ 16) :
    ∃ l', PageInv M F' l' (s.mapPage c pd pp va perm) := by
  have ⟨l₁, l₂, t, h₁, _, _, hd₂, ht, _⟩ := h.removed (c := c) hd hi hn
  have ⟨F₃, l₃, h₃, hx₃, hF₃⟩ := h.retaken (c := c) hd hi hn hx
  have he : ((s.ensureTable pd (pdx va)).unmapPage c pd va).target (.pte e (pdx va) (ptx va)) = none := by
    rw [h₁.target_unmapPage (by rw [SameEnvs.ensureTable.pgdirOf, hd]) hi, update_self]
  rw [← pgdirOf_retake pp] at hd₂
  rw [← table_retake pp] at ht
  rw [← target_retake pp] at he
  cases hx₃
  case flight hF hn' =>
    subst hF
    exact ⟨l₃, h₃.storePte_flight hd₂ hi ht hp he hn'⟩
  case mapped hF hr =>
    subst hF
    refine ⟨l₃, h₃.storePte_shared hd₂ hi ht hp he hr ?_⟩
    rw [Kernel.mapPage, Kernel.refs, h₃.target_storePte hd₂ hi ht hp, refs_link he] at hb
    exact hb fun hf => h₃.pool.not_ref_of_flight (hF₃ hf) hr

include h hd hi in
theorem pteOf_mapPage (hn : ¬s.NoTable pd (pdx va)) (hx : Held F F' s pp) (hi' : i'.val < pdxUtop) :
    (s.mapPage c pd pp va perm).pteOf e' i' j' =
      if e' = e ∧ i' = pdx va ∧ j' = ptx va then page2pa pp ||| perm ||| pteP
      else s.pteOf e' i' j' := by
  have ⟨l₁, l₂, t, h₁, _, _, hd₂, ht, _⟩ := h.removed (c := c) hd hi hn
  have ⟨F₃, l₃, h₃, _⟩ := h.retaken (c := c) hd hi hn hx
  rw [← pgdirOf_retake pp] at hd₂
  rw [← table_retake pp] at ht
  rw [Kernel.mapPage, h₃.pteOf_storePte hd₂ hi ht hi']
  split
  case isTrue => rfl
  case isFalse hne =>
    rw [pteOf_retake, h₁.pteOf_unmapPage (by rw [SameEnvs.ensureTable.pgdirOf, hd]) hi hi' hne,
      h.pteOf_ensureTable hd hi']

-- Only the page directory and the page table are written.
include h hd hi in
theorem mem_mapPage (hn : ¬s.NoTable pd (pdx va)) (hq : ¬s.Table q) (hl : q ∉ l) :
    (s.mapPage c pd pp va perm).mem q = s.mem q := by
  have ⟨l₁, t, h₁, ht, _, ho⟩ := h.ensureTable hd hi hn
  have hd₁ : (s.ensureTable pd (pdx va)).pgdirOf e = some pd := by rw [SameEnvs.ensureTable.pgdirOf, hd]
  have hqt : q ≠ t := by
    rintro rfl
    refine ho.elim (fun ht => hq ?_) hl
    rw [← tableOf_eq hd, ← target_pde hi] at ht
    exact .inr <| .inr ⟨e, _, ht⟩
  have hq₁ : (s.ensureTable pd (pdx va)).table pd (pdx va) ≠ some q := by
    rw [ht]
    simpa using hqt.symm
  rw [Kernel.mapPage, mem_storePte, mem_retake, mem_unmapPage hq₁, mem_ensureTable]
  · rintro rfl
    exact hq <| .inr <| .inl ⟨e, hd⟩
  · intro he
    have ⟨l', hl'⟩ := h.free_of_head he
    exact hl (by simp [hl'])
  · rw [table_retake, h₁.table_unmapPage hd₁ hi]
    exact hq₁

end MapPage

end PageInv

end Jos
