import Jos.Kernel.Theorems.Calls
import Jos.Kernel.Theorems.Boot
import Mathlib.Logic.Relation

-- The allocator's invariant over whole runs of the kernel.

open Function RefCount Program

namespace Jos

open Kernel

variable {M F : Set Ppn} {l l' : List Ppn} {L : List EnvIx} {s s' : Kernel} {c : CpuIx} {e a : EnvIx}
  {pd p : Ppn} {va len perm : Word} {b : BootInfo} {k : Call}

-- The invariants of pages and of environments between two operations.
def MemInv (M : Set Ppn) (s : Kernel) : Prop :=
  ∃ l L, PageInv M ∅ l s ∧ EnvInv L s

-- The reference counts fit into `pp_ref`.
def RefsFit (s : Kernel) : Prop :=
  ∀ p, s.refs p < 2 ^ 16

theorem MemInv.sameMem (h : MemInv M s) (hs : SameMem s s') : MemInv M s' := by
  have ⟨l, L, hp, he⟩ := h
  exact ⟨l, L, hs.pageInv hp, hs.envInv he⟩

theorem EnvInv.sameEnvs (h : EnvInv L s) (hs : SameEnvs s s') : EnvInv L s' := by
  refine ⟨?_, h.nodup, ?_⟩
  case refine_1 => rw [hs.envs, hs.free]; exact h.chain
  case refine_2 => rw [hs.envs]; exact h.mem

-- Counts that are exact do fit.
theorem MemInv.refsFit (h : MemInv M s) : RefsFit s := by
  have ⟨l, _, h, _⟩ := h
  intro p
  by_cases hp : p ∈ M
  case pos => exact h.ref_eq hp ▸ (s.pages p).ref.isLt
  case neg =>
    by_cases hz : s.refs p = 0
    case pos => omega
    case neg =>
      have ⟨r, hr⟩ := refs_pos_iff.mp (Nat.pos_of_ne_zero hz)
      have hu : ∀ r', s.target r' = some p → r' = r := by
        intro r' hr'
        have h₁ := ((h.owned hr).resolve_left hp).1
        have h₂ := ((h.owned hr').resolve_left hp).1
        rw [h₁, h₂]
      have := refs_eq_one hr hu
      rw [Kernel.refs, this]
      decide

theorem MemInv.newEnv {parentId : EnvId} (h : MemInv M s) (he : s.envFreeList = some e)
    (hl : s.pageFreeList = some p) : MemInv M (s.newEnv e p parentId) := by
  obtain ⟨l, L, h, hL⟩ := h
  have ⟨l', hl'⟩ := h.free_of_head hl
  have ⟨L', hL'⟩ := hL.of_head he
  subst hl' hL'
  exact ⟨l', L', h.newEnv (hL.mem.mp (by simp)), hL.newEnv⟩

-- The head of the free list is mapped. The count of a new page cannot overflow.
theorem MemInv.allocPage (h : MemInv M s) (hl : s.pageFreeList = some p) (hd : s.pgdirOf e = some pd)
    (hv : (pdx va).val < pdxUtop) (hn : ¬(s.popFree p).NoTable pd (pdx va)) (hp : FlagsOnly perm) :
    MemInv M ((s.popFree p).mapPage c pd p va perm) := by
  obtain ⟨l, L, h, hL⟩ := h
  obtain ⟨l', rfl⟩ := h.free_of_head hl
  have hx : PageInv.Held (insert p ∅) ∅ (s.popFree p) p := .flight rfl (by simp)
  obtain ⟨l₁, h₁⟩ := h.popFree.mapPage (c := c) hd hv hn hp hx fun hm => absurd (Set.mem_insert _ _) hm
  refine ⟨l₁, L, h₁, hL.sameEnvs ?_⟩
  exact SameEnvs.trans (t := s.popFree p) ⟨rfl, rfl, rfl, rfl, rfl, rfl, fun _ => rfl⟩ .mapPage

-- A page that is mapped is mapped once more.
theorem MemInv.sharePage {e₀ : EnvIx} {i₀ j₀ : Ptx} (h : MemInv M s) (hr : s.target (.pte e₀ i₀ j₀) = some p)
    (hd : s.pgdirOf e = some pd) (hv : (pdx va).val < pdxUtop) (hn : ¬s.NoTable pd (pdx va)) (hp : FlagsOnly perm)
    (hb : (s.mapPage c pd p va perm).refs p < 2 ^ 16) : MemInv M (s.mapPage c pd p va perm) := by
  obtain ⟨l, L, h, hL⟩ := h
  obtain ⟨l₁, h₁⟩ := h.mapPage (c := c) hd hv hn hp (.mapped rfl hr) fun _ => hb
  exact ⟨l₁, L, h₁, hL.sameEnvs .mapPage⟩

-- Every effect of a system call keeps the invariants, if the count of the page it maps fits into `pp_ref`.
theorem Kernel.Effect.memInv (h : MemInv M s) (hx : Effect c a k s s') (hp : FlagsOnly k.perm)
    (hb : ∀ p, s.source a k = some p → s'.refs p < 2 ^ 16) : MemInv M s' := by
  have hi := h
  obtain ⟨l, L, h, he⟩ := h
  cases hx
  case skip => exact hi
  case alloc e pd pp hk _ hd hv _ hl hn =>
    replace hp : FlagsOnly k.a₃ := by simpa [Call.perm, hk] using hp
    exact hi.allocPage hl hd (pdx_lt (lt_utop_of_badVa hv)) hn hp
  case map e₀ e pd pp hk he₀ _ hd _ hv _ hr _ hn =>
    replace hp : FlagsOnly k.a₅ := by simpa [Call.perm, hk] using hp
    have hs : s.source a k = some pp := by simp [source, hk, he₀, hr]
    exact hi.sharePage hr hd (pdx_lt (lt_utop_of_badVa hv)) hn hp (hb pp hs)
  case send e pd pp hk _ _ hd _ hv _ hr _ hn =>
    replace hp : FlagsOnly k.a₄ := by simpa [Call.perm, hk] using hp
    have hs : s.source a k = some pp := by simp [source, hk, hr]
    exact hi.sharePage hr hd (pdx_lt hv) hn hp (hb pp hs)
  case unmap e pd _ _ hd hv =>
    have ⟨l₁, h₁, _⟩ := h.unmapPage (c := c) hd (pdx_lt (lt_utop_of_badVa hv))
    exact ⟨l₁, L, h₁, he.sameEnvs .unmapPage⟩
  case fork e p _ hf hl => exact hi.newEnv hf hl
  case free e pd _ hd =>
    have ⟨l₁, h₁⟩ := h.freeEnv (c := c) hd
    exact ⟨l₁, e :: L, h₁, he.freeEnv h hd⟩

theorem Kernel.After.memInv (h : MemInv M s) (hx : After c a k s s') (hp : FlagsOnly k.perm)
    (hb : RefsFit s') : MemInv M s' := by
  have ⟨s₀, s₁, hu, hx, hs⟩ := hx
  have hb₁ : RefsFit s₁ := fun p => hs.refs ▸ hb p
  exact (hx.memInv (h.sameMem hu.sameMem) hp fun p _ => hb₁ p).sameMem hs

section RegionAlloc

variable {n : Nat} {upper lower : Word}

-- The pages `region_alloc` maps are new, so that their counts cannot overflow.
theorem regionAllocLoop_inv (h : PageInv M F l s) (hd : s.pgdirOf e = some pd) (hu : upper ≤ utop) :
    wp (regionAllocLoop c pd upper n lower) (fun _ s' => (∃ l', PageInv M F l' s') ∧ SameEnvs s s')
      (fun _ _ => True) s := by
  induction n generalizing lower s l
  case zero => exact ⟨⟨l, h⟩, .refl⟩
  case succ n ih =>
    simp only [regionAllocLoop]
    split
    case isFalse => exact ⟨⟨l, h⟩, .refl⟩
    case isTrue hlt =>
      have hv : lower < utop := by bv_omega
      cases hl : s.pageFreeList
      case none =>
        rw [wp_bind_of_ok (pageAlloc_none hl)]
        exact trivial
      case some pp =>
        have ⟨l', hl'⟩ := h.free_of_head hl
        subst hl'
        have hd' : (s.popFree pp).pgdirOf e = some pd := hd
        have hF : pp ∉ F := (h.pool.mem_free.mp (by simp)).2.2
        have hs : SameEnvs s (s.popFree pp) := ⟨rfl, rfl, rfl, rfl, rfl, rfl, fun _ => rfl⟩
        rw [wp_bind_of_ok (pageAlloc_some hl)]
        by_cases hn : (s.popFree pp).NoTable pd (pdx lower)
        case pos =>
          simp only
          rw [wp_bind_of_ok (PageInv.pageInsert_nomem hn)]
          exact trivial
        case neg =>
          simp only
          rw [wp_bind_of_ok (h.popFree.pageInsert_run hd' (pdx_lt hv) hn), if_neg (by decide)]
          have hf : FlagsOnly (pteU ||| pteW) := by decide
          have ⟨l₁, h₁⟩ := h.popFree.mapPage (c := c) hd' (pdx_lt hv) hn hf (.flight rfl hF)
            fun hm => absurd (Set.mem_insert _ _) hm
          have hs₁ : SameEnvs s ((s.popFree pp).mapPage c pd pp lower (pteU ||| pteW)) := hs.trans .mapPage
          refine wp_mono (ih h₁ (hs₁.pgdirOf ▸ hd)) ?_ fun _ _ => id
          exact fun _ _ ⟨h₂, hs₂⟩ => ⟨h₂, hs₁.trans hs₂⟩

theorem regionAlloc_memInv (h : MemInv M s) (he : (s.envs e).status ≠ .free)
    (hu : roundUp (va + len) pgsize ≤ utop) :
    wp (regionAlloc c e va len) (fun _ => MemInv M) (fun _ _ => True) s := by
  obtain ⟨l, L, h, hL⟩ := h
  have ⟨pd, hd⟩ := h.pgdirOf_live he
  rw [regionAlloc, wp_bind_of_ok (envPgdir_run hd)]
  generalize 2 ^ 20 = n
  refine wp_mono (regionAllocLoop_inv h hd hu) ?_ fun _ _ => id
  exact fun _ _ ⟨⟨l', h'⟩, hs⟩ => ⟨l', L, h', hL.sameEnvs hs⟩

end RegionAlloc

theorem envFree_memInv (h : MemInv M s) (he : (s.envs e).status ≠ .free) :
    wp (envFree c e) (fun _ => MemInv M) (fun _ _ => True) s := by
  obtain ⟨l, L, h, hL⟩ := h
  have ⟨pd, hd⟩ := h.pgdirOf_live he
  have ⟨l', h'⟩ := h.freeEnv (c := c) hd
  exact wp_of_ok (h.envFree_run hd) ⟨l', e :: L, h', hL.freeEnv h hd⟩

theorem envAlloc_memInv {parentId : EnvId} (h : MemInv M s) :
    wp (envAlloc parentId) (fun _ => MemInv M) (fun _ _ => True) s := by
  have ⟨l, L, hp, hL⟩ := h
  cases he : s.envFreeList
  case none => exact wp_of_ok (envAlloc_full he) h
  case some e =>
    cases hl : s.pageFreeList
    case none => exact wp_of_ok (envAlloc_nomem he hl) h
    case some p =>
      have ⟨l', hl'⟩ := hp.free_of_head hl
      subst hl'
      exact wp_of_ok (hp.envAlloc_run he) (h.newEnv he hl)

theorem envAlloc_ok (parentId : EnvId) (h : MemInv M s) :
    ∃ x s', (envAlloc parentId).run s = .ok x s' := by
  have ⟨l, L, hp, hL⟩ := h
  cases he : s.envFreeList
  case none => exact ⟨_, _, envAlloc_full he⟩
  case some e =>
    cases hl : s.pageFreeList
    case none => exact ⟨_, _, envAlloc_nomem he hl⟩
    case some p =>
      have ⟨l', hl'⟩ := hp.free_of_head hl
      subst hl'
      exact ⟨_, _, hp.envAlloc_run he⟩

-- The state in which an operation leaves the kernel, whether or not it returns.
def Leaves {α : Type} (m : K α) (s s' : Kernel) : Prop :=
  (∃ x, m.run s = .ok x s') ∨ ∃ x, m.run s = .error x s'

theorem Leaves.of_wp {α : Type} {m : K α} {P : Kernel → Prop} (h : Leaves m s s')
    (hw : wp m (fun _ => P) (fun _ => P) s) : P s' := by
  obtain ⟨x, hr⟩ | ⟨x, hr⟩ := h
  case inl => exact wp_ok hw hr
  case inr => exact wp_error hw hr

-- The operations on pages and environments, in any order and by any environment. All permission
-- arguments satisfy `P`.
inductive MemStep (P : Word → Prop) (s : Kernel) : Kernel → Prop
  -- The scheduler makes some live environment the current one.
  | switch {c : CpuIx} {a : EnvIx} (ha : (s.envs a).status ≠ .free) :
    MemStep P s (s.setCpu c fun i => { i with env := some a })
  -- Any system call of the current environment: among them `sys_page_alloc`, `sys_page_map`,
  -- `sys_page_unmap`, `sys_exofork`, and `sys_ipc_try_send` with `sys_ipc_recv`.
  | syscall {c : CpuIx} {a : EnvIx} {k : Call} {s' : Kernel} (ha : s.cur c = some a)
    (hl : (s.envs a).status ≠ .free) (hp : P k.perm) (hr : Leaves (k.run c) s s') : MemStep P s s'
  | envAlloc {parentId : EnvId} {x : Except Word EnvIx} {s' : Kernel}
    (hr : (envAlloc parentId).run s = .ok x s') : MemStep P s s'
  -- `load_icode` uses it for the segments of a program, which is linked below `UTOP`.
  | regionAlloc {c : CpuIx} {e : EnvIx} {va len : Word} {s' : Kernel} (he : (s.envs e).status ≠ .free)
    (hu : roundUp (va + len) pgsize ≤ utop) (hr : (regionAlloc c e va len).run s = .ok () s') :
    MemStep P s s'
  | envFree {c : CpuIx} {e : EnvIx} {s' : Kernel} (he : (s.envs e).status ≠ .free)
    (hr : (envFree c e).run s = .ok () s') : MemStep P s s'

variable {P : Word → Prop}

-- It is enough that the system calls keep the invariants.
theorem MemStep.memInv_of (hs : MemStep P s s') (h : MemInv M s)
    (hc : ∀ {c a} {k : Call}, s.cur c = some a → (s.envs a).status ≠ .free → P k.perm → Leaves (k.run c) s s' →
      MemInv M s') : MemInv M s' := by
  cases hs
  case switch => exact h.sameMem .setCpu
  case syscall ha hl hp hr => exact hc ha hl hp hr
  case envAlloc hr => exact wp_ok (Q := fun _ => MemInv M) (envAlloc_memInv h) hr
  case regionAlloc he hu hr => exact wp_ok (Q := fun _ => MemInv M) (regionAlloc_memInv h he hu) hr
  case envFree he hr => exact wp_ok (Q := fun _ => MemInv M) (envFree_memInv h he) hr

theorem Leaves.after (h : PageInv M ∅ l s) (ha : s.cur c = some a) (hl : (s.envs a).status ≠ .free)
    (hr : Leaves (k.run c) s s') : After c a k s s' :=
  hr.of_wp (wp_mono (syscall_post h ha hl) (fun _ _ => Post.after) fun _ _ => id)

theorem MemStep.memInv (hs : MemStep P s s') (hP : ∀ perm, P perm → FlagsOnly perm) (h : MemInv M s)
    (hb : RefsFit s') : MemInv M s' := by
  have ⟨_, _, hi, _⟩ := h
  exact hs.memInv_of h fun ha hl hp hr => (hr.after hi ha hl).memInv h (hP _ hp) hb

-- A run in which all reference counts fit into `pp_ref`.
abbrev MemRun (P : Word → Prop) : Kernel → Kernel → Prop :=
  Relation.ReflTransGen fun s s' => MemStep P s s' ∧ RefsFit s'

theorem MemRun.memInv (hr : MemRun P s s') (hP : ∀ perm, P perm → FlagsOnly perm) (h : MemInv M s) :
    MemInv M s' := by
  induction hr
  case refl => exact h
  case tail _ hs ih => exact hs.1.memInv hP ih hs.2

theorem boot_memInv {s₀ s₁ s₂ : Kernel} (hb : b.Valid) (hm : (memInit b c).run s₀ = .ok () s₁)
    (he : envInit.run s₁ = .ok () s₂) : MemInv b.managed s₂ := by
  have ⟨⟨l, h₁⟩, he₁⟩ := wp_ok (memInit_wp hb.mappable) hm
  have ⟨L, s', hr, h₂, hL⟩ := envInit_inv h₁ he₁
  rw [he] at hr
  cases hr
  exact ⟨l, L, h₂, hL⟩

-- In every state of every run, the counts of the allocator's pages are exact, and the free list, which
-- is finite and has no repetitions, holds exactly the pages nobody refers to.
theorem page_refs_free_list {s₀ s₁ s₂ : Kernel} (hb : b.Valid) (hm : (memInit b c).run s₀ = .ok () s₁)
    (he : envInit.run s₁ = .ok () s₂) (hr : MemRun FlagsOnly s₂ s) (hp : p ∈ b.managed) :
    (s.pages p).ref.toNat = s.refs p ∧
    ∃ l, s.FreeList l ∧ l.Nodup ∧ l.count p = if s.refs p = 0 then 1 else 0 := by
  have ⟨l, L, h, _⟩ := hr.memInv (fun _ => id) (boot_memInv hb hm he)
  exact ⟨h.ref_eq hp, l, h.chain, h.pool.nodup, h.pool.count_eq hp⟩

-- A machine with 64 MB of extended memory.
def pc : BootInfo where
  npages := 16639
  npagesBasemem := 160
  kernEnd := 300
  bootstack := 0x110000#32
  percpuKstacks i := 0x118000#32 + BitVec.ofNat 32 i * kstksize

theorem pc_valid : pc.Valid :=
  ⟨by decide, by decide, by decide, by decide, by decide⟩

-- The state of the machine before the kernel has done anything.
def powerOn : Kernel where
  npages := 0
  pages _ := { link := none, ref := 0#16 }
  pageFreeList := none
  kernPgdir := 0#20
  mem _ _ := 0#32
  envs _ := {}
  envFreeList := none
  cpus _ := {}
  userMemCheckAddr := 0#32
  cons := {}

theorem memInit_ok (hb : b.Valid) (hl : 1024 ≤ b.freePages.length) :
    ∃ s', (memInit b c).run s = .ok () s' := by
  have hw := memInit_wp (c := c) (s := s) hb.mappable
  simp only [wp] at hw
  split at hw
  case _ x s' hr => exact ⟨s', hr⟩
  case _ => exact absurd hl hw

theorem pc_enough : 1024 ≤ pc.freePages.length := by
  have hl := pc.low_eq
  have hn : pc.low = 4178 := hl
  simp only [BootInfo.freePages, List.length_map, List.length_append, List.length_range', hn]
  exact le_add_left (by decide)

theorem pc_last : 16638#20 ∈ pc.managed := by
  have hn : pc.low = 4178 := pc.low_eq
  simp only [BootInfo.managed, BootInfo.freePages, Set.mem_ofPred_eq, List.mem_map, List.mem_append, hn]
  exact ⟨16638, .inr (by simp [List.mem_range'_1, pc]), rfl⟩

-- The booted machine creates an environment; the count of the last page is right afterwards.
theorem page_refs_free_list_pc :
    ∃ s₁ s₂ x s, (memInit pc 0).run powerOn = .ok () s₁ ∧ envInit.run s₁ = .ok () s₂ ∧
      (envAlloc 0#32).run s₂ = .ok x s ∧ (s.pages 16638#20).ref.toNat = s.refs 16638#20 ∧
      ∃ l, s.FreeList l ∧ l.Nodup ∧ l.count 16638#20 = if s.refs 16638#20 = 0 then 1 else 0 := by
  have ⟨s₁, h₁⟩ := memInit_ok (c := 0) (s := powerOn) pc_valid pc_enough
  have ⟨s₂, h₂⟩ : ∃ s₂, envInit.run s₁ = .ok () s₂ := ⟨_, envInit_run⟩
  have hi := boot_memInv pc_valid h₁ h₂
  have ⟨x, s, h₃⟩ := envAlloc_ok 0#32 hi
  have hi' := wp_ok (Q := fun _ => MemInv pc.managed) (envAlloc_memInv hi) h₃
  exact ⟨s₁, s₂, x, s, h₁, h₂, h₃,
    page_refs_free_list pc_valid h₁ h₂ (.single ⟨.envAlloc h₃, hi'.refsFit⟩) pc_last⟩

end Jos
