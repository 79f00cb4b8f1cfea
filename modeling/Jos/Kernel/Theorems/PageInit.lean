import Jos.Kernel.Theorems.Pages

-- Which pages `page_init` puts on the free list, and which it should.

open Function Program

namespace Jos

open Kernel

variable {s : Kernel} {b : BootInfo} {i : Nat} {p : Ppn}

namespace BootInfo

-- `PADDR(boot_alloc(0))/PGSIZE`, when the page directory and the arrays `pages` and `envs` have been allocated.
def nextfree (b : BootInfo) : Nat :=
  (bootAlloc (bootAlloc b.envs (nenv * sizeofEnv)).2 0).1

-- The pages that are not in use when `page_init` is called.
def Usable (b : BootInfo) (i : Nat) : Prop :=
  (1 ≤ i ∧ i < b.npagesBasemem ∧ i ≠ (pgnum mpentryPaddr).toNat) ∨ (b.nextfree ≤ i ∧ i < b.npages)

-- All usable pages are on the free list once and without references, and no others are.
def InitExact (b : BootInfo) (s : Kernel) : Prop :=
  ∃ s₁ l, (pageInit b).run (bootState b s) = .ok () s₁ ∧ s₁.FreeList l ∧ l.Nodup ∧
    (∀ p, p ∈ l ↔ b.Usable p.toNat) ∧ ∀ p ∈ l, (s₁.pages p).ref = 0#16

theorem nextfree_eq : b.nextfree = b.kernEnd + 1 + (b.npages * 8 + 4095) / 4096 + 31 := by
  have h : (nenv * sizeofEnv + 4095) / 4096 = 31 := by decide
  unfold nextfree envs pages bootAlloc sizeofPageInfo
  exact congrArg (b.kernEnd + 1 + (b.npages * 8 + 4095) / 4096 + ·) h

-- The array `envs` ends 3813 pages before the address from which `page_init` goes on.
theorem low_eq_nextfree : b.low = b.nextfree + 3813 := by
  rw [low_eq, nextfree_eq]

variable (hf : b.Fits)

include hf in
theorem Fits.mem_freePages : p ∈ b.freePages ↔
    (1 ≤ p.toNat ∧ p.toNat < b.npagesBasemem ∧ p.toNat ≠ (pgnum mpentryPaddr).toNat) ∨
      (b.low ≤ p.toNat ∧ p.toNat < b.npages) := by
  have hb := hf.base
  have hn := hf.npages
  simp only [freePages, List.mem_map, List.mem_append, List.mem_filter, List.mem_range'_1, decide_eq_true_eq]
  constructor
  case mp =>
    rintro ⟨i, hi, rfl⟩
    have ht : (BitVec.ofNat 20 i).toNat = i := by
      rw [BitVec.toNat_ofNat]
      omega
    rw [ht]
    omega
  case mpr =>
    intro hp
    exact ⟨p.toNat, by omega, by simp⟩

-- The list that `page_init` builds.
include hf in
theorem Fits.pageInit_list : ∃ s₁, (pageInit b).run (bootState b s) = .ok () s₁ ∧ s₁.FreeList b.freePages.reverse ∧
    ∀ p ∈ b.freePages, (s₁.pages p).ref = 0#16 := by
  have hz : ({ bootState b s with pageFreeList := none } : Kernel).FreeList [] := rfl
  obtain ⟨hc, -, hr⟩ := initPages_chain hz hf.nodup (by simp)
  rw [List.append_nil] at hc
  exact ⟨_, pageInit_run, hc, hr⟩

include hf in
theorem Fits.initExact_iff_list : b.InitExact s ↔ ∀ p, p ∈ b.freePages ↔ b.Usable p.toNat := by
  obtain ⟨s₁, hr, hl, hz⟩ := hf.pageInit_list (s := s)
  constructor
  case mp =>
    rintro ⟨s₁', l, hr', hl', -, hm, -⟩ p
    cases hr.symm.trans hr'
    rw [← hm p, hl'.unique hl, List.mem_reverse]
  case mpr =>
    intro hm
    refine ⟨s₁, _, hr, hl, List.nodup_reverse.mpr hf.nodup, fun p => ?_, fun p hp => hz p (List.mem_reverse.mp hp)⟩
    rw [List.mem_reverse, hm p]

-- The first page of the extended memory that is left out.
include hf in
theorem Fits.left_out (hn : b.nextfree < b.npages) :
    b.Usable b.nextfree ∧ BitVec.ofNat 20 b.nextfree ∉ b.freePages := by
  have hb := hf.base
  have hk := hf.kern
  have hp := hf.npages
  have hl := b.low_eq_nextfree
  have he := b.nextfree_eq
  refine ⟨.inr ⟨le_rfl, hn⟩, ?_⟩
  rw [hf.mem_freePages, BitVec.toNat_ofNat]
  omega

end BootInfo

-- `page_init` puts the right pages on the list if and only if there is no extended memory after the structures that
-- were allocated at boot. Otherwise it leaves pages out, since it counts the size of `envs` twice.
theorem page_init_exact (hf : b.Fits) : b.InitExact s ↔ b.npages ≤ b.nextfree := by
  rw [hf.initExact_iff_list]
  constructor
  case mp =>
    intro hm
    by_contra hn
    obtain ⟨hu, hout⟩ := hf.left_out (Nat.not_le.mp hn)
    have ht : (BitVec.ofNat 20 b.nextfree).toNat = b.nextfree := by
      have := hf.npages
      rw [BitVec.toNat_ofNat]
      omega
    exact hout ((hm _).mpr (by rw [ht]; exact hu))
  case mpr =>
    intro hn p
    have hl := b.low_eq_nextfree
    rw [hf.mem_freePages, BootInfo.Usable]
    omega

-- A machine whose memory ends with the array `envs`.
theorem page_init_exact_small :
    BootInfo.InitExact
      { npages := 289, npagesBasemem := 160, kernEnd := 256, bootstack := 0, percpuKstacks := fun _ => 0 } powerOn :=
  (page_init_exact ⟨by decide, by decide, by decide, by decide⟩).mpr (by decide)

-- On a machine with 65 MB of memory, the page after the array `envs` is not on the list, like 3812 others.
theorem page_init_leaves_out :
    ¬pc.InitExact powerOn ∧ pc.Usable pc.nextfree ∧ BitVec.ofNat 20 pc.nextfree ∉ pc.freePages := by
  have hf := pc_valid.mappable.fits
  have ho := hf.left_out (by decide)
  refine ⟨fun he => ?_, ho⟩
  exact ho.2 ((hf.initExact_iff_list.mp he _).mpr ho.1)

end Jos
