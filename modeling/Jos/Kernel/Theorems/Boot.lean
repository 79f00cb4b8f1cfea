import Jos.Kernel.Theorems.Sched
import Jos.Kernel.Boot

-- The state in which `mem_init` leaves the allocator.

open Function RefCount Program

namespace Jos

open Kernel

variable {M F : Set Ppn} {l l' : List Ppn} {s s' : Kernel} {c : CpuIx} {e : EnvIx} {i j : Ptx}
  {t p q : Ppn} {va size pa perm w : Word} {b : BootInfo}

namespace Kernel

-- The number of page tables missing in the kernel's part of the address space.
def absent (s : Kernel) : Nat :=
  (Finset.univ.filter fun i => s.target (.kpde i) = none).card

-- A page table the kernel's page directory can have: not one of the user part, nor the page directory
-- itself at `UVPT`.
def KernIx (i : Ptx) : Prop :=
  pdxUtop ≤ i.val ∧ i ≠ pdx uvpt

end Kernel

namespace PageInv

variable (h : PageInv M F l s)

include h in
theorem kern_mem (hi : KernIx i) (ht : s.target (.kpde i) = some t) : t ∈ M :=
  (h.owned ht).resolve_right fun hr => hi.2 (by simpa using hr.1)

include h in
theorem kern_not_table (hi : KernIx i) (ht : s.target (.kpde i) = some t) : ¬s.Table t := by
  rintro (rfl | ⟨e, hd⟩ | ⟨e, j, ht'⟩)
  case inl => exact h.kern (h.kern_mem hi ht)
  case inr.inl => simpa using h.unique (by trivial) ht (show s.target (.pgdir e) = _ from hd)
  case inr.inr => simpa using h.unique (by trivial) ht ht'

-- Writing to a page that is not used for translation.
theorem target_setMem (hp : ¬s.Table p) : (s.setMem p j w).target = s.target := by
  refine target_congr rfl rfl fun q hq => ?_
  have hne : q ≠ p := fun e => hp (e ▸ hq)
  simp [Kernel.setMem, hne]

include h in
theorem setMem (hp : ¬s.Table p) : PageInv M F l (s.setMem p j w) :=
  h.congr ⟨rfl, rfl, rfl, rfl⟩ (target_setMem hp) h.dir

end PageInv

section AddKernTable

variable (h : PageInv M F (t :: l) s)

include h in
theorem PageInv.target_addKernTable :
    (s.addTable s.kernPgdir i t).target = update s.target (.kpde i) (some t) := by
  have hs : ((s.popFree t).zeroPage t).target = s.target := by
    refine target_congr rfl rfl fun q hq => ?_
    have hne : q ≠ t := fun e => h.free_not_table (by simp) (e ▸ hq)
    simp [Kernel.zeroPage, Kernel.popFree, setPage, hne]
  have ht := h.zeroed.target_setMem_kern (i := i) (w := page2pa t ||| pteP ||| pteU ||| pteW)
  rw [hs, entryPage_table] at ht
  exact ht

include h in
theorem PageInv.addKernTable (hi : pdxUtop ≤ i.val) (ht : s.target (.kpde i) = none) :
    PageInv M F l (s.addTable s.kernPgdir i t) := by
  have hF : t ∉ F := (h.pool.mem_free.mp (by simp)).2.2
  have hs : ((s.popFree t).zeroPage t).target = s.target := by
    refine target_congr rfl rfl fun q hq => ?_
    have hne : q ≠ t := fun e => h.free_not_table (by simp) (e ▸ hq)
    simp [Kernel.zeroPage, Kernel.popFree, setPage, hne]
  have ha : SameAlloc ((s.popFree t).zeroPage t)
      (((s.popFree t).zeroPage t).setMem s.kernPgdir i (page2pa t ||| pteP ||| pteU ||| pteW)) :=
    ⟨rfl, rfl, rfl, rfl⟩
  refine h.zeroed.link_flight (r := .kpde i) hF ha ?_ ?_ ?_ h.dir
  · rw [hs]
    exact h.target_addKernTable
  · rw [hs, ht]
  · rintro i' ⟨⟩
    exact hi

include h in
theorem PageInv.absent_addKernTable (ht : s.target (.kpde i) = none) :
    (s.addTable s.kernPgdir i t).absent + 1 = s.absent := by
  have he : (Finset.univ.filter fun i' => (s.addTable s.kernPgdir i t).target (.kpde i') = none) =
      (Finset.univ.filter fun i' => s.target (.kpde i') = none).erase i := by
    ext i'
    simp only [Finset.mem_filter, Finset.mem_univ, true_and, Finset.mem_erase, h.target_addKernTable]
    by_cases hc : i' = i
    case pos => simp [hc]
    case neg => rw [update_of_ne (by simpa using hc)]; simp [hc]
  rw [absent, he]
  exact Finset.card_erase_add_one (by simp [ht])

end AddKernTable

-- The invariant of the loops of `mem_init`. If there was memory for all page tables of the kernel,
-- there is memory for those still missing.
structure BootInv (M : Set Ppn) (k : Ppn) (enough : Prop) (l : List Ppn) (s : Kernel) : Prop where
  inv    : PageInv M ∅ l s
  kern   : s.kernPgdir = k
  envs   : s.envs = fun _ => {}
  enough : enough → s.absent ≤ l.length

-- The page directory indices of a region.
def KernRegion (va size : Word) : Prop :=
  ∀ offset, offset < size → KernIx (pdx (va + offset))

-- One iteration of `boot_map_region`.
theorem bootMapStep {k : Ppn} {enough : Prop} (h : BootInv M k enough l s) (hi : KernIx (pdx va)) :
    wp (pgdirWalk k va true)
      (fun o s' => (o = none → ¬enough) ∧ ∀ p, o = some p →
        ∃ l', BootInv M k enough l' (s'.setMem p.1 p.2 w))
      (fun _ _ => False) s := by
  have hk := h.kern
  have htk {s : Kernel} (i : Ptx) : s.table s.kernPgdir i = s.target (.kpde i) := rfl
  cases ht : s.target (.kpde (pdx va))
  case some t =>
    have hm := h.inv.kern_mem hi ht
    have hnt := h.inv.kern_not_table hi ht
    have ht' : s.table k (pdx va) = some t := hk ▸ ht
    refine wp_of_ok (pgdirWalk_some ht' (h.inv.bound hm)) ⟨by simp, ?_⟩
    rintro _ ⟨⟩
    refine ⟨l, h.inv.setMem hnt, hk, h.envs, ?_⟩
    rw [absent, PageInv.target_setMem hnt]
    exact h.enough
  case none =>
    have ht' : s.table k (pdx va) = none := hk ▸ ht
    cases l
    case nil =>
      refine wp_of_ok (pgdirWalk_nomem ht' h.inv.free_nil) ⟨fun _ hen => ?_, by simp⟩
      have hpos : 0 < s.absent := Finset.card_pos.mpr ⟨pdx va, by simp [ht]⟩
      have := h.enough hen
      simp only [List.length_nil] at this
      omega
    case cons t l =>
      refine wp_of_ok (pgdirWalk_create ht' h.inv.free_head h.inv.free_bound) ⟨by simp, ?_⟩
      rintro _ ⟨⟩
      have ha := h.inv.absent_addKernTable ht
      have htar := h.inv.target_addKernTable (i := pdx va)
      have h' := h.inv.addKernTable hi.1 ht
      rw [hk] at h' ha htar
      have hnt := h'.kern_not_table (i := pdx va) hi (by rw [htar, update_self])
      refine ⟨l, h'.setMem hnt, hk, h.envs, fun hen => ?_⟩
      have := h.enough hen
      rw [absent, PageInv.target_setMem hnt, ← absent]
      simp only [List.length_cons] at this
      omega

theorem bootMapLoop_wp {k : Ppn} {enough : Prop} {n : Nat} {offset : Word}
    (h : BootInv M k enough l s) (hi : KernRegion va size) :
    wp (bootMapLoop k va size pa perm n offset) (fun _ s' => ∃ l', BootInv M k enough l' s')
      (fun _ _ => ¬enough) s := by
  induction n generalizing offset s l
  case zero => exact ⟨l, h⟩
  case succ n ih =>
    simp only [bootMapLoop]
    split
    case isTrue ho =>
      refine wp_seq (wp_mono (bootMapStep (w := (pa + offset) ||| perm ||| pteP) h (hi offset ho))
        (fun _ _ => id) fun _ _ => False.elim) ?_
      rintro o s' ⟨hn, hs⟩
      cases o
      case none => exact hn rfl
      case some p =>
        simp only [wp_bind_modify]
        obtain ⟨l', h'⟩ := hs p rfl
        exact ih h'
    case isFalse => exact ⟨l, h⟩

theorem bootMapRegion_wp {k : Ppn} {enough : Prop} (h : BootInv M k enough l s)
    (hi : KernRegion va size) :
    wp (bootMapRegion k va size pa perm) (fun _ s' => ∃ l', BootInv M k enough l' s')
      (fun _ _ => ¬enough) s := by
  unfold bootMapRegion
  exact bootMapLoop_wp h hi

section PageInit

-- The pages `page_init` puts on the list, in the order in which it does so.
def BootInfo.freePages (b : BootInfo) : List Ppn :=
  ((List.range' 1 (b.npagesBasemem - 1)).filter (· ≠ (pgnum mpentryPaddr).toNat) ++
    List.range' b.low (b.npages - b.low)).map (BitVec.ofNat 20)

-- The pages under the control of the allocator.
def BootInfo.managed (b : BootInfo) : Set Ppn :=
  { p | p ∈ b.freePages }

theorem initPages_chain {L : List Nat} (h : s.FreeList l) (hn : (L.map (BitVec.ofNat 20)).Nodup)
    (hd : ∀ p ∈ L.map (BitVec.ofNat 20), p ∉ l) :
    (L.foldl initPage s).FreeList ((L.map (BitVec.ofNat 20)).reverse ++ l) ∧
    (∀ p, p ∉ L.map (BitVec.ofNat 20) → (L.foldl initPage s).pages p = s.pages p) ∧
    ∀ p ∈ L.map (BitVec.ofNat 20), ((L.foldl initPage s).pages p).ref = 0#16 := by
  induction L generalizing s l
  case nil => exact ⟨h, fun _ _ => rfl, by simp⟩
  case cons i L ih =>
    have ⟨hi, hn'⟩ := List.nodup_cons.mp hn
    have hc : (s.initPage i).FreeList (BitVec.ofNat 20 i :: l) := by
      have := Linked.Chain.push (a := BitVec.ofNat 20 i) h (hd _ (by simp))
      refine (this.congr fun q _ => ?_ : Linked.Chain _ _ _)
      by_cases hq : q = BitVec.ofNat 20 i <;> simp [initPage, hq]
    have hd' : ∀ p ∈ L.map (BitVec.ofNat 20), p ∉ BitVec.ofNat 20 i :: l := by
      intro p hp hm
      cases List.mem_cons.mp hm
      case inl he => exact hi (he ▸ hp)
      case inr hm => exact hd p (List.mem_cons_of_mem _ hp) hm
    have ⟨h₁, h₂, h₃⟩ := ih hc hn' hd'
    refine ⟨by simpa using h₁, fun p hp => ?_, fun p hp => ?_⟩
    case refine_1 =>
      simp only [List.map_cons, List.mem_cons, not_or] at hp
      rw [List.foldl_cons, h₂ p hp.2]
      simp [initPage, hp.1]
    case refine_2 =>
      rw [List.foldl_cons]
      by_cases hm : p ∈ L.map (BitVec.ofNat 20)
      case pos => exact h₃ p hm
      case neg =>
        have he : p = BitVec.ofNat 20 i := (List.mem_cons.mp hp).resolve_right hm
        rw [h₂ p hm, he]
        simp [initPage]

theorem initPages_same {L : List Nat} : L.foldl initPage s =
    { s with pages := (L.foldl initPage s).pages, pageFreeList := (L.foldl initPage s).pageFreeList } := by
  induction L generalizing s
  case nil => rfl
  case cons i L ih => rw [List.foldl_cons, ih]; rfl

theorem pageInit_run : (pageInit b).run s = .ok ()
    (((List.range' 1 (b.npagesBasemem - 1)).filter (· ≠ (pgnum mpentryPaddr).toNat) ++
      List.range' b.low (b.npages - b.low)).foldl initPage { s with pageFreeList := none }) := by
  have h₁ {s : Kernel} (L : List Nat) : (L.forM fun i => do
      if i ≠ (pgnum mpentryPaddr).toNat then
        modify (·.initPage i) : K Unit).run s =
      .ok () (L.foldl (fun s i => if i ≠ (pgnum mpentryPaddr).toNat then s.initPage i else s) s) :=
    (run_forM (I := fun _ => True) (fun i _ s _ => ⟨by split <;> simp, trivial⟩) trivial).1
  have h₂ {s : Kernel} (L : List Nat) : (L.forM fun i => modify (·.initPage i) : K Unit).run s =
      .ok () (L.foldl initPage s) :=
    (run_forM (I := fun _ => True) (fun i _ s _ => ⟨rfl, trivial⟩) trivial).1
  rw [pageInit, List.foldl_append, List.foldl_filter]
  simp only [run_bind, run_modify, h₁, h₂, decide_eq_true_eq]

end PageInit

-- Base memory ends below the IO hole, the kernel is linked at `EXTPHYSMEM`, physical addresses have 32 bits, and the
-- pointer which `page_init` computes does not run over the end of the address space.
structure BootInfo.Fits (b : BootInfo) : Prop where
  base   : b.npagesBasemem ≤ 160
  kern   : 256 ≤ b.kernEnd
  npages : b.npages ≤ 2 ^ 20
  low    : b.low ≤ 2 ^ 16

-- What the kernel relies on when it starts. Base memory ends below the IO hole, the kernel is linked at
-- `EXTPHYSMEM` and lies in the 4 MB its first page directory maps, and the CMOS counts memory in kilobytes
-- with 16 bits.
structure BootInfo.Valid (b : BootInfo) : Prop where
  base   : b.npagesBasemem ≤ 160
  basem  : b.npagesBasemem ≤ b.npages
  kern   : 256 ≤ b.kernEnd
  kernm  : b.kernEnd < 1024
  npages : b.npages ≤ 16639

-- What it takes for the window onto `pages` to hold all of the array.
structure BootInfo.Mappable (b : BootInfo) : Prop where
  base   : b.npagesBasemem ≤ 160
  basem  : b.npagesBasemem ≤ b.npages
  kern   : 256 ≤ b.kernEnd
  kernm  : b.kernEnd < 1024
  pages  : b.npages * sizeofPageInfo ≤ ptsize.toNat

theorem BootInfo.Valid.mappable (hb : b.Valid) : b.Mappable := by
  refine ⟨hb.base, hb.basem, hb.kern, hb.kernm, ?_⟩
  have hn := hb.npages
  have hp : ptsize.toNat = 2 ^ 22 := rfl
  rw [sizeofPageInfo]
  omega

section MemInit

variable (hb : b.Mappable)

include hb in
theorem BootInfo.Mappable.npages : b.npages ≤ 2 ^ 19 := by
  have hn := hb.pages
  have hp : ptsize.toNat = 2 ^ 22 := rfl
  rw [sizeofPageInfo] at hn
  omega

theorem BootInfo.low_eq : b.low = b.kernEnd + 1 + (b.npages * 8 + 4095) / 4096 + 3844 := by
  have h : (nenv * sizeofEnv * sizeofEnv + 4095) / 4096 = 3844 := by decide
  unfold BootInfo.low BootInfo.envs BootInfo.pages bootAlloc sizeofPageInfo
  exact congrArg (b.kernEnd + 1 + (b.npages * 8 + 4095) / 4096 + ·) h

include hb in
theorem BootInfo.Mappable.lt_of_mem {i : Nat} (hi : i ∈ (List.range' 1 (b.npagesBasemem - 1)).filter
    (· ≠ (pgnum mpentryPaddr).toNat) ++ List.range' b.low (b.npages - b.low)) :
    i < b.npages ∧ i < 2 ^ 20 ∧ i ≠ b.kernEnd := by
  have ⟨h₁, h₂, h₃, h₄, _⟩ := hb
  have h₅ := hb.npages
  have hl := b.low_eq
  simp only [List.mem_append, List.mem_filter, List.mem_range'_1] at hi
  obtain ⟨hi, -⟩ | hi := hi <;> omega

include hb in
theorem BootInfo.Mappable.fits : b.Fits where
  base := hb.base
  kern := hb.kern
  npages := le_trans hb.npages (by decide)
  low := by
    have := hb.kernm
    have := hb.npages
    have := b.low_eq
    omega

theorem BootInfo.Fits.nodup (hf : b.Fits) : b.freePages.Nodup := by
  obtain ⟨h₁, h₂, h₃, -⟩ := hf
  have hl := b.low_eq
  refine List.Nodup.map_on ?_ ?_
  case refine_1 =>
    intro i hi i' hi' he
    have he := congrArg BitVec.toNat he
    simp only [List.mem_append, List.mem_filter, List.mem_range'_1] at hi hi'
    simp only [BitVec.toNat_ofNat] at he
    omega
  case refine_2 =>
    refine List.Nodup.append (List.Nodup.filter _ List.nodup_range') List.nodup_range' ?_
    intro i hi hi'
    simp only [List.mem_filter, List.mem_range'_1] at hi hi'
    omega

include hb in
theorem BootInfo.Mappable.mem_managed (hp : p ∈ b.managed) :
    p.toNat < b.npages ∧ p ≠ BitVec.ofNat 20 b.kernPgdir := by
  obtain ⟨i, hi, rfl⟩ := List.mem_map.mp hp
  have ⟨h₁, h₂, h₃⟩ := hb.lt_of_mem hi
  have hk := hb.kernm
  rw [BitVec.toNat_ofNat, Nat.mod_eq_of_lt h₂]
  refine ⟨h₁, fun he => h₃ ?_⟩
  have he := congrArg BitVec.toNat he
  simp only [BitVec.toNat_ofNat, BootInfo.kernPgdir, bootAlloc] at he
  omega

-- The state when `page_init` is called.
def bootState (b : BootInfo) (s : Kernel) : Kernel :=
  let kernPgdir : Ppn := BitVec.ofNat 20 b.kernPgdir
  { (({ s with npages := b.npages, kernPgdir } : Kernel).zeroPage kernPgdir).setMem kernPgdir (pdx uvpt)
      (page2pa kernPgdir ||| pteU ||| pteP) with
    pages := fun _ => { link := none, ref := 0#16 }
    envs := fun _ => {} }

theorem target_bootState : (bootState b s).target =
    update (fun _ => none) (.kpde (pdx uvpt)) (some (BitVec.ofNat 20 b.kernPgdir)) := by
  funext r
  cases r
  case kpde i =>
    by_cases hi : i = pdx uvpt
    case pos =>
      have : entryPage (page2pa (BitVec.ofNat 20 b.kernPgdir) ||| pteU ||| pteP) =
          some (BitVec.ofNat 20 b.kernPgdir) := entryPage_insert (by decide)
      simpa [target, table, bootState, Kernel.setMem, Kernel.zeroPage, hi] using this
    case neg =>
      rw [update_of_ne (by simpa using hi)]
      simp [target, table, bootState, Kernel.setMem, Kernel.zeroPage, hi]
  all_goals
    rw [update_of_ne (by simp)]
    simp [target, bootState, pteOf, tableOf, pgdirOf]

theorem target_pageInit {s₁ : Kernel} (hr : (pageInit b).run (bootState b s) = .ok () s₁) : s₁.target =
    update (fun _ => none) (.kpde (pdx uvpt)) (some (BitVec.ofNat 20 b.kernPgdir)) := by
  rw [pageInit_run] at hr
  cases hr
  rw [← target_bootState (s := s), initPages_same]
  rfl

-- Before the kernel's address space is built, all pages are free.
include hb in
theorem bootInv_pageInit : ∃ s₁, (pageInit b).run (bootState b s) = .ok () s₁ ∧
    BootInv b.managed (BitVec.ofNat 20 b.kernPgdir) (1024 ≤ b.freePages.length) b.freePages.reverse s₁ := by
  have hz : ({ bootState b s with pageFreeList := none } : Kernel).FreeList [] := rfl
  have ⟨hc, ho, hr⟩ := initPages_chain hz hb.fits.nodup (by simp)
  have hs := initPages_same (s := { bootState b s with pageFreeList := none })
    (L := (List.range' 1 (b.npagesBasemem - 1)).filter (· ≠ (pgnum mpentryPaddr).toNat) ++
      List.range' b.low (b.npages - b.low))
  refine ⟨_, pageInit_run, ?_⟩
  rw [List.append_nil] at hc
  change FreeList _ b.freePages.reverse at hc
  change ∀ p, p ∉ b.freePages → _ at ho
  change ∀ p ∈ b.freePages, _ at hr
  have ht := target_pageInit (b := b) (s := s) pageInit_run
  generalize List.foldl initPage _ _ = s₁ at hc ho hr hs ht ⊢
  have ht' {r p} (h : s₁.target r = some p) : r = .kpde (pdx uvpt) ∧ p = BitVec.ofNat 20 b.kernPgdir := by
    rw [ht, update_apply] at h
    split at h
    case isTrue he => exact ⟨he, (Option.some.inj h).symm⟩
    case isFalse => cases h
  have hk : s₁.kernPgdir = BitVec.ofNat 20 b.kernPgdir := by rw [hs]; rfl
  have he : s₁.envs = fun _ => {} := by rw [hs]; rfl
  have hn : s₁.npages = b.npages := by rw [hs]; rfl
  have hz {p} (hp : p ∈ b.managed) : RefCount.refs s₁.target p = 0 := by
    refine refs_eq_zero_iff.mpr fun r hr => (hb.mem_managed hp).2 (ht' hr).2
  refine ⟨⟨hc, ⟨?_, ?_, ?_, by simp⟩, ?_, ?_, ?_, ?_, ?_, ?_, ?_⟩, hk, he, ?_⟩
  case refine_1 => exact List.nodup_reverse.mpr hb.fits.nodup
  case refine_2 =>
    intro p
    rw [List.mem_reverse]
    exact ⟨fun hp => ⟨hp, hz hp, by simp⟩, fun hp => hp.1⟩
  case refine_3 =>
    intro p hp
    simp only [hr p hp, hz hp]
    rfl
  case refine_4 =>
    intro p hp hl
    exact absurd (List.mem_reverse.mpr hp) hl
  case refine_5 => exact fun hp => hn ▸ (hb.mem_managed hp).1
  case refine_6 =>
    intro r p h
    rw [hk]
    exact .inr (ht' h)
  case refine_7 => exact fun _ h h' => (ht' h).1.trans (ht' h').1.symm
  case refine_8 => exact fun hm => (hb.mem_managed hm).2 hk
  case refine_9 =>
    intro i hi
    have hne : i ≠ pdx uvpt := by
      rintro rfl
      exact absurd hi (by decide)
    rw [ht, update_of_ne (by simpa using hne)]
  case refine_10 => simp [he]
  case refine_11 =>
    intro hl
    rw [List.length_reverse]
    refine le_trans (Finset.card_le_univ _) ?_
    simpa using hl

theorem val_pdx_add {offset : Word} (hw : va.toNat + size.toNat ≤ 2 ^ 32) (ho : offset < size) :
    (pdx (va + offset)).val = (va.toNat + offset.toNat) / 2 ^ 22 := by
  have ho' : offset.toNat < size.toNat := ho
  rw [val_pdx, BitVec.toNat_add]
  omega

theorem kernRegion_of (hw : va.toNat + size.toNat ≤ 2 ^ 32) (hl : 955 * 2 ^ 22 ≤ va.toNat)
    (hx : va.toNat + size.toNat ≤ 957 * 2 ^ 22 ∨ 958 * 2 ^ 22 ≤ va.toNat) : KernRegion va size := by
  intro offset ho
  have ho' : offset.toNat < size.toNat := ho
  have hp := val_pdx_add hw ho
  have hu : (pdx uvpt).val = 957 := by decide
  constructor
  case left =>
    rw [hp, pdxUtop]
    omega
  case right =>
    intro he
    have := congrArg Fin.val he
    rw [hp, hu] at this
    omega

theorem toNat_roundUp {a : Word} (h : a.toNat + 4095 < 2 ^ 32) :
    (roundUp a pgsize).toNat = (a.toNat + 4095) / 4096 * 4096 := by
  have ha : (a + pgsize - 1#32).toNat = a.toNat + 4095 := by
    simp only [pgsize, BitVec.toNat_sub, BitVec.toNat_add, BitVec.toNat_ofNat]
    omega
  have hm : ((a + pgsize - 1#32) % pgsize).toNat = (a.toNat + 4095) % 4096 := by
    rw [BitVec.toNat_umod, ha]
    rfl
  rw [roundUp, roundDown, BitVec.toNat_sub_of_le (by rw [BitVec.le_def, hm, ha]; exact Nat.mod_le _ _), ha, hm]
  omega

-- The size of the window onto `pages`.
include hb in
theorem toNat_upages_size :
    (roundUp (BitVec.ofNat 32 (b.npages * sizeofPageInfo)) pgsize).toNat = (b.npages * 8 + 4095) / 4096 * 4096 := by
  have hn := hb.npages
  have ha : (BitVec.ofNat 32 (b.npages * sizeofPageInfo)).toNat = b.npages * 8 := by
    rw [BitVec.toNat_ofNat, sizeofPageInfo]
    omega
  rw [toNat_roundUp (by omega), ha]

include hb in
theorem kernRegion_upages :
    KernRegion upages (roundUp (BitVec.ofNat 32 (b.npages * sizeofPageInfo)) pgsize) := by
  have hn := hb.npages
  have hs := toNat_upages_size hb
  have hu : upages.toNat = 956 * 2 ^ 22 := by decide
  refine kernRegion_of ?_ ?_ (.inl ?_) <;> omega

theorem kstack_bounds : ∀ i : Fin 8,
    958 * 2 ^ 22 ≤ (kstacktop - kstksize - BitVec.ofNat 32 i * (kstksize + kstkgap)).toNat ∧
    (kstacktop - kstksize - BitVec.ofNat 32 i * (kstksize + kstkgap)).toNat < 2 ^ 32 - 2 ^ 15 := by
  decide

theorem kernRegion_kstack (i : Fin 8) :
    KernRegion (kstacktop - kstksize - BitVec.ofNat 32 i * (kstksize + kstkgap)) kstksize := by
  have hs : kstksize.toNat = 2 ^ 15 := by decide
  have ⟨h₁, h₂⟩ := kstack_bounds i
  refine kernRegion_of ?_ ?_ (.inr ?_) <;> omega

-- The regions that `mem_init` maps: their addresses, sizes, physical addresses and permissions.
inductive BootRegion (b : BootInfo) : Word → Word → Word → Word → Prop
  | upages : BootRegion b upages (roundUp (BitVec.ofNat 32 (b.npages * sizeofPageInfo)) pgsize)
    (page2pa (BitVec.ofNat 20 b.pages)) pteU
  | uenvs : BootRegion b uenvs (roundUp (BitVec.ofNat 32 (nenv * sizeofEnv)) pgsize)
    (page2pa (BitVec.ofNat 20 b.envs)) pteU
  | bootstack : BootRegion b (kstacktop - kstksize) kstksize b.bootstack pteW
  | kernbase : BootRegion b kernbase (roundUp (0xFFFFFFFF#32 - kernbase + 1#32) pgsize) 0#32 pteW
  | kstack (i : Fin 8) : BootRegion b (kstacktop - kstksize - BitVec.ofNat 32 i * (kstksize + kstkgap)) kstksize
    (b.percpuKstacks i) pteW

include hb in
theorem BootRegion.kernRegion (hr : BootRegion b va size pa perm) : KernRegion va size := by
  cases hr
  case upages => exact kernRegion_upages hb
  case uenvs => exact kernRegion_of (by decide) (by decide) (.inl (by decide))
  case bootstack => exact kernRegion_of (by decide) (by decide) (.inr (by decide))
  case kernbase => exact kernRegion_of (by decide) (by decide) (.inr (by decide))
  case kstack i => exact kernRegion_kstack i

-- A region that is mapped to consecutive physical pages.
structure Region where
  va   : Word
  size : Word
  pa   : Word
  perm : Word

-- All of physical memory.
def kernbaseRegion : Region :=
  ⟨kernbase, roundUp (0xFFFFFFFF#32 - kernbase + 1#32) pgsize, 0#32, pteW⟩

namespace BootInfo

variable (b : BootInfo)

-- The stack of a processor.
def kstack (i : Fin 8) : Region :=
  ⟨kstacktop - kstksize - BitVec.ofNat 32 i * (kstksize + kstkgap), kstksize, b.percpuKstacks i, pteW⟩

def upagesRegion : Region :=
  ⟨upages, roundUp (BitVec.ofNat 32 (b.npages * sizeofPageInfo)) pgsize, page2pa (BitVec.ofNat 20 b.pages), pteU⟩

def uenvsRegion : Region :=
  ⟨uenvs, roundUp (BitVec.ofNat 32 (nenv * sizeofEnv)) pgsize, page2pa (BitVec.ofNat 20 b.envs), pteU⟩

def bootstackRegion : Region :=
  ⟨kstacktop - kstksize, kstksize, b.bootstack, pteW⟩

-- The regions `mem_init` maps before it gets to the stacks of the processors.
def regions : List Region :=
  [b.upagesRegion, b.uenvsRegion, b.bootstackRegion, kernbaseRegion]

end BootInfo

section Regions

variable {E : Exit → Kernel → Prop}

-- What `page_init` establishes, and the mapping of each region extends to this region, holds for all of them in the
-- end.
theorem memInit_regions {I : List Region → Kernel → Prop}
    (hi : ∀ s₁, (pageInit b).run (bootState b s) = .ok () s₁ → I [] s₁)
    (hk : ∀ {rs s}, I rs s → s.kernPgdir = BitVec.ofNat 20 b.kernPgdir)
    (hr : ∀ {rs s} (r : Region), BootRegion b r.va r.size r.pa r.perm → I rs s →
      wp (bootMapRegion (BitVec.ofNat 20 b.kernPgdir) r.va r.size r.pa r.perm) (fun _ => I (rs ++ [r])) E s) :
    wp (memInit b c) (fun _ s' => ∃ s₀, I (b.regions ++ (List.finRange 8).map b.kstack) s₀ ∧
      s' = s₀.setCpu c fun i => { i with cr3 := BitVec.ofNat 20 b.kernPgdir, tlb := [] }) E s := by
  have hmp {s} (h : I b.regions s) :
      wp (memInitMp b) (fun _ => I (b.regions ++ (List.finRange 8).map b.kstack)) E s := by
    simp only [memInitMp, wp_bind_get, hk h]
    -- The stacks mapped so far are those that are not still to be mapped.
    have hloop := wp_forM (l := List.finRange 8) (E := E) (s := s)
      (f := fun i => bootMapRegion (BitVec.ofNat 20 b.kernPgdir) (b.kstack i).va (b.kstack i).size (b.kstack i).pa
        (b.kstack i).perm)
      (I := fun l s => ∃ l', l' ++ l = List.finRange 8 ∧ I (b.regions ++ l'.map b.kstack) s) ?_ ⟨[], rfl, by simpa using h⟩
    case refine_1 =>
      rintro i l s ⟨l', hl, h⟩
      refine wp_mono (hr (b.kstack i) (.kstack i) h) (fun _ s' h' => ?_) fun _ _ => id
      exact ⟨l' ++ [i], by simpa using hl, by simpa using h'⟩
    refine wp_mono hloop (fun _ s' h' => ?_) fun _ _ => id
    obtain ⟨l', hl, h'⟩ := h'
    rw [List.append_nil] at hl
    rwa [hl] at h'
  rw [memInit]
  simp only [wp_bind_modify]
  refine (wp_bind_of_ok (s := bootState b s) pageInit_run).mpr ?_
  refine wp_seq (hr b.upagesRegion .upages (hi _ pageInit_run)) fun _ s₂ h₂ => ?_
  refine wp_seq (hr b.uenvsRegion .uenvs h₂) fun _ s₃ h₃ => ?_
  refine wp_seq (hr b.bootstackRegion .bootstack h₃) fun _ s₄ h₄ => ?_
  refine wp_seq (hr kernbaseRegion .kernbase h₄) fun _ s₅ h₅ => ?_
  refine wp_seq (hmp h₅) fun _ s₆ h₆ => ?_
  exact ⟨s₆, h₆, rfl⟩

-- What `page_init` establishes and the mapping of each region keeps holds in the end.
theorem memInit_of {I : Kernel → Prop}
    (hi : ∀ s₁, (pageInit b).run (bootState b s) = .ok () s₁ → I s₁)
    (hk : ∀ s, I s → s.kernPgdir = BitVec.ofNat 20 b.kernPgdir)
    (hr : ∀ {va size pa perm s}, BootRegion b va size pa perm → I s →
      wp (bootMapRegion (BitVec.ofNat 20 b.kernPgdir) va size pa perm) (fun _ => I) E s) :
    wp (memInit b c) (fun _ s' => ∃ s₀, I s₀ ∧
      s' = s₀.setCpu c fun i => { i with cr3 := BitVec.ofNat 20 b.kernPgdir, tlb := [] }) E s :=
  memInit_regions (I := fun _ => I) hi (fun h => hk _ h) fun _ hb h => hr hb h

end Regions

-- `mem_init` only fails to return if there are not enough pages for the page tables of the kernel.
include hb in
theorem memInit_wp : wp (memInit b c)
    (fun _ s' => (∃ l, PageInv b.managed ∅ l s') ∧ s'.envs = fun _ => {})
    (fun _ _ => ¬1024 ≤ b.freePages.length) s := by
  obtain ⟨s₁, hr₁, h₁⟩ := bootInv_pageInit (s := s) hb
  refine wp_mono (memInit_of (I := fun s => ∃ l, BootInv b.managed (BitVec.ofNat 20 b.kernPgdir)
    (1024 ≤ b.freePages.length) l s) ?_ ?_ ?_) ?_ fun _ _ => id
  case refine_1 =>
    intro s' hs'
    rw [hr₁] at hs'
    cases hs'
    exact ⟨_, h₁⟩
  case refine_2 =>
    rintro s ⟨l, h⟩
    exact h.kern
  case refine_3 =>
    rintro va size pa perm s hr ⟨l, h⟩
    exact bootMapRegion_wp h (hr.kernRegion hb)
  case refine_4 =>
    rintro _ _ ⟨s₆, ⟨l, h⟩, rfl⟩
    exact ⟨⟨l, SameMem.setCpu.pageInv h.inv⟩, h.envs⟩

end MemInit

section EnvInit

def pushEnv (s : Kernel) (i : EnvIx) : Kernel :=
  { s.setEnv i fun e => { e with status := .free, id := 0#32, link := s.envFreeList } with
    envFreeList := some i }

theorem envInit_run : envInit.run s =
    .ok () ((List.finRange 1024).reverse.foldl pushEnv { s with envFreeList := none }) := by
  have h {s : Kernel} (L : List EnvIx) : (L.forM fun i => do
      let s ← get
      set { s.setEnv i fun e => { e with status := .free, id := 0#32, link := s.envFreeList } with
            envFreeList := some i } : K Unit).run s = .ok () (L.foldl pushEnv s) :=
    (run_forM (I := fun _ => True) (fun i _ s _ => ⟨rfl, trivial⟩) trivial).1
  simp only [envInit, run_bind, run_modify, h]

-- Pushing environments builds the list and touches nothing that concerns pages.
theorem pushEnvs {l L : List EnvIx}
    (h : Linked.Chain (fun e => (s.envs e).link) s.envFreeList L) (hn : l.Nodup) (hd : ∀ e ∈ l, e ∉ L) :
    Linked.Chain (fun e => ((l.foldl pushEnv s).envs e).link) (l.foldl pushEnv s).envFreeList
      (l.reverse ++ L) ∧
    (∀ e, e ∈ l ∨ ((s.envs e).status = .free ∧ (s.envs e).id = 0#32) →
      ((l.foldl pushEnv s).envs e).status = .free ∧ ((l.foldl pushEnv s).envs e).id = 0#32) ∧
    (∀ e, ((l.foldl pushEnv s).envs e).pgdir = (s.envs e).pgdir) ∧
    SameAlloc s (l.foldl pushEnv s) ∧ (l.foldl pushEnv s).mem = s.mem := by
  induction l generalizing s L
  case nil => exact ⟨h, fun _ he => he.resolve_left (by simp), fun _ => rfl, ⟨rfl, rfl, rfl, rfl⟩, rfl⟩
  case cons e l ih =>
    obtain ⟨he, hn'⟩ := List.nodup_cons.mp hn
    have hc : Linked.Chain (fun e' => ((pushEnv s e).envs e').link) (some e) (e :: L) := by
      refine (h.push (hd e (by simp))).congr fun e' _ => ?_
      by_cases hx : e' = e <;> simp [pushEnv, setEnv, hx]
    have hf : ∀ e', e' ∈ e :: l ∨ ((s.envs e').status = .free ∧ (s.envs e').id = 0#32) →
        e' ∈ l ∨ (((pushEnv s e).envs e').status = .free ∧ ((pushEnv s e).envs e').id = 0#32) := by
      intro e' he'
      by_cases hx : e' = e
      case pos => exact .inr (by simp [pushEnv, setEnv, hx])
      case neg => simpa [pushEnv, setEnv, hx] using he'
    have hp : ∀ e', ((pushEnv s e).envs e').pgdir = (s.envs e').pgdir := by
      intro e'
      by_cases hx : e' = e <;> simp [pushEnv, setEnv, hx]
    have hd' : ∀ e' ∈ l, e' ∉ e :: L := by
      intro e' he' hm
      cases List.mem_cons.mp hm
      case inl hx => exact he (hx ▸ he')
      case inr hm => exact hd e' (List.mem_cons_of_mem _ he') hm
    obtain ⟨h₁, h₂, h₃, h₄, h₅⟩ := ih hc hn' hd'
    refine ⟨by simpa using h₁, fun e' he' => h₂ e' (hf e' he'), fun e' => (h₃ e').trans (hp e'), ?_, h₅⟩
    exact ⟨h₄.pages, h₄.free, h₄.npages, h₄.kernPgdir⟩

theorem pushEnvs_inv {L : List EnvIx} (h : PageInv M F l s) (he : s.envs = fun _ => {}) (hn : L.Nodup)
    (hL : ∀ e, e ∈ L) :
    PageInv M F l (L.foldl pushEnv { s with envFreeList := none }) ∧
      EnvInv L.reverse (L.foldl pushEnv { s with envFreeList := none }) := by
  have ⟨h₁, h₂', h₃, h₄, h₅⟩ := pushEnvs (s := { s with envFreeList := none }) (L := []) rfl hn (by simp)
  have h₂ e := (h₂' e (.inl (hL e))).1
  rw [List.append_nil] at h₁
  generalize L.foldl pushEnv { s with envFreeList := none } = s' at h₁ h₂ h₃ h₄ h₅ ⊢
  have hd {e} : s'.pgdirOf e = none := pgdirOf_free (h₂ e)
  have hd' {e} : s.pgdirOf e = none := pgdirOf_free (by simp [he])
  refine ⟨h.congr ⟨h₄.pages, h₄.free, h₄.npages, h₄.kernPgdir⟩ ?_ ?_, h₁, List.nodup_reverse.mpr hn, ?_⟩
  case refine_1 => exact target_congr (funext fun e => hd.trans hd'.symm) h₄.kernPgdir fun _ _ => by rw [h₅]
  case refine_2 =>
    intro e
    simp [h₂ e, h₃ e, he]
  case refine_3 =>
    intro e
    simp [h₂ e, hL e]

theorem envInit_inv (h : PageInv M F l s) (he : s.envs = fun _ => {}) :
    ∃ L s', envInit.run s = .ok () s' ∧ PageInv M F l s' ∧ EnvInv L s' := by
  have ⟨h₁, h₂⟩ := pushEnvs_inv (L := (List.finRange 1024).reverse) h he
    (List.nodup_reverse.mpr (List.nodup_finRange _)) fun e => List.mem_reverse.mpr (List.mem_finRange e)
  exact ⟨_, _, envInit_run, h₁, h₂⟩

end EnvInit

end Jos
