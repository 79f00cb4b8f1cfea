import Jos.Kernel.Theorems.Upper

-- Which accesses the page tables of the kernel allow, from the time `mem_init` has built them.

open Function RefCount Program

namespace Jos

open Kernel

variable {M F : Set Ppn} {l : List Ppn} {s s' : Kernel} {c : CpuIx} {e : EnvIx} {i j : Ptx} {pd p q t k : Ppn}
  {va size pa perm flag x w : Word} {b : BootInfo}

theorem has_or : has (x ||| w) flag = (has x flag || has w flag) := by
  have hd : (x ||| w) &&& flag = (x &&& flag) ||| (w &&& flag) := by
    ext i hi
    simp [Bool.and_or_distrib_right]
  rw [Bool.eq_iff_iff]
  simp only [has, hd, Bool.or_eq_true, bne_iff_ne, ne_eq, BitVec.or_eq_zero_iff, not_and_or]

-- The address of a page has no flags.
theorem has_aligned (hx : x.toNat % 4096 = 0) (hf : flag.toNat < 4096) : has x flag = false := by
  have h0 : x &&& flag = 0#32 := by
    apply BitVec.eq_of_toNat_eq
    apply Nat.eq_of_testBit_eq
    intro i
    rw [BitVec.toNat_and, Nat.testBit_and]
    by_cases hi : i < 12
    case pos =>
      have hm : (x.toNat % 2 ^ 12).testBit i = false := by simp [hx]
      rw [Nat.testBit_mod_two_pow, decide_eq_true hi, Bool.true_and] at hm
      simp [hm]
    case neg =>
      have hl : flag.toNat < 2 ^ i :=
        calc flag.toNat < 2 ^ 12 := hf
          _ ≤ 2 ^ i := Nat.pow_le_pow_right (by decide) (by omega)
      simp [Nat.testBit_lt_two_pow hl]
  simp [has, h0]

-- What the page table at index `i` of the kernel's page directory may hold: user programs cannot write below `ULIM`,
-- and have no access above.
structure SafeEntry (i : Ptx) (w : Word) : Prop where
  below : i.val < (pdx uvpt).val → has w pteW = false
  above : (pdx uvpt).val < i.val → has w pteU = false

theorem SafeEntry.zero : SafeEntry i 0#32 :=
  ⟨fun _ => by decide, fun _ => by decide⟩

theorem SafeEntry.user (hi : i.val < (pdx uvpt).val) (hx : x.toNat % 4096 = 0) :
    SafeEntry i (x ||| pteU ||| pteP) where
  below _ := by
    rw [has_or, has_or, has_aligned hx (by decide)]
    decide
  above hi' := absurd hi' (by omega)

theorem SafeEntry.kern (hi : (pdx uvpt).val < i.val) (hx : x.toNat % 4096 = 0) :
    SafeEntry i (x ||| pteW ||| pteP) where
  below hi' := absurd hi' (by omega)
  above _ := by
    rw [has_or, has_or, has_aligned hx (by decide)]
    decide

-- The linker aligns the stacks of the kernel.
structure BootInfo.Aligned (b : BootInfo) : Prop where
  bootstack     : b.bootstack.toNat % 4096 = 0
  percpuKstacks : ∀ i, (b.percpuKstacks i).toNat % 4096 = 0

theorem toNat_page2pa : (page2pa p).toNat % 4096 = 0 := by
  simp only [page2pa, BitVec.toNat_shiftLeft, BitVec.toNat_setWidth, Nat.shiftLeft_eq]
  omega

section Region

variable {offset : Word} (ho : offset < size) (ha : offset.toNat % 4096 = 0) (hp : pa.toNat % 4096 = 0)

include ha hp in
theorem aligned_add : (pa + offset).toNat % 4096 = 0 := by
  rw [BitVec.toNat_add]
  omega

include ho ha hp in
theorem SafeEntry.of_user (hw : va.toNat + size.toNat ≤ 957 * 2 ^ 22) :
    SafeEntry (pdx (va + offset)) ((pa + offset) ||| pteU ||| pteP) := by
  refine .user ?_ (aligned_add ha hp)
  have ho' : offset.toNat < size.toNat := ho
  have hu : (pdx uvpt).val = 957 := by decide
  rw [val_pdx_add (by omega) ho, hu]
  omega

include ho ha hp in
theorem SafeEntry.of_kern (hw : va.toNat + size.toNat ≤ 2 ^ 32) (hl : 958 * 2 ^ 22 ≤ va.toNat) :
    SafeEntry (pdx (va + offset)) ((pa + offset) ||| pteW ||| pteP) := by
  refine .kern ?_ (aligned_add ha hp)
  have hu : (pdx uvpt).val = 957 := by decide
  rw [val_pdx_add hw ho, hu]
  omega

include ho ha in
theorem BootRegion.safe (hb : b.Mappable) (hal : b.Aligned) (hr : BootRegion b va size pa perm) :
    SafeEntry (pdx (va + offset)) ((pa + offset) ||| perm ||| pteP) := by
  cases hr
  case upages =>
    have hn := hb.npages
    have hs := toNat_upages_size hb
    have hu : Jos.upages.toNat = 956 * 2 ^ 22 := by decide
    exact .of_user ho ha toNat_page2pa (by omega)
  case uenvs => exact .of_user ho ha toNat_page2pa (by decide)
  case bootstack => exact .of_kern ho ha hal.bootstack (by decide) (by decide)
  case kernbase => exact .of_kern ho ha (by decide) (by decide) (by decide)
  case kstack i =>
    have hs : kstksize.toNat = 2 ^ 15 := by decide
    obtain ⟨h₁, h₂⟩ := kstack_bounds i
    exact .of_kern ho ha (hal.percpuKstacks i) (by omega) h₁

end Region

-- The page tables of the kernel are safe.
def KernSafe (s : Kernel) : Prop :=
  ∀ i t j, KernIx i → s.target (.kpde i) = some t → SafeEntry i (s.mem t j)

namespace KernSafe

variable (hs : KernSafe s)

include hs in
theorem setMem (h : PageInv M F l s) (hi : KernIx i) (ht : s.target (.kpde i) = some t) (hw : SafeEntry i w) :
    KernSafe (s.setMem t j w) := by
  intro i' t' j' hi' ht'
  rw [PageInv.target_setMem (h.kern_not_table hi ht)] at ht'
  by_cases he : t' = t ∧ j' = j
  case pos =>
    obtain ⟨rfl, rfl⟩ := he
    have hii : i' = i := by simpa using h.unique (by trivial) ht' ht
    simpa [Kernel.setMem, hii] using hw
  case neg =>
    have hm : (s.setMem t j w).mem t' j' = s.mem t' j' := by
      by_cases hc : t' = t
      case pos =>
        have hj : j' ≠ j := fun hj => he ⟨hc, hj⟩
        simp [Kernel.setMem, hc, hj]
      case neg => simp [Kernel.setMem, hc]
    rw [hm]
    exact hs i' t' j' hi' ht'

include hs in
theorem addKernTable (h : PageInv M F (t :: l) s) : KernSafe (s.addTable s.kernPgdir i t) := by
  intro i' t' j' hi' ht'
  have htM : t ∈ M := (h.pool.mem_free.mp (by simp)).1
  have htk : t ≠ s.kernPgdir := fun he => h.kern (he ▸ htM)
  rw [h.target_addKernTable, update_apply] at ht'
  split at ht'
  case isTrue =>
    cases ht'
    have hz : (s.addTable s.kernPgdir i t).mem t j' = 0#32 := by
      simp [Kernel.addTable, Kernel.setMem, incRef, setPage, Kernel.zeroPage, htk]
    rw [hz]
    exact .zero
  case isFalse =>
    have hne : t' ≠ t := by
      rintro rfl
      exact h.pool.not_ref_of_free (by simp) ht'
    have hne' : t' ≠ s.kernPgdir := by
      rintro rfl
      exact h.kern (h.kern_mem hi' ht')
    rw [PageInv.mem_addTable hne hne']
    exact hs i' t' j' hi' ht'

end KernSafe

section Boot

variable {enough : Prop}

-- One iteration of `boot_map_region`.
theorem bootMapStep_safe (h : BootInv M k enough l s) (hs : KernSafe s) (hi : KernIx (pdx va))
    (hw : SafeEntry (pdx va) w) :
    wp (pgdirWalk k va true) (fun o s' => ∀ p, o = some p → KernSafe (s'.setMem p.1 p.2 w)) (fun _ _ => False) s := by
  have hk := h.kern
  cases ht : s.target (.kpde (pdx va))
  case some t =>
    have ht' : s.table k (pdx va) = some t := hk ▸ ht
    refine wp_of_ok (pgdirWalk_some ht' (h.inv.bound (h.inv.kern_mem hi ht))) ?_
    rintro _ ⟨⟩
    exact hs.setMem h.inv hi ht hw
  case none =>
    have ht' : s.table k (pdx va) = none := hk ▸ ht
    cases l
    case nil => exact wp_of_ok (pgdirWalk_nomem ht' h.inv.free_nil) (by simp)
    case cons t l =>
      refine wp_of_ok (pgdirWalk_create ht' h.inv.free_head h.inv.free_bound) ?_
      rintro _ ⟨⟩
      have hs' := hs.addKernTable (i := pdx va) h.inv
      have h' := h.inv.addKernTable hi.1 ht
      have htar := h.inv.target_addKernTable (i := pdx va)
      rw [hk] at hs' h' htar
      exact hs'.setMem h' hi (by rw [htar, update_self]) hw

theorem bootMapLoop_safe {n : Nat} {offset : Word} (h : BootInv M k enough l s) (hs : KernSafe s)
    (ha : offset.toNat % 4096 = 0) (hi : KernRegion va size)
    (hw : ∀ offset, offset < size → offset.toNat % 4096 = 0 →
      SafeEntry (pdx (va + offset)) ((pa + offset) ||| perm ||| pteP)) :
    wp (bootMapLoop k va size pa perm n offset) (fun _ s' => (∃ l', BootInv M k enough l' s') ∧ KernSafe s')
      (fun _ _ => True) s := by
  induction n generalizing offset s l
  case zero => exact ⟨⟨l, h⟩, hs⟩
  case succ n ih =>
    simp only [bootMapLoop]
    split
    case isTrue ho =>
      have hstep := wp_and (bootMapStep (w := (pa + offset) ||| perm ||| pteP) h (hi offset ho))
        (bootMapStep_safe h hs (hi offset ho) (hw offset ho ha))
      refine wp_seq (wp_mono hstep (fun _ _ => id) fun _ _ _ => trivial) ?_
      rintro o s' ⟨⟨-, hb⟩, hsafe⟩
      cases o
      case none => exact trivial
      case some p =>
        simp only [wp_bind_modify]
        obtain ⟨l', h'⟩ := hb p rfl
        have ha' : (offset + pgsize).toNat % 4096 = 0 := by
          rw [BitVec.toNat_add, pgsize]
          simp only [BitVec.toNat_ofNat]
          omega
        exact ih h' (hsafe p rfl) ha'
    case isFalse => exact ⟨⟨l, h⟩, hs⟩

theorem bootMapRegion_safe (hb : b.Mappable) (ha : b.Aligned) (hr : BootRegion b va size pa perm)
    (h : BootInv M k enough l s) (hs : KernSafe s) :
    wp (bootMapRegion k va size pa perm) (fun _ s' => (∃ l', BootInv M k enough l' s') ∧ KernSafe s')
      (fun _ _ => True) s := by
  unfold bootMapRegion
  exact bootMapLoop_safe h hs rfl (hr.kernRegion hb) fun offset ho hx => hr.safe ho hx hb ha

-- Before the first region is mapped, the kernel has no page tables.
theorem kernSafe_pageInit {s₁ : Kernel} (hr : (pageInit b).run (bootState b s) = .ok () s₁) : KernSafe s₁ := by
  intro i t j hi ht
  rw [target_pageInit hr, update_of_ne (by simpa using hi.2)] at ht
  cases ht

theorem memInit_safe (hb : b.Mappable) (ha : b.Aligned) :
    wp (memInit b c) (fun _ s' => KernSafe s') (fun _ _ => True) s := by
  obtain ⟨s₁, hr₁, h₁⟩ := bootInv_pageInit (s := s) hb
  refine wp_mono (memInit_of (I := fun s => (∃ l, BootInv b.managed (BitVec.ofNat 20 b.kernPgdir)
    (1024 ≤ b.freePages.length) l s) ∧ KernSafe s) ?_ ?_ ?_) ?_ fun _ _ => id
  case refine_1 =>
    intro s' hs'
    refine ⟨?_, kernSafe_pageInit hs'⟩
    rw [hr₁] at hs'
    cases hs'
    exact ⟨_, h₁⟩
  case refine_2 =>
    rintro s ⟨⟨l, h⟩, -⟩
    exact h.kern
  case refine_3 =>
    rintro va size pa perm s hr ⟨⟨l, h⟩, hs⟩
    exact bootMapRegion_safe hb ha hr h hs
  case refine_4 =>
    rintro _ _ ⟨s₆, ⟨-, hs⟩, rfl⟩
    exact hs

end Boot

section Access

variable {s₀ s₁ s₂ : Kernel} (hk : KernHalf s₀ s) (hs : KernSafe s₀) (hd : s.pgdirOf e = some pd)

include hk hd in
theorem KernHalf.mem_dir (hi : KernIx i) : s.mem pd i = s₀.mem s₀.kernPgdir i := by
  rw [hk.dir hd hi.1, if_neg hi.2, hk.kern, hk.mem (.inl rfl)]

-- The entries which an environment finds in the kernel's page tables.
include hk hs hd in
theorem KernHalf.safe_entry (hi : KernIx i) : SafeEntry i (s.entry pd i j) := by
  simp only [entry, Kernel.table, hk.mem_dir hd hi]
  split
  case h_1 => exact .zero
  case h_2 t ht =>
    rw [hk.mem (.inr ⟨i, hi, ht⟩)]
    exact hs i t j hi ht

theorem pdx_ge (h : utop ≤ va) : pdxUtop ≤ (pdx va).val := by
  have hu : utop.toNat = 955 * 2 ^ 22 := by decide
  have h' := BitVec.le_def.mp h
  rw [val_pdx, pdxUtop]
  omega

theorem uvpt_lt_pdx (h : ulim ≤ va) : (pdx uvpt).val < (pdx va).val := by
  have hu : ulim.toNat = 958 * 2 ^ 22 := by decide
  have hv : (pdx uvpt).val = 957 := by decide
  have h' := BitVec.le_def.mp h
  rw [hv, val_pdx]
  omega

include hk hs hd in
theorem KernHalf.not_writable (hv : utop ≤ va) : s.translate pd va ⟨true, true⟩ = none := by
  have hi := pdx_ge hv
  rw [Kernel.translate]
  refine if_neg fun hacc => ?_
  obtain ⟨hu, hw⟩ := hacc
  by_cases hx : pdx va = pdx uvpt
  case pos =>
    -- The page directory maps itself, without the write bit.
    have hpde : has (s.mem pd (pdx va)) pteW = false := by
      rw [hk.dir hd hi, if_pos hx, has_or, has_or, has_aligned toNat_page2pa (by decide)]
      decide
    simp [hpde] at hw
  case neg =>
    have he := hk.safe_entry (j := ptx va) hs hd ⟨hi, hx⟩
    obtain hlt | hgt := Nat.lt_or_gt_of_ne (fun he' => hx (Fin.ext he'))
    case inl => simp [he.below hlt] at hw
    case inr => simp [he.above hgt] at hu

include hk hs hd in
theorem KernHalf.not_accessible {write : Bool} (hv : ulim ≤ va) : s.translate pd va ⟨true, write⟩ = none := by
  have hi : KernIx (pdx va) := ⟨pdx_ge (BitVec.le_trans (by decide) hv), fun he => by simpa [he] using uvpt_lt_pdx hv⟩
  have he := (hk.safe_entry (j := ptx va) hs hd hi).above (uvpt_lt_pdx hv)
  rw [Kernel.translate]
  refine if_neg fun hacc => ?_
  simp [he] at hacc

end Access

section

variable {s₀ s₁ s₂ : Kernel}

-- `env_init` leaves memory alone, and no environment exists after it.
theorem pushEnvs_kernHalf {L : List EnvIx} (hn : L.Nodup) (hL : ∀ e, e ∈ L) :
    KernHalf s (L.foldl pushEnv { s with envFreeList := none }) ∧
      ∀ e, (L.foldl pushEnv { s with envFreeList := none }).pgdirOf e = none := by
  obtain ⟨-, hf, -, ha, hm⟩ := pushEnvs (s := { s with envFreeList := none }) (L := []) rfl hn (by simp)
  generalize L.foldl pushEnv { s with envFreeList := none } = s' at hf ha hm ⊢
  have hn : ∀ e, s'.pgdirOf e = none := fun e => pgdirOf_free (hf e (.inl (hL e))).1
  refine ⟨⟨ha.kernPgdir, fun _ => by rw [hm], fun {e} _ _ hd => ?_⟩, hn⟩
  rw [hn e] at hd
  cases hd

theorem envInit_kernHalf (hr : envInit.run s₁ = .ok () s₂) : KernHalf s₁ s₂ ∧ ∀ e, s₂.pgdirOf e = none := by
  have hs := hr.symm.trans envInit_run
  injection hs with _ hs
  rw [hs]
  exact pushEnvs_kernHalf (List.nodup_reverse.mpr (List.nodup_finRange _))
    fun e => List.mem_reverse.mpr (List.mem_finRange e)

theorem boot_spaceInv (hb : b.Valid) (hm : (memInit b c).run s₀ = .ok () s₁) (he : envInit.run s₁ = .ok () s₂) :
    SpaceInv b.managed s₁ (∅, s₂) := by
  obtain ⟨l, L, h, hL⟩ := boot_memInv hb hm he
  exact ⟨l, L, h, hL, (envInit_kernHalf he).1⟩

-- From `UTOP` on, every environment has the page tables that `mem_init` has made, apart from the page directory at
-- `UVPT`; they do not change, and neither do they let user programs write, or read from `ULIM` on.
theorem kernel_half_protected (hb : b.Valid) (ha : b.Aligned) (hm : (memInit b c).run s₀ = .ok () s₁)
    (he : envInit.run s₁ = .ok () s₂) (hr : SpaceRun (∅, s₂) (F, s)) (hl : (s.envs e).status ≠ .free) :
    ∃ pd, (s.envs e).pgdir = some pd ∧ s.kernPgdir = s₁.kernPgdir ∧
      (∀ i : Ptx, pdxUtop ≤ i.val → i ≠ pdx uvpt → s.mem pd i = s.mem s.kernPgdir i ∧
        s.mem s.kernPgdir i = s₁.mem s₁.kernPgdir i ∧ ∀ t, s.table pd i = some t → s.mem t = s₁.mem t) ∧
      (∀ va, utop ≤ va → s.translate pd va ⟨true, true⟩ = none) ∧
      ∀ va write, ulim ≤ va → s.translate pd va ⟨true, write⟩ = none := by
  obtain ⟨l, L, h, -, hk⟩ := (boot_spaceInv hb hm he).run hr
  have hs : KernSafe s₁ := wp_ok (memInit_safe hb.mappable ha) hm
  obtain ⟨pd, hd⟩ := h.pgdirOf_live hl
  refine ⟨pd, pgdirOf_pgdir hd, hk.kern, fun i hi hne => ?_, fun va hv => hk.not_writable hs hd hv,
    fun va write hv => hk.not_accessible hs hd hv⟩
  have hmem := hk.mem_dir hd ⟨hi, hne⟩
  have hkern : s.mem s.kernPgdir i = s₁.mem s₁.kernPgdir i := by rw [hk.kern, hk.mem (.inl rfl)]
  refine ⟨hmem.trans hkern.symm, hkern, fun t ht => hk.mem (.inr ⟨i, ⟨hi, hne⟩, ?_⟩)⟩
  rw [Kernel.table, hmem] at ht
  exact ht

-- With more pages than the kernel can have page tables, some page is free after the boot.
theorem boot_free_page (hb : b.Valid) (h : PageInv b.managed ∅ l s) (hn : ∀ e, s.pgdirOf e = none)
    (hl : 1024 < b.freePages.length) : l ≠ [] := by
  rintro rfl
  have hmap : ∀ p ∈ b.freePages, ∃ i, s.target (.kpde i) = some p := by
    intro p hp
    have hz : RefCount.refs s.target p ≠ 0 := fun hz => by simpa using h.pool.mem_free.mpr ⟨hp, hz, by simp⟩
    obtain ⟨r, hr⟩ := refs_pos_iff.mp (Nat.pos_of_ne_zero hz)
    cases r
    case kpde i => exact ⟨i, hr⟩
    all_goals simp [target, pteOf, tableOf, hn] at hr
  choose! f hf using hmap
  have hinj : Set.InjOn f { p | p ∈ b.freePages } := by
    intro p hp q hq hpq
    have hq' := hf q hq
    rw [← hpq, hf p hp] at hq'
    exact Option.some.inj hq'
  have hcard := (hb.mappable.fits.nodup.map_on hinj).length_le_card
  rw [List.length_map, Fintype.card_fin] at hcard
  omega

theorem pc_more : 1024 < pc.freePages.length := by
  have hl : pc.low = 4178 := pc.low_eq
  simp only [BootInfo.freePages, List.length_map, List.length_append, List.length_range', hl]
  exact Nat.lt_add_left _ (by decide)

theorem pc_aligned : pc.Aligned :=
  ⟨by decide, by decide⟩

-- The booted machine creates an environment.
theorem pc_envAlloc :
    ∃ s₁ s₂ e s, (memInit pc 0).run powerOn = .ok () s₁ ∧ envInit.run s₁ = .ok () s₂ ∧
      (envAlloc 0#32).run s₂ = .ok (.ok e) s ∧ (s.envs e).status ≠ .free ∧ MemInv pc.managed s := by
  obtain ⟨s₁, h₁⟩ := memInit_ok (c := 0) (s := powerOn) pc_valid pc_enough
  obtain ⟨s₂, h₂⟩ : ∃ s₂, envInit.run s₁ = .ok () s₂ := ⟨_, envInit_run⟩
  obtain ⟨l, L, hp, hL⟩ := boot_memInv pc_valid h₁ h₂
  have hn := (envInit_kernHalf h₂).2
  obtain ⟨p, l', rfl⟩ : ∃ p l', l = p :: l' := List.exists_cons_of_ne_nil (boot_free_page pc_valid hp hn pc_more)
  have he : 0 ∈ L := by
    by_contra hne
    obtain ⟨pd, hd⟩ := hp.pgdirOf_live (mt hL.mem.mpr hne)
    simp [hn] at hd
  obtain ⟨e, L', rfl⟩ : ∃ e L', L = e :: L' := List.exists_cons_of_ne_nil (List.ne_nil_of_mem he)
  refine ⟨s₁, s₂, e, s₂.newEnv e p 0#32, h₁, h₂, hp.envAlloc_run hL.chain.1, ?_, ?_⟩
  case refine_1 => simp [Kernel.newEnv, setEnv, freshEnv]
  case refine_2 => exact MemInv.newEnv ⟨_, _, hp, hL⟩ hL.chain.1 hp.free_head

theorem kernel_half_protected_pc :
    ∃ s₁ s₂ e s, (memInit pc 0).run powerOn = .ok () s₁ ∧ envInit.run s₁ = .ok () s₂ ∧
      (envAlloc 0#32).run s₂ = .ok (.ok e) s ∧
      ∃ pd, (s.envs e).pgdir = some pd ∧ s.translate pd kernbase ⟨true, false⟩ = none := by
  obtain ⟨s₁, s₂, e, s, h₁, h₂, hr, hl, hi⟩ := pc_envAlloc
  obtain ⟨pd, hd, -, -, -, hx⟩ :=
    kernel_half_protected pc_valid pc_aligned h₁ h₂ (.single ⟨.envAlloc hr, hi.refsFit⟩) hl
  exact ⟨s₁, s₂, e, s, h₁, h₂, hr, pd, hd, hx kernbase false (by decide)⟩

end

end Jos
