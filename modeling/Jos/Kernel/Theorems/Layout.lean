import Jos.Kernel.Theorems.Protect

-- The address space of the kernel after `mem_init`.

open Function RefCount Program

namespace Jos

open Kernel

variable {M : Set Ppn} {l : List Ppn} {s s' : Kernel} {c : CpuIx} {i j : Ptx} {p t k : Ppn} {va size pa perm w : Word}
  {b : BootInfo} {enough : Prop} {f g : Ptx → Ptx → Word}

-- The entries of the page tables of the kernel, apart from those one sees at `UVPT`.
structure KernMap (k : Ppn) (s : Kernel) (f : Ptx → Ptx → Word) : Prop where
  entry : ∀ {i j}, KernIx i → s.entry k i j = f i j
  dir   : ∀ {i}, KernIx i → s.table k i ≠ none → has (s.mem k i) pteU = true ∧ has (s.mem k i) pteW = true
  self  : s.mem k (pdx uvpt) = page2pa k ||| pteU ||| pteP

namespace Region

variable (r : Region)

def Has (i j : Ptx) : Prop :=
  pgaddr i j - r.va < r.size

instance : Decidable (r.Has i j) :=
  inferInstanceAs (Decidable (_ < _))

def entry (i j : Ptx) : Word :=
  (r.pa + (pgaddr i j - r.va)) ||| r.perm ||| pteP

-- Mapping the region replaces the entries it had before.
def write (f : Ptx → Ptx → Word) (i j : Ptx) : Word :=
  if r.Has i j then r.entry i j else f i j

end Region

section Write

variable {r : Region} {rs : List Region}

theorem foldl_write_of_not (h : ∀ r ∈ rs, ¬r.Has i j) : rs.foldl (fun f r => r.write f) f i j = f i j := by
  induction rs generalizing f
  case nil => rfl
  case cons r rs ih =>
    rw [List.foldl_cons, ih fun r' hr' => h r' (by simp [hr']), Region.write, if_neg (h r (by simp))]

-- An entry that only one of the regions has.
theorem foldl_write_of_mem (hr : r ∈ rs) (h : r.Has i j) (hu : ∀ r' ∈ rs, r'.Has i j → r' = r) :
    rs.foldl (fun f r => r.write f) f i j = r.entry i j := by
  induction rs generalizing f
  case nil => cases hr
  case cons r' rs ih =>
    rw [List.foldl_cons]
    by_cases hm : r ∈ rs
    case pos => exact ih hm fun r'' hr'' => hu r'' (by simp [hr''])
    case neg =>
      cases (List.mem_cons.mp hr).resolve_right hm
      have hn : ∀ r' ∈ rs, ¬r'.Has i j := by
        intro r' hr' hh
        cases hu r' (by simp [hr']) hh
        exact hm hr'
      rw [foldl_write_of_not hn, Region.write, if_pos h]

end Write

namespace KernMap

theorem congr (h : KernMap k s f) (hf : ∀ i j, KernIx i → f i j = g i j) : KernMap k s g :=
  ⟨fun hi => (h.entry hi).trans (hf _ _ hi), h.dir, h.self⟩

-- Writing an entry of a page table of the kernel.
theorem setMem (hm : KernMap s.kernPgdir s f) (h : PageInv M ∅ l s) (hi : KernIx i)
    (ht : s.target (.kpde i) = some t) :
    KernMap s.kernPgdir (s.setMem t j w) fun i' j' => if i' = i ∧ j' = j then w else f i' j' := by
  have hk : s.kernPgdir ≠ t := fun he => h.kern_not_table hi ht (.inl he.symm)
  have hd : (s.setMem t j w).mem s.kernPgdir = s.mem s.kernPgdir := by simp [Kernel.setMem, hk]
  refine ⟨fun {i' j'} hi' => ?_, fun hi' hn => ?_, by rw [hd, hm.self]⟩
  case refine_1 =>
    rw [← hm.entry hi', Kernel.entry, Kernel.entry, Kernel.table, Kernel.table, hd]
    cases ht' : entryPage (s.mem s.kernPgdir i')
    case none =>
      have hne : i' ≠ i := by
        rintro rfl
        cases ht.symm.trans ht'
      simp [hne]
    case some t' =>
      by_cases hc : i' = i ∧ j' = j
      case pos =>
        obtain ⟨rfl, rfl⟩ := hc
        cases ht.symm.trans ht'
        simp [Kernel.setMem]
      case neg =>
        rw [if_neg hc]
        by_cases hti : t' = t
        case neg => simp [Kernel.setMem, hti]
        case pos =>
          have ht'' : s.target (.kpde i') = some t := hti ▸ ht'
          have hii : i' = i := by simpa using h.unique (by trivial) ht'' ht
          have hj : j' ≠ j := fun hj => hc ⟨hii, hj⟩
          simp [Kernel.setMem, hti, hj]
  case refine_2 =>
    rw [Kernel.table, hd] at hn
    rw [hd]
    exact hm.dir hi' hn

-- A new page table is empty.
theorem addKernTable (hm : KernMap s.kernPgdir s f) (h : PageInv M ∅ (t :: l) s) (hi : KernIx i)
    (ht : s.target (.kpde i) = none) : KernMap s.kernPgdir (s.addTable s.kernPgdir i t) f := by
  have hne : t ≠ s.kernPgdir := by
    rintro rfl
    exact h.kern (h.pool.mem_free.mp (by simp)).1
  have hd {i'} (hi' : i' ≠ i) : (s.addTable s.kernPgdir i t).mem s.kernPgdir i' = s.mem s.kernPgdir i' := by
    simp [Kernel.addTable, Kernel.setMem, incRef, setPage, Kernel.zeroPage, Kernel.popFree, hi', hne.symm]
  refine ⟨fun {i' j'} hi' => ?_, fun {i'} hi' hn => ?_, by rw [hd hi.2.symm, hm.self]⟩
  case refine_1 =>
    rw [← hm.entry hi']
    by_cases hc : i' = i
    case pos =>
      have hz : (s.addTable s.kernPgdir i t).mem t j' = 0#32 := by
        simp [Kernel.addTable, Kernel.setMem, incRef, setPage, Kernel.zeroPage, Kernel.popFree, hne]
      have ht' : s.table s.kernPgdir i = none := ht
      rw [hc, Kernel.entry, Kernel.entry, PageInv.table_addTable, ht']
      exact hz
    case neg =>
      rw [Kernel.entry, Kernel.entry, Kernel.table, Kernel.table, hd hc]
      cases ht' : entryPage (s.mem s.kernPgdir i')
      case none => rfl
      case some t' =>
        have hr : s.target (.kpde i') = some t' := ht'
        have hne₁ : t' ≠ t := by
          rintro rfl
          exact h.pool.not_ref_of_free (by simp) hr
        have hne₂ : t' ≠ s.kernPgdir := by
          rintro rfl
          exact h.kern (h.kern_mem hi' hr)
        simp only [PageInv.mem_addTable hne₁ hne₂]
  case refine_2 =>
    by_cases hc : i' = i
    case pos =>
      have hw : (s.addTable s.kernPgdir i t).mem s.kernPgdir i = page2pa t ||| pteP ||| pteU ||| pteW := by
        simp [Kernel.addTable, Kernel.setMem]
      rw [hc, hw, has_or, has_or, has_or, has_or]
      simp [has, pteU, pteW]
    case neg =>
      rw [Kernel.table, hd hc] at hn
      rw [hd hc]
      exact hm.dir hi' hn

end KernMap

section Map

variable {r : Region} {rs : List Region}

-- One iteration of `boot_map_region`.
theorem bootMapStep_map (h : BootInv M k enough l s) (hm : KernMap k s f) (hi : KernIx (pdx va)) :
    wp (pgdirWalk k va true)
      (fun o s' => ∀ p, o = some p →
        KernMap k (s'.setMem p.1 p.2 w) fun i j => if i = pdx va ∧ j = ptx va then w else f i j)
      (fun _ _ => False) s := by
  obtain rfl := h.kern
  cases ht : s.target (.kpde (pdx va))
  case some t =>
    refine wp_of_ok (pgdirWalk_some (show s.table s.kernPgdir (pdx va) = some t from ht)
      (h.inv.bound (h.inv.kern_mem hi ht))) ?_
    rintro _ ⟨⟩
    exact hm.setMem h.inv hi ht
  case none =>
    have ht' : s.table s.kernPgdir (pdx va) = none := ht
    cases l
    case nil => exact wp_of_ok (pgdirWalk_nomem ht' h.inv.free_nil) (by simp)
    case cons t l =>
      refine wp_of_ok (pgdirWalk_create ht' h.inv.free_head h.inv.free_bound) ?_
      rintro _ ⟨⟩
      have hm' := hm.addKernTable h.inv hi ht
      have htar := h.inv.target_addKernTable (i := pdx va)
      exact hm'.setMem (h.inv.addKernTable hi.1 ht) hi (by rw [htar, update_self])

-- The regions consist of pages, and do not reach the end of the address space before their last page.
structure Region.Paged (r : Region) : Prop where
  va   : r.va.toNat % 4096 = 0
  size : r.size.toNat % 4096 = 0
  pa   : r.pa.toNat % 4096 = 0
  last : r.size.toNat + 4096 ≤ 2 ^ 32
  perm : FlagsOnly r.perm

-- The offset of a page in a region.
theorem Region.Paged.offset (hr : r.Paged) : (pgaddr i j - r.va).toNat % 4096 = 0 := by
  have hv := hr.va
  rw [BitVec.toNat_sub, toNat_pgaddr]
  omega

-- What is left to be written when the loop has reached `offset`.
def Region.writeFrom (r : Region) (offset : Word) (f : Ptx → Ptx → Word) (i j : Ptx) : Word :=
  if r.Has i j ∧ offset ≤ pgaddr i j - r.va then r.entry i j else f i j

theorem Region.writeFrom_zero : r.writeFrom 0#32 f = r.write f := by
  funext i j
  have hz : 0#32 ≤ pgaddr i j - r.va := BitVec.le_def.mpr (Nat.zero_le _)
  simp [Region.writeFrom, Region.write, hz]

theorem Region.writeFrom_done {offset : Word} (h : r.size ≤ offset) : r.writeFrom offset f = f := by
  funext i j
  refine if_neg fun hc => ?_
  exact absurd hc.1 (BitVec.not_lt.mpr (BitVec.le_trans h hc.2))

theorem Region.writeFrom_step {offset : Word} (hr : r.Paged) (ho : offset.toNat % 4096 = 0) (hl : offset < r.size) :
    r.writeFrom (offset + pgsize) (fun i j => if i = pdx (r.va + offset) ∧ j = ptx (r.va + offset) then
      (r.pa + offset) ||| r.perm ||| pteP else f i j) = r.writeFrom offset f := by
  funext i j
  have hd := hr.offset (i := i) (j := j)
  have hl' : offset.toNat < r.size.toNat := hl
  have hx := hr.last
  have hn : (offset + pgsize).toNat = offset.toNat + 4096 := by
    rw [BitVec.toNat_add, pgsize]
    simp only [BitVec.toNat_ofNat]
    omega
  have hva : (r.va + offset).toNat % 4096 = 0 := aligned_add ho hr.va
  have hij : (i = pdx (r.va + offset) ∧ j = ptx (r.va + offset)) ↔ pgaddr i j - r.va = offset := by
    rw [← pgaddr_eq_iff hva, BitVec.sub_eq_iff_eq_add, BitVec.add_comm]
  simp only [writeFrom, hij, BitVec.le_def, hn]
  by_cases he : pgaddr i j - r.va = offset
  case pos => simp [Region.Has, Region.entry, he, hl]
  case neg =>
    have hne : (pgaddr i j - r.va).toNat ≠ offset.toNat := fun hc => he (BitVec.eq_of_toNat_eq hc)
    have hle : offset.toNat + 4096 ≤ (pgaddr i j - r.va).toNat ↔ offset.toNat ≤ (pgaddr i j - r.va).toNat := by omega
    simp only [he, if_false, hle]

theorem bootMapLoop_map {n : Nat} {offset : Word} (h : BootInv M k enough l s) (hm : KernMap k s f) (hr : r.Paged)
    (ho : offset.toNat % 4096 = 0) (hn : r.size.toNat ≤ offset.toNat + 4096 * n) (hi : KernRegion r.va r.size) :
    wp (bootMapLoop k r.va r.size r.pa r.perm n offset)
      (fun _ s' => (∃ l', BootInv M k enough l' s') ∧ KernMap k s' (r.writeFrom offset f)) (fun _ _ => True) s := by
  induction n generalizing offset s l f
  case zero =>
    refine ⟨⟨l, h⟩, ?_⟩
    rwa [Region.writeFrom_done (BitVec.le_def.mpr (by omega))]
  case succ n ih =>
    simp only [bootMapLoop]
    split
    case isTrue hl =>
      have hstep := wp_and (bootMapStep (w := (r.pa + offset) ||| r.perm ||| pteP) h (hi offset hl))
        (bootMapStep_map (w := (r.pa + offset) ||| r.perm ||| pteP) h hm (hi offset hl))
      refine wp_seq (wp_mono hstep (fun _ _ => id) fun _ _ _ => trivial) ?_
      rintro o s' ⟨⟨-, hb⟩, hmap⟩
      cases o
      case none => exact trivial
      case some p =>
        simp only [wp_bind_modify]
        obtain ⟨l', h'⟩ := hb p rfl
        have hl' : offset.toNat < r.size.toNat := hl
        have hx := hr.last
        have hn' : (offset + pgsize).toNat = offset.toNat + 4096 := by
          rw [BitVec.toNat_add, pgsize]
          simp only [BitVec.toNat_ofNat]
          omega
        rw [← Region.writeFrom_step hr ho hl]
        exact ih h' (hmap p rfl) (by omega) (by omega)
    case isFalse hl =>
      refine ⟨⟨l, h⟩, ?_⟩
      rwa [Region.writeFrom_done (BitVec.not_lt.mp hl)]

theorem bootMapRegion_map (h : BootInv M k enough l s) (hm : KernMap k s f) (hr : r.Paged)
    (hi : KernRegion r.va r.size) :
    wp (bootMapRegion k r.va r.size r.pa r.perm)
      (fun _ s' => (∃ l', BootInv M k enough l' s') ∧ KernMap k s' (r.write f)) (fun _ _ => True) s := by
  have hx := hr.last
  rw [bootMapRegion, ← Region.writeFrom_zero]
  exact bootMapLoop_map h hm hr rfl (by simp; omega) hi

end Map

section Regions

variable (hb : b.Mappable) (ha : b.Aligned)

theorem Region.paged_of (hv : va.toNat % 4096 = 0) (hs : size.toNat % 4096 = 0) (hp : pa.toNat % 4096 = 0)
    (hl : size.toNat + 4096 ≤ 2 ^ 32) (hf : FlagsOnly perm) : Region.Paged ⟨va, size, pa, perm⟩ :=
  ⟨hv, hs, hp, hl, hf⟩

include hb ha in
theorem BootRegion.paged (hr : BootRegion b va size pa perm) : Region.Paged ⟨va, size, pa, perm⟩ := by
  cases hr
  case upages =>
    have hn := hb.npages
    have hs := toNat_upages_size hb
    exact Region.paged_of (by decide) (by omega) toNat_page2pa (by omega) (by decide)
  case uenvs => exact Region.paged_of (by decide) (by decide) toNat_page2pa (by decide) (by decide)
  case bootstack => exact Region.paged_of (by decide) (by decide) ha.bootstack (by decide) (by decide)
  case kernbase => exact Region.paged_of (by decide) (by decide) (by decide) (by decide) (by decide)
  case kstack n =>
    have hv : ∀ n : Fin 8,
        (kstacktop - kstksize - BitVec.ofNat 32 n * (kstksize + kstkgap)).toNat % 4096 = 0 := by decide
    exact Region.paged_of (hv n) (by decide) (ha.percpuKstacks n) (by decide) (by decide)

-- Before the first region is mapped, no page table exists.
theorem kernMap_pageInit {s₁ : Kernel} (hr : (pageInit b).run (bootState b s) = .ok () s₁)
    (hk : s₁.kernPgdir = BitVec.ofNat 20 b.kernPgdir) :
    KernMap (BitVec.ofNat 20 b.kernPgdir) s₁ fun _ _ => 0#32 := by
  have ht {i} (hi : KernIx i) : s₁.table (BitVec.ofNat 20 b.kernPgdir) i = none := by
    have : s₁.target (.kpde i) = none := by rw [target_pageInit hr, update_of_ne (by simpa using hi.2)]
    rwa [← hk]
  refine ⟨fun hi => by rw [entry, ht hi], fun hi hn => absurd (ht hi) hn, ?_⟩
  rw [pageInit_run, initPages_same] at hr
  cases hr
  simp [bootState, Kernel.setMem]

-- The entries which `mem_init` makes.
def BootInfo.entries (b : BootInfo) : Ptx → Ptx → Word :=
  (b.regions ++ (List.finRange 8).map b.kstack).foldl (fun f r => r.write f) fun _ _ => 0#32

include hb ha in
theorem memInit_map : wp (memInit b c)
    (fun _ s' => (∃ l, PageInv b.managed ∅ l s') ∧ KernMap s'.kernPgdir s' b.entries) (fun _ _ => True) s := by
  obtain ⟨s₁, hr₁, h₁⟩ := bootInv_pageInit (s := s) hb
  refine wp_mono (memInit_regions (I := fun rs s => (∃ l, BootInv b.managed (BitVec.ofNat 20 b.kernPgdir)
    (1024 ≤ b.freePages.length) l s) ∧ KernMap (BitVec.ofNat 20 b.kernPgdir) s
      (rs.foldl (fun f r => r.write f) fun _ _ => 0#32)) ?_ ?_ ?_) ?_ fun _ _ => id
  case refine_1 =>
    intro s' hs'
    have hs := hr₁.symm.trans hs'
    cases hs
    exact ⟨⟨_, h₁⟩, kernMap_pageInit hs' h₁.kern⟩
  case refine_2 =>
    rintro rs s ⟨⟨l, h⟩, -⟩
    exact h.kern
  case refine_3 =>
    rintro rs s r hr ⟨⟨l, h⟩, hm⟩
    simp only [List.foldl_append]
    exact bootMapRegion_map h hm (hr.paged hb ha) (hr.kernRegion hb)
  case refine_4 =>
    rintro _ _ ⟨s₆, ⟨⟨l, h⟩, hm⟩, rfl⟩
    refine ⟨⟨l, SameMem.setCpu.pageInv h.inv⟩, ?_⟩
    have hk : s₆.kernPgdir = BitVec.ofNat 20 b.kernPgdir := h.kern
    rw [← hk] at hm
    exact ⟨hm.entry, hm.dir, hm.self⟩

end Regions

namespace Kernel

-- The physical address behind `va`, for an access the page tables allow.
def physAddr (s : Kernel) (pgdir : Ppn) (va : Word) (a : Access) : Option Word :=
  (s.translate pgdir va a).map fun p => page2pa p + va % pgsize

end Kernel

section Evaluate

variable {r : Region} {a : Access}

theorem toNat_page2pa_eq : (page2pa p).toNat = p.toNat * 4096 := by
  have hp := p.isLt
  simp only [page2pa, BitVec.toNat_shiftLeft, BitVec.toNat_setWidth, Nat.shiftLeft_eq]
  omega

-- The address of a page is the address of its number.
theorem page2pa_pgnum {x : Word} (hx : x.toNat % 4096 = 0) : page2pa (pgnum x) = x := by
  apply BitVec.eq_of_toNat_eq
  rw [toNat_page2pa_eq, toNat_pgnum]
  omega

-- What an access finds in the page tables of the kernel.
theorem KernMap.translate (hm : KernMap k s f) (hi : KernIx (pdx va)) : s.translate k va a =
    if (a.user → has (f (pdx va) (ptx va)) pteU) ∧ (a.write → has (f (pdx va) (ptx va)) pteW) then
      entryPage (f (pdx va) (ptx va))
    else none := by
  rw [Kernel.translate, hm.entry hi]
  cases ht : s.table k (pdx va)
  case none =>
    have hz : f (pdx va) (ptx va) = 0#32 := by rw [← hm.entry hi, Kernel.entry, ht]
    simp [hz]
  case some t =>
    obtain ⟨hu, hw⟩ := hm.dir hi (by simp [ht])
    simp [hu, hw]

namespace Region.Paged

variable (hr : r.Paged)

-- The offset of the page of an address.
include hr in
theorem toNat_offset : (pgaddr (pdx va) (ptx va) - r.va).toNat = (va - r.va).toNat / 4096 * 4096 := by
  have hv := hr.va
  have hx : (pgaddr (pdx va) (ptx va)).toNat = va.toNat / 4096 * 4096 := by
    rw [toNat_pgaddr, val_pdx, val_ptx]
    omega
  have hl := va.isLt
  have hl' := r.va.isLt
  rw [BitVec.toNat_sub, BitVec.toNat_sub, hx]
  omega

include hr in
theorem has_iff : r.Has (pdx va) (ptx va) ↔ va - r.va < r.size := by
  have hs := hr.size
  rw [Region.Has, BitVec.lt_def, BitVec.lt_def, hr.toNat_offset]
  omega

-- The page of the entry, and the flags it has.
include hr in
theorem entryPage_entry :
    entryPage (r.entry (pdx va) (ptx va)) = some (pgnum (r.pa + (va - r.va))) := by
  have ha : (r.pa + (pgaddr (pdx va) (ptx va) - r.va)).toNat % 4096 = 0 := aligned_add hr.offset hr.pa
  have hn : pgnum (r.pa + (pgaddr (pdx va) (ptx va) - r.va)) = pgnum (r.pa + (va - r.va)) := by
    have hp := hr.pa
    apply BitVec.eq_of_toNat_eq
    rw [toNat_pgnum, toNat_pgnum, BitVec.toNat_add, BitVec.toNat_add, hr.toNat_offset]
    omega
  rw [Region.entry, ← page2pa_pgnum ha, entryPage_insert hr.perm, hn]

include hr in
theorem has_entry {flag : Word} (hf : flag.toNat < 4096) (hp : has pteP flag = false) :
    has (r.entry i j) flag = has r.perm flag := by
  rw [Region.entry, has_or, has_or, has_aligned (aligned_add hr.offset hr.pa) hf, hp, Bool.false_or, Bool.or_false]

include hr in
theorem page2pa_add : page2pa (pgnum (r.pa + (va - r.va))) + va % pgsize = r.pa + (va - r.va) := by
  have hv := hr.va
  have hp := hr.pa
  have hm : (va % pgsize).toNat = (r.pa + (va - r.va)).toNat % 4096 := by
    have hs : pgsize.toNat = 4096 := rfl
    rw [BitVec.toNat_umod, BitVec.toNat_add, BitVec.toNat_sub, hs]
    omega
  have hl := (r.pa + (va - r.va)).isLt
  apply BitVec.eq_of_toNat_eq
  rw [BitVec.toNat_add, toNat_page2pa_eq, toNat_pgnum, hm]
  omega

end Region.Paged

-- An address of a region.
theorem KernMap.physAddr (hm : KernMap k s f) (hi : KernIx (pdx va)) (hr : r.Paged)
    (hf : f (pdx va) (ptx va) = r.entry (pdx va) (ptx va)) : s.physAddr k va a =
    if (a.user → has r.perm pteU) ∧ (a.write → has r.perm pteW) then some (r.pa + (va - r.va)) else none := by
  rw [Kernel.physAddr, hm.translate hi, hf, hr.has_entry (by decide) (by decide), hr.has_entry (by decide) (by decide),
    hr.entryPage_entry]
  split
  case isTrue => rw [Option.map_some, hr.page2pa_add]
  case isFalse => rfl

end Evaluate

section Disjoint

variable {r : Region}

-- The addresses of a region that does not run over the end of the address space.
theorem sub_lt_iff {x : Word} (hw : va.toNat + size.toNat ≤ 2 ^ 32) :
    x - va < size ↔ va.toNat ≤ x.toNat ∧ x.toNat < va.toNat + size.toNat := by
  have hx := x.isLt
  rw [BitVec.lt_def, BitVec.toNat_sub]
  omega

theorem toNat_kstack : ∀ n : Fin 8,
    (kstacktop - kstksize - BitVec.ofNat 32 n * (kstksize + kstkgap)).toNat = 0xEFFF8000 - n * 0x10000 := by
  decide

theorem kstack_iff {n : Fin 8} {x : Word} : x - (b.kstack n).va < (b.kstack n).size ↔
    0xEFFF8000 - n * 0x10000 ≤ x.toNat ∧ x.toNat < 0xF0000000 - n * 0x10000 := by
  have hv : (b.kstack n).va.toNat = 0xEFFF8000 - n * 0x10000 := toNat_kstack n
  have hs : (b.kstack n).size.toNat = 0x8000 := rfl
  have hn := n.isLt
  rw [sub_lt_iff (by omega), hv, hs]
  omega

theorem bootstack_iff {x : Word} : x - b.bootstackRegion.va < b.bootstackRegion.size ↔
    0xEFFF8000 ≤ x.toNat ∧ x.toNat < 0xF0000000 := by
  have hv : b.bootstackRegion.va.toNat = 0xEFFF8000 := rfl
  have hs : b.bootstackRegion.size.toNat = 0x8000 := rfl
  rw [sub_lt_iff (by omega), hv, hs]

theorem kernbase_iff {x : Word} : x - kernbaseRegion.va < kernbaseRegion.size ↔ kernbase ≤ x := by
  have hv : kernbaseRegion.va.toNat = 0xF0000000 := rfl
  have hs : kernbaseRegion.size.toNat = 0x10000000 := by decide
  have hk : kernbase.toNat = 0xF0000000 := rfl
  have hx := x.isLt
  rw [sub_lt_iff (by omega), hv, hs, BitVec.le_def, hk]
  omega

theorem uenvs_iff {x : Word} : x - b.uenvsRegion.va < b.uenvsRegion.size ↔
    955 * 2 ^ 22 ≤ x.toNat ∧ x.toNat < 955 * 2 ^ 22 + 0x1F000 := by
  have hv : b.uenvsRegion.va.toNat = 955 * 2 ^ 22 := rfl
  have hs : b.uenvsRegion.size.toNat = 0x1F000 := by
    change (roundUp (BitVec.ofNat 32 (nenv * sizeofEnv)) pgsize).toNat = _
    decide
  rw [sub_lt_iff (by omega), hv, hs]

theorem upages_iff {x : Word} (hb : b.Mappable) : x - b.upagesRegion.va < b.upagesRegion.size ↔
    956 * 2 ^ 22 ≤ x.toNat ∧ x.toNat < 956 * 2 ^ 22 + (b.npages * 8 + 4095) / 4096 * 4096 := by
  have hv : b.upagesRegion.va.toNat = 956 * 2 ^ 22 := rfl
  have hs : b.upagesRegion.size.toNat = (b.npages * 8 + 4095) / 4096 * 4096 := toNat_upages_size hb
  have hn := hb.npages
  rw [sub_lt_iff (by omega), hv, hs]

theorem entries_kstack {n : Fin 8} (h : (b.kstack n).Has i j) : b.entries i j = (b.kstack n).entry i j := by
  rw [BootInfo.entries, List.foldl_append]
  refine foldl_write_of_mem (List.mem_map_of_mem (List.mem_finRange n)) h fun r hr h' => ?_
  obtain ⟨n', -, rfl⟩ := List.mem_map.mp hr
  rw [Region.Has, kstack_iff] at h h'
  have hn : n' = n := by
    apply Fin.ext
    omega
  rw [hn]

theorem entries_region (hb : b.Mappable) (hr : r ∈ b.regions) (h : r.Has i j) (hn : ∀ n, ¬(b.kstack n).Has i j) :
    b.entries i j = r.entry i j := by
  have hk : kernbase.toNat = 0xF0000000 := rfl
  have hp := hb.npages
  rw [BootInfo.entries, List.foldl_append, foldl_write_of_not (by simpa using hn)]
  refine foldl_write_of_mem hr h fun r' hr' h' => ?_
  simp only [BootInfo.regions, List.mem_cons, List.not_mem_nil, or_false] at hr hr'
  rcases hr with rfl | rfl | rfl | rfl <;> rcases hr' with rfl | rfl | rfl | rfl <;>
    simp only [Region.Has, upages_iff hb, uenvs_iff, bootstack_iff, kernbase_iff, BitVec.le_def, hk] at h h' <;>
    first | rfl | omega

theorem entries_of_not (h : ∀ r ∈ b.regions, ¬r.Has i j) (hn : ∀ n, ¬(b.kstack n).Has i j) : b.entries i j = 0#32 := by
  rw [BootInfo.entries, List.foldl_append, foldl_write_of_not (by simpa using hn), foldl_write_of_not h]

end Disjoint

-- The address space the kernel has built: all of physical memory from `KERNBASE` on, the arrays `pages` and `envs`
-- for user programs to read, a stack for each processor with a gap below, the page directory at `UVPT`, and nothing
-- else.
structure KernLayout (b : BootInfo) (s : Kernel) : Prop where
  phys  : ∀ {va} write, kernbase ≤ va → s.physAddr s.kernPgdir va ⟨false, write⟩ = some (va - kernbase)
  pages : ∀ {i} user, i < roundUp (BitVec.ofNat 32 (b.npages * sizeofPageInfo)) pgsize →
    s.physAddr s.kernPgdir (upages + i) ⟨user, false⟩ = some (page2pa (BitVec.ofNat 20 b.pages) + i) ∧
    s.physAddr s.kernPgdir (upages + i) ⟨user, true⟩ = none
  envs  : ∀ {i} user, i < roundUp (BitVec.ofNat 32 (nenv * sizeofEnv)) pgsize →
    s.physAddr s.kernPgdir (uenvs + i) ⟨user, false⟩ = some (page2pa (BitVec.ofNat 20 b.envs) + i) ∧
    s.physAddr s.kernPgdir (uenvs + i) ⟨user, true⟩ = none
  stack : ∀ (n : Fin 8) {i} write, i < kstksize →
    s.physAddr s.kernPgdir (kstacktop - BitVec.ofNat 32 n * (kstksize + kstkgap) - kstksize + i) ⟨false, write⟩ =
      some (b.percpuKstacks n + i)
  gap   : ∀ (n : Fin 8) {i} a, i < kstkgap →
    s.physAddr s.kernPgdir (kstacktop - BitVec.ofNat 32 n * (kstksize + kstkgap) - kstksize - kstkgap + i) a = none
  self  : s.mem s.kernPgdir (pdx uvpt) = page2pa s.kernPgdir ||| pteU ||| pteP
  other : ∀ {va} a, va < kernbase → ¬va - upages < roundUp (BitVec.ofNat 32 (b.npages * sizeofPageInfo)) pgsize →
    ¬va - uenvs < roundUp (BitVec.ofNat 32 (nenv * sizeofEnv)) pgsize →
    (∀ n : Fin 8, ¬va - (kstacktop - BitVec.ofNat 32 n * (kstksize + kstkgap) - kstksize) < kstksize) →
    pdx va ≠ pdx uvpt → s.physAddr s.kernPgdir va a = none

section Layout

variable {r : Region} {a : Access} (hb : b.Mappable) (hm : KernMap s.kernPgdir s b.entries)

theorem kstack_va {n : Fin 8} :
    (b.kstack n).va = kstacktop - BitVec.ofNat 32 n * (kstksize + kstkgap) - kstksize := by
  simp only [BootInfo.kstack, BitVec.sub_eq_add_neg, BitVec.add_assoc]
  rw [BitVec.add_comm (-kstksize)]

include hb hm in
theorem physAddr_region (ha : b.Aligned) (hr : BootRegion b r.va r.size r.pa r.perm) (hv : va - r.va < r.size)
    (he : b.entries (pdx va) (ptx va) = r.entry (pdx va) (ptx va)) : s.physAddr s.kernPgdir va a =
    if (a.user → has r.perm pteU) ∧ (a.write → has r.perm pteW) then some (r.pa + (va - r.va)) else none := by
  have hi := hr.kernRegion hb _ hv
  rw [BitVec.add_comm, BitVec.sub_add_cancel] at hi
  exact hm.physAddr hi (hr.paged hb ha) he

-- Outside of the stacks of the processors, the other regions remain.
include hb hm in
theorem physAddr_mem (ha : b.Aligned) (hr : BootRegion b r.va r.size r.pa r.perm) (hmem : r ∈ b.regions)
    (hv : va - r.va < r.size) (hn : ∀ n, ¬va - (b.kstack n).va < (b.kstack n).size) : s.physAddr s.kernPgdir va a =
    if (a.user → has r.perm pteU) ∧ (a.write → has r.perm pteW) then some (r.pa + (va - r.va)) else none := by
  refine physAddr_region hb hm ha hr hv (entries_region hb hmem ?_ fun n => ?_)
  case refine_1 => exact (hr.paged hb ha : r.Paged).has_iff.mpr hv
  case refine_2 => exact mt ((BootRegion.kstack n).paged hb ha : (b.kstack n).Paged).has_iff.mp (hn n)

-- What user programs may read, nobody may write to.
include hb hm in
theorem physAddr_user {o : Word} {user : Bool} (ha : b.Aligned) (hr : BootRegion b r.va r.size r.pa r.perm)
    (hmem : r ∈ b.regions) (hp : r.perm = pteU) (hl : ∀ x : Word, x - r.va < r.size → x.toNat < 957 * 2 ^ 22)
    (ho : o < r.size) : s.physAddr s.kernPgdir (r.va + o) ⟨user, false⟩ = some (r.pa + o) ∧
    s.physAddr s.kernPgdir (r.va + o) ⟨user, true⟩ = none := by
  have hx : r.va + o - r.va = o := by rw [BitVec.add_comm, BitVec.add_sub_cancel]
  have hv : r.va + o - r.va < r.size := by rwa [hx]
  have hn n : ¬r.va + o - (b.kstack n).va < (b.kstack n).size := by
    have := hl _ hv
    rw [kstack_iff]
    omega
  have hu : has pteU pteU = true := by decide
  have hw : has pteU pteW = false := by decide
  rw [physAddr_mem hb hm ha hr hmem hv hn, physAddr_mem hb hm ha hr hmem hv hn, hp, hx]
  simp [hu, hw]

include hb hm in
theorem physAddr_kstack {n : Fin 8} {o : Word} {write : Bool} (ha : b.Aligned) (ho : o < kstksize) :
    s.physAddr s.kernPgdir ((b.kstack n).va + o) ⟨false, write⟩ = some (b.percpuKstacks n + o) := by
  have hr : BootRegion b (b.kstack n).va (b.kstack n).size (b.kstack n).pa (b.kstack n).perm := .kstack n
  have hx : (b.kstack n).va + o - (b.kstack n).va = o := by rw [BitVec.add_comm, BitVec.add_sub_cancel]
  have hv : (b.kstack n).va + o - (b.kstack n).va < (b.kstack n).size := by rwa [hx]
  have hw : has pteW pteW = true := by decide
  have hp : (b.kstack n).Paged := hr.paged hb ha
  rw [physAddr_region hb hm ha hr hv (entries_kstack (hp.has_iff.mpr hv)), hx]
  simp [BootInfo.kstack, hw]

include hm in
theorem physAddr_of_not (hp : PageInv b.managed ∅ l s) (h : ∀ r ∈ b.regions, ¬r.Has (pdx va) (ptx va))
    (hn : ∀ n, ¬(b.kstack n).Has (pdx va) (ptx va)) (hu : pdx va ≠ pdx uvpt) : s.physAddr s.kernPgdir va a = none := by
  have ht : s.translate s.kernPgdir va a = none := by
    by_cases hi : pdxUtop ≤ (pdx va).val
    case pos =>
      rw [hm.translate ⟨hi, hu⟩, entries_of_not h hn]
      simp
    case neg =>
      have ht : s.table s.kernPgdir (pdx va) = none := hp.kernUser (Nat.lt_of_not_le hi)
      simp [Kernel.translate, Kernel.entry, ht]
  rw [Kernel.physAddr, ht, Option.map_none]

include hb hm in
theorem physAddr_other (ha : b.Aligned) (hp : PageInv b.managed ∅ l s) (hk : va < kernbase)
    (h₁ : ¬va - b.upagesRegion.va < b.upagesRegion.size) (h₂ : ¬va - b.uenvsRegion.va < b.uenvsRegion.size)
    (h₃ : ∀ n, ¬va - (b.kstack n).va < (b.kstack n).size) (hu : pdx va ≠ pdx uvpt) :
    s.physAddr s.kernPgdir va a = none := by
  refine physAddr_of_not hm hp (fun r hr => ?_) (fun n => ?_) hu
  case refine_1 =>
    simp only [BootInfo.regions, List.mem_cons, List.not_mem_nil, or_false] at hr
    rcases hr with rfl | rfl | rfl | rfl
    case inl => exact mt (BootRegion.upages.paged hb ha : b.upagesRegion.Paged).has_iff.mp h₁
    case inr.inl => exact mt (BootRegion.uenvs.paged hb ha : b.uenvsRegion.Paged).has_iff.mp h₂
    case inr.inr.inl =>
      -- The stack on which the kernel has booted lies where the first processor has its stack.
      refine mt (BootRegion.bootstack.paged hb ha : b.bootstackRegion.Paged).has_iff.mp fun hc => h₃ 0 ?_
      rw [kstack_iff]
      exact (bootstack_iff (b := b)).mp hc
    case inr.inr.inr =>
      refine mt (BootRegion.kernbase.paged hb ha : kernbaseRegion.Paged).has_iff.mp fun hc => ?_
      exact absurd (kernbase_iff.mp hc) (BitVec.not_le.mpr hk)
  case refine_2 => exact mt ((BootRegion.kstack n).paged hb ha : (b.kstack n).Paged).has_iff.mp (h₃ n)

-- The gap below a stack is no part of any region.
include hb hm in
theorem physAddr_gap {n : Fin 8} (ha : b.Aligned) (hp : PageInv b.managed ∅ l s)
    (hl : 0xEFFF0000 - n * 0x10000 ≤ va.toNat) (hh : va.toNat < 0xEFFF8000 - n * 0x10000) :
    s.physAddr s.kernPgdir va a = none := by
  have hk : kernbase.toNat = 0xF0000000 := rfl
  have hpg := hb.npages
  have hn := n.isLt
  refine physAddr_other hb hm ha hp ?_ ?_ ?_ (fun n' => ?_) fun hc => ?_
  case refine_1 => rw [BitVec.lt_def, hk]; omega
  case refine_2 => rw [upages_iff hb]; omega
  case refine_3 => rw [uenvs_iff]; omega
  case refine_4 => rw [kstack_iff]; omega
  case refine_5 =>
    have hu : (pdx uvpt).val = 957 := by decide
    have := congrArg Fin.val hc
    rw [val_pdx, hu] at this
    omega

end Layout

variable {s₀ : Kernel}

theorem kern_layout (hb : b.Mappable) (ha : b.Aligned) (hm : (memInit b c).run s₀ = .ok () s) : KernLayout b s := by
  obtain ⟨⟨l, hp⟩, hm⟩ := wp_ok (memInit_map hb ha) hm
  have hk : kernbase.toNat = 0xF0000000 := rfl
  have hpg := hb.npages
  constructor
  case phys =>
    intro va write hv
    have hn n : ¬va - (b.kstack n).va < (b.kstack n).size := by
      rw [kstack_iff]
      rw [BitVec.le_def, hk] at hv
      omega
    have hw : has pteW pteW = true := by decide
    rw [physAddr_mem (r := kernbaseRegion) hb hm ha .kernbase (by simp [BootInfo.regions]) (kernbase_iff.mpr hv) hn]
    simp [kernbaseRegion, hw]
  case pages =>
    intro i user hi
    refine physAddr_user (r := b.upagesRegion) hb hm ha .upages (by simp [BootInfo.regions]) rfl (fun x hx => ?_) hi
    rw [upages_iff hb] at hx
    omega
  case envs =>
    intro i user hi
    refine physAddr_user (r := b.uenvsRegion) hb hm ha .uenvs (by simp [BootInfo.regions]) rfl (fun x hx => ?_) hi
    rw [uenvs_iff] at hx
    omega
  case stack =>
    intro n i write hi
    rw [← kstack_va (b := b)]
    exact physAddr_kstack hb hm ha hi
  case gap =>
    intro n i a hi
    have hv : (kstacktop - BitVec.ofNat 32 n * (kstksize + kstkgap) - kstksize - kstkgap + i).toNat =
        0xEFFF0000 - n * 0x10000 + i.toNat := by
      have hg : kstkgap.toNat = 0x8000 := rfl
      have ht : (b.kstack n).va.toNat = 0xEFFF8000 - n * 0x10000 := toNat_kstack n
      have hn := n.isLt
      rw [BitVec.lt_def, hg] at hi
      rw [← kstack_va (b := b), BitVec.toNat_add, BitVec.toNat_sub, ht, hg]
      omega
    have hi' : i.toNat < 0x8000 := hi
    have hn := n.isLt
    exact physAddr_gap (n := n) hb hm ha hp (by omega) (by omega)
  case self => exact hm.self
  case other =>
    intro va a h₁ h₂ h₃ h₄ hu
    exact physAddr_other hb hm ha hp h₁ h₂ h₃ (fun n => by rw [kstack_va]; exact h₄ n) hu

-- The last stack of the machine with 64 MB.
theorem kern_layout_pc : ∃ s, (memInit pc 0).run powerOn = .ok () s ∧
    s.physAddr s.kernPgdir (kstacktop - 7#32 * (kstksize + kstkgap) - kstksize + 4#32) ⟨false, true⟩ =
      some (pc.percpuKstacks 7 + 4#32) := by
  obtain ⟨s, hs⟩ := memInit_ok (c := 0) (s := powerOn) pc_valid pc_enough
  exact ⟨s, hs, (kern_layout pc_valid.mappable pc_aligned hs).stack 7 true (by decide)⟩

end Jos
