import Jos.Kernel.Theorems.Layout
import Jos.Kernel.Theorems.Recycle

-- What `boot_map_region` does to an arbitrary page directory.

open Function Program

namespace Jos

open Kernel

variable {M : Set Ppn} {s s' : Kernel} {k t p : Ppn} {l l' : List Ppn} {i j : Ptx} {va offset w : Word} {r : Region} {n : Nat}
  {i' j' : Ptx}

-- The page tables of the directory `k` are different pages, and neither they nor the directory are on the free list `l`.
structure PgdirInv (k : Ppn) (l : List Ppn) (s : Kernel) : Prop where
  list   : s.FreeList l
  ref    : ∀ {p}, p ∈ l → (s.pages p).ref = 0#16
  bound  : ∀ {p}, p ∈ l → p.toNat < s.npages
  dir    : k ∉ l
  table  : ∀ {i t}, s.table k i = some t → t ∉ l
  exist  : ∀ {i t}, s.table k i = some t → t ≠ k → t.toNat < s.npages
  unique : ∀ {i i' t}, s.table k i = some t → s.table k i' = some t → i = i'

namespace Kernel

-- There is no page table yet for the part of the region from `offset` on that the directory has at index `i`.
def Missing (s : Kernel) (k : Ppn) (r : Region) (offset : Word) (i : Ptx) : Prop :=
  s.table k i = none ∧ ∃ o, offset ≤ o ∧ o < r.size ∧ pdx (r.va + o) = i

-- There is a free page for each of the page tables that are missing.
def Enough (s : Kernel) (k : Ppn) (r : Region) (offset : Word) (l : List Ppn) : Prop :=
  ∀ is : List Ptx, is.Nodup → (∀ i ∈ is, s.Missing k r offset i) → is.length ≤ l.length

end Kernel

theorem toNat_next {o : Word} (h : o.toNat + 4096 < 2 ^ 32) : (o + pgsize).toNat = o.toNat + 4096 := by
  rw [BitVec.toNat_add, pgsize]
  simp only [BitVec.toNat_ofNat]
  omega

namespace PgdirInv

theorem setMem (h : PgdirInv k l s) (ht : t ≠ k) : PgdirInv k l (s.setMem t j w) := by
  have hd : (s.setMem t j w).mem k = s.mem k := by simp [Kernel.setMem, ht.symm]
  have htable {i} : (s.setMem t j w).table k i = s.table k i := by simp only [Kernel.table, hd]
  exact ⟨h.list, h.ref, h.bound, h.dir, fun hi => h.table (htable ▸ hi), fun hi => h.exist (htable ▸ hi),
    fun hi hi' => h.unique (htable ▸ hi) (htable ▸ hi')⟩

-- Writing an entry of a page table.
theorem entry_setMem (h : PgdirInv k l s) (ht : s.table k i = some t) (hk : t ≠ k) (hi : s.table k i' ≠ some k) :
    (s.setMem t j w).entry k i' j' = if i' = i ∧ j' = j then w else s.entry k i' j' := by
  have hd : (s.setMem t j w).mem k = s.mem k := by simp [Kernel.setMem, hk.symm]
  have htable : (s.setMem t j w).table k i' = s.table k i' := by simp only [Kernel.table, hd]
  rw [Kernel.entry, Kernel.entry, htable]
  cases ht' : s.table k i'
  case none =>
    have hne : i' ≠ i := by
      rintro rfl
      cases ht.symm.trans ht'
    simp [hne]
  case some t' =>
    by_cases hti : t' = t
    case pos =>
      subst hti
      obtain rfl := h.unique ht ht'
      by_cases hj : j' = j
      case pos => simp [Kernel.setMem, hj]
      case neg => simp [Kernel.setMem, hj]
    case neg =>
      have hne : i' ≠ i := by
        rintro rfl
        exact hti (Option.some.inj (ht'.symm.trans ht))
      simp [Kernel.setMem, hti, hne]

-- The directory of the kernel.
theorem of_pageInv (h : PageInv M ∅ l s) : PgdirInv s.kernPgdir l s := by
  refine ⟨h.chain, fun hp => ?_, fun hp => h.bound (h.pool.mem_free.mp hp).1, fun hk => ?_,
    fun {i t} ht => ?_, fun {i t} ht hk => ?_, fun {i i' t} ht ht' => ?_⟩
  case refine_1 =>
    have hm := h.pool.mem_free.mp hp
    apply BitVec.eq_of_toNat_eq
    rw [h.ref_eq hm.1]
    exact hm.2.1
  case refine_2 => exact h.kern (h.pool.mem_free.mp hk).1
  case refine_3 =>
    have hr : s.target (.kpde i) = some t := ht
    exact h.pool.not_free_of_ref hr
  case refine_4 =>
    have hr : s.target (.kpde i) = some t := ht
    exact h.bound ((h.owned hr).resolve_right fun he => hk he.2)
  case refine_5 =>
    have hr : s.target (.kpde i) = some t := ht
    have hr' : s.target (.kpde i') = some t := ht'
    simpa using h.unique (by trivial) hr hr'

section AddTable

variable (h : PgdirInv k (t :: l) s)

include h in
theorem ne_dir : t ≠ k := by
  rintro rfl
  exact h.dir (by simp)

include h in
theorem not_mem : t ∉ l := by
  have hn := Linked.Chain.nodup h.list
  exact (List.nodup_cons.mp hn).1

include h in
theorem dir_addTable (hi : i' ≠ i) : (s.addTable k i t).mem k i' = s.mem k i' := by
  simp [Kernel.addTable, Kernel.setMem, incRef, setPage, Kernel.zeroPage, Kernel.popFree, hi, h.ne_dir.symm]

theorem dir_addTable_self : (s.addTable k i t).mem k i = page2pa t ||| pteP ||| pteU ||| pteW := by
  simp [Kernel.addTable, Kernel.setMem]

include h in
theorem table_addTable_ne (hi : i' ≠ i) : (s.addTable k i t).table k i' = s.table k i' := by
  rw [Kernel.table, Kernel.table, h.dir_addTable hi]

theorem ref_addTable : ((s.addTable k i t).pages p).ref = if p = t then (s.pages p).ref + 1#16 else (s.pages p).ref := by
  by_cases hp : p = t
  case pos => simp [Kernel.addTable, Kernel.setMem, incRef, setPage, Kernel.zeroPage, Kernel.popFree, hp]
  case neg => simp [Kernel.addTable, Kernel.setMem, incRef, setPage, Kernel.zeroPage, Kernel.popFree, hp]

include h in
-- A new page table has no entries.
theorem entry_addTable (hi : s.table k i = none) (hs : s.table k i' ≠ some k) :
    (s.addTable k i t).entry k i' j = s.entry k i' j := by
  by_cases hii : i' = i
  case pos =>
    subst hii
    rw [Kernel.entry, Kernel.entry, PageInv.table_addTable, hi]
    simp [Kernel.addTable, Kernel.setMem, incRef, setPage, Kernel.zeroPage, Kernel.popFree, h.ne_dir]
  case neg =>
    rw [Kernel.entry, Kernel.entry, h.table_addTable_ne hii]
    cases ht : s.table k i'
    case none => rfl
    case some t' =>
      have hne : t' ≠ t := by
        rintro rfl
        exact h.table ht (by simp)
      have hk : t' ≠ k := by
        rintro rfl
        exact hs ht
      simp only [PageInv.mem_addTable hne hk]

include h in
theorem addTable (hi : s.table k i = none) : PgdirInv k l (s.addTable k i t) := by
  have hm := h.not_mem
  refine ⟨?_, fun {p} hp => ?_, fun hp => h.bound (by simp [hp]), fun hk => h.dir (by simp [hk]), fun {i' t'} ht => ?_,
    fun {i' t'} ht hk => ?_, fun {i₁ i₂ t'} h₁ h₂ => ?_⟩
  case refine_1 =>
    have hf : (s.popFree t).FreeList l := FreeList.pop h.list
    refine Linked.Chain.congr hf fun q _ => ?_
    simp [Kernel.addTable, Kernel.setMem, Kernel.zeroPage]
  case refine_2 =>
    have hne : p ≠ t := by
      rintro rfl
      exact hm hp
    rw [ref_addTable, if_neg hne]
    exact h.ref (by simp [hp])
  case refine_3 =>
    by_cases hii : i' = i
    case pos =>
      subst hii
      cases PageInv.table_addTable.symm.trans ht
      exact hm
    case neg =>
      rw [h.table_addTable_ne hii] at ht
      exact fun hm => h.table ht (by simp [hm])
  case refine_4 =>
    by_cases hii : i' = i
    case pos =>
      subst hii
      cases PageInv.table_addTable.symm.trans ht
      exact h.bound (by simp)
    case neg =>
      rw [h.table_addTable_ne hii] at ht
      exact h.exist ht hk
  case refine_5 =>
    have hnew {i'} (hii : i' ≠ i) (ht : (s.addTable k i t).table k i' = some t) : False := by
      rw [h.table_addTable_ne hii] at ht
      exact h.table ht (by simp)
    by_cases h₁i : i₁ = i <;> by_cases h₂i : i₂ = i
    case pos => rw [h₁i, h₂i]
    case neg =>
      subst h₁i
      cases PageInv.table_addTable.symm.trans h₁
      exact (hnew h₂i h₂).elim
    case pos =>
      subst h₂i
      cases PageInv.table_addTable.symm.trans h₂
      exact (hnew h₁i h₁).elim
    case neg =>
      rw [h.table_addTable_ne h₁i] at h₁
      rw [h.table_addTable_ne h₂i] at h₂
      exact h.unique h₁ h₂

end AddTable

end PgdirInv

-- What has changed when the region has been mapped from `offset` on, with page tables from the list `l`.
structure Mapped (k : Ppn) (r : Region) (offset : Word) (l : List Ppn) (s s' : Kernel) : Prop where
  entry : ∀ {i j}, s.table k i ≠ some k → s'.entry k i j = r.writeFrom offset (s.entry k) i j
  dir   : ∀ {i}, ¬s.Missing k r offset i → s'.mem k i = s.mem k i
  made  : ∀ {i}, s.Missing k r offset i →
    ∃ t ∈ l, s'.mem k i = page2pa t ||| pteP ||| pteU ||| pteW ∧ (s'.pages t).ref = 1#16
  ref   : ∀ {p}, (∀ i, s.Missing k r offset i → s'.table k i ≠ some p) → (s'.pages p).ref = (s.pages p).ref
  kern  : s'.kernPgdir = s.kernPgdir

namespace Mapped

theorem done (h : r.size ≤ offset) : Mapped k r offset l s s := by
  have hn {i} : ¬s.Missing k r offset i := by
    rintro ⟨-, o, h₁, h₂, -⟩
    exact absurd h₂ (BitVec.not_lt.mpr (BitVec.le_trans h h₁))
  refine ⟨fun _ => ?_, fun _ => rfl, fun hi => (hn hi).elim, fun _ => rfl, rfl⟩
  rw [Region.writeFrom_done h]

section Step

variable (hr : r.Paged) (ho : offset.toNat % 4096 = 0) (hl : offset < r.size)

include hr ho in
-- An offset into the same page, or into one of the following pages.
theorem same_or_behind {o : Word} (h : offset ≤ o) :
    pdx (r.va + o) = pdx (r.va + offset) ∨ offset + pgsize ≤ o := by
  have hv := hr.va
  have hx := o.isLt
  rw [BitVec.le_def] at h
  by_cases hlt : o.toNat < offset.toNat + 4096
  case pos =>
    left
    apply Fin.ext
    rw [val_pdx, val_pdx, BitVec.toNat_add, BitVec.toNat_add]
    omega
  case neg =>
    right
    rw [BitVec.le_def, toNat_next (by omega)]
    omega

include hr ho hl in
theorem missing_of_table (ht : s.table k (pdx (r.va + offset)) = some t) (hk : t ≠ k) :
    (s.setMem t j w).Missing k r (offset + pgsize) i ↔ s.Missing k r offset i := by
  have hd : (s.setMem t j w).table k i = s.table k i := by simp [Kernel.table, Kernel.setMem, hk.symm]
  have hn : offset ≤ offset + pgsize := by
    have hs := hr.last
    have hx : offset.toNat < r.size.toNat := hl
    rw [BitVec.le_def, toNat_next (by omega)]
    omega
  constructor
  case mp =>
    rintro ⟨hi, o, h₁, h₂⟩
    exact ⟨hd ▸ hi, o, BitVec.le_trans hn h₁, h₂⟩
  case mpr =>
    rintro ⟨hi, o, h₁, h₂, rfl⟩
    rcases same_or_behind hr ho h₁ with he | hb
    case inl =>
      rw [he, ht] at hi
      cases hi
    case inr => exact ⟨hd.trans hi, o, hb, h₂, rfl⟩

include hr ho hl in
-- The page table for the page at `offset` exists.
theorem step (h : PgdirInv k l s) (ht : s.table k (pdx (r.va + offset)) = some t) (hk : t ≠ k)
    (hm : Mapped k r (offset + pgsize) l
      (s.setMem t (ptx (r.va + offset)) ((r.pa + offset) ||| r.perm ||| pteP)) s') : Mapped k r offset l s s' := by
  have hmiss {i} := missing_of_table (s := s) (j := ptx (r.va + offset)) (w := (r.pa + offset) ||| r.perm ||| pteP)
    (i := i) hr ho hl ht hk
  refine ⟨fun {i j} hi => ?_, fun hi => ?_, fun hi => hm.made (hmiss.mpr hi), fun hp => ?_, hm.kern⟩
  case refine_1 =>
    have hd : (s.setMem t (ptx (r.va + offset)) ((r.pa + offset) ||| r.perm ||| pteP)).table k i = s.table k i := by
      simp [Kernel.table, Kernel.setMem, hk.symm]
    rw [hm.entry (by rwa [hd]), ← Region.writeFrom_step hr ho hl, Region.writeFrom, Region.writeFrom,
      h.entry_setMem ht hk hi]
  case refine_2 =>
    rw [hm.dir (mt hmiss.mp hi)]
    simp [Kernel.setMem, hk.symm]
  case refine_3 => exact hm.ref fun i hi => hp i (hmiss.mp hi)

end Step

theorem missing_addTable (h : PgdirInv k (t :: l) s) (hi : s.table k i = none)
    (hx : ∃ o, offset ≤ o ∧ o < r.size ∧ pdx (r.va + o) = i) :
    s.Missing k r offset i' ↔ (s.addTable k i t).Missing k r offset i' ∨ i' = i := by
  by_cases hii : i' = i
  case pos =>
    subst hii
    exact iff_of_true ⟨hi, hx⟩ (.inr rfl)
  case neg =>
    rw [or_iff_left hii, Kernel.Missing, Kernel.Missing, h.table_addTable_ne hii]

theorem not_missing_addTable : ¬(s.addTable k i t).Missing k r offset i := by
  rintro ⟨h, -⟩
  cases PageInv.table_addTable.symm.trans h

-- A page table is made first.
theorem addTable (h : PgdirInv k (t :: l) s) (hi : s.table k i = none)
    (hx : ∃ o, offset ≤ o ∧ o < r.size ∧ pdx (r.va + o) = i) (hm : Mapped k r offset l (s.addTable k i t) s') :
    Mapped k r offset (t :: l) s s' := by
  have hmiss {i'} : s.Missing k r offset i' ↔ (s.addTable k i t).Missing k r offset i' ∨ i' = i :=
    missing_addTable h hi hx
  have hne := h.ne_dir
  have hself : s'.mem k i = page2pa t ||| pteP ||| pteU ||| pteW := by
    rw [hm.dir not_missing_addTable, PgdirInv.dir_addTable_self]
  have hfresh {i'} (hi' : (s.addTable k i t).Missing k r offset i') : s'.table k i' ≠ some t := by
    obtain ⟨t', ht', hw, -⟩ := hm.made hi'
    rw [Kernel.table, hw, entryPage_table]
    rintro ⟨⟩
    exact h.not_mem ht'
  refine ⟨fun {i' j} hs => ?_, fun {i'} hn => ?_, fun {i'} hi' => ?_, fun {p} hp => ?_, hm.kern⟩
  case refine_1 =>
    have hs' : (s.addTable k i t).table k i' ≠ some k := by
      by_cases hii : i' = i
      case pos =>
        rw [hii, PageInv.table_addTable]
        simpa using hne
      case neg => rwa [h.table_addTable_ne hii]
    rw [hm.entry hs', Region.writeFrom, Region.writeFrom, h.entry_addTable hi hs]
  case refine_2 =>
    rw [hmiss, not_or] at hn
    rw [hm.dir hn.1, h.dir_addTable hn.2]
  case refine_3 =>
    rcases hmiss.mp hi' with hi' | rfl
    case inl =>
      obtain ⟨t', ht', hw⟩ := hm.made hi'
      exact ⟨t', by simp [ht'], hw⟩
    case inr =>
      refine ⟨t, by simp, hself, ?_⟩
      rw [hm.ref fun i' => hfresh, PgdirInv.ref_addTable, if_pos rfl, h.ref (by simp)]
      rfl
  case refine_4 =>
    have hpt : p ≠ t := by
      rintro rfl
      refine hp i (hmiss.mpr (.inr rfl)) ?_
      rw [Kernel.table, hself, entryPage_table]
    rw [hm.ref fun i' hi' => hp i' (hmiss.mpr (.inl hi')), PgdirInv.ref_addTable, if_neg hpt]

end Mapped

namespace Kernel.Enough

theorem step (hr : r.Paged) (ho : offset.toNat % 4096 = 0) (hl : offset < r.size)
    (ht : s.table k (pdx (r.va + offset)) = some t) (hk : t ≠ k) (h : s.Enough k r offset l) :
    (s.setMem t j w).Enough k r (offset + pgsize) l :=
  fun is hn hm => h is hn fun i hi => (Mapped.missing_of_table hr ho hl ht hk).mp (hm i hi)

theorem addTable (h : PgdirInv k (t :: l) s) (hi : s.table k i = none)
    (hx : ∃ o, offset ≤ o ∧ o < r.size ∧ pdx (r.va + o) = i) (he : s.Enough k r offset (t :: l)) :
    (s.addTable k i t).Enough k r offset l := by
  intro is hn hm
  have hni : i ∉ is := fun hmem => Mapped.not_missing_addTable (hm i hmem)
  have hle := he (i :: is) (List.nodup_cons.mpr ⟨hni, hn⟩) fun i' hi' => ?_
  case refine_1 =>
    rw [Mapped.missing_addTable h hi hx]
    rcases List.mem_cons.mp hi' with he | hmem
    case inl => exact .inr he
    case inr => exact .inl (hm i' hmem)
  simpa using hle

end Kernel.Enough

-- The loop of `boot_map_region`. It only fails when there are not enough pages for the page tables.
theorem bootMapLoop_mapped (h : PgdirInv k l s) (hr : r.Paged) (ho : offset.toNat % 4096 = 0)
    (hn : r.size.toNat ≤ offset.toNat + 4096 * n)
    (hs : ∀ o, offset ≤ o → o < r.size → s.table k (pdx (r.va + o)) ≠ some k) :
    wp (bootMapLoop k r.va r.size r.pa r.perm n offset)
      (fun _ s' => (∃ l', PgdirInv k l' s') ∧ Mapped k r offset l s s') (fun e _ => e = .fault 0#32 ∧ ¬s.Enough k r offset l) s := by
  induction n generalizing offset s l
  case zero => exact ⟨⟨l, h⟩, .done (BitVec.le_def.mpr (by omega))⟩
  case succ n ih =>
    simp only [bootMapLoop]
    split
    case isFalse hl => exact ⟨⟨l, h⟩, .done (BitVec.not_lt.mp hl)⟩
    case isTrue hl =>
      have hl' : offset.toNat < r.size.toNat := hl
      have hx := hr.last
      have hn' := toNat_next (o := offset) (by omega)
      have hle : offset ≤ offset + pgsize := BitVec.le_def.mpr (by omega)
      -- The rest of the loop, once the page table exists.
      have hrest {l s t} (h : PgdirInv k l s) (ht : s.table k (pdx (r.va + offset)) = some t)
          (hs : ∀ o, offset ≤ o → o < r.size → s.table k (pdx (r.va + o)) ≠ some k) :
          wp (bootMapLoop k r.va r.size r.pa r.perm n (offset + pgsize))
            (fun _ s' => (∃ l', PgdirInv k l' s') ∧ Mapped k r offset l s s') (fun e _ => e = .fault 0#32 ∧ ¬s.Enough k r offset l)
            (s.setMem t (ptx (r.va + offset)) ((r.pa + offset) ||| r.perm ||| pteP)) := by
        have hk : t ≠ k := by
          rintro rfl
          exact hs offset (BitVec.le_refl _) hl ht
        have hs' (o) (h₁ : offset + pgsize ≤ o) (h₂ : o < r.size) :
            (s.setMem t (ptx (r.va + offset)) ((r.pa + offset) ||| r.perm ||| pteP)).table k (pdx (r.va + o)) ≠
              some k := by
          have hd := hs o (BitVec.le_trans hle h₁) h₂
          simpa [Kernel.table, Kernel.setMem, hk.symm] using hd
        refine wp_mono (ih (h.setMem hk) (by omega) (by omega) hs') (fun _ s' h' => ?_) fun _ s' h' => ?_
        case refine_1 => exact ⟨h'.1, .step hr ho hl h ht hk h'.2⟩
        case refine_2 => exact h'.imp_right (mt (Kernel.Enough.step hr ho hl ht hk))
      cases ht : s.table k (pdx (r.va + offset))
      case some t =>
        have hk : t ≠ k := fun he => hs offset (BitVec.le_refl _) hl (he ▸ ht)
        rw [wp_bind_of_ok (pgdirWalk_some ht (h.exist ht hk))]
        simp only [wp_bind_modify]
        exact hrest h ht hs
      case none =>
        have hx' : ∃ o, offset ≤ o ∧ o < r.size ∧ pdx (r.va + o) = pdx (r.va + offset) :=
          ⟨offset, BitVec.le_refl _, hl, rfl⟩
        cases l
        case nil =>
          have hf : s.pageFreeList = none := h.list
          rw [wp_bind_of_ok (pgdirWalk_nomem ht hf)]
          refine ⟨rfl, fun he => ?_⟩
          have := he [pdx (r.va + offset)] (by simp) (by simpa using ⟨ht, hx'⟩)
          simp at this
        case cons t l =>
          have hf : s.pageFreeList = some t := h.list.1
          rw [wp_bind_of_ok (pgdirWalk_create ht hf (h.bound (by simp)))]
          simp only [wp_bind_modify]
          have h' := h.addTable ht
          have hs' (o) (h₁ : offset ≤ o) (h₂ : o < r.size) :
              (s.addTable k (pdx (r.va + offset)) t).table k (pdx (r.va + o)) ≠ some k := by
            by_cases he : pdx (r.va + o) = pdx (r.va + offset)
            case pos =>
              rw [he, PageInv.table_addTable]
              simpa using h.ne_dir
            case neg =>
              rw [h.table_addTable_ne he]
              exact hs o h₁ h₂
          refine wp_mono (hrest h' PageInv.table_addTable hs') (fun _ s' hm => ?_) fun _ s' he => ?_
          case refine_1 => exact ⟨hm.1, .addTable h ht hx' hm.2⟩
          case refine_2 => exact he.imp_right (mt (Kernel.Enough.addTable h ht hx'))

-- The region is mapped, and the directory `k` shows the same pages as before everywhere else. Where the directory is
-- its own page table, it shows the page tables that have been made.
structure Maps (k : Ppn) (r : Region) (l : List Ppn) (s s' : Kernel) : Prop where
  inside  : ∀ o, o < r.size → o.toNat % 4096 = 0 →
    s'.entry k (pdx (r.va + o)) (ptx (r.va + o)) = (r.pa + o) ||| r.perm ||| pteP
  outside : ∀ {i j}, ¬r.Has i j → (s.table k i = some k → ¬s.Missing k r 0#32 j) → s'.entry k i j = s.entry k i j
  dir     : ∀ {i}, ¬s.Missing k r 0#32 i → s'.mem k i = s.mem k i
  made    : ∀ {i}, s.Missing k r 0#32 i →
    ∃ t ∈ l, s'.mem k i = page2pa t ||| pteP ||| pteU ||| pteW ∧ (s'.pages t).ref = 1#16
  window  : ∀ {i j}, s.table k i = some k → s'.entry k i j = s'.mem k j
  ref     : ∀ {p}, (∀ i, s.Missing k r 0#32 i → s'.table k i ≠ some p) → (s'.pages p).ref = (s.pages p).ref
  kern    : s'.kernPgdir = s.kernPgdir

section Maps

variable (hr : r.Paged) (hs : ∀ o, o < r.size → s.table k (pdx (r.va + o)) ≠ some k)

include hr hs in
theorem Mapped.maps (h : Mapped k r 0#32 l s s') : Maps k r l s s' := by
  have hself {i} (hi : s.table k i = some k) : s'.table k i = some k := by
    rw [Kernel.table, h.dir (by rintro ⟨hn, -⟩; cases hi.symm.trans hn)]
    exact hi
  have hwindow {i j} (hi : s.table k i = some k) : s'.entry k i j = s'.mem k j := by rw [Kernel.entry, hself hi]
  refine ⟨fun o ho ha => ?_, fun {i j} hn hd => ?_, h.dir, h.made, hwindow, h.ref, h.kern⟩
  case refine_1 =>
    have he : pgaddr (pdx (r.va + o)) (ptx (r.va + o)) = r.va + o :=
      (pgaddr_eq_iff (aligned_add ha hr.va)).mpr ⟨rfl, rfl⟩
    have hsub : r.va + o - r.va = o := by rw [BitVec.add_comm, BitVec.add_sub_cancel]
    have hhas : r.Has (pdx (r.va + o)) (ptx (r.va + o)) := by
      rw [Region.Has, he, hsub]
      exact ho
    rw [h.entry (hs o ho), Region.writeFrom_zero, Region.write, if_pos hhas, Region.entry, he, hsub]
  case refine_2 =>
    by_cases hi : s.table k i = some k
    case pos =>
      rw [hwindow hi, h.dir (hd hi), Kernel.entry, hi]
    case neg => rw [h.entry hi, Region.writeFrom_zero, Region.write, if_neg hn]

theorem bootMapRegion_maps (h : PgdirInv k l s) (hr : r.Paged)
    (hs : ∀ o, o < r.size → s.table k (pdx (r.va + o)) ≠ some k) :
    wp (bootMapRegion k r.va r.size r.pa r.perm) (fun _ s' => (∃ l', PgdirInv k l' s') ∧ Maps k r l s s')
      (fun e _ => e = .fault 0#32 ∧ ¬s.Enough k r 0#32 l) s := by
  have hx := hr.last
  rw [bootMapRegion]
  refine wp_mono (bootMapLoop_mapped h hr rfl (by simp; omega) fun o _ => hs o) (fun _ s' h' => ?_) fun _ _ => id
  exact ⟨h'.1, h'.2.maps hr hs⟩

-- The translation changes for the pages of the region only, apart from the page tables that come into sight.
theorem Maps.translate (h : Maps k r l s s') (hn : ¬r.Has (pdx va) (ptx va))
    (hw : s.table k (pdx va) = some k → ¬s.Missing k r 0#32 (ptx va)) {a : Access} :
    s'.translate k va a = s.translate k va a := by
  rw [Kernel.translate, Kernel.translate, h.outside hn hw]
  by_cases hm : s.Missing k r 0#32 (pdx va)
  case neg => rw [h.dir hm]
  case pos =>
    have hz : s.entry k (pdx va) (ptx va) = 0#32 := by rw [Kernel.entry, hm.1]
    simp only [hz, entryPage_zero, ite_self]

end Maps

theorem boot_map_region_exact (h : PgdirInv k l s) (hr : r.Paged) (he : s.Enough k r 0#32 l)
    (hs : ∀ o, o < r.size → s.table k (pdx (r.va + o)) ≠ some k) :
    ∃ s', (bootMapRegion k r.va r.size r.pa r.perm).run s = .ok () s' ∧ Maps k r l s s' ∧
      ∀ va a, ¬r.Has (pdx va) (ptx va) → (s.table k (pdx va) = some k → ¬s.Missing k r 0#32 (ptx va)) →
        s'.translate k va a = s.translate k va a := by
  have hm := bootMapRegion_maps h hr hs
  rw [wp] at hm
  split at hm
  case h_1 s' hrun => exact ⟨s', hrun, hm.2, fun _ _ hn hw => hm.2.translate hn hw⟩
  case h_2 => exact absurd he hm.2

-- The second page, to be mapped in the first environment.
def secondPage : Region :=
  ⟨0x1000#32, pgsize, 0x5000#32, pteW⟩

theorem secondPage_paged : secondPage.Paged :=
  ⟨by decide, by decide, by decide, by decide, by decide⟩

theorem soleEnv_table {i : Ptx} : (soleEnv 3).table 1#20 i = if i = pdx uvpt then some 1#20 else none := by
  revert i
  decide +kernel

theorem soleEnv_pgdir : PgdirInv 1#20 [2#20, 3#20] (soleEnv 3) := by
  have ht {i t} (h : (soleEnv 3).table 1#20 i = some t) : i = pdx uvpt ∧ t = 1#20 := by
    rw [soleEnv_table] at h
    split at h
    case isTrue hi => exact ⟨hi, (Option.some.inj h).symm⟩
    case isFalse => cases h
  refine ⟨⟨rfl, rfl, rfl⟩, fun {p} hp => ?_, fun {p} hp => ?_, by decide, fun h => ?_, fun h hk => absurd (ht h).2 hk,
    fun h h' => (ht h).1.trans (ht h').1.symm⟩
  case refine_1 =>
    simp only [List.mem_cons, List.not_mem_nil, or_false] at hp
    rcases hp with rfl | rfl <;> decide +kernel
  case refine_2 =>
    simp only [List.mem_cons, List.not_mem_nil, or_false] at hp
    rcases hp with rfl | rfl <;> decide +kernel
  case refine_3 =>
    rw [(ht h).2]
    decide +kernel

theorem secondPage_pdx {o : Word} (ho : o < secondPage.size) : pdx (secondPage.va + o) = 0 := by
  have hv : secondPage.va.toNat = 0x1000 := rfl
  have ho' : o.toNat < 0x1000 := ho
  apply Fin.ext
  rw [val_pdx, BitVec.toNat_add, hv]
  exact Nat.div_eq_of_lt (by omega)

theorem secondPage_enough : (soleEnv 3).Enough 1#20 secondPage 0#32 [2#20, 3#20] := by
  intro is hn hm
  have hsub : is ⊆ [0] := by
    intro i hi
    obtain ⟨-, o, -, ho, rfl⟩ := hm i hi
    simp [secondPage_pdx ho]
  have := (List.subperm_of_subset hn hsub).length_le
  simp only [List.length_cons, List.length_nil] at this ⊢
  omega

theorem secondPage_not_self (o : Word) (ho : o < secondPage.size) :
    (soleEnv 3).table 1#20 (pdx (secondPage.va + o)) ≠ some 1#20 := by
  rw [secondPage_pdx ho]
  decide +kernel

theorem boot_map_region_exact_second : ∃ s', (bootMapRegion 1#20 0x1000#32 pgsize 0x5000#32 pteW).run (soleEnv 3) =
    .ok () s' ∧ s'.entry 1#20 0 1 = 0x5003#32 := by
  obtain ⟨s', hr, hm, -⟩ := boot_map_region_exact soleEnv_pgdir secondPage_paged secondPage_enough secondPage_not_self
  exact ⟨s', hr, hm.inside 0#32 (by decide) rfl⟩

-- The page table which is made comes into sight at `UVPT`.
theorem boot_map_region_changes_window : PgdirInv 1#20 [2#20, 3#20] (soleEnv 3) ∧ secondPage.Paged ∧
    (soleEnv 3).Enough 1#20 secondPage 0#32 [2#20, 3#20] ∧
    ∃ s' t, (bootMapRegion 1#20 0x1000#32 pgsize 0x5000#32 pteW).run (soleEnv 3) = .ok () s' ∧
      ¬secondPage.Has (pdx uvpt) (ptx uvpt) ∧ (soleEnv 3).translate 1#20 uvpt ⟨false, false⟩ = none ∧
      s'.translate 1#20 uvpt ⟨false, false⟩ = some t := by
  refine ⟨soleEnv_pgdir, secondPage_paged, secondPage_enough, ?_⟩
  have hm := bootMapRegion_maps soleEnv_pgdir secondPage_paged secondPage_not_self
  rw [wp] at hm
  split at hm
  case h_2 => exact absurd secondPage_enough hm.2
  case h_1 s' hrun =>
    have hu : (soleEnv 3).table 1#20 (pdx uvpt) = some 1#20 := soleEnv_table.trans (if_pos rfl)
    have hmiss : (soleEnv 3).Missing 1#20 secondPage 0#32 (ptx uvpt) :=
      ⟨by decide +kernel, 0#32, by decide, by decide, by decide⟩
    obtain ⟨t, -, ht, -⟩ := hm.2.made hmiss
    refine ⟨s', t, hrun, by decide, by decide +kernel, ?_⟩
    simp [Kernel.translate, hm.2.window hu, ht, entryPage_table]

end Jos
