import Jos.Kernel.Theorems.Blank
import Jos.Kernel.Theorems.Counts

-- `page_insert` and `page_remove` as updates of the map from addresses to pages that `page_lookup` reads.

open Function RefCount Program

namespace Jos

open Kernel

variable {M F F' : Set Ppn} {l : List Ppn} {s s' s₀ : Kernel} {c : CpuIx} {e : EnvIx} {i j : Ptx}
  {pd pd' pp p q t t' : Ppn} {va va' perm w : Word}

-- The two addresses lie in the same page.
def SamePage (va va' : Word) : Prop :=
  pdx va' = pdx va ∧ ptx va' = ptx va

instance : Decidable (SamePage va va') :=
  inferInstanceAs (Decidable (_ ∧ _))

namespace Kernel

-- What `page_lookup` finds at `va`: the page, and the entry it points `pte_store` at.
def lookup (s : Kernel) (pd : Ppn) (va : Word) : Except Exit (Option (Ppn × Word)) :=
  match (pageLookup pd va).run s with
  | .ok x _    => .ok (x.map fun y => (y.1, s.pte y.2))
  | .error x _ => .error x

-- The page directories in use.
def IsPgdir (s : Kernel) (pd : Ppn) : Prop :=
  pd = s.kernPgdir ∨ ∃ e, s.pgdirOf e = some pd

section Lookup

theorem lookup_of_none (ht : s.table pd (pdx va) = none) : s.lookup pd va = .ok none := by
  simp [lookup, pageLookup, pgdirWalk_none ht]

theorem lookup_of_some (ht : s.table pd (pdx va) = some t) : s.lookup pd va =
    if s.npages ≤ t.toNat then .error .panic
    else match entryPage (s.mem t (ptx va)) with
      | none   => .ok none
      | some p => if s.npages ≤ p.toNat then .error .panic else .ok (some (p, s.mem t (ptx va))) := by
  by_cases hb : s.npages ≤ t.toNat
  case pos =>
    have hk : s.npages ≤ (pgnum (s.mem pd (pdx va))).toNat := by rwa [pgnum_of_entryPage ht]
    simp [lookup, pageLookup, pgdirWalk, has_of_entryPage ht, kaddr, hk, hb]
  case neg =>
    rw [if_neg hb]
    have hw : (pgdirWalk pd va false).run s = .ok (some (t, ptx va)) s := pgdirWalk_some ht (Nat.not_le.mp hb)
    cases he : entryPage (s.mem t (ptx va))
    case none => simp [lookup, pageLookup, hw, pte, not_has_of_entryPage he]
    case some p =>
      by_cases hp : s.npages ≤ p.toNat
      case pos => simp [lookup, pageLookup, hw, pte, has_of_entryPage he, pa2page, pgnum_of_entryPage he, hp]
      case neg => simp [lookup, pageLookup_some ht (Nat.not_le.mp hb) he (Nat.not_le.mp hp), hp, pte]

-- `page_lookup` reads an entry of the page directory and one of the page table.
theorem lookup_congr (hn : s'.npages = s.npages) (ht : s'.table pd (pdx va) = s.table pd (pdx va))
    (he : ∀ t, s.table pd (pdx va) = some t → s'.mem t (ptx va) = s.mem t (ptx va)) :
    s'.lookup pd va = s.lookup pd va := by
  cases hd : s.table pd (pdx va)
  case none => rw [lookup_of_none hd, lookup_of_none (ht.trans hd)]
  case some t => rw [lookup_of_some hd, lookup_of_some (ht.trans hd), hn, he t hd]

end Lookup

-- How the memory of `s'` differs from that of `s`: the table `t` of `pd` has the entry `w` for `va`, and it may be new.
structure Rewrites (l : List Ppn) (s s' : Kernel) (pd t : Ppn) (va w : Word) : Prop where
  npages : s'.npages = s.npages
  table  : s'.table pd (pdx va) = some t
  entry  : s'.mem t (ptx va) = w
  others : ∀ {q}, q ≠ t → q ≠ pd → s'.mem q = s.mem q
  dir    : ∀ {i}, i ≠ pdx va → s'.mem pd i = s.mem pd i
  cases  : (s.table pd (pdx va) = some t ∧ s'.mem pd = s.mem pd ∧ ∀ j ≠ ptx va, s'.mem t j = s.mem t j) ∨
    (s.table pd (pdx va) = none ∧ t ∈ l ∧ ∀ j ≠ ptx va, s'.mem t j = 0#32)

end Kernel

-- A page table belongs to one page directory, unless it is one of the kernel's; and a page directory is its own table
-- at `UVPT`.
theorem KernHalf.table_cases (hk : KernHalf s₀ s) (hd : s.IsPgdir pd) (ht : s.table pd i = some t) :
    (i = pdx uvpt ∧ t = pd) ∨ (∃ e, s.pgdirOf e = some pd ∧ s.target (.pde e i) = some t) ∨
      (s.target (.kpde i) = some t ∧ (pd = s.kernPgdir ∨ i ≠ pdx uvpt)) := by
  obtain rfl | ⟨e, hd⟩ := hd
  case inl => exact .inr <| .inr ⟨ht, .inl rfl⟩
  case inr =>
    by_cases hi : i.val < pdxUtop
    case pos => exact .inr <| .inl ⟨e, hd, by rw [target_pde hi, tableOf_eq hd, ht]⟩
    case neg =>
      have hdir := hk.dir hd (Nat.not_lt.mp hi)
      by_cases hx : i = pdx uvpt
      case pos =>
        rw [if_pos hx] at hdir
        rw [Kernel.table, hdir, entryPage_self] at ht
        cases ht
        exact .inl ⟨hx, rfl⟩
      case neg =>
        rw [if_neg hx] at hdir
        refine .inr <| .inr ⟨?_, .inr hx⟩
        rw [← ht, Kernel.table, hdir]
        rfl

namespace PageInv

variable (h : PageInv M F l s) (hk : KernHalf s₀ s)

-- A user table of `pd`, or a free page, is not a page directory.
include h in
theorem table_not_pgdir (hd : s.IsPgdir pd) (ht : (∃ e, s.target (.pde e i) = some t) ∨ t ∈ l) : pd ≠ t := by
  rintro rfl
  obtain rfl | ⟨e, hd⟩ := hd
  case inl =>
    obtain ⟨e, ht⟩ | ht := ht
    case inl => exact h.table_ne_kern ht rfl
    case inr => exact h.kern (h.pool.mem_free.mp ht).1
  case inr =>
    obtain ⟨e', ht⟩ | ht := ht
    case inl => exact h.table_ne_pgdir ht hd rfl
    case inr => exact h.pool.not_ref_of_free ht (show s.target (.pgdir e) = some pd from hd)

-- The tables below `UTOP` belong to environments.
include h in
theorem user_table (hd : s.IsPgdir pd) (hi : i.val < pdxUtop) (ht : s.table pd i = some t) :
    ∃ e, s.pgdirOf e = some pd ∧ s.target (.pde e i) = some t := by
  obtain rfl | ⟨e, hd⟩ := hd
  case inl =>
    have hn : s.table s.kernPgdir i = none := h.kernUser hi
    cases hn.symm.trans ht
  case inr => exact ⟨e, hd, by rw [target_pde hi, tableOf_eq hd, ht]⟩

section Rewrites

variable (hr : Rewrites l s s' pd t va w) (hd : s.IsPgdir pd) (hi : (pdx va).val < pdxUtop)

include h hr hd hi in
theorem rewrites_table : (∃ e, s.pgdirOf e = some pd ∧ s.target (.pde e (pdx va)) = some t) ∨ t ∈ l := by
  obtain ⟨ht, -⟩ | ⟨-, hl, -⟩ := hr.cases
  case inl => exact .inl (h.user_table hd hi ht)
  case inr => exact .inr hl

include h hr hd hi in
theorem rewrites_ne (hd' : s.IsPgdir pd') : pd' ≠ t :=
  h.table_not_pgdir hd' <| (h.rewrites_table hr hd hi).imp_left fun ⟨e, _, ht⟩ => ⟨e, ht⟩

include h hr hd hi in
theorem rewrites_bound : t.toNat < s.npages := by
  obtain ⟨e, -, ht⟩ | hl := h.rewrites_table hr hd hi
  case inl => exact h.bound (h.table_mem ht)
  case inr => exact h.bound (h.pool.mem_free.mp hl).1

-- The entries of other tables than the one for `va` are the same.
include h hk hr hd hi in
theorem rewrites_entry (hd' : s.IsPgdir pd') (hn : ¬(pd' = pd ∧ SamePage va va'))
    (hw : ¬(s.table pd (pdx va) = none ∧ pd' = pd ∧ SamePage (pgaddr (pdx uvpt) (pdx va)) va'))
    (ht' : s.table pd' (pdx va') = some t') : s'.mem t' (ptx va') = s.mem t' (ptx va') := by
  have hpd := h.rewrites_ne hr hd hi hd'
  have hcases := hk.table_cases hd' ht'
  by_cases htt : t' = t
  case pos =>
    subst htt
    obtain ⟨e, hde, ht⟩ | hl := h.rewrites_table hr hd hi
    case inr =>
      exfalso
      obtain ⟨-, rfl⟩ | ⟨e', -, ht⟩ | ⟨ht, -⟩ := hcases
      case inl => exact hpd rfl
      all_goals exact h.pool.not_ref_of_free hl ht
    case inl =>
      obtain ⟨-, rfl⟩ | ⟨e', hde', ht₂⟩ | ⟨ht₂, -⟩ := hcases
      case inl => exact absurd rfl hpd
      case inr.inr => simpa using h.unique (by trivial) ht ht₂
      case inr.inl =>
        obtain ⟨rfl, hx⟩ := h.table_inj ht ht₂
        cases hde.symm.trans hde'
        have hj : ptx va' ≠ ptx va := fun hj => hn ⟨rfl, hx.symm, hj⟩
        obtain ⟨-, -, hm⟩ | ⟨-, hl, -⟩ := hr.cases
        case inl => exact hm _ hj
        case inr => exact absurd ht (h.pool.not_ref_of_free hl)
  case neg =>
    by_cases htp : t' = pd
    case neg => rw [hr.others htt htp]
    case pos =>
      subst htp
      -- `pd` is a table in its own window only.
      have hself : pdx va' = pdx uvpt ∧ pd' = t' := by
        obtain ⟨hx, rfl⟩ | ⟨e', -, ht₂⟩ | ⟨ht₂, ho⟩ := hcases
        case inl => exact ⟨hx, rfl⟩
        case inr.inl => exact absurd rfl (h.table_not_pgdir hd (.inl ⟨e', ht₂⟩))
        case inr.inr =>
          obtain rfl | ⟨e, hde⟩ := hd
          case inr =>
            have hu := h.unique (by trivial) ht₂ (show s.target (.pgdir e) = some t' from hde)
            cases hu
          case inl =>
            obtain hm | ⟨hx, -⟩ := h.owned ht₂
            case inl => exact absurd hm h.kern
            case inr =>
              have hx := Ref.kpde.inj hx
              exact ⟨hx, ho.resolve_right fun hne => hne hx⟩
      obtain ⟨hx, rfl⟩ := hself
      by_cases hj : ptx va' = pdx va
      case neg => exact hr.dir hj
      case pos =>
        obtain ⟨-, hm, -⟩ | ⟨hnone, -⟩ := hr.cases
        case inl => rw [hm]
        case inr => exact absurd ⟨hnone, rfl, by rw [SamePage, pdx_pgaddr, ptx_pgaddr]; exact ⟨hx, hj⟩⟩ hw

-- `page_lookup` gives the same everywhere but at `va`, and in the window onto a new table.
include h hk hr hd hi in
theorem rewrites_lookup (hd' : s.IsPgdir pd') (hn : ¬(pd' = pd ∧ SamePage va va'))
    (hw : ¬(s.table pd (pdx va) = none ∧ pd' = pd ∧ SamePage (pgaddr (pdx uvpt) (pdx va)) va')) :
    s'.lookup pd' va' = s.lookup pd' va' := by
  have hpd := h.rewrites_ne hr hd hi hd'
  by_cases hnew : pd' = pd ∧ pdx va' = pdx va ∧ s.table pd (pdx va) = none
  case pos =>
    obtain ⟨rfl, hx, hnone⟩ := hnew
    obtain ⟨ht, -⟩ | ⟨-, -, hz⟩ := hr.cases
    case inl => cases hnone.symm.trans ht
    case inr =>
      have hj : ptx va' ≠ ptx va := fun hj => hn ⟨rfl, hx, hj⟩
      have hb := h.rewrites_bound hr hd hi
      have hnone' : s.table pd' (pdx va') = none := by rw [hx, hnone]
      have htab : s'.table pd' (pdx va') = some t := by rw [hx, hr.table]
      rw [lookup_of_none hnone', lookup_of_some htab, hz _ hj, hr.npages, if_neg (Nat.not_le.mpr hb)]
      rfl
  case neg =>
    refine lookup_congr hr.npages ?_ fun t' ht' => h.rewrites_entry hk hr hd hi hd' hn hw ht'
    by_cases hp : pd' = pd
    case neg => rw [Kernel.table, Kernel.table, hr.others hpd hp]
    case pos =>
      subst hp
      obtain ⟨-, hm, -⟩ | ⟨hnone, -⟩ := hr.cases
      case inl => rw [Kernel.table, Kernel.table, hm]
      case inr =>
        have hx : pdx va' ≠ pdx va := fun hx => hnew ⟨rfl, hx, hnone⟩
        rw [Kernel.table, Kernel.table, hr.dir hx]

end Rewrites

section Memory

omit h in
theorem mem_unmap_entry (hn : ¬(q = t ∧ j = ptx va)) : (s.unmap c pd t va p).mem q j = s.mem q j := by
  rw [unmap_eq]
  change ((s.setMem t (ptx va) 0#32).dropRef p).mem q j = _
  rw [mem_dropRef]
  by_cases hq : q = t
  case neg => simp [Kernel.setMem, hq]
  case pos =>
    have hj : j ≠ ptx va := fun hj => hn ⟨hq, hj⟩
    simp [Kernel.setMem, hq, hj]

omit h in
theorem mem_unmap_self : (s.unmap c pd t va p).mem t (ptx va) = 0#32 := by
  rw [unmap_eq]
  change ((s.setMem t (ptx va) 0#32).dropRef p).mem t (ptx va) = _
  simp [mem_dropRef, Kernel.setMem]

-- What `page_insert` does to a table which is there.
omit h in
theorem mem_remap (ht : s.table pd (pdx va) = some t) (hne : pd ≠ t) :
    (((s.unmapPage c pd va).retake pp).storePte pd pp va perm).mem =
      (s.setMem t (ptx va) (page2pa pp ||| perm ||| pteP)).mem := by
  have hm : ∀ q k, ¬(q = t ∧ k = ptx va) → (s.unmapPage c pd va).mem q k = s.mem q k := by
    intro q k hq
    simp only [Kernel.unmapPage, ht]
    split
    case h_1 => rfl
    case h_2 => exact mem_unmap_entry hq
  have ht' : ((s.unmapPage c pd va).retake pp).table pd (pdx va) = some t := by
    rw [table_retake, Kernel.table, hm _ _ fun hq => hne hq.1]
    exact ht
  rw [storePte_eq ht']
  change (((s.unmapPage c pd va).retake pp).setMem t (ptx va) _).mem = _
  funext q k
  simp only [Kernel.setMem, mem_retake]
  by_cases hq : q = t
  case neg => simp [hq, hm q k fun h => hq h.1]
  case pos =>
    by_cases hk : k = ptx va
    case pos => simp [hq, hk]
    case neg => simp [hq, hk, hm t k fun h => hk h.2]

include h in
theorem rewrites_mapPage (hd : s.IsPgdir pd) (hi : (pdx va).val < pdxUtop) (hn : ¬s.NoTable pd (pdx va)) :
    ∃ t, Rewrites l s (s.mapPage c pd pp va perm) pd t va (page2pa pp ||| perm ||| pteP) := by
  cases ht : s.table pd (pdx va)
  case some t =>
    obtain ⟨e, -, htab⟩ := h.user_table hd hi ht
    have hne : pd ≠ t := h.table_not_pgdir hd (.inl ⟨e, htab⟩)
    have hm : (s.mapPage c pd pp va perm).mem = (s.setMem t (ptx va) (page2pa pp ||| perm ||| pteP)).mem := by
      rw [Kernel.mapPage, ensureTable_of_table ht, mem_remap ht hne]
    have hpd : (s.mapPage c pd pp va perm).mem pd = s.mem pd := by simp [hm, Kernel.setMem, hne]
    refine ⟨t, SameEnvs.mapPage.npages, ?_, ?_, fun hq _ => ?_, fun _ => by rw [hpd], .inl ⟨ht, hpd, fun j hj => ?_⟩⟩
    case refine_1 => rw [Kernel.table, hpd, ← Kernel.table, ht]
    case refine_2 => simp [hm, Kernel.setMem]
    case refine_3 => simp [hm, Kernel.setMem, hq]
    case refine_4 => simp [hm, Kernel.setMem, hj]
  case none =>
    cases hl : s.pageFreeList
    case none => exact absurd ⟨ht, hl⟩ hn
    case some t =>
      obtain ⟨l', rfl⟩ := h.free_of_head hl
      have hne : pd ≠ t := h.table_not_pgdir (i := 0) hd (.inr (by simp))
      have hm : (s.mapPage c pd pp va perm).mem =
          ((s.addTable pd (pdx va) t).setMem t (ptx va) (page2pa pp ||| perm ||| pteP)).mem := by
        rw [Kernel.mapPage, ensureTable_of_none ht hl, mem_remap table_addTable hne]
      have hpd : (s.mapPage c pd pp va perm).mem pd = (s.addTable pd (pdx va) t).mem pd := by
        simp [hm, Kernel.setMem, hne]
      refine ⟨t, SameEnvs.mapPage.npages, ?_, ?_, fun hq hq' => ?_, fun hx => ?_, .inr ⟨ht, by simp, fun j hj => ?_⟩⟩
      case refine_1 => rw [Kernel.table, hpd, ← Kernel.table, table_addTable]
      case refine_2 => simp [hm, Kernel.setMem]
      case refine_3 => simp [hm, Kernel.setMem, hq, mem_addTable hq hq']
      case refine_4 => simp [hpd, Kernel.addTable, Kernel.setMem, Kernel.zeroPage, incRef, setPage, Kernel.popFree, hx, hne]
      case refine_5 =>
        simp [hm, Kernel.addTable, Kernel.setMem, Kernel.zeroPage, incRef, setPage, Kernel.popFree, hj, hne.symm]

-- What `page_remove` does to the memory if a page is mapped.
include h in
theorem rewrites_unmapPage (hd : s.IsPgdir pd) (hi : (pdx va).val < pdxUtop)
    (he : entryPage (s.entry pd (pdx va) (ptx va)) = some p) :
    ∃ t, s.table pd (pdx va) = some t ∧ Rewrites l s (s.unmapPage c pd va) pd t va 0#32 := by
  obtain ⟨t, ht⟩ : ∃ t, s.table pd (pdx va) = some t := by
    cases ht : s.table pd (pdx va)
    case none => simp [Kernel.entry, ht] at he
    case some t => exact ⟨t, rfl⟩
  obtain ⟨e, -, ht'⟩ := h.user_table hd hi ht
  have hne : pd ≠ t := h.table_not_pgdir hd (.inl ⟨e, ht'⟩)
  have hent : entryPage (s.mem t (ptx va)) = some p := by rwa [Kernel.entry, ht] at he
  have hu : s.unmapPage c pd va = s.unmap c pd t va p := by simp [Kernel.unmapPage, ht, hent]
  have hpd : (s.unmapPage c pd va).mem pd = s.mem pd := by rw [hu, mem_unmap hne]
  refine ⟨t, ht, SameEnvs.unmapPage.npages, ?_, ?_, fun hq _ => ?_, fun _ => by rw [hpd], .inl ⟨ht, hpd, fun j hj => ?_⟩⟩
  case refine_1 => rw [Kernel.table, hpd, ← Kernel.table, ht]
  case refine_2 => rw [hu, mem_unmap_self]
  case refine_3 => rw [hu, mem_unmap hq]
  case refine_4 => rw [hu, mem_unmap_entry fun hj' => hj hj'.2]

end Memory

section Refs

omit h in
theorem ref_dropRef : ((s.dropRef p).pages q).ref = (s.pages q).ref - if p = q then 1#16 else 0#16 := by
  have hr : ((s.dropRef p).pages q).ref = ((s.decRef p).pages q).ref := by
    simp only [Kernel.dropRef]
    split
    case isTrue => rw [ref_pushFree]
    case isFalse => rfl
  rw [hr]
  by_cases hq : p = q
  case pos => rw [if_pos hq, ← hq, ref_decRef]
  case neg => rw [if_neg hq, ref_decRef_of_ne (Ne.symm hq), BitVec.sub_zero]

omit h in
theorem ref_unmapPage : ((s.unmapPage c pd va).pages q).ref =
    (s.pages q).ref - if entryPage (s.entry pd (pdx va) (ptx va)) = some q then 1#16 else 0#16 := by
  cases ht : s.table pd (pdx va)
  case none => simp [Kernel.unmapPage, Kernel.entry, ht]
  case some t =>
    have hent : s.entry pd (pdx va) (ptx va) = s.mem t (ptx va) := by rw [Kernel.entry, ht]
    rw [hent]
    cases he : entryPage (s.mem t (ptx va))
    case none => simp [Kernel.unmapPage, ht, he]
    case some p =>
      have hu : s.unmapPage c pd va = s.unmap c pd t va p := by simp [Kernel.unmapPage, ht, he]
      rw [hu]
      change ((s.dropRef p).pages q).ref = _
      simp only [ref_dropRef, Option.some.injEq]

omit h in
theorem ref_retake : ((s.retake pp).pages q).ref = (s.pages q).ref := by
  simp only [Kernel.retake]
  split
  case isTrue => rw [ref_popFree]
  case isFalse => rfl

omit h in
theorem ref_storePte (ht : s.table pd (pdx va) = some t) : ((s.storePte pd pp va perm).pages q).ref =
    (s.pages q).ref + if pp = q then 1#16 else 0#16 := by
  rw [storePte_eq ht]
  by_cases hq : pp = q
  case pos => rw [if_pos hq, ← hq, ref_incRef]; rfl
  case neg => rw [if_neg hq, ref_incRef_of_ne (Ne.symm hq), BitVec.add_zero]; rfl

omit h in
theorem ref_ensureTable (hq : s.pageFreeList ≠ some q) : ((s.ensureTable pd i).pages q).ref = (s.pages q).ref := by
  simp only [Kernel.ensureTable]
  split
  case h_1 t _ hl =>
    have hne : q ≠ t := fun hqt => hq (hqt ▸ hl)
    change (((s.popFree t).zeroPage t).incRef t |>.pages q).ref = _
    rw [ref_incRef_of_ne hne]
    exact ref_popFree
  case h_2 => rfl

omit h in
theorem entry_ensureTable (hne : s.pageFreeList ≠ some pd) :
    (s.ensureTable pd i).entry pd i j = s.entry pd i j := by
  cases hd : s.table pd i
  case some t => rw [ensureTable_of_table hd]
  case none =>
    cases hl : s.pageFreeList
    case none => simp [Kernel.ensureTable, hd, hl]
    case some t =>
      have hne' : t ≠ pd := fun he => hne (he ▸ hl)
      rw [ensureTable_of_none hd hl, Kernel.entry, table_addTable, Kernel.entry, hd]
      simp [Kernel.addTable, Kernel.setMem, Kernel.zeroPage, incRef, setPage, Kernel.popFree, hne']

end Refs

section Dir

variable (hd : s.IsPgdir pd) (hi : (pdx va).val < pdxUtop)

include h hd in
theorem dir_not_free (hl : s.pageFreeList = some t) : pd ≠ t := by
  obtain ⟨l', rfl⟩ := h.free_of_head hl
  exact h.table_not_pgdir (i := 0) hd (.inr (by simp))

-- The page at an address below `UTOP` is one of an environment.
include h hd hi in
theorem user_page (he : entryPage (s.entry pd (pdx va) (ptx va)) = some p) :
    ∃ e, s.target (.pte e (pdx va) (ptx va)) = some p := by
  cases ht : s.table pd (pdx va)
  case none => simp [Kernel.entry, ht] at he
  case some t =>
    obtain ⟨e, hde, -⟩ := h.user_table hd hi ht
    exact ⟨e, by rw [target_pte hi, pteOf_eq hde, he]⟩

include h hd hi in
theorem lookup_user : s.lookup pd va = .ok ((entryPage (s.entry pd (pdx va) (ptx va))).map fun p =>
    (p, s.entry pd (pdx va) (ptx va))) := by
  cases ht : s.table pd (pdx va)
  case none => simp [lookup_of_none ht, Kernel.entry, ht]
  case some t =>
    obtain ⟨e, -, ht'⟩ := h.user_table hd hi ht
    have hent : s.entry pd (pdx va) (ptx va) = s.mem t (ptx va) := by rw [Kernel.entry, ht]
    rw [lookup_of_some ht, if_neg (Nat.not_le.mpr (h.bound (h.table_mem ht'))), hent]
    cases he : entryPage (s.mem t (ptx va))
    case none => rfl
    case some p =>
      obtain ⟨e, hp⟩ := h.user_page hd hi (p := p) (by rw [hent, he])
      simp [Nat.not_le.mpr (h.bound (h.page_mem hp))]

omit h in
theorem mem_new_table (hne : pd ≠ t) : (s.addTable pd i t).mem t j = 0#32 := by
  simp [Kernel.addTable, Kernel.setMem, Kernel.zeroPage, incRef, setPage, Kernel.popFree, hne.symm]

omit h in
theorem unmapPage_new (hne : pd ≠ t) : (s.addTable pd (pdx va) t).unmapPage c pd va = s.addTable pd (pdx va) t := by
  simp [Kernel.unmapPage, table_addTable, mem_new_table hne]

-- Inserting a page where there is no page table.
include h hd in
theorem pageInsert_new (ht : s.table pd (pdx va) = none) (hl : s.pageFreeList = some t) :
    (pageInsert c pd pp va perm).run s = .ok 0#32 (s.mapPage c pd pp va perm) := by
  have hne := h.dir_not_free hd hl
  obtain ⟨l', rfl⟩ := h.free_of_head hl
  have he : entryPage ((s.addTable pd (pdx va) t).entry pd (pdx va) (ptx va)) = none := by
    rw [Kernel.entry, table_addTable]
    simp [mem_new_table hne]
  have hb : ∀ t', (s.addTable pd (pdx va) t).table pd (pdx va) = some t' →
      t'.toNat < (s.addTable pd (pdx va) t).npages := by
    intro t' ht'
    cases table_addTable.symm.trans ht'
    exact h.free_bound
  simp only [pageInsert, run_bind, pgdirWalk_create ht hl h.free_bound, pageRemove_none hb he, run_get, Kernel.mapPage,
    ensureTable_of_none ht hl, unmapPage_new hne, Kernel.retake]
  split
  case isTrue hl' =>
    have ht' : ((s.addTable pd (pdx va) t).popFree pp).table pd (pdx va) = some t := table_addTable
    simp [pageAlloc_some hl', Kernel.storePte, ht']
  case isFalse => simp [Kernel.storePte, table_addTable]

include h hd hi in
theorem pageInsert_dir (hn : ¬s.NoTable pd (pdx va)) :
    (pageInsert c pd pp va perm).run s = .ok 0#32 (s.mapPage c pd pp va perm) := by
  cases ht : s.table pd (pdx va)
  case none =>
    cases hl : s.pageFreeList
    case none => exact absurd ⟨ht, hl⟩ hn
    case some t => exact h.pageInsert_new hd ht hl
  case some t =>
    obtain ⟨e, hde, -⟩ := h.user_table hd hi ht
    exact h.pageInsert_run hde hi hn

include h hd hi in
theorem ref_mapPage (hn : ¬s.NoTable pd (pdx va)) (hq : q ∉ l) : ((s.mapPage c pd pp va perm).pages q).ref =
    (s.pages q).ref - (if entryPage (s.entry pd (pdx va) (ptx va)) = some q then 1#16 else 0#16) +
      if pp = q then 1#16 else 0#16 := by
  have hfree : s.pageFreeList ≠ some q := by
    intro hl
    obtain ⟨l', rfl⟩ := h.free_of_head hl
    simp at hq
  have hent : (s.ensureTable pd (pdx va)).entry pd (pdx va) (ptx va) = s.entry pd (pdx va) (ptx va) :=
    entry_ensureTable fun hl => h.dir_not_free hd hl rfl
  obtain ⟨t, hr⟩ : ∃ t, Rewrites l s (s.mapPage c pd pp va perm) pd t va (page2pa pp ||| perm ||| pteP) :=
    h.rewrites_mapPage hd hi hn
  have ht : ∃ t, (((s.ensureTable pd (pdx va)).unmapPage c pd va).retake pp).table pd (pdx va) = some t := by
    by_contra hno
    simp only [not_exists, ← Option.eq_none_iff_forall_ne_some] at hno
    have ht := hr.table
    rw [Kernel.mapPage, Kernel.storePte, hno, hno] at ht
    cases ht
  obtain ⟨t', ht'⟩ := ht
  rw [Kernel.mapPage, ref_storePte ht', ref_retake, ref_unmapPage, ref_ensureTable hfree, hent]

end Dir

end PageInv

namespace Kernel

-- `pp` comes from `page_alloc`, or it is mapped already, and `pp_ref` can count one more mapping.
structure Insertable (F : Set Ppn) (s : Kernel) (pp : Ppn) : Prop where
  held  : pp ∈ F ∨ ∃ e i j, s.target (.pte e i j) = some pp
  count : (s.pages pp).ref.toNat < 2 ^ 16 - 1

-- The page at `va` of `pd` has become `new`, with the counters adjusted for the pages that were not free. `page_lookup`
-- is the same for all other pages, with the exceptions given by `but`.
structure Remapped (l : List Ppn) (s s' : Kernel) (pd : Ppn) (va : Word) (new : Option (Ppn × Word))
    (but : Ppn → Word → Prop) : Prop where
  here  : s'.lookup pd va = .ok new
  other : ∀ {pd' va'}, s.IsPgdir pd' → ¬(pd' = pd ∧ SamePage va va') → ¬but pd' va' →
    s'.lookup pd' va' = s.lookup pd' va'
  refs  : ∃ old, s.lookup pd va = .ok old ∧ ∀ {q}, q ∉ l →
    (s'.pages q).ref.toNat + (if old.map Prod.fst = some q then 1 else 0) =
      (s.pages q).ref.toNat + (if new.map Prod.fst = some q then 1 else 0)

-- The page of the window onto the page tables at which a new page table for `va` appears.
def NewWindow (s : Kernel) (pd : Ppn) (va : Word) (pd' : Ppn) (va' : Word) : Prop :=
  s.table pd (pdx va) = none ∧ pd' = pd ∧ SamePage (pgaddr (pdx uvpt) (pdx va)) va'

end Kernel

namespace PageInv

variable (h : PageInv M F l s) (hk : KernHalf s₀ s) (hd : s.IsPgdir pd) (hi : (pdx va).val < pdxUtop)

include h hd hi in
theorem ref_entry (he : entryPage (s.entry pd (pdx va) (ptx va)) = some p) : 0 < (s.pages p).ref.toNat := by
  obtain ⟨e, hp⟩ := h.user_page hd hi he
  exact h.ref_pos (h.page_mem hp) hp

theorem held_of (hx : s.Insertable F pp) : ∃ F', Held F F' s pp := by
  obtain hF | ⟨e, i, j, hr⟩ := hx.held
  case inl => exact ⟨F \ {pp}, .flight (Set.insert_sdiff_self_of_mem hF).symm (by simp)⟩
  case inr => exact ⟨F, .mapped rfl hr⟩

include h in
theorem insertable_mem (hx : s.Insertable F pp) : pp ∈ M ∧ pp ∉ l := by
  obtain hF | ⟨e, i, j, hr⟩ := hx.held
  case inl => exact ⟨(h.pool.flight hF).1, h.pool.not_free_of_flight hF⟩
  case inr => exact ⟨h.page_mem hr, h.pool.not_free_of_ref hr⟩

-- The inserted page is in use, so it is not on the free list.
include h hd hi in
theorem insert_not_free (hn : ¬s.NoTable pd (pdx va)) (hp : FlagsOnly perm) (hx : s.Insertable F pp) :
    ∃ l', (s.mapPage c pd pp va perm).FreeList l' ∧ pp ∉ l' := by
  obtain ⟨hm, hl⟩ := h.insertable_mem hx
  obtain ⟨F', hx'⟩ := held_of hx
  obtain rfl | ⟨e, hde⟩ := hd
  case inr =>
    have hrefs := h.refs_mapPage (c := c) hde hi hn hp hx' hl
    have hc := hx.count
    rw [h.ref_eq hm] at hc
    obtain ⟨l', h'⟩ := h.mapPage (c := c) hde hi hn hp hx' fun _ => by omega
    refine ⟨l', h'.chain, h'.pool.not_free_of_ref (r := .pte e (pdx va) (ptx va)) ?_⟩
    rw [h.target_mapPage hde hi hn hp hx', update_self]
  case inl =>
    have ht : s.table s.kernPgdir (pdx va) = none := h.kernUser hi
    cases hf : s.pageFreeList
    case none => exact absurd ⟨ht, hf⟩ hn
    case some t =>
      have hne := h.dir_not_free (.inl rfl) hf
      obtain ⟨l', rfl⟩ := h.free_of_head hf
      have hpop := h.popFree
      have hhead : (s.addTable s.kernPgdir (pdx va) t).pageFreeList ≠ some pp := by
        intro hpp
        obtain ⟨l'', rfl⟩ := hpop.free_of_head hpp
        simp at hl
      have hmap : s.mapPage c s.kernPgdir pp va perm =
          ((s.addTable s.kernPgdir (pdx va) t).setMem t (ptx va) (page2pa pp ||| perm ||| pteP)).incRef pp := by
        rw [Kernel.mapPage, ensureTable_of_none ht hf, unmapPage_new hne, Kernel.retake, if_neg hhead,
          storePte_eq table_addTable]
      refine ⟨l', ?_, fun hm => hl (by simp [hm])⟩
      have hlinks : (fun q => ((s.mapPage c s.kernPgdir pp va perm).pages q).link) =
          fun q => ((s.popFree t).pages q).link := by
        funext q
        rw [hmap, link_incRef]
        exact link_incRef
      have hfree : (s.mapPage c s.kernPgdir pp va perm).pageFreeList = (s.popFree t).pageFreeList := by
        rw [hmap]
        rfl
      rw [FreeList, hlinks, hfree]
      exact hpop.chain

-- Taking one reference away and adding one, where neither goes past the ends of the counter.
theorem counts_adjusted {x y : BitVec 16} {P Q : Prop} [Decidable P] [Decidable Q]
    (hy : y = x - (if P then 1#16 else 0#16) + if Q then 1#16 else 0#16) (hP : P → 0 < x.toNat)
    (hQ : Q → x.toNat < 2 ^ 16 - 1) : y.toNat + (if P then 1 else 0) = x.toNat + if Q then 1 else 0 := by
  subst hy
  by_cases hp : P
  case pos =>
    have hx := hP hp
    by_cases hq : Q <;> simp only [hp, hq, if_true, if_false] <;> bv_omega
  case neg =>
    by_cases hq : Q
    case pos =>
      have hx := hQ hq
      simp only [hp, hq, if_true, if_false]
      bv_omega
    case neg => simp [hp, hq]

include h hk hd hi in
theorem remapped_mapPage (hn : ¬s.NoTable pd (pdx va)) (hp : FlagsOnly perm) (hx : s.Insertable F pp) :
    Remapped l s (s.mapPage c pd pp va perm) pd va (some (pp, page2pa pp ||| perm ||| pteP)) (s.NewWindow pd va) := by
  obtain ⟨t, hr⟩ : ∃ t, Rewrites l s (s.mapPage c pd pp va perm) pd t va (page2pa pp ||| perm ||| pteP) :=
    h.rewrites_mapPage hd hi hn
  have hpp := h.bound (h.insertable_mem hx).1
  refine ⟨?_, fun hd' hne hw => h.rewrites_lookup hk hr hd hi hd' hne hw, _, h.lookup_user hd hi, fun {q} hq => ?_⟩
  case refine_1 =>
    rw [lookup_of_some hr.table, hr.npages, if_neg (Nat.not_le.mpr (h.rewrites_bound hr hd hi)), hr.entry,
      entryPage_insert hp]
    simp [Nat.not_le.mpr hpp]
  case refine_2 =>
    have hold : Option.map Prod.fst ((entryPage (s.entry pd (pdx va) (ptx va))).map fun p =>
        (p, s.entry pd (pdx va) (ptx va))) = entryPage (s.entry pd (pdx va) (ptx va)) := by
      simp [Option.map_map, Function.comp_def]
    simp only [hold, Option.map_some, Option.some.injEq]
    refine counts_adjusted (h.ref_mapPage hd hi hn hq) (fun he => h.ref_entry hd hi he) ?_
    rintro rfl
    exact hx.count

include h hk hd hi in
theorem remapped_unmapPage : ∃ s', (pageRemove c pd va).run s = .ok () s' ∧
    Remapped l s s' pd va none (fun _ _ => False) := by
  have hlook := h.lookup_user hd hi
  cases he : entryPage (s.entry pd (pdx va) (ptx va))
  case none =>
    rw [he] at hlook
    have hb : ∀ t, s.table pd (pdx va) = some t → t.toNat < s.npages := by
      intro t ht
      obtain ⟨e, -, ht'⟩ := h.user_table hd hi ht
      exact h.bound (h.table_mem ht')
    exact ⟨s, pageRemove_none hb he, hlook, fun _ _ _ => rfl, _, hlook, fun _ => rfl⟩
  case some p =>
    obtain ⟨t, ht, hr⟩ := h.rewrites_unmapPage (c := c) hd hi he
    obtain ⟨e, hde, ht'⟩ := h.user_table hd hi ht
    refine ⟨_, h.pageRemove_run hde hi, ?_, fun hd' hn _ => h.rewrites_lookup hk hr hd hi hd' hn ?_, _, hlook,
      fun {q} hq => ?_⟩
    case refine_1 =>
      rw [lookup_of_some hr.table, hr.npages, if_neg (Nat.not_le.mpr (h.rewrites_bound hr hd hi)), hr.entry]
      rfl
    case refine_2 =>
      rintro ⟨hnone, -⟩
      cases hnone.symm.trans ht
    case refine_3 =>
      have hq' : ((s.unmapPage c pd va).pages q).ref =
          (s.pages q).ref - (if some p = some q then 1#16 else 0#16) + if False then 1#16 else 0#16 := by
        rw [ref_unmapPage, he]
        simp
      have hc := counts_adjusted hq' (fun hpq => Option.some.inj hpq ▸ h.ref_entry hd hi he) False.elim
      simpa [he] using hc

end PageInv

-- The environment has an empty page directory, and page 2 has been handed out.
def allocated : Kernel :=
  (soleEnv 8).popFree 2#20

theorem allocated_inv : (∃ l, PageInv { p | p ∈ freshPages 8 } {2#20} l allocated) ∧
    KernHalf (freshKernel 8) allocated := by
  obtain ⟨l₀, L₀, h₀, -⟩ := freshKernel_inv (n := 8) (by decide)
  obtain ⟨l, L, h, -⟩ := soleEnv_inv (n := 8) (by decide) (by decide)
  have hf : (freshKernel 8).pageFreeList = some 1#20 := rfl
  have hl : (soleEnv 8).pageFreeList = some 2#20 := rfl
  obtain ⟨l₀', rfl⟩ := h₀.free_of_head hf
  obtain ⟨l', rfl⟩ := h.free_of_head hl
  have hk : KernHalf (freshKernel 8) (freshKernel 8) := by
    refine ⟨rfl, fun _ => rfl, fun {e pd i} hd _ => ?_⟩
    have hn : (freshKernel 8).pgdirOf e = none := rfl
    cases hn.symm.trans hd
  refine ⟨⟨l', by simpa [allocated] using h.popFree⟩, ?_⟩
  have hk' : KernHalf (freshKernel 8) ((freshKernel 8).newEnv 0 1#20 0#32) := hk.newEnv h₀
  exact hk'.sameUpper (.of_mem rfl rfl rfl)

theorem allocated_dir : allocated.IsPgdir 1#20 :=
  .inr ⟨0, by decide +kernel⟩

theorem allocated_insertable : Insertable {2#20} allocated 2#20 :=
  ⟨.inl rfl, by decide +kernel⟩

end Jos
