import Jos.Kernel.Refs

-- How the references to pages change when the kernel writes to memory.

open Function RefCount

namespace Jos

namespace Kernel

variable {s s' : Kernel} {e e' : EnvIx} {i i' j j' : Ptx} {p pd t : Ppn} {w : Word}

-- The pages that are read when references are resolved.
def Table (s : Kernel) (p : Ppn) : Prop :=
  p = s.kernPgdir ∨ (∃ e, s.pgdirOf e = some p) ∨ ∃ e i, s.target (.pde e i) = some p

theorem tableOf_eq (h : s.pgdirOf e = some pd) : s.tableOf e i = s.table pd i := by
  simp [tableOf, h]

theorem pteOf_eq (h : s.pgdirOf e = some pd) : s.pteOf e i j = s.entry pd i j := by
  simp only [pteOf, tableOf_eq h, entry]
  cases s.table pd i <;> rfl

theorem pteOf_table (h : s.tableOf e i = some t) : s.pteOf e i j = s.mem t j := by
  simp [pteOf, h]

theorem pteOf_no_table (h : s.tableOf e i = none) : s.pteOf e i j = 0#32 := by
  simp [pteOf, h]

theorem target_pte (h : i.val < pdxUtop) : s.target (.pte e i j) = entryPage (s.pteOf e i j) := by
  simp [target, h]

theorem target_pde (h : i.val < pdxUtop) : s.target (.pde e i) = s.tableOf e i := by
  simp [target, h]

theorem target_congr (hd : s'.pgdirOf = s.pgdirOf) (hk : s'.kernPgdir = s.kernPgdir)
    (hm : ∀ p, s.Table p → s'.mem p = s.mem p) : s'.target = s.target := by
  have ht {e i} : s'.tableOf e i = s.tableOf e i := by
    simp only [tableOf, hd]
    cases hp : s.pgdirOf e
    case none => rfl
    case some pd => simp [table, hm pd (.inr <| .inl ⟨e, hp⟩)]
  funext r
  cases r
  case pgdir => simp [target, hd]
  case kpde => simp [target, table, hk, hm s.kernPgdir (.inl rfl)]
  case pde => simp [target, ht]
  case pte e i j =>
    by_cases hi : i.val < pdxUtop
    case neg => simp [target, hi]
    case pos =>
      rw [target_pte hi, target_pte hi]
      simp only [pteOf, ht]
      cases hp : s.tableOf e i
      case none => rfl
      case some t => simp [hm t (.inr <| .inr ⟨e, i, by rw [target_pde hi, hp]⟩)]

end Kernel

namespace PageInv

open Kernel

variable {M F : Set Ppn} {l : List Ppn} {s : Kernel} {e e' : EnvIx} {i i' j j' : Ptx}
  {p pd pd' t t' : Ppn} {w : Word} {r : Ref}

theorem pgdir_inj (h : PageInv M F l s) (hp : s.pgdirOf e = some pd) (hp' : s.pgdirOf e' = some pd) :
    e = e' := by
  have := h.unique (by trivial) (show s.target (.pgdir e) = _ from hp)
    (show s.target (.pgdir e') = _ from hp')
  simpa using this

theorem pgdir_ne_kern (h : PageInv M F l s) (hp : s.pgdirOf e = some pd) : pd ≠ s.kernPgdir := by
  rintro rfl
  cases h.owned (r := .pgdir e) hp
  case inl hm => exact h.kern hm
  case inr hr => simp at hr

theorem pgdir_mem (h : PageInv M F l s) (hp : s.pgdirOf e = some pd) : pd ∈ M :=
  (h.owned (r := .pgdir e) hp).resolve_right (by simp)

theorem table_mem (h : PageInv M F l s) (ht : s.target (.pde e i) = some t) : t ∈ M :=
  (h.owned ht).resolve_right (by simp)

theorem page_mem (h : PageInv M F l s) (ht : s.target (.pte e i j) = some p) : p ∈ M :=
  (h.owned ht).resolve_right (by simp)

theorem table_inj (h : PageInv M F l s) (ht : s.target (.pde e i) = some t)
    (ht' : s.target (.pde e' i') = some t) : e = e' ∧ i = i' := by
  have := h.unique (by trivial) ht ht'
  simpa using this

theorem table_ne_kern (h : PageInv M F l s) (ht : s.target (.pde e i) = some t) :
    t ≠ s.kernPgdir := by
  rintro rfl
  exact h.kern (h.table_mem ht)

theorem table_ne_pgdir (h : PageInv M F l s) (ht : s.target (.pde e i) = some t)
    (hp : s.pgdirOf e' = some pd) : t ≠ pd := by
  rintro rfl
  simpa using h.unique (by trivial) ht (show s.target (.pgdir e') = _ from hp)

theorem page_ne_table (h : PageInv M F l s) (hp : s.target (.pte e i j) = some p)
    (ht : s.target (.pde e' i') = some t) : p ≠ t := by
  rintro rfl
  simpa using h.unique (by trivial) ht hp

theorem page_ne_pgdir (h : PageInv M F l s) (hp : s.target (.pte e i j) = some p)
    (hd : s.pgdirOf e' = some pd) : p ≠ pd := by
  rintro rfl
  simpa using h.unique (by trivial) (show s.target (.pgdir e') = _ from hd) hp

theorem page_not_table (h : PageInv M F l s) (hp : s.target (.pte e i j) = some p) : ¬s.Table p := by
  rintro (rfl | ⟨e', hd⟩ | ⟨e', i', ht⟩)
  case inl => exact h.kern (h.page_mem hp)
  case inr.inl => exact h.page_ne_pgdir hp hd rfl
  case inr.inr => exact h.page_ne_table hp ht rfl

-- A page nobody refers to is not part of the translation structure.
theorem unref_not_table (h : PageInv M F l s) (hm : p ∈ M) (hp : ∀ r, s.target r ≠ some p) :
    ¬s.Table p := by
  rintro (rfl | ⟨e', hd⟩ | ⟨e', i', ht⟩)
  case inl => exact h.kern hm
  case inr.inl => exact hp (.pgdir e') hd
  case inr.inr => exact hp _ ht

theorem flight_not_table (h : PageInv M F l s) (hp : p ∈ F) : ¬s.Table p :=
  h.unref_not_table (h.pool.flight hp).1 fun _ => h.pool.not_ref_of_flight hp

theorem free_not_table (h : PageInv M F l s) (hp : p ∈ l) : ¬s.Table p :=
  h.unref_not_table (h.pool.mem_free.mp hp).1 fun _ => h.pool.not_ref_of_free hp

-- Writing a page table entry.
theorem pteOf_setMem_table (h : PageInv M F l s) (ht : s.target (.pde e i) = some t)
    (hi' : i'.val < pdxUtop) :
    (s.setMem t j w).pteOf e' i' j' =
      if e' = e ∧ i' = i ∧ j' = j then w else s.pteOf e' i' j' := by
  have htab : (s.setMem t j w).tableOf e' i' = s.tableOf e' i' := by
    simp only [tableOf]
    change (s.pgdirOf e').bind _ = _
    cases hp : s.pgdirOf e'
    case none => rfl
    case some pd =>
      have hne := (h.table_ne_pgdir ht hp).symm
      simp [table, setMem, hne]
  simp only [pteOf, htab]
  cases ht' : s.tableOf e' i'
  case none =>
    have hne : ¬(e' = e ∧ i' = i ∧ j' = j) := by
      rintro ⟨rfl, rfl, rfl⟩
      rw [target_pde hi', ht'] at ht
      cases ht
    simp [hne]
  case some t' =>
    rw [← target_pde hi'] at ht'
    by_cases he : t' = t
    case pos =>
      subst he
      have ⟨h₁, h₂⟩ := h.table_inj ht ht'
      simp [setMem, h₁, h₂, update_apply]
    case neg =>
      have hne : ¬(e' = e ∧ i' = i ∧ j' = j) := by
        rintro ⟨rfl, rfl, -⟩
        rw [ht'] at ht
        exact he (Option.some.inj ht)
      simp [setMem, he, hne]

theorem target_setMem_table (h : PageInv M F l s) (ht : s.target (.pde e i) = some t)
    (hi : i.val < pdxUtop) :
    (s.setMem t j w).target = update s.target (.pte e i j) (entryPage w) := by
  funext r
  cases r
  case pgdir => rfl
  case kpde =>
    have hne := (h.table_ne_kern ht).symm
    simp [target, table, setMem, hne]
  case pde e' i' =>
    by_cases hi' : i'.val < pdxUtop
    case neg => simp [target, hi']
    case pos =>
      rw [update_of_ne (by simp), target_pde hi', target_pde hi']
      simp only [tableOf]
      change (s.pgdirOf e').bind _ = _
      cases hp : s.pgdirOf e'
      case none => rfl
      case some pd =>
        have hne := (h.table_ne_pgdir ht hp).symm
        simp [table, setMem, hne]
  case pte e' i' j' =>
    by_cases hi' : i'.val < pdxUtop
    case neg =>
      have hne : Ref.pte e' i' j' ≠ Ref.pte e i j := by
        simp only [ne_eq, Ref.pte.injEq, not_and]
        rintro - rfl
        exact absurd hi hi'
      simp [target, hi', update_of_ne hne]
    case pos =>
      rw [target_pte hi', h.pteOf_setMem_table ht hi']
      by_cases he : e' = e ∧ i' = i ∧ j' = j
      case pos =>
        have ⟨h₁, h₂, h₃⟩ := he
        subst h₁ h₂ h₃
        simp
      case neg =>
        rw [if_neg he, update_of_ne (by simpa using he), target_pte hi']

-- Writing a page directory entry of an environment.
theorem tableOf_setMem_pgdir (h : PageInv M F l s) (hp : s.pgdirOf e = some pd) :
    (s.setMem pd i w).tableOf e' i' = if e' = e ∧ i' = i then entryPage w else s.tableOf e' i' := by
  simp only [tableOf]
  change (s.pgdirOf e').bind _ = _
  cases hp' : s.pgdirOf e'
  case none =>
    have hne : ¬(e' = e ∧ i' = i) := by
      rintro ⟨rfl, -⟩
      rw [hp] at hp'
      cases hp'
    simp [hne]
  case some pd' =>
    by_cases he : pd' = pd
    case pos =>
      subst he
      have hee := h.pgdir_inj hp hp'
      by_cases hi : i' = i
      case pos => simp [table, setMem, hee, hi]
      case neg => simp [table, setMem, hi]
    case neg =>
      have hne : ¬(e' = e ∧ i' = i) := by
        rintro ⟨rfl, -⟩
        rw [hp] at hp'
        exact he (Option.some.inj hp').symm
      simp [table, setMem, he, hne]

theorem pteOf_setMem_pgdir (h : PageInv M F l s) (hp : s.pgdirOf e = some pd)
    (hi' : i'.val < pdxUtop) (hw : ∀ t, entryPage w = some t → t ≠ pd) :
    (s.setMem pd i w).pteOf e' i' j' =
      if e' = e ∧ i' = i then (entryPage w).elim 0#32 (s.mem · j') else s.pteOf e' i' j' := by
  simp only [pteOf, h.tableOf_setMem_pgdir hp]
  by_cases he : e' = e ∧ i' = i
  case pos =>
    simp only [he, and_self, if_true]
    cases ht : entryPage w
    case none => rfl
    case some t => simp [setMem, hw t ht]
  case neg =>
    simp only [if_neg he]
    cases ht : s.tableOf e' i'
    case none => rfl
    case some t =>
      rw [← target_pde hi'] at ht
      simp [setMem, h.table_ne_pgdir ht hp]

-- Hooking an empty page table into a page directory, or taking one out.
theorem target_setMem_pgdir (h : PageInv M F l s) (hp : s.pgdirOf e = some pd)
    (hi : i.val < pdxUtop) (he : ∀ j, s.target (.pte e i j) = none)
    (hw : ∀ t, entryPage w = some t → t ≠ pd ∧ ∀ j, entryPage (s.mem t j) = none) :
    (s.setMem pd i w).target = update s.target (.pde e i) (entryPage w) := by
  funext r
  cases r
  case pgdir => rfl
  case kpde =>
    have hne := (h.pgdir_ne_kern hp).symm
    simp [target, table, setMem, hne]
  case pde e' i' =>
    by_cases hi' : i'.val < pdxUtop
    case neg =>
      have hne : Ref.pde e' i' ≠ Ref.pde e i := by
        simp only [ne_eq, Ref.pde.injEq, not_and]
        rintro - rfl
        exact absurd hi hi'
      simp [target, hi', update_of_ne hne]
    case pos =>
      rw [target_pde hi', h.tableOf_setMem_pgdir hp]
      by_cases hc : e' = e ∧ i' = i
      case pos =>
        have ⟨h₁, h₂⟩ := hc
        subst h₁ h₂
        simp
      case neg => rw [if_neg hc, update_of_ne (by simpa using hc), target_pde hi']
  case pte e' i' j' =>
    rw [update_of_ne (by simp)]
    by_cases hi' : i'.val < pdxUtop
    case neg => simp [target, hi']
    case pos =>
      rw [target_pte hi', h.pteOf_setMem_pgdir hp hi' fun t ht => (hw t ht).1]
      by_cases hc : e' = e ∧ i' = i
      case pos =>
        have ⟨h₁, h₂⟩ := hc
        subst h₁ h₂
        rw [if_pos ⟨rfl, rfl⟩, he j']
        cases ht : entryPage w
        case none => simp
        case some t => simpa using (hw t ht).2 j'
      case neg => rw [if_neg hc, target_pte hi']

-- Writing an entry of the kernel's page directory.
theorem target_setMem_kern (h : PageInv M F l s) :
    (s.setMem s.kernPgdir i w).target = update s.target (.kpde i) (entryPage w) := by
  have htab {e' i'} : (s.setMem s.kernPgdir i w).tableOf e' i' = s.tableOf e' i' := by
    simp only [tableOf]
    change (s.pgdirOf e').bind _ = _
    cases hp : s.pgdirOf e'
    case none => rfl
    case some pd => simp [table, setMem, h.pgdir_ne_kern hp]
  funext r
  cases r
  case pgdir => rfl
  case kpde i' =>
    by_cases hc : i' = i
    case pos => simp [target, table, setMem, hc]
    case neg =>
      rw [update_of_ne (by simpa using hc)]
      simp [target, table, setMem, hc]
  case pde => simp [target, htab]
  case pte e' i' j' =>
    rw [update_of_ne (by simp)]
    by_cases hi' : i'.val < pdxUtop
    case neg => simp [target, hi']
    case pos =>
      rw [target_pte hi', target_pte hi']
      simp only [pteOf, htab]
      cases ht : s.tableOf e' i'
      case none => rfl
      case some t =>
        rw [← target_pde hi'] at ht
        simp [setMem, h.table_ne_kern ht]

end PageInv

namespace Kernel

variable {s s' : Kernel} {e : EnvIx}

-- An environment with nothing mapped below `UTOP` gets or loses its page directory.
theorem target_pgdirOf (hd : ∀ e', e' ≠ e → s'.pgdirOf e' = s.pgdirOf e') (hm : s'.mem = s.mem)
    (hk : s'.kernPgdir = s.kernPgdir) (h : ∀ i, i.val < pdxUtop → s.tableOf e i = none)
    (h' : ∀ i, i.val < pdxUtop → s'.tableOf e i = none) :
    s'.target = update s.target (.pgdir e) (s'.pgdirOf e) := by
  have ht {e' i} (hi : i.val < pdxUtop) : s'.tableOf e' i = s.tableOf e' i := by
    by_cases he : e' = e
    case pos => rw [he, h i hi, h' i hi]
    case neg => simp [tableOf, table, hd e' he, hm]
  funext r
  cases r
  case pgdir e' =>
    by_cases he : e' = e
    case pos => simp [target, he]
    case neg =>
      rw [update_of_ne (by simpa using he)]
      exact hd e' he
  case kpde => simp [target, table, hm, hk]
  case pde e' i =>
    rw [update_of_ne (by simp)]
    by_cases hi : i.val < pdxUtop
    case neg => simp [target, hi]
    case pos => rw [target_pde hi, target_pde hi, ht hi]
  case pte e' i j =>
    rw [update_of_ne (by simp)]
    by_cases hi : i.val < pdxUtop
    case neg => simp [target, hi]
    case pos => simp [target_pte hi, pteOf, ht hi, hm]

end Kernel

end Jos
