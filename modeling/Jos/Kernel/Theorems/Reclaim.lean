import Jos.Kernel.Theorems.Protect
import Jos.Kernel.Theorems.Blank

-- What becomes free with an environment, and what stays.

open Function RefCount Program

namespace Jos

open Kernel

variable {M F : Set Ppn} {l : List Ppn} {s s' s₀ : Kernel} {c : CpuIx} {e e' : EnvIx} {i j : Ptx} {pd pd' p q : Ppn}
  {va : Word} {r : Ref}

-- The environment to which a reference belongs.
def Ref.env : Ref → Option EnvIx
  | .pte e _ _ => some e
  | .pde e _   => some e
  | .kpde _    => none
  | .pgdir e   => some e

-- The pages that belong to the environment alone: its page directory, its page tables, and the pages that only it maps.
def Kernel.OwnPage (s : Kernel) (e : EnvIx) (p : Ppn) : Prop :=
  s.OwnTable e p ∨
    ((∃ i j, s.target (.pte e i j) = some p) ∧ ∀ e' i j, s.target (.pte e' i j) = some p → e' = e)

namespace PageInv

variable (h : PageInv M F l s)

section Own

include h in
theorem ownTable_pgdir (ho : s.OwnTable e q) (hd : s.pgdirOf e' = some q) : e' = e := by
  have hr : s.target (.pgdir e') = some q := hd
  obtain ho | ⟨i, ho⟩ := ho
  case inl => exact h.pgdir_inj hd ho
  case inr => simpa using h.unique (by trivial) ho hr

include h in
theorem ownTable_table (ho : s.OwnTable e q) (ht : s.target (.pde e' i) = some q) : e' = e := by
  obtain ho | ⟨i', ho⟩ := ho
  case inl => exact absurd rfl (h.table_ne_pgdir ht ho)
  case inr =>
    have he := h.unique (by trivial) ho ht
    simp only [Ref.pde.injEq] at he
    exact he.1.symm

include h in
theorem not_ownTable_kern (ht : s.target (.kpde i) = some q) : ¬s.OwnTable e q := by
  rintro (ho | ⟨i', ho⟩)
  case inl =>
    have hr : s.target (.pgdir e) = some q := ho
    simpa using h.unique (by trivial) ht hr
  case inr => simpa using h.unique (by trivial) ht ho

include h in
theorem not_ownTable_kernPgdir : ¬s.OwnTable e s.kernPgdir := by
  rintro (ho | ⟨i', ho⟩)
  case inl => exact h.pgdir_ne_kern ho rfl
  case inr => exact h.table_ne_kern ho rfl

end Own

-- The pages whose references all belong to the environment.
include h in
theorem ownPage_iff : s.OwnPage e p ↔ (∃ r, s.target r = some p) ∧ ∀ r, s.target r = some p → r.env = some e := by
  constructor
  case mp =>
    rintro (ho | ⟨⟨i, j, hr⟩, hall⟩)
    case inl =>
      obtain hd | ⟨i, ht⟩ := ho
      case inl =>
        have hr : s.target (.pgdir e) = some p := hd
        refine ⟨⟨_, hr⟩, fun r hr' => ?_⟩
        rw [← h.unique (by trivial) hr hr']
        rfl
      case inr =>
        refine ⟨⟨_, ht⟩, fun r hr' => ?_⟩
        rw [← h.unique (by trivial) ht hr']
        rfl
    case inr =>
      refine ⟨⟨_, hr⟩, fun r hr' => ?_⟩
      cases r
      case pte e' i' j' => rw [hall e' i' j' hr']; rfl
      all_goals
        have he := h.unique (by trivial) hr' hr
        cases he
  case mpr =>
    rintro ⟨⟨r, hr⟩, hall⟩
    have he := hall r hr
    cases r
    case kpde => cases he
    case pgdir e' =>
      cases he
      exact .inl <| .inl hr
    case pde e' i =>
      cases he
      exact .inl <| .inr ⟨i, hr⟩
    case pte e' i j =>
      cases he
      exact .inr ⟨⟨i, j, hr⟩, fun e' i' j' hr' => Option.some.inj (hall _ hr')⟩

end PageInv

namespace Kernel

-- The environment is gone, and only its page directory and its page tables have been written.
structure Freed (e : EnvIx) (s s' : Kernel) : Prop where
  gone  : s'.pgdirOf e = none
  other : ∀ {e'}, e' ≠ e → s'.pgdirOf e' = s.pgdirOf e'
  kern  : s'.kernPgdir = s.kernPgdir
  mem   : ∀ {q}, ¬s.OwnTable e q → s'.mem q = s.mem q

namespace Freed

variable (hf : Freed e s s') (h : PageInv M F l s)

-- The page directories of the others are not touched.
include hf h in
theorem mem_pgdir (hne : e' ≠ e) (hd : s.pgdirOf e' = some pd) : s'.mem pd = s.mem pd :=
  hf.mem fun ho => hne (h.ownTable_pgdir ho hd)

include hf h in
theorem tableOf (hne : e' ≠ e) : s'.tableOf e' i = s.tableOf e' i := by
  simp only [Kernel.tableOf, hf.other hne]
  cases hd : s.pgdirOf e'
  case none => rfl
  case some pd => simp [Kernel.table, hf.mem_pgdir h hne hd]

include hf h in
theorem pteOf (hne : e' ≠ e) (hi : i.val < pdxUtop) : s'.pteOf e' i j = s.pteOf e' i j := by
  cases ht : s.tableOf e' i
  case none => rw [pteOf_no_table ht, pteOf_no_table (by rw [hf.tableOf h hne, ht])]
  case some t =>
    rw [pteOf_table ht, pteOf_table (by rw [hf.tableOf h hne, ht])]
    rw [← target_pde hi] at ht
    rw [hf.mem fun ho => hne (h.ownTable_table ho ht)]

-- The references of the environment are gone, and all others are the same.
include hf h in
theorem target : s'.target r = if r.env = some e then none else s.target r := by
  cases r
  case kpde i => simp [Ref.env, Kernel.target, Kernel.table, hf.kern, hf.mem h.not_ownTable_kernPgdir]
  case pgdir e' =>
    by_cases hc : e' = e
    case pos => simp [Ref.env, Kernel.target, hc, hf.gone]
    case neg => simp [Ref.env, Kernel.target, hc, hf.other hc]
  case pde e' i =>
    by_cases hc : e' = e
    case pos => simp [Ref.env, Kernel.target, hc, Kernel.tableOf, hf.gone]
    case neg => simp [Ref.env, Kernel.target, hc, hf.tableOf h hc]
  case pte e' i j =>
    by_cases hc : e' = e
    case pos => simp [Ref.env, Kernel.target, hc, Kernel.pteOf, Kernel.tableOf, hf.gone]
    case neg =>
      by_cases hi : i.val < pdxUtop
      case pos => simp [Ref.env, Kernel.target, hc, hi, hf.pteOf h hc hi]
      case neg => simp [Kernel.target, hi]

include hf h in
theorem refs_eq_zero : s'.refs p = 0 ↔ ∀ r, s.target r = some p → r.env = some e := by
  rw [Kernel.refs, refs_eq_zero_iff]
  refine forall_congr' fun r => ?_
  rw [hf.target h]
  split
  case isTrue he => simp [he]
  case isFalse he => simp [he]

-- The free list holds what it held before, and the pages of the environment.
include hf h in
theorem mem_free {l' : List Ppn} (h' : PageInv M F l' s') : p ∈ l' ↔ p ∈ l ∨ s.OwnPage e p := by
  have hz' : RefCount.refs s'.target p = 0 ↔ ∀ r, s.target r = some p → r.env = some e := hf.refs_eq_zero h
  rw [h'.pool.mem_free, h.pool.mem_free, hz', h.ownPage_iff]
  constructor
  case mp =>
    rintro ⟨hm, hall, hF⟩
    by_cases hz : RefCount.refs s.target p = 0
    case pos => exact .inl ⟨hm, hz, hF⟩
    case neg => exact .inr ⟨refs_pos_iff.mp (Nat.pos_of_ne_zero hz), hall⟩
  case mpr =>
    rintro (⟨hm, hz, hF⟩ | ⟨⟨r, hr⟩, hall⟩)
    case inl => exact ⟨hm, fun r hr => absurd hr (refs_eq_zero_iff.mp hz r), hF⟩
    case inr =>
      refine ⟨(h.owned hr).resolve_right fun hk => ?_, hall, fun hf => h.pool.not_ref_of_flight hf hr⟩
      have he := hall r hr
      rw [hk.1] at he
      cases he

variable (hne : e' ≠ e) (hd : s.pgdirOf e' = some pd)

-- The entries for the user part of another environment.
include hf h hne hd in
theorem entry (hi : i.val < pdxUtop) : s'.entry pd i j = s.entry pd i j := by
  have hp := hf.pteOf h (j := j) hne hi
  rwa [pteOf_eq hd, pteOf_eq (by rw [hf.other hne, hd])] at hp

-- The entries for the kernel's part, and for the window onto the page tables.
include hf h hne hd in
theorem entry_kern (hk : KernHalf s₀ s) (hi : pdxUtop ≤ i.val) : s'.entry pd i j = s.entry pd i j := by
  have hm := hf.mem_pgdir h hne hd
  simp only [Kernel.entry, Kernel.table, hm]
  cases ht : entryPage (s.mem pd i)
  case none => rfl
  case some t =>
    have hdir := hk.dir hd hi
    by_cases hx : i = pdx uvpt
    case pos =>
      rw [if_pos hx] at hdir
      rw [hdir, entryPage_self] at ht
      cases ht
      simp [hm]
    case neg =>
      rw [if_neg hx] at hdir
      have hkt : s.target (.kpde i) = some t := by
        rw [← ht, hdir]
        rfl
      simp [hf.mem (h.not_ownTable_kern hkt)]

end Freed

end Kernel

theorem PageInv.freed (h : PageInv M F l s) (hd : s.pgdirOf e = some pd) : Freed e s (s.freeEnv c e pd) where
  gone := by simp [pgdirOf, h.envs_freeEnv hd]
  other hne := by simp [pgdirOf, h.envs_freeEnv hd, hne]
  kern := by
    obtain ⟨-, hs, -⟩ := h.cleared (c := c) hd
    rw [Kernel.freeEnv, SameEnvs.dropRef.kernPgdir, kernPgdir_retire, hs.same.kernPgdir, sameAlloc_leave.kernPgdir]
  mem hq := h.mem_freeEnv_own hd hq

-- `env_free` gives back the page directory and the page tables of the environment, and the pages that only it maps; the
-- counters are those of the remaining mappings, and the memory of all others is the same.
theorem env_free_exact (h : PageInv M F l s) (hd : s.pgdirOf e = some pd) :
    ∃ s' l', (envFree c e).run s = .ok () s' ∧ s'.FreeList l' ∧ l'.Nodup ∧
      (∀ p, p ∈ l' ↔ p ∈ l ∨ s.OwnPage e p) ∧
      (∀ r, s'.target r = if r.env = some e then none else s.target r) ∧
      (∀ p ∈ M, (s'.pages p).ref.toNat = s'.refs p) ∧
      ∀ e' pd', e' ≠ e → s.pgdirOf e' = some pd' → s'.pgdirOf e' = some pd' ∧ s'.mem pd' = s.mem pd' ∧
        (∀ i j, i.val < pdxUtop ∨ (∃ s₀, KernHalf s₀ s) → s'.entry pd' i j = s.entry pd' i j) ∧
        ∀ i j p, s.target (.pte e' i j) = some p → s'.mem p = s.mem p := by
  obtain ⟨l', h'⟩ := h.freeEnv (c := c) hd
  have hf := h.freed (c := c) hd
  refine ⟨_, l', h.envFree_run hd, h'.chain, h'.pool.nodup, fun p => hf.mem_free h h', fun r => hf.target h,
    fun p hp => h'.ref_eq hp, fun e' pd' hne hd' => ⟨?_, hf.mem_pgdir h hne hd', fun i j hi => ?_, fun i j p hr => ?_⟩⟩
  case refine_1 => rw [hf.other hne, hd']
  case refine_2 =>
    by_cases hu : i.val < pdxUtop
    case pos => exact hf.entry h hne hd' hu
    case neg =>
      obtain ⟨s₀, hk⟩ := hi.resolve_left hu
      exact hf.entry_kern h hne hd' hk (Nat.not_lt.mp hu)
  case refine_3 => exact hf.mem fun ho => h.page_not_table hr ho.table

-- One of two environments is freed.
theorem env_free_exact_two :
    ∃ s' l', (envFree 0 1).run (twoEnvs 8) = .ok () s' ∧ s'.FreeList l' ∧ (2#20 ∈ l') := by
  obtain ⟨l, L, h, -⟩ := twoEnvs_inv (n := 8) (by decide) (by decide)
  have hd : (twoEnvs 8).pgdirOf 1 = some 2#20 := by decide +kernel
  obtain ⟨s', l', hr, hl, -, hm, -⟩ := env_free_exact (c := 0) h hd
  exact ⟨s', l', hr, hl, (hm _).mpr (.inr (.inl (.inl hd)))⟩

end Jos
