import Jos.Kernel.Theorems.Protect
import Jos.Kernel.Theorems.Memory
import Jos.Kernel.Theorems.Counts
import Jos.Kernel.Theorems.Reclaim
import Jos.Library.Cow

-- The pages of all environments as keys to physical pages, and what system calls do to this map.

open Function Program

namespace Jos

open Kernel Cow

variable {M F F' : Set Ppn} {l : List Ppn} {L : List EnvIx} {s s' s₁ : Kernel} {c : CpuIx} {a e e' : EnvIx}
  {i i' j j' : Ptx} {pd p pp q : Ppn} {va w perm : Word} {envid : EnvId} {r : Word} {b : BitVec 8} {k : Call} {acc : Access}

-- A page of an environment.
abbrev PageIx :=
  EnvIx × Ptx × Ptx

def pageIx (e : EnvIx) (va : Word) : PageIx :=
  (e, pdx va, ptx va)

-- What a walk finds below `UTOP` is a page of the environment.
theorem target_of_translate (hd : s.pgdirOf a = some pd) (hv : va < utop) (ht : s.translate pd va acc = some p) :
    s.target (.pte a (pdx va) (ptx va)) = some p := by
  rw [target_pte (pdx_lt hv), pteOf_eq hd]
  simp only [Kernel.translate] at ht
  split at ht
  case isTrue => exact ht
  case isFalse => cases ht

namespace Kernel

-- The pages below `UTOP` and their contents.
def frames (s : Kernel) : Cow.Space PageIx Ppn (Ptx → Word) where
  map x := (s.target (.pte x.1 x.2.1 x.2.2)).map fun p => ⟨p, has (s.pteOf x.1 x.2.1 x.2.2) pteW⟩
  mem := s.mem

theorem frames_map (hi : i.val < pdxUtop) :
    s.frames.map (e, i, j) = (entryPage (s.pteOf e i j)).map fun p => ⟨p, has (s.pteOf e i j) pteW⟩ := by
  simp only [frames, target_pte hi]

theorem frames_map_none (hi : ¬i.val < pdxUtop) : s.frames.map (e, i, j) = none := by
  simp [frames, target, hi]

-- The map is known by the page table entries.
theorem frames_map_congr (h : i.val < pdxUtop → s'.pteOf e i j = s.pteOf e i j) :
    s'.frames.map (e, i, j) = s.frames.map (e, i, j) := by
  by_cases hi : i.val < pdxUtop
  case pos => rw [frames_map hi, frames_map hi, h hi]
  case neg => rw [frames_map_none hi, frames_map_none hi]

theorem target_of_frames {x : PageIx} {y : Entry Ppn} (h : s.frames.map x = some y) :
    s.target (.pte x.1 x.2.1 x.2.2) = some y.frame ∧ y.write = has (s.pteOf x.1 x.2.1 x.2.2) pteW := by
  obtain ⟨p, hp, rfl⟩ := Option.map_eq_some_iff.mp h
  exact ⟨hp, rfl⟩

theorem frames_of_target (h : s.target (.pte e i j) = some p) :
    s.frames.map (e, i, j) = some ⟨p, has (s.pteOf e i j) pteW⟩ := by
  simp [frames, h]

-- Writing to pages that are no page tables leaves the map alone.
theorem frames_map_of_mem (hd : s'.envs = s.envs) (hm : ∀ q, s.Table q → s'.mem q = s.mem q) :
    s'.frames.map = s.frames.map := by
  have hdir : s'.pgdirOf = s.pgdirOf := by
    funext e
    simp only [pgdirOf, hd]
  funext k
  obtain ⟨e, i, j⟩ := k
  refine frames_map_congr fun hi => ?_
  have ht : s'.tableOf e i = s.tableOf e i := by
    simp only [tableOf, hdir]
    cases hp : s.pgdirOf e
    case none => rfl
    case some pd => simp [table, hm pd (.inr <| .inl ⟨e, hp⟩)]
  simp only [pteOf, ht]
  cases hp : s.tableOf e i
  case none => rfl
  case some t => simp [hm t (.inr <| .inr ⟨e, i, by rw [target_pde hi, hp]⟩)]

theorem SameMem.frames (h : SameMem s s') : s'.frames = s.frames := by
  simp only [Kernel.frames, h.target, h.pteOf, h.mem]

end Kernel

theorem has_entry : has (page2pa p ||| perm ||| pteP) pteW = has perm pteW := by
  have hz : page2pa p &&& pteW = 0#32 := by
    ext i hi
    by_cases hlt : i < 12
    case pos => simp [page2pa, hlt]
    case neg =>
      have hw : pteW.getLsbD i = false := FlagsOnly.getLsbD (show FlagsOnly pteW by decide) (by omega) hi
      rw [BitVec.getLsbD_eq_getElem hi] at hw
      simp [hw]
  have hp : has (page2pa p) pteW = false := by rw [has, hz]; rfl
  have hb : has pteP pteW = false := by decide
  rw [has_or, has_or, hp, hb, Bool.false_or, Bool.or_false]

section Remaps

variable (h : PageInv M F l s)

-- A page in use is no page table and is not free.
include h in
theorem PageInv.frames_mem {x : PageIx} {y : Entry Ppn} (hx : s.frames.map x = some y) : ¬s.Table y.frame ∧ y.frame ∉ l :=
  ⟨h.page_not_table (target_of_frames hx).1, h.pool.not_free_of_ref (target_of_frames hx).1⟩

-- `page_insert` maps one page anew.
include h in
theorem PageInv.mapPage_remaps (hd : s.pgdirOf e = some pd) (hi : (pdx va).val < pdxUtop) (hn : ¬s.NoTable pd (pdx va))
    (hp : FlagsOnly perm) (hx : Held F F' s pp) :
    Cow.Space.Remaps (pageIx e va) (some ⟨pp, has perm pteW⟩) s.frames (s.mapPage c pd pp va perm).frames where
  map := by
    funext ⟨e', i', j'⟩
    by_cases hk : (e', i', j') = pageIx e va
    case pos =>
      rw [hk, Function.update_self, pageIx, frames_map hi, h.pteOf_mapPage hd hi hn hx hi, if_pos ⟨rfl, rfl, rfl⟩,
        entryPage_insert hp, Option.map_some, has_entry]
    case neg =>
      rw [Function.update_of_ne hk]
      refine frames_map_congr fun hi' => ?_
      rw [h.pteOf_mapPage hd hi hn hx hi', if_neg fun hc => hk (by rw [hc.1, hc.2.1, hc.2.2, pageIx])]
  keep _ _ hy := h.mem_mapPage hd hi hn (h.frames_mem hy).1 (h.frames_mem hy).2

-- `page_remove` takes one page out of the map.
include h in
theorem PageInv.unmapPage_remaps (hd : s.pgdirOf e = some pd) (hi : (pdx va).val < pdxUtop) :
    Cow.Space.Remaps (pageIx e va) none s.frames (s.unmapPage c pd va).frames where
  map := by
    funext ⟨e', i', j'⟩
    by_cases hk : (e', i', j') = pageIx e va
    case pos =>
      rw [hk, Function.update_self]
      simp [Kernel.frames, pageIx, h.target_unmapPage hd hi]
    case neg =>
      rw [Function.update_of_ne hk]
      refine frames_map_congr fun hi' => ?_
      rw [h.pteOf_unmapPage hd hi hi' fun hc => hk (by rw [hc.1, hc.2.1, hc.2.2, pageIx])]
  keep _ _ hy := mem_unmapPage fun ht => (h.frames_mem hy).1 <| .inr <| .inr
    ⟨e, pdx va, by rw [target_pde hi, tableOf_eq hd, ht]⟩

-- A page that has just been taken off the free list is not in use.
include h in
theorem PageInv.flight_unused (hF : pp ∈ F) : s.frames.Unused pp := by
  intro x y hx he
  exact h.pool.not_ref_of_flight hF (he ▸ (target_of_frames hx).1)

end Remaps

section Calls

variable {envid₀ : EnvId} {va₀ : Word} (h : PageInv M ∅ l s) (ha : s.cur c = some a)
  (hl : (s.envs a).status ≠ .free)

-- What `sys_page_alloc` does if it succeeds.
structure Kernel.Allocs (c : CpuIx) (a : EnvIx) (envid : EnvId) (va perm : Word) (s : Kernel) (e : EnvIx) (pd pp : Ppn)
    (s' : Kernel) : Prop where
  env   : s.findEnv a envid true = some e
  dir   : s.pgdirOf e = some pd
  below : va < utop
  page  : s.pageFreeList = some pp
  table : ¬(s.popFree pp).NoTable pd (pdx va)
  eq    : s' = (s.popFree pp).mapPage c pd pp va perm

-- What `sys_page_map` does if it succeeds.
structure Kernel.Shares (c : CpuIx) (a : EnvIx) (envid₀ : EnvId) (va₀ : Word) (envid : EnvId) (va perm : Word) (s : Kernel)
    (e₀ e : EnvIx) (pd pp : Ppn) (s' : Kernel) : Prop where
  env₀  : s.findEnv a envid₀ true = some e₀
  env   : s.findEnv a envid true = some e
  dir   : s.pgdirOf e = some pd
  below : va < utop
  page  : s.target (.pte e₀ (pdx va₀) (ptx va₀)) = some pp
  table : ¬s.NoTable pd (pdx va)
  eq    : s' = s.mapPage c pd pp va perm

include h ha in
theorem sysPageAlloc_run (he : s.findEnv a envid true = some e) (hd : s.pgdirOf e = some pd) (hv : badVa va = false)
    (hp : permOk perm = true) (hf : s.pageFreeList = some pp) (hn : ¬(s.popFree pp).NoTable pd (pdx va)) :
    (sysPageAlloc c envid va perm).run s = .ok 0#32 ((s.popFree pp).mapPage c pd pp va perm) := by
  obtain ⟨l', rfl⟩ := h.free_of_head hf
  have hd' : (s.popFree pp).pgdirOf e = some pd := hd
  simp [sysPageAlloc, envid2env_run ha, he, hv, hp, pageAlloc_some hf, envPgdir_run hd',
    h.popFree.pageInsert_run hd' (pdx_lt (lt_utop_of_badVa hv)) hn]

include h ha hl in
theorem sysPageAlloc_cases (hr : (sysPageAlloc c envid va perm).run s = .ok r s') :
    (r.slt 0#32 = true ∧ s' = s) ∨ (r = 0#32 ∧ ∃ e pd pp, s.Allocs c a envid va perm e pd pp s') := by
  have hfail : ∀ {w}, w.slt 0#32 = true → (sysPageAlloc c envid va perm).run s = .ok w s →
      (r.slt 0#32 = true ∧ s' = s) ∨ (r = 0#32 ∧ ∃ e pd pp, s.Allocs c a envid va perm e pd pp s') := by
    intro w hw hs
    cases hr.symm.trans hs
    exact .inl ⟨hw, rfl⟩
  cases he : s.findEnv a envid true
  case none => exact hfail (w := ebadenv) (by decide) (by simp [sysPageAlloc, envid2env_run ha, he])
  case some e =>
    obtain ⟨pd, hd⟩ := h.pgdirOf_live (findEnv_live hl he)
    cases hv : badVa va
    case true => exact hfail (w := einval) (by decide) (by simp [sysPageAlloc, envid2env_run ha, he, hv])
    case false =>
      cases hp : permOk perm
      case false => exact hfail (w := einval) (by decide) (by simp [sysPageAlloc, envid2env_run ha, he, hv, hp])
      case true =>
        cases hf : s.pageFreeList
        case none =>
          exact hfail (w := enomem) (by decide) (by simp [sysPageAlloc, envid2env_run ha, he, hv, hp, pageAlloc_none hf])
        case some pp =>
          obtain ⟨l', rfl⟩ := h.free_of_head hf
          have hd' : (s.popFree pp).pgdirOf e = some pd := hd
          have hru := envPgdir_run hd'
          have hneg : BitVec.slt enomem 0#32 = true := by decide
          by_cases hn : (s.popFree pp).NoTable pd (pdx va)
          case pos =>
            have hpf := pageFree_run (s := s.popFree pp) (p := pp) (by simp [Kernel.popFree, setPage]) <| by
              have := h.pool.count_free (a := pp) (by simp)
              simpa [Kernel.popFree, setPage] using BitVec.eq_of_toNat_eq this
            rw [pushFree_popFree hf] at hpf
            refine hfail hneg ?_
            simp [sysPageAlloc, envid2env_run ha, he, hv, hp, pageAlloc_some hf, hru, PageInv.pageInsert_nomem hn, hpf, hneg]
          case neg =>
            cases hr.symm.trans (sysPageAlloc_run h ha he hd hv hp hf hn)
            exact .inr ⟨rfl, e, pd, pp, he, hd, lt_utop_of_badVa hv, hf, hn, rfl⟩

include h ha hl in
theorem sysPageMap_cases (hr : (sysPageMap c envid₀ va₀ envid va perm).run s = .ok r s') :
    (r.slt 0#32 = true ∧ s' = s) ∨ (r = 0#32 ∧ ∃ e₀ e pd pp, s.Shares c a envid₀ va₀ envid va perm e₀ e pd pp s') := by
  have hfail : ∀ {w}, w.slt 0#32 = true → (sysPageMap c envid₀ va₀ envid va perm).run s = .ok w s →
      (r.slt 0#32 = true ∧ s' = s) ∨ (r = 0#32 ∧ ∃ e₀ e pd pp, s.Shares c a envid₀ va₀ envid va perm e₀ e pd pp s') := by
    intro w hw hs
    cases hr.symm.trans hs
    exact .inl ⟨hw, rfl⟩
  cases he₀ : s.findEnv a envid₀ true
  case none => exact hfail (w := ebadenv) (by decide) (by simp [sysPageMap, envid2env_run ha, he₀])
  case some e₀ =>
    cases he : s.findEnv a envid true
    case none => exact hfail (w := ebadenv) (by decide) (by simp [sysPageMap, envid2env_run ha, he₀, he])
    case some e =>
      obtain ⟨pd₀, hd₀⟩ := h.pgdirOf_live (findEnv_live hl he₀)
      obtain ⟨pd, hd⟩ := h.pgdirOf_live (findEnv_live hl he)
      cases hv₀ : badVa va₀
      case true => exact hfail (w := einval) (by decide) (by simp [sysPageMap, envid2env_run ha, he₀, he, hv₀])
      case false =>
        cases hv : badVa va
        case true => exact hfail (w := einval) (by decide) (by simp [sysPageMap, envid2env_run ha, he₀, he, hv₀, hv])
        case false =>
          cases hp : permOk perm
          case false => exact hfail (w := einval) (by decide) (by simp [sysPageMap, envid2env_run ha, he₀, he, hv₀, hv, hp])
          case true =>
            obtain hlk | ⟨pp, pt, hlk, ht, hpt⟩ := pageLookup_cases h hd₀ (lt_utop_of_badVa hv₀)
            case inl =>
              exact hfail (w := einval) (by decide)
                (by simp [sysPageMap, envid2env_run ha, he₀, he, hv₀, hv, hp, envPgdir_run hd₀, hlk])
            case inr =>
              have hm : (mapShared c e pp pt va perm).run s = .ok r s' := by
                simpa [sysPageMap, envid2env_run ha, he₀, he, hv₀, hv, hp, envPgdir_run hd₀, hlk] using hr
              obtain ⟨w, hs, hneg⟩ | ⟨hs, -, hn⟩ := mapShared_run (c := c) pp perm h hpt hd (lt_utop_of_badVa hv)
              case inl =>
                cases hm.symm.trans hs
                exact .inl ⟨hneg, rfl⟩
              case inr =>
                cases hm.symm.trans hs
                exact .inr ⟨rfl, e₀, e, pd, pp, he₀, he, hd, lt_utop_of_badVa hv, ht, hn, rfl⟩

include h ha in
theorem sysPageUnmap_run (he : s.findEnv a envid true = some e) (hd : s.pgdirOf e = some pd) (hv : badVa va = false) :
    (sysPageUnmap c envid va).run s = .ok 0#32 (s.unmapPage c pd va) := by
  simp [sysPageUnmap, envid2env_run ha, he, hv, envPgdir_run hd, h.pageRemove_run hd (pdx_lt (lt_utop_of_badVa hv))]

include h ha hl in
theorem sysPageUnmap_cases (hr : (sysPageUnmap c envid va).run s = .ok r s') :
    (r.slt 0#32 = true ∧ s' = s) ∨ (r = 0#32 ∧ ∃ e pd, s.findEnv a envid true = some e ∧ s.pgdirOf e = some pd ∧
      va < utop ∧ s' = s.unmapPage c pd va) := by
  cases he : s.findEnv a envid true
  case none =>
    simp only [sysPageUnmap, run_bind, envid2env_run ha, he, run_pure, EStateM.Result.ok.injEq] at hr
    exact .inl ⟨hr.1 ▸ by decide, hr.2.symm⟩
  case some e =>
    obtain ⟨pd, hd⟩ := h.pgdirOf_live (findEnv_live hl he)
    cases hv : badVa va
    case true =>
      simp only [sysPageUnmap, run_bind, envid2env_run ha, he, hv, if_true, run_pure, EStateM.Result.ok.injEq] at hr
      exact .inl ⟨hr.1 ▸ by decide, hr.2.symm⟩
    case false =>
      cases hr.symm.trans (sysPageUnmap_run h ha he hd hv)
      exact .inr ⟨rfl, e, pd, rfl, hd, lt_utop_of_badVa hv, rfl⟩

include h in
theorem Kernel.Allocs.remaps (hx : s.Allocs c a envid va perm e pd pp s') (hp : FlagsOnly perm) :
    Cow.Space.Remaps (pageIx e va) (some ⟨pp, has perm pteW⟩) s.frames s'.frames ∧ s.frames.Unused pp := by
  obtain ⟨l', rfl⟩ := h.free_of_head hx.page
  have hf : (s.popFree pp).frames = s.frames := rfl
  have hu : (s.popFree pp).frames.Unused pp := h.popFree.flight_unused (by simp)
  refine ⟨?_, hf ▸ hu⟩
  have hh : PageInv.Held (insert pp ∅) ∅ (s.popFree pp) pp := .flight rfl (Set.notMem_empty pp)
  rw [hx.eq, ← hf]
  exact h.popFree.mapPage_remaps hx.dir (pdx_lt hx.below) hx.table hp hh

-- The new page is mapped once.
include h in
theorem Kernel.Allocs.refs (hx : s.Allocs c a envid va perm e pd pp s') (hp : FlagsOnly perm) : s'.refs pp = 1 := by
  obtain ⟨l', rfl⟩ := h.free_of_head hx.page
  have hz : (s.popFree pp).refs pp = 0 := (h.popFree.pool.flight (Set.mem_insert pp ∅)).2
  have hf : pp ∉ l' := h.popFree.pool.not_free_of_flight (Set.mem_insert pp ∅)
  have hh : PageInv.Held (insert pp ∅) ∅ (s.popFree pp) pp := .flight rfl (Set.notMem_empty pp)
  have hr := h.popFree.refs_mapPage (c := c) hx.dir (pdx_lt hx.below) hx.table hp hh hf
  rw [if_neg (RefCount.refs_eq_zero_iff.mp hz _), hz, Nat.add_zero, Nat.zero_add] at hr
  rw [hx.eq, hr]

include h in
theorem Kernel.Shares.remaps {e₀ : EnvIx} (hx : s.Shares c a envid₀ va₀ envid va perm e₀ e pd pp s') (hp : FlagsOnly perm) :
    Cow.Space.Remaps (pageIx e va) (some ⟨pp, has perm pteW⟩) s.frames s'.frames := by
  rw [hx.eq]
  exact h.mapPage_remaps hx.dir (pdx_lt hx.below) hx.table hp (.mapped rfl hx.page)

end Calls

end Jos
