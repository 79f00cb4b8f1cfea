import Jos.Kernel.Theorems.Sched
import Jos.Kernel.Syscall

-- What a system call can do to memory, in a state that satisfies the allocator's invariant.

open Function RefCount Program

namespace Jos

open Kernel

variable {M F F' : Set Ppn} {l l' : List Ppn} {L : List EnvIx} {s s' : Kernel} {c : CpuIx}
  {e e' a : EnvIx} {i i' j j' : Ptx} {pd t p q pp : Ppn} {va perm w : Word} {r : Ref} {envid : EnvId}
  {check : Bool} {k : Call}

theorem pdx_lt (h : va < utop) : (pdx va).val < pdxUtop := by
  have hu : utop.toNat = 955 * 2 ^ 22 := rfl
  have hv : va.toNat < utop.toNat := h
  simp only [pdx, BitVec.toNat_ushiftRight, Nat.shiftRight_eq_div_pow, pdxUtop]
  omega

theorem lt_utop_of_badVa (h : badVa va = false) : va < utop := by
  simp only [badVa, Bool.or_eq_false_iff, decide_eq_false_iff_not] at h
  simpa using h.1

namespace Kernel

-- The environment `envid2env` finds for the caller `a`.
def findEnv (s : Kernel) (a : EnvIx) (envid : EnvId) (checkperm : Bool) : Option EnvIx :=
  if envid = 0#32 then
    some a
  else if (s.envs (envx envid)).status = .free ∨ (s.envs (envx envid)).id ≠ envid then
    none
  else if checkperm ∧ a ≠ envx envid ∧ (s.envs (envx envid)).parentId ≠ (s.envs a).id then
    none
  else
    some (envx envid)

-- `a` may change the environment `e`.
def Authority (s : Kernel) (a e : EnvIx) : Prop :=
  e = a ∨ (s.envs e).parentId = (s.envs a).id

instance : Decidable (s.Authority a e) :=
  inferInstanceAs (Decidable (_ ∨ _))

-- Only `user_mem_check_addr` may differ.
def UpToAddr (s s' : Kernel) : Prop :=
  ∃ x, s' = { s with userMemCheckAddr := x }

theorem UpToAddr.refl (s : Kernel) : UpToAddr s s :=
  ⟨s.userMemCheckAddr, rfl⟩

theorem UpToAddr.sameMem (h : UpToAddr s s') : SameMem s s' := by
  obtain ⟨x, rfl⟩ := h
  exact ⟨⟨rfl, rfl, rfl, rfl⟩, rfl, fun _ => rfl, fun _ => rfl, fun _ => Iff.rfl, rfl⟩

instance : Std.Refl UpToAddr :=
  ⟨.refl⟩

instance : IsTrans Kernel UpToAddr where
  trans := by
    rintro s _ _ ⟨x, rfl⟩ ⟨y, rfl⟩
    exact ⟨y, rfl⟩

-- The state after a successful `sys_exofork`.
def forkChild (s : Kernel) (a e : EnvIx) (p : Ppn) : Kernel :=
  let s' := (s.newEnv e p (s.envs a).id).setEnv e fun v => { v with status := .notRunnable }
  s'.setEnv e fun v => { v with tf := { (s'.envs a).tf with regs.eax := 0#32 } }

theorem sameMem_forkChild : SameMem (s.newEnv e p (s.envs a).id) (s.forkChild a e p) := by
  simp only [forkChild]
  refine SameMem.trans (.setEnv rfl rfl ?_) (.setEnv rfl rfl Iff.rfl)
  simp [newEnv, setEnv, freshEnv]

-- The page the call `k` of `a` allocates or looks up.
def source (s : Kernel) (a : EnvIx) (k : Call) : Option Ppn :=
  match k.sysno with
  | some .pageAlloc  => s.pageFreeList
  | some .pageMap    => (s.findEnv a k.a₁ true).bind fun e => s.target (.pte e (pdx k.a₂) (ptx k.a₂))
  | some .ipcTrySend => s.target (.pte a (pdx k.a₃) (ptx k.a₃))
  | _                => none

-- What the system call `k` of the environment `a` does to memory.
inductive Effect (c : CpuIx) (a : EnvIx) (k : Call) (s : Kernel) : Kernel → Prop
  | skip : Effect c a k s s
  -- The head of the free list is mapped.
  | alloc {e : EnvIx} {pd pp : Ppn} (hk : k.sysno = some .pageAlloc) (he : s.findEnv a k.a₁ true = some e)
    (hd : s.pgdirOf e = some pd) (hv : badVa k.a₂ = false) (hp : permOk k.a₃ = true)
    (hl : s.pageFreeList = some pp) (hn : ¬(s.popFree pp).NoTable pd (pdx k.a₂)) :
    Effect c a k s ((s.popFree pp).mapPage c pd pp k.a₂ k.a₃)
  -- A page that is mapped in `e₀` is mapped in `e`.
  | map {e₀ e : EnvIx} {pd pp : Ppn} (hk : k.sysno = some .pageMap) (he₀ : s.findEnv a k.a₁ true = some e₀)
    (he : s.findEnv a k.a₃ true = some e) (hd : s.pgdirOf e = some pd) (hv₀ : badVa k.a₂ = false)
    (hv : badVa k.a₄ = false) (hp : permOk k.a₅ = true)
    (hr : s.target (.pte e₀ (pdx k.a₂) (ptx k.a₂)) = some pp)
    (hw : has k.a₅ pteW = true → has (s.pteOf e₀ (pdx k.a₂) (ptx k.a₂)) pteW = true)
    (hn : ¬s.NoTable pd (pdx k.a₄)) : Effect c a k s (s.mapPage c pd pp k.a₄ k.a₅)
  -- A page of the caller is mapped where the receiver asks for it.
  | send {e : EnvIx} {pd pp : Ppn} (hk : k.sysno = some .ipcTrySend) (he : s.findEnv a k.a₁ false = some e)
    (hi : (s.envs e).ipcRecving = true) (hd : s.pgdirOf e = some pd) (hv₀ : k.a₃ < utop)
    (hv : (s.envs e).ipcDstva < utop) (hp : permOk k.a₄ = true)
    (hr : s.target (.pte a (pdx k.a₃) (ptx k.a₃)) = some pp)
    (hw : has k.a₄ pteW = true → has (s.pteOf a (pdx k.a₃) (ptx k.a₃)) pteW = true)
    (hn : ¬s.NoTable pd (pdx (s.envs e).ipcDstva)) :
    Effect c a k s (s.mapPage c pd pp (s.envs e).ipcDstva k.a₄)
  | unmap {e : EnvIx} {pd : Ppn} (hk : k.sysno = some .pageUnmap) (he : s.findEnv a k.a₁ true = some e)
    (hd : s.pgdirOf e = some pd) (hv : badVa k.a₂ = false) : Effect c a k s (s.unmapPage c pd k.a₂)
  | fork {e : EnvIx} {p : Ppn} (hk : k.sysno = some .exofork) (he : s.envFreeList = some e)
    (hl : s.pageFreeList = some p) : Effect c a k s (s.newEnv e p (s.envs a).id)
  -- `sys_env_destroy`, or `sys_cputs` with a bad argument.
  | free {e : EnvIx} {pd : Ppn} (ha : s.Authority a e) (hd : s.pgdirOf e = some pd) :
    Effect c a k s (s.freeEnv c e pd)

-- A system call has one effect on memory; besides it only deals with environments and processors.
def After (c : CpuIx) (a : EnvIx) (k : Call) (s s' : Kernel) : Prop :=
  ∃ s₀ s₁, UpToAddr s s₀ ∧ Effect c a k s₀ s₁ ∧ SameMem s₁ s'

-- A system call that returns either fails and leaves no trace, or has had its effect.
def Post (c : CpuIx) (a : EnvIx) (k : Call) (s : Kernel) (r : Word) (s' : Kernel) : Prop :=
  (r.slt 0#32 = true ∧ UpToAddr s s') ∨ (r.slt 0#32 = false ∧ After c a k s s')

theorem After.skip (h : SameMem s s') : After c a k s s' :=
  ⟨s, s, .refl s, .skip, h⟩

theorem After.of_effect (h : Effect c a k s s') : After c a k s s' :=
  ⟨s, s', .refl s, h, .refl s'⟩

theorem After.trans {s'' : Kernel} (h : After c a k s s') (h' : SameMem s' s'') :
    After c a k s s'' := by
  have ⟨s₀, s₁, ha, he, hs⟩ := h
  exact ⟨s₀, s₁, ha, he, hs.trans h'⟩

theorem After.of_addr {s'' : Kernel} (h : UpToAddr s s') (h' : After c a k s' s'') :
    After c a k s s'' := by
  have ⟨s₀, s₁, ha, he, hs⟩ := h'
  exact ⟨s₀, s₁, trans_of UpToAddr h ha, he, hs⟩

theorem Post.fail (h : w.slt 0#32 = true) : Post c a k s w s :=
  .inl ⟨h, .refl s⟩

theorem Post.ok (h : Effect c a k s s') : Post c a k s 0#32 s' :=
  .inr ⟨rfl, .of_effect h⟩

theorem Post.after {r : Word} (h : Post c a k s r s') : After c a k s s' := by
  obtain ⟨-, hs⟩ | ⟨-, hs⟩ := h
  case inl => exact .skip hs.sameMem
  case inr => exact hs

end Kernel

theorem curenv_run (ha : s.cur c = some a) : (curenv c).run s = .ok a s := by
  simp [curenv, ha]

theorem envPgdir_run (hd : s.pgdirOf e = some pd) : (envPgdir e).run s = .ok pd s := by
  simp [envPgdir, pgdirOf_pgdir hd]

theorem envid2env_run (ha : s.cur c = some a) :
    (envid2env c envid check).run s = .ok (s.findEnv a envid check) s := by
  simp only [envid2env, findEnv]
  split
  case isTrue => simp [curenv_run ha]
  case isFalse =>
    simp only [run_bind, run_get]
    split
    case isTrue => rfl
    case isFalse =>
      simp only [ha, ne_eq, Option.some.injEq]
      by_cases hc : check = true ∧ ¬a = envx envid
      case pos =>
        rw [if_pos hc]
        simp only [run_bind, curenv_run ha, hc, true_and, not_false_eq_true]
        split <;> rfl
      case neg =>
        rw [if_neg hc, if_neg fun h => hc ⟨h.1, h.2.1⟩]
        rfl

theorem findEnv_authority (h : s.findEnv a envid true = some e) : s.Authority a e := by
  simp only [findEnv] at h
  split at h
  case isTrue => exact .inl (Option.some.inj h).symm
  case isFalse =>
    split at h
    case isTrue => cases h
    case isFalse =>
      split at h
      case isTrue => cases h
      case isFalse hn =>
        cases h
        simp only [true_and, ne_eq, not_and, not_not] at hn
        by_cases he : a = envx envid
        case pos => exact .inl he.symm
        case neg => exact .inr (hn he)

theorem findEnv_live (hl : (s.envs a).status ≠ .free) (h : s.findEnv a envid check = some e) :
    (s.envs e).status ≠ .free := by
  simp only [findEnv] at h
  split at h
  case isTrue => cases h; exact hl
  case isFalse =>
    split at h
    case isTrue => cases h
    case isFalse hn =>
      split at h
      case isTrue => cases h
      case isFalse => cases h; exact fun he => hn (.inl he)

theorem PageInv.pgdirOf_live (h : PageInv M F l s) (he : (s.envs e).status ≠ .free) :
    ∃ pd, s.pgdirOf e = some pd := by
  cases hd : (s.envs e).pgdir
  case none => exact absurd (h.dir.mpr hd) he
  case some pd => exact ⟨pd, by simp [pgdirOf, he, hd]⟩

theorem pushFree_popFree (hl : s.pageFreeList = some p) : (s.popFree p).pushFree p = s := by
  simp [Kernel.popFree, Kernel.pushFree, setPage, ← hl]

section

variable (h : PageInv M ∅ l s) (ha : s.cur c = some a) (hl : (s.envs a).status ≠ .free)

include h ha in
theorem sysPageAlloc_found (hk : k.sysno = some .pageAlloc) (he : s.findEnv a k.a₁ true = some e)
    (hd : s.pgdirOf e = some pd) :
    ∃ r s', (sysPageAlloc c k.a₁ k.a₂ k.a₃).run s = .ok r s' ∧ Post c a k s r s' := by
  simp only [sysPageAlloc, run_bind, envid2env_run ha, he]
  cases hv : badVa k.a₂
  case true => exact ⟨_, _, rfl, .fail (by decide)⟩
  case false =>
    cases hp : permOk k.a₃
    case false => exact ⟨_, _, rfl, .fail (by decide)⟩
    case true =>
      cases hf : s.pageFreeList
      case none =>
        refine ⟨enomem, s, ?_, .fail (by decide)⟩
        simp [pageAlloc_none hf]
      case some pp =>
        have ⟨l', hl'⟩ := h.free_of_head hf
        subst hl'
        have hi := pdx_lt (lt_utop_of_badVa hv)
        have hd' : (s.popFree pp).pgdirOf e = some pd := hd
        have hr := envPgdir_run hd'
        by_cases hn : (s.popFree pp).NoTable pd (pdx k.a₂)
        case pos =>
          -- The page goes back to where it came from.
          have hpf := pageFree_run (s := s.popFree pp) (p := pp) (by simp [Kernel.popFree, setPage]) <| by
            have := h.pool.count_free (a := pp) (by simp)
            simpa [Kernel.popFree, setPage] using BitVec.eq_of_toNat_eq this
          rw [pushFree_popFree hf] at hpf
          refine ⟨enomem, s, ?_, .fail (by decide)⟩
          have hneg : BitVec.slt enomem 0#32 = true := by decide
          simp [pageAlloc_some hf, hr, PageInv.pageInsert_nomem hn, hpf, hneg]
        case neg =>
          refine ⟨0#32, _, ?_, .ok (.alloc hk he hd hv hp hf hn)⟩
          simp [pageAlloc_some hf, hr, h.popFree.pageInsert_run hd' hi hn]

include h ha hl in
theorem sysPageAlloc_post (hk : k.sysno = some .pageAlloc) :
    ∃ r s', (sysPageAlloc c k.a₁ k.a₂ k.a₃).run s = .ok r s' ∧ Post c a k s r s' := by
  cases he : s.findEnv a k.a₁ true
  case none => exact ⟨ebadenv, s, by simp [sysPageAlloc, envid2env_run ha, he], .fail (by decide)⟩
  case some e =>
    have ⟨pd, hd⟩ := h.pgdirOf_live (findEnv_live hl he)
    exact sysPageAlloc_found h ha hk he hd

include h ha in
theorem sysPageUnmap_found (hk : k.sysno = some .pageUnmap) (he : s.findEnv a k.a₁ true = some e)
    (hd : s.pgdirOf e = some pd) :
    ∃ r s', (sysPageUnmap c k.a₁ k.a₂).run s = .ok r s' ∧ Post c a k s r s' := by
  simp only [sysPageUnmap, run_bind, envid2env_run ha, he]
  cases hv : badVa k.a₂
  case true => exact ⟨_, _, rfl, .fail (by decide)⟩
  case false =>
    have hi := pdx_lt (lt_utop_of_badVa hv)
    refine ⟨0#32, _, ?_, .ok (.unmap hk he hd hv)⟩
    simp [envPgdir_run hd, h.pageRemove_run hd hi]

include h ha hl in
theorem sysPageUnmap_post (hk : k.sysno = some .pageUnmap) :
    ∃ r s', (sysPageUnmap c k.a₁ k.a₂).run s = .ok r s' ∧ Post c a k s r s' := by
  cases he : s.findEnv a k.a₁ true
  case none => exact ⟨ebadenv, s, by simp [sysPageUnmap, envid2env_run ha, he], .fail (by decide)⟩
  case some e =>
    have ⟨pd, hd⟩ := h.pgdirOf_live (findEnv_live hl he)
    exact sysPageUnmap_found h ha hk he hd

theorem pageLookup_mapped {F : Set Ppn} (h : PageInv M F l s) (hd : s.pgdirOf e = some pd) (hv : va < utop)
    (hr : s.target (.pte e (pdx va) (ptx va)) = some pp) :
    ∃ pt, (pageLookup pd va).run s = .ok (some (pp, pt)) s ∧ s.pte pt = s.pteOf e (pdx va) (ptx va) := by
  have hi := pdx_lt hv
  have hpp := h.bound (h.page_mem hr)
  rw [target_pte hi, pteOf_eq hd] at hr
  cases ht : s.table pd (pdx va)
  case none => simp [entry, ht] at hr
  case some t =>
    have he : entryPage (s.mem t (ptx va)) = some pp := by simpa [entry, ht] using hr
    refine ⟨(t, ptx va), pageLookup_some ht (h.table_bound hd hi ht) he hpp, ?_⟩
    rw [pteOf_eq hd, entry, ht, pte]

theorem pageLookup_cases {F : Set Ppn} (h : PageInv M F l s) (hd : s.pgdirOf e = some pd) (hv : va < utop) :
    (pageLookup pd va).run s = .ok none s ∨
    ∃ pp pt, (pageLookup pd va).run s = .ok (some (pp, pt)) s ∧
      s.target (.pte e (pdx va) (ptx va)) = some pp ∧ s.pte pt = s.pteOf e (pdx va) (ptx va) := by
  cases hr : s.target (.pte e (pdx va) (ptx va))
  case none =>
    rw [target_pte (pdx_lt hv), pteOf_eq hd] at hr
    exact .inl (pageLookup_none (fun t => h.table_bound hd (pdx_lt hv)) hr)
  case some pp =>
    obtain ⟨pt, hl, hpt⟩ := pageLookup_mapped h hd hv hr
    exact .inr ⟨pp, pt, hl, rfl, hpt⟩

theorem mapShared_run {e₀ : EnvIx} {pt : PtePtr} (pp : Ppn) (perm : Word) (h : PageInv M ∅ l s)
    (hpt : s.pte pt = s.pteOf e₀ i j) (hd : s.pgdirOf e = some pd) (hv : va < utop) :
    (∃ r, (mapShared c e pp pt va perm).run s = .ok r s ∧ r.slt 0#32 = true) ∨
    ((mapShared c e pp pt va perm).run s = .ok 0#32 (s.mapPage c pd pp va perm) ∧
      (has perm pteW = true → has (s.pteOf e₀ i j) pteW = true) ∧ ¬s.NoTable pd (pdx va)) := by
  simp only [mapShared, run_bind, run_get]
  by_cases hw : (!has (s.pte pt) pteW && has perm pteW) = true
  case pos =>
    rw [if_pos hw]
    exact .inl ⟨einval, rfl, by decide⟩
  case neg =>
    rw [if_neg hw]
    have hw' : has perm pteW = true → has (s.pteOf e₀ i j) pteW = true := by
      intro hpw
      rw [hpw, hpt] at hw
      simpa using hw
    by_cases hn : s.NoTable pd (pdx va)
    case pos =>
      have hneg : BitVec.slt enomem 0#32 = true := by decide
      refine .inl ⟨enomem, ?_, hneg⟩
      simp [envPgdir_run hd, PageInv.pageInsert_nomem hn, hneg]
    case neg =>
      refine .inr ⟨?_, hw', hn⟩
      simp [envPgdir_run hd, h.pageInsert_run hd (pdx_lt hv) hn]

-- The call succeeds.
include h ha in
theorem sysPageMap_run {src dst : EnvIx} {pd₀ : Ppn} (hk : k.sysno = some .pageMap)
    (he₀ : s.findEnv a k.a₁ true = some src) (he : s.findEnv a k.a₃ true = some dst)
    (hd₀ : s.pgdirOf src = some pd₀) (hd : s.pgdirOf dst = some pd) (hv₀ : badVa k.a₂ = false)
    (hv : badVa k.a₄ = false) (hp : permOk k.a₅ = true) (hr : s.target (.pte src (pdx k.a₂) (ptx k.a₂)) = some pp)
    (hw : has k.a₅ pteW = true → has (s.pteOf src (pdx k.a₂) (ptx k.a₂)) pteW = true)
    (hn : ¬s.NoTable pd (pdx k.a₄)) : (k.run c).run s = .ok 0#32 (s.mapPage c pd pp k.a₄ k.a₅) := by
  have hk' : Sysno.ofWord k.no = some .pageMap := hk
  obtain ⟨pt, hlk, hpt⟩ := pageLookup_mapped h hd₀ (lt_utop_of_badVa hv₀) hr
  have hins : (pageInsert c pd pp k.a₄ k.a₅).run s = .ok 0#32 (s.mapPage c pd pp k.a₄ k.a₅) :=
    h.pageInsert_run hd (pdx_lt (lt_utop_of_badVa hv)) hn
  have hrun : (mapShared c dst pp pt k.a₄ k.a₅).run s = .ok 0#32 (s.mapPage c pd pp k.a₄ k.a₅) := by
    cases hpw : has k.a₅ pteW
    case false => simp [mapShared, hpw, envPgdir_run hd, hins]
    case true => simp [mapShared, hpw, hpt, hw hpw, envPgdir_run hd, hins]
  simp [Call.run, syscall, hk', sysPageMap, envid2env_run ha, he₀, he, hv₀, hv, hp, envPgdir_run hd₀, hlk, hrun]

include h ha in
theorem sysPageMap_found {src dst : EnvIx} {pd₀ : Ppn} (hk : k.sysno = some .pageMap)
    (he₀ : s.findEnv a k.a₁ true = some src) (he : s.findEnv a k.a₃ true = some dst)
    (hd₀ : s.pgdirOf src = some pd₀) (hd : s.pgdirOf dst = some pd) :
    ∃ r s', (sysPageMap c k.a₁ k.a₂ k.a₃ k.a₄ k.a₅).run s = .ok r s' ∧ Post c a k s r s' := by
  simp only [sysPageMap, run_bind, envid2env_run ha, he₀, he]
  cases hv₀ : badVa k.a₂
  case true => exact ⟨_, _, rfl, .fail (by decide)⟩
  case false =>
    cases hv : badVa k.a₄
    case true => exact ⟨_, _, rfl, .fail (by decide)⟩
    case false =>
      cases hp : permOk k.a₅
      case false => exact ⟨_, _, rfl, .fail (by decide)⟩
      case true =>
        have hlk := pageLookup_cases h hd₀ (lt_utop_of_badVa hv₀)
        obtain hlk | ⟨pp, pt, hlk, hr, hpt⟩ := hlk
        case inl => exact ⟨einval, s, by simp [envPgdir_run hd₀, hlk], .fail (by decide)⟩
        case inr =>
          obtain ⟨r, hrun, hneg⟩ | ⟨hrun, hw, hn⟩ :=
            mapShared_run (c := c) pp k.a₅ h hpt hd (lt_utop_of_badVa hv)
          case inl => exact ⟨r, s, by simp [envPgdir_run hd₀, hlk, hrun], .fail hneg⟩
          case inr =>
            refine ⟨0#32, _, ?_, .ok (.map hk he₀ he hd hv₀ hv hp hr hw hn)⟩
            simp [envPgdir_run hd₀, hlk, hrun]

include h ha hl in
theorem sysPageMap_post (hk : k.sysno = some .pageMap) :
    ∃ r s', (sysPageMap c k.a₁ k.a₂ k.a₃ k.a₄ k.a₅).run s = .ok r s' ∧ Post c a k s r s' := by
  cases he₀ : s.findEnv a k.a₁ true
  case none => exact ⟨ebadenv, s, by simp [sysPageMap, envid2env_run ha, he₀], .fail (by decide)⟩
  case some src =>
    cases he : s.findEnv a k.a₃ true
    case none => exact ⟨ebadenv, s, by simp [sysPageMap, envid2env_run ha, he₀, he], .fail (by decide)⟩
    case some dst =>
      have ⟨pd₀, hd₀⟩ := h.pgdirOf_live (findEnv_live hl he₀)
      have ⟨pd, hd⟩ := h.pgdirOf_live (findEnv_live hl he)
      exact sysPageMap_found h ha hk he₀ he hd₀ hd

include h ha in
theorem sysExofork_run (he : s.envFreeList = some e) (hf : s.pageFreeList = some p) :
    (sysExofork c).run s = .ok (nextEnvId (s.envs e).id e) (s.forkChild a e p) := by
  have ⟨l', hl'⟩ := h.free_of_head hf
  subst hl'
  have hid : ((s.forkChild a e p).envs e).id = nextEnvId (s.envs e).id e := by
    simp [forkChild, setEnv, Kernel.newEnv, freshEnv]
    rfl
  simp only [sysExofork, run_bind, curenv_run ha, run_get, h.envAlloc_run he, run_modify, run_pure]
  rw [← hid]
  rfl

include h ha in
theorem sysExofork_post (hk : k.sysno = some .exofork) :
    ∃ r s', (sysExofork c).run s = .ok r s' ∧ Post c a k s r s' := by
  cases he : s.envFreeList
  case none =>
    refine ⟨enofreeenv, s, ?_, .fail (by decide)⟩
    simp [sysExofork, curenv_run ha, envAlloc_full he]
  case some e =>
    cases hf : s.pageFreeList
    case none =>
      refine ⟨enomem, s, ?_, .fail (by decide)⟩
      simp [sysExofork, curenv_run ha, envAlloc_nomem he hf]
    case some p =>
      exact ⟨_, _, sysExofork_run h ha he hf,
        .inr ⟨nextEnvId_pos, s, _, .refl s, .fork hk he hf, sameMem_forkChild⟩⟩

end

section UserMemCheck

variable {n : Nat} {upper lower len : Word}

theorem keeps_pgdirWalk : KeepsOr UpToAddr (· = .panic) (pgdirWalk pd va false) := by
  refine KeepsOr.get.bind fun s => ?_
  split
  case isTrue => exact KeepsOr.get.bind fun s => keepsOr_kaddr.bind fun _ => .pure
  case isFalse => exact .pure

theorem keeps_entryAllows : KeepsOr UpToAddr (· = .panic) (entryAllows pd lower perm) := by
  refine keeps_pgdirWalk.bind fun o => ?_
  cases o
  case none => exact .pure
  case some => exact KeepsOr.get.bind fun _ => .pure

theorem keeps_userMemCheckLoop :
    KeepsOr UpToAddr (· = .panic) (userMemCheckLoop pd va upper perm n lower) := by
  induction n generalizing lower
  case zero => exact .pure
  case succ n ih =>
    refine keeps_entryAllows.bind fun o => ?_
    cases o
    case true =>
      simp only [if_true]
      split
      case isTrue => exact ih
      case isFalse => exact .pure
    case false => exact KeepsOr.bind (.modify fun s => ⟨_, rfl⟩) fun _ => .pure

-- `user_mem_check` records the offending address and changes nothing else.
theorem keeps_userMemCheck : KeepsOr UpToAddr (· = .panic) (userMemCheck pd va len perm) := by
  refine keeps_userMemCheckLoop.bind fun o => ?_
  cases o
  case false => exact .pure
  case true =>
    simp only [if_true]
    split
    case isTrue => exact KeepsOr.bind (.modify fun s => ⟨_, rfl⟩) fun _ => .pure
    case isFalse => exact .pure

end UserMemCheck

section

variable (h : PageInv M ∅ l s) (ha : s.cur c = some a) (hl : (s.envs a).status ≠ .free)

include h ha hl in
theorem ipcSendPage_post (hk : k.sysno = some .ipcTrySend) (he : s.findEnv a k.a₁ false = some e)
    (hr : (s.envs e).ipcRecving = true) (hs : k.a₃ < utop) (hv : (s.envs e).ipcDstva < utop) :
    wp (ipcSendPage c e k.a₃ k.a₄)
      (fun r s' => (r.slt 0#32 = true ∧ UpToAddr s s') ∨
        (r = 0#32 ∧ ∃ s₀, UpToAddr s s₀ ∧ Effect c a k s₀ s' ∧ SameEnvs s₀ s'))
      (fun _ => UpToAddr s) s := by
  have ⟨pd₀, hd₀⟩ := h.pgdirOf_live hl
  have ⟨pd, hd⟩ := h.pgdirOf_live (findEnv_live hl he)
  simp only [ipcSendPage]
  split
  case isTrue => exact .inl ⟨by decide, .refl s⟩
  case isFalse =>
    split
    case isTrue => exact .inl ⟨by decide, .refl s⟩
    case isFalse hp =>
      simp only [Bool.not_eq_true, Bool.not_eq_false'] at hp
      rw [wp_bind_of_ok (curenv_run ha), wp_bind_of_ok (envPgdir_run hd₀)]
      refine wp_seq (wp_mono (keeps_userMemCheck.keeps s) (fun _ _ => id) fun _ _ => id) ?_
      rintro x s₀ ⟨y, rfl⟩
      have hu : UpToAddr s { s with userMemCheckAddr := y } := ⟨y, rfl⟩
      have h₀ := hu.sameMem.pageInv h
      split
      case isTrue => exact .inl ⟨by decide, hu⟩
      case isFalse =>
        obtain hlk | ⟨pp, pt, hlk, hr', hpt⟩ := pageLookup_cases h₀ hd₀ hs
        case inl =>
          rw [wp_bind_of_ok hlk]
          exact .inl ⟨by decide, hu⟩
        case inr =>
          rw [wp_bind_of_ok hlk]
          simp only [wp_bind_get]
          obtain ⟨r, hrun, hneg⟩ | ⟨hrun, hw, hn⟩ := mapShared_run (c := c) pp k.a₄ h₀ hpt hd hv
          case inl => exact wp_of_ok hrun (.inl ⟨hneg, hu⟩)
          case inr => exact wp_of_ok hrun (.inr ⟨rfl, _, hu, .send hk he hr hd hs hv hp hr' hw hn, .mapPage⟩)

theorem ipcDeliver_run {value : Word} (ha : s.cur c = some a) :
    (ipcDeliver c e value perm).run s = .ok () (s.setEnv e fun v =>
      { v with
        ipcPerm := perm
        ipcRecving := false
        ipcFrom := (s.envs a).id
        ipcValue := value
        tf.regs.eax := 0#32
        status := .runnable }) := by
  simp [ipcDeliver, curenv_run ha]

include h ha hl in
theorem sysIpcTrySend_post (hk : k.sysno = some .ipcTrySend) :
    wp (sysIpcTrySend c k.a₁ k.a₂ k.a₃ k.a₄) (Post c a k s) (fun _ => After c a k s) s := by
  rw [sysIpcTrySend, wp_bind_of_ok (envid2env_run ha)]
  cases he : s.findEnv a k.a₁ false
  case none => exact .fail (by decide)
  case some e =>
    have hle := findEnv_live hl he
    simp only [wp_bind_get]
    split
    case isTrue => exact .fail (by decide)
    case isFalse hr =>
      simp only [Bool.not_eq_true, Bool.not_eq_false'] at hr
      split
      case isTrue hv =>
        refine wp_seq (wp_mono (ipcSendPage_post h ha hl hk he hr hv.1 hv.2) (fun _ _ => id)
          fun _ _ hu => .skip hu.sameMem) ?_
        rintro r s₁ (⟨hneg, hu⟩ | ⟨rfl, s₀, ⟨x, rfl⟩, hx, hs⟩)
        case inl =>
          rw [if_pos hneg]
          exact .inl ⟨hneg, hu⟩
        case inr =>
          have ha₁ : s₁.cur c = some a := by rw [hs.cur]; exact ha
          rw [if_neg (by decide), wp_bind_of_ok (ipcDeliver_run ha₁)]
          refine .inr ⟨rfl, _, s₁, ⟨x, rfl⟩, hx, .setEnv rfl rfl ?_⟩
          simpa [hs.envs] using hle
      case isFalse =>
        rw [wp_bind_of_ok (ipcDeliver_run ha)]
        refine .inr ⟨rfl, .skip (.setEnv rfl rfl ?_)⟩
        simp [hle]

-- Destroying an environment marks it, or frees it.
include h in
theorem envDestroy_post (hle : (s.envs e).status ≠ .free) (hau : s.Authority a e) :
    wp (envDestroy c e) (fun _ => After c a k s) (fun _ => After c a k s) s := by
  have ⟨pd, hd⟩ := h.pgdirOf_live hle
  simp only [envDestroy, wp_bind_get]
  split
  case isTrue => exact .skip (.setEnv rfl rfl (by simp [hle]))
  case isFalse =>
    rw [wp_bind_of_ok (h.envFree_run hd)]
    have hx : After c a k s (s.freeEnv c e pd) := .of_effect (.free hau hd)
    simp only [wp_bind_get]
    split
    case isTrue =>
      simp only [wp_bind_modify]
      refine wp_mono (keeps_schedYield _) ?_ ?_ <;>
        exact fun _ _ hs => hx.trans (SameMem.setCpu.trans hs)
    case isFalse => exact hx

include h hl in
theorem userMemAssert_post {len : Word} {perm' : Word} :
    wp (userMemAssert c a va len perm') (fun _ => After c a k s) (fun _ => After c a k s) s := by
  have ⟨pd, hd⟩ := h.pgdirOf_live hl
  rw [userMemAssert, wp_bind_of_ok (envPgdir_run hd)]
  refine wp_seq (wp_mono (keeps_userMemCheck.keeps s) (fun _ _ => id) fun _ _ hu => .skip hu.sameMem) ?_
  rintro r s₀ hu
  split
  case isTrue =>
    have hl₀ : (s₀.envs a).status ≠ .free := mt (hu.sameMem.live a).mp hl
    refine wp_mono (Q := fun _ => After c a k s₀) (E := fun _ => After c a k s₀)
      (envDestroy_post (hu.sameMem.pageInv h) hl₀ (.inl rfl)) ?_ ?_ <;>
      exact fun _ _ => .of_addr hu
  case isFalse => exact .skip hu.sameMem

theorem keeps_loadByte : Keeps UpToAddr (loadByte c va) := by
  intro s
  simp only [loadByte, wp_bind_get]
  split <;> exact UpToAddr.refl s

theorem keeps_cputsLoop {n : Nat} {precision : Int} : Keeps UpToAddr (cputsLoop c n va precision) := by
  induction n generalizing va precision
  case zero => exact .pure
  case succ n ih =>
    refine keeps_loadByte.bind fun ch => ?_
    split
    case isTrue => exact .pure
    case isFalse =>
      split
      case isTrue => exact ih
      case isFalse =>
        split
        case isTrue => exact ih
        case isFalse => exact .pure

include h ha hl in
theorem sysCputs_post {len : Word} :
    wp (sysCputs c va len) (fun _ => After c a k s) (fun _ => After c a k s) s := by
  rw [sysCputs, wp_bind_of_ok (curenv_run ha)]
  refine wp_seq (userMemAssert_post h hl) fun _ s₁ hs => ?_
  split
  case isTrue =>
    refine wp_mono (keeps_cputsLoop s₁) ?_ ?_ <;>
      exact fun _ _ hu => hs.trans hu.sameMem
  case isFalse => exact hs

include h ha hl in
theorem sysEnvDestroy_post :
    wp (sysEnvDestroy c envid) (Post c a k s) (fun _ => After c a k s) s := by
  rw [sysEnvDestroy, wp_bind_of_ok (envid2env_run ha)]
  cases he : s.findEnv a envid true
  case none => exact .fail (by decide)
  case some e =>
    refine wp_seq (envDestroy_post h (findEnv_live hl he) (findEnv_authority he)) fun _ s' hs => ?_
    exact .inr ⟨rfl, hs⟩

include ha hl in
theorem sysEnvSetStatus_post {status : Word} :
    wp (sysEnvSetStatus c envid status) (Post c a k s) (fun _ => After c a k s) s := by
  rw [sysEnvSetStatus]
  cases hst : settableStatus status
  case none => exact .fail (by decide)
  case some st =>
    have hst' : st ≠ .free := by
      rintro rfl
      simp only [settableStatus] at hst
      split at hst
      case isTrue => cases hst
      case isFalse => split at hst <;> cases hst
    simp only
    rw [wp_bind_of_ok (envid2env_run ha)]
    cases he : s.findEnv a envid true
    case none => exact .fail (by decide)
    case some e => exact .inr ⟨rfl, .skip (.setEnv rfl rfl (by simp [findEnv_live hl he, hst']))⟩

include ha in
theorem sysEnvSetPgfaultUpcall_post {func : Word} :
    wp (sysEnvSetPgfaultUpcall c envid func) (Post c a k s) (fun _ => After c a k s) s := by
  rw [sysEnvSetPgfaultUpcall, wp_bind_of_ok (envid2env_run ha)]
  cases he : s.findEnv a envid true
  case none => exact .fail (by decide)
  case some e => exact .inr ⟨rfl, .skip (.setEnv rfl rfl Iff.rfl)⟩

include ha hl in
theorem sysIpcRecv_post :
    wp (sysIpcRecv c va) (Post c a k s) (fun _ => After c a k s) s := by
  rw [sysIpcRecv]
  split
  case isTrue => exact .fail (by decide)
  case isFalse =>
    rw [wp_bind_of_ok (curenv_run ha)]
    simp only [wp_bind_modify]
    have hs : SameMem s (s.setEnv a fun v =>
        { v with
          ipcDstva := if va < utop then va else utop
          ipcRecving := true
          status := .notRunnable }) := .setEnv rfl rfl (by simp [hl])
    refine wp_seq (wp_mono (keeps_schedYield _) (fun _ _ => id) fun _ _ h' => .skip (hs.trans h')) ?_
    exact fun _ _ h' => .inr ⟨rfl, .skip (hs.trans h')⟩

theorem keeps_consGetc : Keeps SameMem consGetc := by
  intro s
  simp only [consGetc, wp_bind_modify, wp_bind_get]
  split
  case isTrue => exact ⟨⟨rfl, rfl, rfl, rfl⟩, rfl, fun _ => rfl, fun _ => rfl, fun _ => Iff.rfl, rfl⟩
  case isFalse => exact ⟨⟨rfl, rfl, rfl, rfl⟩, rfl, fun _ => rfl, fun _ => rfl, fun _ => Iff.rfl, rfl⟩

theorem consGetc_nonneg : wp consGetc (fun r _ => r.slt 0#32 = false) (fun _ _ => True) s := by
  simp only [consGetc, wp_bind_modify, wp_bind_get]
  split
  case isTrue =>
    simp only [wp_bind_modify, wp_pure]
    rw [BitVec.slt_zero_eq_msb, BitVec.msb_setWidth]
    exact BitVec.getLsbD_of_ge _ _ (by decide)
  case isFalse => exact rfl

theorem slt_sysno {no : Word} {x : Sysno} (hx : Sysno.ofWord no = some x) : no.slt 0#32 = false := by
  have ⟨hb, _⟩ := List.getElem?_eq_some_iff.mp hx
  simp only [List.length_cons, List.length_nil] at hb
  rw [BitVec.slt_zero_eq_msb, BitVec.msb_eq_decide]
  simp
  omega

end

theorem syscall_post (h : PageInv M ∅ l s) (ha : s.cur c = some a) (hl : (s.envs a).status ≠ .free) :
    wp (k.run c) (Post c a k s) (fun _ => After c a k s) s := by
  simp only [Call.run, syscall]
  cases hno : Sysno.ofWord k.no
  case none => exact .fail (by decide)
  case some x =>
    cases x
    case cputs => exact wp_seq (sysCputs_post h ha hl) fun _ _ hs => .inr ⟨slt_sysno hno, hs⟩
    case cgetc =>
      refine wp_mono (wp_and (keeps_consGetc s) consGetc_nonneg) ?_ ?_
      · exact fun r s' hs => .inr ⟨hs.2, .skip hs.1⟩
      · exact fun _ s' hs => .skip hs.1
    case getenvid =>
      simp only [sysGetenvid]
      rw [wp_bind_of_ok (curenv_run ha)]
      simp only [wp_bind_get, wp_pure]
      cases hn : (s.envs a).id.slt 0#32
      case true => exact .inl ⟨hn, .refl s⟩
      case false => exact .inr ⟨hn, .skip (.refl s)⟩
    case envDestroy => exact sysEnvDestroy_post h ha hl
    case pageAlloc =>
      exact wp_of_run (sysPageAlloc_post h ha hl hno)
    case pageMap =>
      exact wp_of_run (sysPageMap_post h ha hl hno)
    case pageUnmap =>
      exact wp_of_run (sysPageUnmap_post h ha hl hno)
    case exofork =>
      exact wp_of_run (sysExofork_post h ha hno)
    case envSetStatus => exact sysEnvSetStatus_post ha hl
    case envSetPgfaultUpcall => exact sysEnvSetPgfaultUpcall_post ha
    case yield =>
      refine wp_seq (wp_mono (keeps_schedYield s) (fun _ _ => id) fun _ _ hs => .skip hs) ?_
      exact fun _ _ hs => .inr ⟨rfl, .skip hs⟩
    case ipcTrySend => exact sysIpcTrySend_post h ha hl hno
    case ipcRecv => exact sysIpcRecv_post ha hl

end Jos
