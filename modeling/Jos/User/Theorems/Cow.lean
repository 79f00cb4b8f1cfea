import Jos.User.Theorems.Pgfault
import Jos.User.Theorems.Fork

-- Environments that have been forked share pages, and each of them sees what it would see if `fork` had copied all pages.

open Function Client Cow Program

namespace Jos

open Kernel

variable {M : Set Ppn} {l : List Ppn} {s s' s₁ s₀ : Kernel} {c : CpuIx} {a e : EnvIx} {pd p : Ppn} {pid : EnvId}
  {va w err pn perm : Word} {b : BitVec 8} {o : Option Unit} {f : Word → User Unit}

section Duppage

theorem ends_user_load : Ends (userServer a ⟨true, false⟩ Eq) (User.load va >>= f) s o s' ↔
    ∃ pd p, s.pgdirOf a = some pd ∧ s.translate pd va ⟨true, false⟩ = some p ∧
      Ends (userServer a ⟨true, false⟩ Eq) (f (s.mem p (wordIx va))) s o s' := by
  change Ends (userServer a ⟨true, false⟩ Eq) (.ask (.load va) fun (w : Word) => f w) s o s' ↔ _
  rw [ends_ask]
  constructor
  case mp =>
    rintro ⟨_, _, _, rfl, ⟨pd, p, hd, ht, rfl, rfl⟩, he⟩
    exact ⟨pd, p, hd, ht, he⟩
  case mpr =>
    rintro ⟨pd, p, hd, ht, he⟩
    exact ⟨s, _, s, rfl, ⟨pd, p, hd, ht, rfl, rfl⟩, he⟩

-- A program which returns has survived its system calls.
theorem ends_user_syscall {x : Call}
    (he : Ends (userServer a ⟨true, false⟩ Eq) (User.syscall true x >>= f) s (some ()) s') :
    ∃ c ret s₁, s.cur c = some a ∧ (x.run c).run s = .ok ret s₁ ∧
      Ends (userServer a ⟨true, false⟩ Eq) (f ret) s₁ (some ()) s' := by
  obtain ⟨_, ret, s₁, rfl, ⟨c, hc, hr⟩, he⟩ := ends_check he
  exact ⟨c, ret, s₁, hc, hr, he⟩

-- The flags of the page table entry which `duppage` reads at `UVPT`.
def dupPerm (entry : Word) : Word :=
  if has entry pteW || has entry pteCow then pteP ||| pteU ||| pteCow else pteP ||| pteU

theorem dupPerm_flags : FlagsOnly (dupPerm w) ∧ has (dupPerm w) pteW = false := by
  rw [dupPerm]
  split <;> decide

-- The page is mapped in the environment `pid`, and from there back to where it was.
theorem ends_duppage (he : Ends (userServer a ⟨true, false⟩ Eq) (duppage pid pn) s (some ()) s') :
    ∃ pd p c₁ c₂ r₁ s₁, s.pgdirOf a = some pd ∧ s.translate pd (uvpt + 4#32 * pn) ⟨true, false⟩ = some p ∧
      s.cur c₁ = some a ∧ (sysPageMap c₁ 0#32 (pn * pgsize) pid (pn * pgsize)
        (dupPerm (s.mem p (wordIx (uvpt + 4#32 * pn))))).run s = .ok r₁ s₁ ∧ r₁.slt 0#32 = false ∧
      s₁.cur c₂ = some a ∧ (sysPageMap c₂ pid (pn * pgsize) 0#32 (pn * pgsize)
        (dupPerm (s.mem p (wordIx (uvpt + 4#32 * pn))))).run s₁ = .ok 0#32 s' := by
  simp only [duppage] at he
  rw [ends_user_load] at he
  obtain ⟨pd, p, hd, ht, he⟩ := he
  obtain ⟨c₁, r₁, s₁, hc₁, hr₁, he⟩ := ends_user_syscall he
  split at he
  case isTrue => exact absurd he not_ends_stop
  case isFalse hneg =>
    obtain ⟨c₂, r₂, s₂, hc₂, hr₂, he⟩ := ends_user_syscall he
    split at he
    case isTrue => exact absurd he not_ends_stop
    case isFalse hz =>
      obtain ⟨tr, he⟩ := he
      cases he
      case done hm =>
        cases (show s₂ = s' from hm)
        rw [not_not] at hz
        subst hz
        exact ⟨pd, p, c₁, c₂, r₁, s₁, hd, ht, hc₁, hr₁, Bool.eq_false_iff.mpr hneg, hc₂, hr₂⟩

theorem findEnv_sameEnvs {check : Bool} (h : SameEnvs s s') : s'.findEnv a pid check = s.findEnv a pid check := by
  simp only [findEnv, h.envs]

-- A page is shared with the environment `pid` at the same address, and neither may write to it.
theorem duppage_shares (h : MemInv M s) (hl : (s.envs a).status ≠ .free)
    (hb : ∀ p, s.target (.pte a (pdx (pn * pgsize)) (ptx (pn * pgsize))) = some p → s.refs p + 1 < 2 ^ 16)
    (he : Ends (userServer a ⟨true, false⟩ Eq) (duppage pid pn) s (some ()) s') :
    ∃ e, s.findEnv a pid true = some e ∧ MemInv M s' ∧
      Step s.frames s'.frames (.copy (pageIx a (pn * pgsize)) (pageIx e (pn * pgsize))) := by
  obtain ⟨_, _, c₁, c₂, r₁, s₁, -, -, hc₁, hr₁, hneg, hc₂, hr₂⟩ := ends_duppage he
  obtain ⟨hfl, hro⟩ := @dupPerm_flags (s.mem ‹_› (wordIx (uvpt + 4#32 * pn)))
  obtain ⟨l, L, hi, hL⟩ := id h
  obtain ⟨hr, -⟩ | ⟨-, e₀, e, pd, p, hx⟩ := sysPageMap_cases hi hc₁ hl hr₁
  case inl => cases hr.symm.trans hneg
  case inr =>
    obtain rfl : e₀ = a := Option.some.inj (hx.env₀.symm.trans findEnv_self)
    have hrefs := hi.refs_mapPage (c := c₁) hx.dir (pdx_lt hx.below) hx.table hfl (.mapped rfl hx.page)
      (hi.pool.not_free_of_ref hx.page)
    have hlt := hb p hx.page
    have h₁ : MemInv M s₁ := by
      rw [hx.eq]
      refine h.sharePage hx.page hx.dir (pdx_lt hx.below) hx.table hfl ?_
      omega
    have hs₁ : SameEnvs s s₁ := by
      rw [hx.eq]
      exact .mapPage
    have hr₁ := hx.remaps hi hfl
    rw [hro] at hr₁
    obtain ⟨l₁, L₁, hi₁, -⟩ := id h₁
    have hl₁ : (s₁.envs e₀).status ≠ .free := by rwa [hs₁.envs]
    obtain ⟨hr, -⟩ | ⟨-, e', a', pd', p', hx'⟩ := sysPageMap_cases hi₁ hc₂ hl₁ hr₂
    case inl => cases hr
    case inr =>
      obtain rfl : e' = e := Option.some.inj <| by rw [← hx'.env₀, findEnv_sameEnvs hs₁, hx.env]
      obtain rfl : a' = e₀ := Option.some.inj (hx'.env.symm.trans findEnv_self)
      obtain rfl : p' = p := Option.some.inj (hx'.page.symm.trans (target_of_frames hr₁.map_self).1)
      have hr₂ := hx'.remaps hi₁ hfl
      rw [hro] at hr₂
      have hk := frames_of_target hx.page
      -- The page is mapped where the caller maps it again.
      have hself : s₁.target (.pte a' (pdx (pn * pgsize)) (ptx (pn * pgsize))) = some p' := by
        by_cases hc : pageIx a' (pn * pgsize) = pageIx e' (pn * pgsize)
        case pos =>
          have hm := hr₁.map_self
          rw [← hc] at hm
          exact (target_of_frames hm).1
        case neg => exact (target_of_frames ((hr₁.map_of_ne hc).trans hk)).1
      have hrefs' := hi₁.refs_mapPage (c := c₂) hx'.dir (pdx_lt hx'.below) hx'.table hfl (.mapped rfl hx'.page)
        (hi₁.pool.not_free_of_ref hx'.page)
      rw [if_pos hself] at hrefs'
      have hfit := h₁.refsFit p'
      refine ⟨e', hx.env, ?_, .share (e := Entry.mk p' _) (d := Entry.mk p' false) hk rfl rfl hr₁ hr₂⟩
      rw [hx'.eq]
      refine h₁.sharePage hx'.page hx'.dir (pdx_lt hx'.below) hx'.table hfl ?_
      omega

end Duppage

-- A byte is stored to a page.
def putAt (va : Word) (b : BitVec 8) (g : Ptx → Word) : Ptx → Word :=
  update g (wordIx va) (putByte (g (wordIx va)) (lane va) b)

-- What forked environments do to their memory, each in its own time. The handler and `duppage` return, that is, their
-- system calls succeed.
inductive ForkStep (s : Kernel) : Kernel → Act PageIx (Ptx → Word) → Prop
  | store {a : EnvIx} {pd p : Ppn} {va : Word} {b : BitVec 8} (hd : s.pgdirOf a = some pd) (hv : va < utop)
    (ht : s.translate pd va ⟨true, true⟩ = some p) : ForkStep s (s.setByteAt p va b) (.write (pageIx a va) (putAt va b))
  -- A page fault on a page that is present.
  | fault {s' : Kernel} {a : EnvIx} {va err : Word} (hl : (s.envs a).status ≠ .free) (hv : va < utop)
    (hm : s.target (.pte a (pdx va) (ptx va)) ≠ none) (ht : s.target (.pte a (pdx pftemp) (ptx pftemp)) = none)
    (he : Ends (handlerServer a) (pgfault va err) s (some ()) s') : ForkStep s s' .skip
  | dup {s' : Kernel} {a e : EnvIx} {pid : EnvId} {pn : Word} (hl : (s.envs a).status ≠ .free)
    (hf : s.findEnv a pid true = some e)
    (hb : ∀ p, s.target (.pte a (pdx (pn * pgsize)) (ptx (pn * pgsize))) = some p → s.refs p + 1 < 2 ^ 16)
    (he : Ends (userServer a ⟨true, false⟩ Eq) (duppage pid pn) s (some ()) s') :
    ForkStep s s' (.copy (pageIx a (pn * pgsize)) (pageIx e (pn * pgsize)))
  | alloc {s' : Kernel} {c : CpuIx} {a e : EnvIx} {p : Ppn} {envid : EnvId} {va perm : Word} (hc : s.cur c = some a)
    (hl : (s.envs a).status ≠ .free) (hf : s.findEnv a envid true = some e) (hp : FlagsOnly perm)
    (hr : (sysPageAlloc c envid va perm).run s = .ok 0#32 s') (ht : s'.target (.pte e (pdx va) (ptx va)) = some p) :
    ForkStep s s' (.fresh (pageIx e va) (s'.mem p))
  | unmap {s' : Kernel} {c : CpuIx} {a e : EnvIx} {envid : EnvId} {va : Word} (hc : s.cur c = some a)
    (hl : (s.envs a).status ≠ .free) (hf : s.findEnv a envid true = some e)
    (hr : (sysPageUnmap c envid va).run s = .ok 0#32 s') : ForkStep s s' (.drop {pageIx e va})
  | exofork {s' : Kernel} {c : CpuIx} {a : EnvIx} {r : Word} (hc : s.cur c = some a)
    (hr : (sysExofork c).run s = .ok r s') : ForkStep s s' .skip
  | free {s' : Kernel} {c : CpuIx} {e : EnvIx} (hd : s.pgdirOf e ≠ none) (hr : (envFree c e).run s = .ok () s') :
    ForkStep s s' (.drop { x | x.1 = e })
  -- Everything else: other system calls, interrupts, the scheduler.
  | other {s' : Kernel} (h : SameMem s s') : ForkStep s s' .skip

section Step

variable {x : Act PageIx (Ptx → Word)}

-- Storing a byte through a mapping that allows it.
theorem store_writes (h : MemInv M s) (hd : s.pgdirOf a = some pd) (hv : va < utop)
    (ht : s.translate pd va ⟨true, true⟩ = some p) :
    MemInv M (s.setByteAt p va b) ∧ Step s.frames (s.setByteAt p va b).frames (.write (pageIx a va) (putAt va b)) := by
  obtain ⟨l, L, hi, hL⟩ := h
  have hp := target_of_translate hd hv ht
  have hw : has (s.pteOf a (pdx va) (ptx va)) pteW = true := by
    rw [pteOf_eq hd]
    simp only [Kernel.translate] at ht
    split at ht
    case isTrue hc => exact (hc.2 trivial).2
    case isFalse => cases ht
  have hx : Poke a s (s.setByteAt p va b) := .mk hv hp hw
  refine ⟨⟨l, L, hi.poke hx, hL.poke hx⟩, .write (frames_of_target hp) hw ?_ ?_ fun k y hk hne => ?_⟩
  case refine_1 =>
    refine frames_map_of_mem rfl fun q hq => mem_setByteAt_of_ne ?_
    rintro rfl
    exact hi.page_not_table hp hq
  case refine_2 => simp [frames, Kernel.setByteAt, Kernel.setMem, putAt]
  case refine_3 => exact mem_setByteAt_of_ne hne

theorem Kernel.Allocs.step {envid : EnvId} (h : MemInv M s) (hx : s.Allocs c a envid va perm e pd p s')
    (hp : FlagsOnly perm) :
    MemInv M s' ∧ s'.target (.pte e (pdx va) (ptx va)) = some p ∧
      Step s.frames s'.frames (.fresh (pageIx e va) (s'.mem p)) := by
  obtain ⟨l, L, hi, hL⟩ := id h
  obtain ⟨hr, hu⟩ := hx.remaps hi hp
  refine ⟨?_, (target_of_frames hr.map_self).1, .fresh hu hr⟩
  rw [hx.eq]
  exact h.allocPage hx.page hx.dir (pdx_lt hx.below) hx.table hp

-- A new environment has no pages.
theorem newEnv_step {q : EnvId} (h : MemInv M s) (he : s.envFreeList = some e) (hl : s.pageFreeList = some p) :
    MemInv M (s.newEnv e p q) ∧ Step s.frames (s.newEnv e p q).frames .skip := by
  refine ⟨h.newEnv he hl, ?_⟩
  obtain ⟨l, L, hi, hL⟩ := h
  obtain ⟨l', rfl⟩ := hi.free_of_head hl
  obtain ⟨L', rfl⟩ := hL.of_head he
  have hk : s.frames.Keeps (s.newEnv e p q).frames := by
    intro x y hy
    have hne : y.frame ≠ p := fun hc => (hi.frames_mem hy).2 (by simp [hc])
    change (s.newEnv e p q).mem y.frame = s.mem y.frame
    exact mem_newEnv hne
  refine .skip ?_ hk
  funext ⟨e', i, j⟩
  exact frames_map_congr fun hi' => hi.pteOf_newEnv (hL.mem.mp (by simp)) hi'

-- Freeing an environment takes its pages out of the map.
theorem Kernel.Freed.step (hf : Freed e s s') (h : PageInv M ∅ l s) :
    Step s.frames s'.frames (.drop { x | x.1 = e }) := by
  refine .drop ?_ fun x y hy => hf.mem fun ho => (h.frames_mem hy).1 ho.table
  funext ⟨e', i, j⟩
  split
  case isTrue hc =>
    have ht : s'.target (.pte e' i j) = none := by
      rw [hf.target h, if_pos]
      exact congrArg some hc
    simp only [frames, ht, Option.map_none]
  case isFalse hc => exact frames_map_congr fun hi' => hf.pteOf h hc hi'

theorem MemInv.freeEnv (h : MemInv M s) (hd : s.pgdirOf e = some pd) : MemInv M (s.freeEnv c e pd) := by
  obtain ⟨l, L, hi, hL⟩ := h
  obtain ⟨l', h'⟩ := hi.freeEnv (c := c) hd
  exact ⟨l', e :: L, h', hL.freeEnv hi hd⟩

-- Each step keeps the invariant of the allocator, and is a step of a space that is copied on write.
theorem ForkStep.step (h : MemInv M s) (hx : ForkStep s s' x) : MemInv M s' ∧ Step s.frames s'.frames x := by
  obtain ⟨l, L, hi, hL⟩ := id h
  cases hx
  case store hd hv ht => exact store_writes h hd hv ht
  case fault a va err hl hv hm ht he =>
    obtain ⟨p, hp⟩ := Option.ne_none_iff_exists'.mp hm
    have hn : s.frames.map (pageIx a pftemp) = none := by simp [frames, pageIx, ht]
    obtain ⟨hs, h', -⟩ := pgfault_resolves h hl hv (frames_of_target hp) hn he
    exact ⟨h', hs⟩
  case dup hl hf hb he =>
    obtain ⟨e, he', h', hs⟩ := duppage_shares h hl hb he
    cases hf.symm.trans he'
    exact ⟨h', hs⟩
  case alloc c a e p envid va perm hc hl hf hp hr ht =>
    obtain ⟨hr, -⟩ | ⟨-, e', pd, p', hx⟩ := sysPageAlloc_cases hi hc hl hr
    case inl => cases hr
    case inr =>
      cases hf.symm.trans hx.env
      obtain ⟨h', ht', hs⟩ := hx.step h hp
      cases ht.symm.trans ht'
      exact ⟨h', hs⟩
  case unmap c a e envid va hc hl hf hr =>
    obtain ⟨hr, -⟩ | ⟨-, e', pd, he, hd, hv, rfl⟩ := sysPageUnmap_cases hi hc hl hr
    case inl => cases hr
    case inr =>
      cases hf.symm.trans he
      have hr := hi.unmapPage_remaps (c := c) hd (pdx_lt hv)
      refine ⟨h.unmapPage hd hv, .drop ?_ hr.keep⟩
      funext k
      rw [hr.map, update_apply]
      simp only [Set.mem_singleton_iff]
  case exofork c a r hc hr =>
    obtain ⟨-, -, rfl⟩ | ⟨e, p, he, hl, -, -, rfl⟩ := exofork_cases h hc hr
    case inl => exact ⟨h, .skip rfl fun _ _ _ => rfl⟩
    case inr =>
      have hm : SameMem (s.newEnv e p (s.envs a).id) (s.forkChild a e p) := sameMem_forkChild
      obtain ⟨h', hs⟩ := newEnv_step (q := (s.envs a).id) h he hl
      exact ⟨h'.sameMem hm, hm.frames ▸ hs⟩
  case free c e hd hr =>
    obtain ⟨pd, hd⟩ := Option.ne_none_iff_exists'.mp hd
    cases (hi.envFree_run hd).symm.trans hr
    exact ⟨h.freeEnv hd, (hi.freed hd).step hi⟩
  case other hs => exact ⟨h.sameMem hs, .skip (by rw [hs.frames]) fun _ _ _ => by rw [hs.frames]⟩

end Step

-- Any number of environments, in any order.
inductive ForkRun : Kernel → Kernel → List (Act PageIx (Ptx → Word)) → Prop
  | nil {s : Kernel} : ForkRun s s []
  | cons {s s₁ s' : Kernel} {x : Act PageIx (Ptx → Word)} {xs : List (Act PageIx (Ptx → Word))} (hx : ForkStep s s₁ x)
    (hr : ForkRun s₁ s' xs) : ForkRun s s' (x :: xs)

variable {xs : List (Act PageIx (Ptx → Word))}

theorem ForkRun.run (h : MemInv M s) (hs : s.frames.Sole) (hr : ForkRun s s' xs) :
    MemInv M s' ∧ s'.frames.Sole ∧ s'.frames.view = xs.foldl Act.apply s.frames.view := by
  induction hr
  case nil => exact ⟨h, hs, rfl⟩
  case cons hx _ ih =>
    obtain ⟨h₁, hst⟩ := hx.step h
    obtain ⟨h', hs', hv⟩ := ih h₁ (hs.step hst)
    refine ⟨h', hs', ?_⟩
    rw [hv, hs.view_step hst, List.foldl_cons]

section Witness

theorem soleEnv_sole {n : Nat} (h₀ : 0 < n) (hn : n < 2 ^ 20) : (soleEnv n).frames.Sole := by
  have hb : (freshKernel n).frames.Sole := by
    refine ⟨fun {k k' y y'} hk => ?_⟩
    have ht := target_blank (s := freshKernel n) (fun _ => rfl) fun _ => rfl
    simp [frames, ht] at hk
  have hs := (newEnv_step (q := 0#32) (freshKernel_inv hn) rfl (if_neg (by omega))).2
  have hm : SameMem ((freshKernel n).newEnv 0 1#20 0#32) (soleEnv n) := .setCpu
  rw [hm.frames]
  exact hb.step hs

-- An environment with one page has created another one.
def onePage : Kernel :=
  ((soleEnv 16).popFree 2#20).mapPage 0 1#20 2#20 0x1000#32 (pteP ||| pteU ||| pteW)

def onePageForked : Kernel :=
  onePage.forkChild 0 1 4#20

theorem onePage_run : ∃ g, ForkRun (soleEnv 16) onePageForked [.fresh (pageIx 0 0x1000#32) g, .skip] := by
  have h := soleEnv_inv (n := 16) (by decide) (by decide)
  have hd : (soleEnv 16).pgdirOf 0 = some 1#20 := by decide +kernel
  have hf : (soleEnv 16).pageFreeList = some 2#20 := by decide +kernel
  have hn : ¬((soleEnv 16).popFree 2#20).NoTable 1#20 (pdx 0x1000#32) := by decide +kernel
  have hx : (soleEnv 16).Allocs 0 0 0#32 0x1000#32 (pteP ||| pteU ||| pteW) 0 1#20 2#20 onePage :=
    ⟨findEnv_self, hd, by decide, hf, hn, rfl⟩
  obtain ⟨h₁, ht, -⟩ := hx.step h (by decide)
  obtain ⟨l, L, hi, -⟩ := h
  obtain ⟨l₁, L₁, hi₁, -⟩ := h₁
  have hr : (sysPageAlloc 0 0#32 0x1000#32 (pteP ||| pteU ||| pteW)).run (soleEnv 16) = .ok 0#32 onePage :=
    sysPageAlloc_run hi rfl findEnv_self hd (by decide) (by decide) hf hn
  have he₁ : onePage.envFreeList = some 1 := by decide +kernel
  have hf₁ : onePage.pageFreeList = some 4#20 := by decide +kernel
  have hc₁ : onePage.cur 0 = some 0 := by decide +kernel
  exact ⟨_, .cons (.alloc rfl (by decide +kernel) findEnv_self (by decide) hr ht) <|
    .cons (.exofork hc₁ (sysExofork_run hi₁ hc₁ he₁ hf₁)) .nil⟩

theorem ends_syscall_zero {k : Call} (hc : s.cur c = some a) (hr : (k.run c).run s = .ok 0#32 s₁)
    (he : Ends (userServer a ⟨true, false⟩ Eq) (f 0#32) s₁ o s') :
    Ends (userServer a ⟨true, false⟩ Eq) (User.syscall true k >>= f) s o s' :=
  ends_ask.mpr ⟨s, 0#32, s₁, rfl, ⟨c, hc, hr⟩, he⟩

-- After the first call of `duppage`.
def onePageShared : Kernel :=
  onePageForked.mapPage 0 4#20 2#20 0x1000#32 (pteP ||| pteU ||| pteCow)

theorem onePage_dup (h : MemInv M onePageForked) :
    onePageForked.refs 2#20 = 1 ∧ ∃ s', Ends (userServer 0 ⟨true, false⟩ Eq) (duppage 0x1001#32 1#32) onePageForked (some ()) s' := by
  obtain ⟨l, L, hi, -⟩ := id h
  have hd : onePageForked.pgdirOf 0 = some 1#20 := by decide +kernel
  have hd' : onePageForked.pgdirOf 1 = some 4#20 := by decide +kernel
  have hc : onePageForked.cur 0 = some 0 := by decide +kernel
  have hf : onePageForked.findEnv 0 0x1001#32 true = some 1 := by decide +kernel
  have ht : onePageForked.target (.pte 0 (pdx 0x1000#32) (ptx 0x1000#32)) = some 2#20 := by decide +kernel
  have hn : ¬onePageForked.NoTable 4#20 (pdx 0x1000#32) := by decide +kernel
  have hrefs : onePageForked.refs 2#20 = 1 := by
    rw [← hi.ref_eq (hi.page_mem ht)]
    decide +kernel
  have hro : has (pteP ||| pteU ||| pteCow) pteW = true → False := by decide
  have hr₁ : (Call.run 0 ⟨5#32, 0#32, 0x1000#32, 0x1001#32, 0x1000#32, pteP ||| pteU ||| pteCow⟩).run onePageForked =
      .ok 0#32 onePageShared :=
    sysPageMap_run hi hc rfl findEnv_self hf hd hd' (by decide) (by decide) (by decide) ht (fun hw => (hro hw).elim) hn
  have hm := hi.refs_mapPage (c := 0) hd' (by decide) hn (show FlagsOnly (pteP ||| pteU ||| pteCow) by decide)
    (.mapped rfl ht) (hi.pool.not_free_of_ref ht)
  have h₁ : MemInv M onePageShared := h.sharePage ht hd' (by decide) hn (by decide) (by omega)
  obtain ⟨l₁, L₁, hi₁, -⟩ := h₁
  have hc₁ : onePageShared.cur 0 = some 0 := by decide +kernel
  have hf₁ : onePageShared.findEnv 0 0x1001#32 true = some 1 := by decide +kernel
  have hd₁ : onePageShared.pgdirOf 0 = some 1#20 := by decide +kernel
  have hd₁' : onePageShared.pgdirOf 1 = some 4#20 := by decide +kernel
  have ht₁ : onePageShared.target (.pte 1 (pdx 0x1000#32) (ptx 0x1000#32)) = some 2#20 := by decide +kernel
  have hn₁ : ¬onePageShared.NoTable 1#20 (pdx 0x1000#32) := by decide +kernel
  have hr₂ : (Call.run 0 ⟨5#32, 0x1001#32, 0x1000#32, 0#32, 0x1000#32, pteP ||| pteU ||| pteCow⟩).run onePageShared =
      .ok 0#32 (onePageShared.mapPage 0 1#20 2#20 0x1000#32 (pteP ||| pteU ||| pteCow)) :=
    sysPageMap_run hi₁ hc₁ rfl hf₁ findEnv_self hd₁' hd₁ (by decide) (by decide) (by decide) ht₁
      (fun hw => (hro hw).elim) hn₁
  refine ⟨hrefs, onePageShared.mapPage 0 1#20 2#20 0x1000#32 (pteP ||| pteU ||| pteCow), ends_user_load.mpr ⟨1#20, 3#20, hd, by decide +kernel, ?_⟩⟩
  have hw : onePageForked.mem 3#20 (wordIx (uvpt + 4#32 * 1#32)) = 0x2007#32 := by decide +kernel
  rw [hw]
  exact ends_syscall_zero hc hr₁ <| ends_syscall_zero hc₁ hr₂ ⟨[], .done rfl⟩

end Witness

end Jos
