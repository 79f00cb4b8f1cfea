import Jos.Kernel.Tlb
import Jos.Kernel.Theorems.Smp
import Jos.Kernel.Theorems.Mapping
import Jos.Kernel.Theorems.Reclaim

-- Whether the translations that processors have cached are still those of the page tables.

open Function Program Relation

namespace Jos

open Kernel

variable {α : Type} {M F : Set Ppn} {l : List Ppn} {L : List EnvIx} {S S' S₀ : System} {s s' s₀ : Kernel} {c c' : CpuIx}
  {a b e : EnvIx} {k : Call} {pd pd' p q t t' : Ppn} {va va' w x perm faultVa : Word} {tf : Trapframe} {ptr : TfPtr}
  {acc : Access} {y : Action} {v : BitVec 8}

namespace Kernel

-- The processors have cached nothing new.
def Forgets (s s' : Kernel) : Prop :=
  ∀ c, (s'.cpus c).tlb ⊆ (s.cpus c).tlb

theorem Forgets.setCpu {f : CpuInfo → CpuInfo} (h : Forgets s s') (hf : (f (s'.cpus c)).tlb ⊆ (s'.cpus c).tlb) :
    Forgets s (s'.setCpu c f) := by
  intro c'
  by_cases hc : c' = c
  case pos =>
    subst hc
    have hs : ((s'.setCpu c' f).cpus c').tlb = (f (s'.cpus c')).tlb := by simp [Kernel.setCpu]
    exact hs ▸ List.Subset.trans hf (h c')
  case neg => simpa [Kernel.setCpu, hc] using h c'

theorem forgets_closed : PageClosed fun s₁ s' => Forgets s s₁ → Forgets s s' where
  pages := id
  addr := id
  tlb {s₁ c pgdir va} h := by
    simp only [Kernel.invalidate]
    refine h.setCpu ?_
    split
    case h_1 => exact List.filter_subset_self _
    case h_2 =>
      dsimp only
      split
      case isTrue => exact List.filter_subset_self _
      case isFalse => exact List.Subset.refl _

end Kernel

section Forgets

-- The function caches nothing, wherever it leaves the kernel.
abbrev Forgetful (s₀ : Kernel) (m : K α) : Prop :=
  Within (Forgets s₀) (Forgets s₀) m

theorem forgetful_envRun : Forgetful s₀ (envRun c e) := by
  have hp : ∀ {s}, Forgets s₀ s → Forgets s₀ (s.preempt c) := by
    intro s h
    simp only [preempt]
    split
    case _ => exact h
    case _ => split <;> exact h
  refine Within.bind (.modify hp) fun _ => Within.bind (.modify fun h => h.setCpu (List.Subset.refl _)) fun _ => ?_
  refine Within.bind (.modify id) fun _ => Within.get.bind fun s => ?_
  split
  case _ => exact .throw id
  case _ =>
    refine Within.bind (.modify fun h => h.setCpu (List.nil_subset _)) fun _ => ?_
    exact Within.bind (.modify id) fun _ => .throw id

theorem forgetful_schedHalt : Forgetful s₀ (schedHalt c) := by
  refine Within.get.bind fun s => ?_
  split
  case isTrue =>
    refine Within.bind (.modify fun h => h.setCpu (List.Subset.refl _)) fun _ => ?_
    refine Within.bind (.modify fun h => h.setCpu (List.nil_subset _)) fun _ => ?_
    exact Within.bind (.modify fun h => h.setCpu (List.Subset.refl _)) fun _ => .throw id
  case isFalse => exact .throw id

theorem forgetful_schedLoop {n : Nat} {i : EnvIx} : Forgetful s₀ (schedLoop c n i) := by
  induction n generalizing i
  case zero => exact forgetful_schedHalt
  case succ n ih =>
    refine Within.get.bind fun s => ?_
    split
    case isTrue =>
      split
      case isTrue => exact forgetful_envRun
      case isFalse => exact forgetful_schedHalt
    case isFalse =>
      split
      case isTrue => exact forgetful_envRun
      case isFalse => exact ih

theorem forgetful_schedYield : Forgetful s₀ (schedYield c) := by
  refine Within.get.bind fun s => ?_
  split <;> exact forgetful_schedLoop

theorem forgetful_page {m : K α} (hm : KeepsOr (fun s s' => Forgets s₀ s → Forgets s₀ s') (· = .panic) m) :
    Forgetful s₀ m :=
  .of_keeps hm id

theorem forgetful_envFreeDir : Forgetful s₀ (envFreeDir e pd) := by
  refine Within.bind (.modify id) fun _ => Within.bind (forgetful_page keepsOr_pa2page) fun _ => ?_
  refine Within.bind (forgetful_page forgets_closed.pageDecref) fun _ => Within.bind (.modify id) fun _ s h => ?_
  simp only [wp_bind_get, wp_set]
  exact h

theorem forgetful_envFree : Forgetful s₀ (envFree c e) := by
  have hw : ∀ is : List Ptx, Forgetful s₀ (do
      let pgdir ← envPgdir e
      is.forM (envFreeTable c pgdir)
      envFreeDir e pgdir) := by
    refine fun is => Within.bind (Within.get.bind fun s => ?_) fun pd => ?_
    case refine_1 => split <;> [exact .throw id; exact .pure]
    case refine_2 =>
      exact Within.bind (.forM fun _ => forgetful_page forgets_closed.envFreeTable) fun _ => forgetful_envFreeDir
  refine Within.get.bind fun s => ?_
  split
  case isTrue =>
    refine Within.get.bind fun s => ?_
    exact Within.bind (.modify fun h => h.setCpu (List.nil_subset _)) fun _ => hw userPdxs
  case isFalse => exact hw userPdxs

theorem forgetful_envDestroy : Forgetful s₀ (envDestroy c e) := by
  refine Within.get.bind fun s => ?_
  split
  case isTrue => exact .modify id
  case isFalse =>
    refine forgetful_envFree.bind fun _ => Within.get.bind fun s => ?_
    split
    case isTrue => exact Within.bind (.modify fun h => h.setCpu (List.Subset.refl _)) fun _ => forgetful_schedYield
    case isFalse => exact .pure

theorem callClosed_forgets : CallClosed c (Forgets s₀) (Forgets s₀) where
  leave := id
  page := forgets_closed
  envs := id
  cons := id
  yield := forgetful_schedYield
  destroy := forgetful_envDestroy

theorem forgetful_storeWord : Forgetful s₀ (storeWord c va w) := by
  have hb : ∀ va b, Forgetful s₀ (storeByte c va b) := by
    intro va b s h
    simp only [storeByte, wp_bind_get]
    split
    case _ => exact h
    case _ => exact h
  refine Within.get.bind fun s => ?_
  dsimp only
  split
  case isTrue => exact .forM fun _ => hb _ _
  case isFalse => exact .throw id

theorem forgetful_write {f : Trapframe → Trapframe} : Forgetful s₀ (ptr.write f) := by
  cases ptr
  case env e => exact .modify id
  case stack => exact .pure

theorem forgetful_pageFaultHandler : Forgetful s₀ (pageFaultHandler c ptr tf faultVa) := by
  refine (callClosed_forgets (c := c)).curenv.bind fun cur => Within.get.bind fun s => ?_
  have hrest : Forgetful s₀ (do
      ptr.write fun t => { t with esp := upcallEsp tf.esp }
      userMemAssert c cur (upcallEsp tf.esp) (uxstacktop - upcallEsp tf.esp) (pteW ||| pteU)
      (utrapframe tf faultVa).forM fun q => storeWord c (upcallEsp tf.esp + q.1) q.2
      let upcall := ((← get).envs cur).pgfaultUpcall
      ptr.write fun t => { t with eip := upcall }
      envRun c cur) := by
    refine forgetful_write.bind fun _ => callClosed_forgets.userMemAssert.bind fun _ => ?_
    refine (Within.forM fun _ => forgetful_storeWord).bind fun _ => Within.get.bind fun s => ?_
    exact forgetful_write.bind fun _ => forgetful_envRun
  split
  case isTrue => exact forgetful_envDestroy.bind fun _ => hrest
  case isFalse => exact hrest

theorem forgetful_trapDispatch : Forgetful s₀ (trapDispatch c ptr tf faultVa) := by
  simp only [trapDispatch]
  split
  case isTrue => exact .pure
  case isFalse =>
    split
    case isTrue => exact .pure
    case isFalse =>
      split
      case isTrue => exact forgetful_pageFaultHandler
      case isFalse =>
        split
        case isTrue => exact callClosed_forgets.syscall.bind fun _ => forgetful_write
        case isFalse =>
          split
          case isTrue => exact forgetful_schedYield
          case isFalse =>
            split
            case isTrue => exact .throw id
            case isFalse => exact callClosed_forgets.curenv.bind fun _ => forgetful_envDestroy

theorem forgetful_trapReturn : Forgetful s₀ (trapReturn c) := by
  refine Within.get.bind fun s => ?_
  split
  case _ => exact forgetful_schedYield
  case _ =>
    split
    case isTrue => exact forgetful_envRun
    case isFalse => exact forgetful_schedYield

theorem forgetful_trap : Forgetful s₀ (trap c tf faultVa) := by
  refine Within.bind (.modify fun h => h.setCpu (List.Subset.refl _)) fun _ => ?_
  have hd : ∀ ptr, Forgetful s₀ (do trapDispatch c ptr tf faultVa; trapReturn c) :=
    fun ptr => forgetful_trapDispatch.bind fun _ => forgetful_trapReturn
  split
  case isTrue =>
    refine Within.get.bind fun s => ?_
    split
    case _ => exact .throw id
    case _ =>
      refine Within.get.bind fun s => ?_
      split
      case isTrue =>
        refine forgetful_envFree.bind fun _ => ?_
        exact Within.bind (.modify fun h => h.setCpu (List.Subset.refl _)) fun _ => forgetful_schedYield
      case isFalse => exact Within.bind (.modify id) fun _ => hd _
  case isFalse => exact hd _

theorem System.forgets_step (hs : S.step y = some S') : Forgets S.kern S'.kern := by
  have hr : Forgets S.kern S.kern := fun _ => List.Subset.refl _
  have he : ∀ {c m}, Forgetful S.kern m → Forgets S.kern (S.enter c m).kern := fun hm => kern_enter (hm S.kern hr)
  cases y
  all_goals simp only [System.step] at hs
  case start c =>
    split at hs
    case isTrue => exact Option.some.inj hs ▸ he forgetful_schedYield
    case isFalse => cases hs
  case trap c tf va =>
    split at hs
    case isTrue => exact Option.some.inj hs ▸ he forgetful_trap
    case isFalse => cases hs
  case wake c tf =>
    split at hs
    case isTrue => exact Option.some.inj hs ▸ he forgetful_trap
    case isFalse => cases hs
  case refault c tf =>
    split at hs
    case _ =>
      split at hs
      case isTrue => exact Option.some.inj hs ▸ he forgetful_trap
      case isFalse => cases hs
    case _ => cases hs
  case store c va b =>
    split at hs
    case isTrue =>
      obtain ⟨p, -, rfl⟩ := Option.map_eq_some_iff.mp hs
      exact hr
    case isFalse => cases hs

end Forgets

section Flushed

theorem tlb_runEnv : ((s.runEnv c e pd).cpus c).tlb = [] := by
  simp [runEnv, setEnv, setCpu]

theorem Kernel.Schedules.flushed (hx : Schedules c s .user s') : (s'.cpus c).tlb = [] := by
  cases hx
  case pick => exact tlb_runEnv
  case resume => exact tlb_runEnv

theorem Kernel.Reaps.flushed (hx : Reaps c a s .user s') : (s'.cpus c).tlb = [] := by
  cases hx
  case sched hs => exact hs.flushed

theorem Kernel.EnvExit.flushed (hx : EnvExit c a k s .user s') : (s'.cpus c).tlb = [] := by
  cases hx
  case yield h => exact h.flushed
  case recv h => exact h.flushed
  case reap h => exact h.flushed

theorem Kernel.Handles.flushed (hx : Handles c a s .user s') : (s'.cpus c).tlb = [] := by
  cases hx
  case reap h => exact h.flushed
  case upcall => exact tlb_runEnv

theorem Kernel.Traps.flushed (hx : Traps c a tf s .user s') : (s'.cpus c).tlb = [] := by
  cases hx
  case zombie h => exact h.flushed
  case pgflt h => exact h.flushed
  case destroy h => exact h.flushed
  case sched h => exact h.flushed
  case exit h => exact h.flushed
  case ret hs => exact hs.flushed

-- A processor that goes on in user mode has loaded `%cr3` on the way out of the kernel.
theorem System.Event.flushed (hx : Event S y S') (hy : ∀ c va b, y ≠ .store c va b) (hm : S'.mode y.cpu = .user) :
    (S'.kern.cpus y.cpu).tlb = [] := by
  have hu : ∀ {c x s}, (S.leave c x s).mode c = .user → x = .user := by
    intro c x s h
    simp only [leave, update_self] at h
    cases x <;> first | rfl | cases h
  cases hx
  case start hx => exact (hu hm ▸ hx).flushed
  case trap hx => exact (hu hm ▸ hx).flushed
  case wake hx =>
    obtain ⟨rfl, rfl⟩ | hx := hx
    case inl => cases hu hm
    case inr => exact (hu hm ▸ hx).flushed
  case refault hx => exact (hu hm ▸ hx).flushed
  case store => exact absurd rfl (hy _ _ _)

end Flushed

section Walk

theorem has_twoPow {i : Nat} (hi : i < 32) : has x (BitVec.twoPow 32 i) = x.getLsbD i := by
  simp only [has, BitVec.and_twoPow]
  by_cases h : x.getLsbD i
  case pos =>
    have hne : BitVec.twoPow 32 i ≠ 0#32 := by
      intro h0
      have := congrArg (·.getLsbD i) h0
      simp [hi] at this
    simp [h, hne]
  case neg => simp [h]

theorem has_masked {mask f : Word} {i : Nat} (hi : i < 32) (hf : f = BitVec.twoPow 32 i) :
    has (x &&& (w ||| mask)) f = (has x f && (has w f || has mask f)) := by
  subst hf
  simp only [has_twoPow hi, BitVec.getLsbD_and, BitVec.getLsbD_or]

-- The entry of the page table, restricted by the one of the page directory, is for the same page.
theorem entryPage_masked : entryPage (x &&& (w ||| ~~~(pteU ||| pteW))) = entryPage x := by
  have hp : has (~~~(pteU ||| pteW)) pteP = true := by decide
  have hn : pgnum (x &&& (w ||| ~~~(pteU ||| pteW))) = pgnum x := by
    ext i hi
    have hm : (~~~(pteU ||| pteW)).getLsbD (12 + i) = true := by interval_cases i <;> decide
    simp only [pgnum, BitVec.getElem_extractLsb', BitVec.getLsbD_and, BitVec.getLsbD_or, hm, Bool.or_true,
      Bool.and_true]
  rw [entryPage, entryPage, hn, has_masked (f := pteP) (i := 0) (by decide) rfl, hp, Bool.or_true, Bool.and_true]

theorem has_masked_user : has (x &&& (w ||| ~~~(pteU ||| pteW))) pteU = (has x pteU && has w pteU) := by
  have h : has (~~~(pteU ||| pteW)) pteU = false := by decide
  rw [has_masked (f := pteU) (i := 2) (by decide) rfl, h, Bool.or_false]

theorem has_masked_write : has (x &&& (w ||| ~~~(pteU ||| pteW))) pteW = (has x pteW && has w pteW) := by
  have h : has (~~~(pteU ||| pteW)) pteW = false := by decide
  rw [has_masked (f := pteW) (i := 1) (by decide) rfl, h, Bool.or_false]

theorem walk_congr (hd : s'.mem pd (pdx va) = s.mem pd (pdx va))
    (he : ∀ t, s.table pd (pdx va) = some t → s'.mem t (ptx va) = s.mem t (ptx va)) :
    s'.walk pd va = s.walk pd va := by
  have hent : s'.entry pd (pdx va) (ptx va) = s.entry pd (pdx va) (ptx va) := by
    simp only [Kernel.entry, Kernel.table, hd]
    split
    case h_1 => rfl
    case h_2 t ht => exact he t ht
  simp only [Kernel.walk, hd, hent]

-- The addresses of one page have one translation.
theorem walk_page (h : pgnum va' = pgnum va) : s.walk pd va' = s.walk pd va := by
  have hn := congrArg BitVec.toNat h
  rw [toNat_pgnum, toNat_pgnum] at hn
  have hx : pdx va' = pdx va := Fin.ext (by rw [val_pdx, val_pdx]; omega)
  have hj : ptx va' = ptx va := Fin.ext (by rw [val_ptx, val_ptx]; omega)
  simp only [Kernel.walk, hx, hj]

-- A translation needs a page table with an entry that is present.
theorem walk_some (hw : s.walk pd va = some w) :
    ∃ t p, s.table pd (pdx va) = some t ∧ entryPage (s.mem t (ptx va)) = some p := by
  simp only [Kernel.walk] at hw
  split at hw
  case isFalse => cases hw
  case isTrue hp =>
    cases ht : s.table pd (pdx va)
    case none =>
      simp only [Kernel.entry, ht] at hp
      exact absurd hp (by decide)
    case some t =>
      simp only [Kernel.entry, ht] at hp
      exact ⟨t, _, rfl, if_pos hp⟩

-- A cached translation that is still in the page tables reaches the page which they give.
theorem reach_walk (hw : s.walk pd va = some w) : reach w acc = s.translate pd va acc := by
  simp only [Kernel.walk] at hw
  split at hw
  case isFalse => cases hw
  case isTrue =>
    cases hw
    simp only [reach, Kernel.translate, entryPage_masked, has_masked_user, has_masked_write, Bool.and_eq_true,
      and_comm]

end Walk

namespace Kernel

-- Whatever the page tables of `a` translate, they go on to translate in the same way.
def KeepsWalks (a : EnvIx) (s s' : Kernel) : Prop :=
  ∀ pd, s.pgdirOf a = some pd → s'.pgdirOf a = some pd ∧ ∀ va w, s.walk pd va = some w → s'.walk pd va = some w

theorem KeepsWalks.trans {s₁ : Kernel} (h : KeepsWalks a s s₁) (h' : KeepsWalks a s₁ s') : KeepsWalks a s s' := by
  intro pd hd
  obtain ⟨hd₁, hw⟩ := h pd hd
  obtain ⟨hd₂, hw'⟩ := h' pd hd₁
  exact ⟨hd₂, fun va w h => hw' va w (hw va w h)⟩

theorem KeepsWalks.of_mem (hd : s'.pgdirOf a = s.pgdirOf a) (hm : s'.mem = s.mem) : KeepsWalks a s s' := by
  intro pd hpd
  exact ⟨hd.trans hpd, fun va w hw => (walk_congr (by rw [hm]) fun _ _ => by rw [hm]).trans hw⟩

theorem KeepsWalks.sameMem (hs : SameMem s s') : KeepsWalks a s s' :=
  .of_mem (by rw [hs.pgdirOf]) hs.mem

end Kernel

section Rewrites

variable (h : PageInv M F l s) (hk : KernHalf s₀ s) (hd : s.pgdirOf e = some pd) (hi : (pdx va).val < pdxUtop)

include h hk hd hi in
theorem PageInv.rewrites_walks (hr : Rewrites l s s' pd t va x) (ho : s'.pgdirOf a = s.pgdirOf a)
    (hs : a = e → s.target (.pte e (pdx va) (ptx va)) = none ∨ s.pteOf e (pdx va) (ptx va) = x) :
    KeepsWalks a s s' := by
  intro pd' hd'
  refine ⟨ho.trans hd', fun va' w hw => ?_⟩
  have hp : s.IsPgdir pd := .inr ⟨e, hd⟩
  have hp' : s.IsPgdir pd' := .inr ⟨a, hd'⟩
  obtain ⟨t', p, ht, he⟩ := walk_some hw
  rw [← hw]
  by_cases hsame : pd' = pd ∧ SamePage va va'
  case pos =>
    -- The page of `va` itself: the entry is present, so the new one is the same.
    obtain ⟨rfl, hx, hj⟩ := hsame
    rw [hx] at ht
    obtain ⟨ht', hm, -⟩ | ⟨hn, -⟩ := hr.cases
    case inr => cases hn.symm.trans ht
    case inl =>
      cases ht.symm.trans ht'
      have hent : s.pteOf e (pdx va) (ptx va) = s.mem t (ptx va) := by rw [pteOf_eq hd, Kernel.entry, ht']
      have hold := (hs (h.pgdir_inj hd' hd)).resolve_left fun hn => by
        rw [target_pte hi, hent, ← hj, he] at hn
        cases hn
      refine walk_congr (by rw [hm]) fun t₁ ht₁ => ?_
      rw [hx] at ht₁
      cases ht₁.symm.trans ht'
      rw [hj, hr.entry, ← hold, hent]
  case neg =>
    have hwin : ¬(s.table pd (pdx va) = none ∧ pd' = pd ∧ SamePage (pgaddr (pdx uvpt) (pdx va)) va') := by
      rintro ⟨hn, rfl, hx, hj⟩
      rw [pdx_pgaddr] at hx
      rw [ptx_pgaddr] at hj
      have hself : s.table pd' (pdx uvpt) = some pd' := by
        rw [Kernel.table, hk.dir hd' (by decide), if_pos rfl, entryPage_self]
      rw [hx, hself] at ht
      cases ht
      rw [hj] at he
      cases hn.symm.trans he
    refine walk_congr ?_ fun t₁ ht₁ => h.rewrites_entry hk hr hp hi hp' hsame hwin ht₁
    by_cases hpp : pd' = pd
    case neg => rw [hr.others (h.rewrites_ne hr hp hi hp') hpp]
    case pos =>
      subst hpp
      obtain ⟨-, hm, -⟩ | ⟨hn, -⟩ := hr.cases
      case inl => rw [hm]
      case inr =>
        refine hr.dir fun hx => ?_
        rw [hx, hn] at ht
        cases ht

include h hk hd hi in
theorem PageInv.mapPage_walks (hn : ¬s.NoTable pd (pdx va))
    (hs : a = e → s.target (.pte e (pdx va) (ptx va)) = none ∨ s.pteOf e (pdx va) (ptx va) = page2pa p ||| perm ||| pteP) :
    KeepsWalks a s (s.mapPage c pd p va perm) := by
  have hr : ∃ t, Rewrites l s (s.mapPage c pd p va perm) pd t va (page2pa p ||| perm ||| pteP) :=
    h.rewrites_mapPage (.inr ⟨e, hd⟩) hi hn
  obtain ⟨t, hr⟩ := hr
  exact h.rewrites_walks hk hd hi hr (by rw [SameEnvs.mapPage.pgdirOf]) hs

include h hk hd hi in
theorem PageInv.unmapPage_walks
    (hs : a = e → s.target (.pte e (pdx va) (ptx va)) = none ∨ s.pteOf e (pdx va) (ptx va) = 0#32) :
    KeepsWalks a s (s.unmapPage c pd va) := by
  cases he : entryPage (s.entry pd (pdx va) (ptx va))
  case none =>
    have hu : s.unmapPage c pd va = s := by
      simp only [Kernel.unmapPage]
      split
      case h_1 => rfl
      case h_2 t ht =>
        rw [Kernel.entry, ht] at he
        simp [he]
    rw [hu]
    exact .of_mem rfl rfl
  case some p =>
    obtain ⟨t, -, hr⟩ := h.rewrites_unmapPage (c := c) (.inr ⟨e, hd⟩) hi he
    exact h.rewrites_walks hk hd hi hr (by rw [SameEnvs.unmapPage.pgdirOf]) hs

end Rewrites

section Others

variable (h : PageInv M F l s) (hk : KernHalf s₀ s)

-- The translations of `a` depend on its page directory, its page tables, and those of the kernel.
include h hk in
theorem PageInv.walks_of_tables (ho : s'.pgdirOf a = s.pgdirOf a)
    (hm : ∀ q, s.OwnTable a q ∨ (∃ i, s.target (.kpde i) = some q) → s'.mem q = s.mem q) : KeepsWalks a s s' := by
  intro pd hd
  refine ⟨ho.trans hd, fun va w hw => ?_⟩
  rw [← hw]
  refine walk_congr (by rw [hm pd (.inl (.inl hd))]) fun t ht => ?_
  obtain ⟨-, rfl⟩ | ⟨e, hde, ht⟩ | ⟨ht, -⟩ := hk.table_cases (.inr ⟨a, hd⟩) ht
  case inl => rw [hm t (.inl (.inl hd))]
  case inr.inl =>
    cases h.pgdir_inj hde hd
    rw [hm t (.inl (.inr ⟨_, ht⟩))]
  case inr.inr => rw [hm t (.inr ⟨_, ht⟩)]

include hk in
theorem PageInv.newEnv_walks (h : PageInv M F (p :: l) s) (hne : a ≠ e) : KeepsWalks a s (s.newEnv e p x) := by
  refine h.walks_of_tables hk (pgdirOf_newEnv_of_ne hne) fun q hq => mem_newEnv ?_
  rintro rfl
  obtain (hd | ⟨i, ht⟩) | ⟨i, ht⟩ := hq
  case inl.inl => exact h.pool.not_ref_of_free (by simp) (show s.target (.pgdir a) = some q from hd)
  case inl.inr => exact h.pool.not_ref_of_free (by simp) ht
  case inr => exact h.pool.not_ref_of_free (by simp) ht

include h hk in
theorem PageInv.freeEnv_walks (hd : s.pgdirOf e = some pd) (hne : a ≠ e) : KeepsWalks a s (s.freeEnv c e pd) := by
  have hf := h.freed (c := c) hd
  refine h.walks_of_tables hk (hf.other hne) fun q hq => hf.mem fun ho => ?_
  obtain (hd | ⟨i, ht⟩) | ⟨i, ht⟩ := hq
  case inl.inl => exact hne (h.ownTable_pgdir ho hd)
  case inl.inr => exact hne (h.ownTable_table ho ht)
  case inr => exact h.not_ownTable_kern ht ho

-- The pages that are mapped below `UTOP` are no page tables.
include h in
theorem PageInv.page_ne_tables {i j : Ptx} (hp : s.target (.pte e i j) = some p)
    (hq : s.Table q ∨ ∃ i, s.target (.kpde i) = some q) : q ≠ p := by
  rintro rfl
  obtain ht | ⟨i', ht⟩ := hq
  case inl => exact h.page_not_table hp ht
  case inr =>
    have he := h.unique (by trivial) ht hp
    cases he

include h hk in
theorem PageInv.poke_walks (hx : Poke e s s') : KeepsWalks a s s' := by
  obtain ⟨hv, hp, hw⟩ := hx
  exact h.walks_of_tables hk rfl fun q hq => mem_setByteAt_of_ne (h.page_ne_tables hp (hq.imp_left (·.table)))

end Others

namespace Kernel

-- The call `k` of `a` gives the page of an address in an environment a new entry.
inductive Remaps (s : Kernel) (a : EnvIx) (k : Call) : EnvIx → Word → Word → Prop
  | alloc {e : EnvIx} {pp : Ppn} (hk : k.sysno = some .pageAlloc) (he : s.findEnv a k.a₁ true = some e)
    (hv : badVa k.a₂ = false) (hp : permOk k.a₃ = true) (hl : s.pageFreeList = some pp) :
    Remaps s a k e k.a₂ (page2pa pp ||| k.a₃ ||| pteP)
  | map {e₀ e : EnvIx} {pp : Ppn} (hk : k.sysno = some .pageMap) (he₀ : s.findEnv a k.a₁ true = some e₀)
    (he : s.findEnv a k.a₃ true = some e) (hv₀ : badVa k.a₂ = false) (hv : badVa k.a₄ = false)
    (hp : permOk k.a₅ = true) (hr : s.target (.pte e₀ (pdx k.a₂) (ptx k.a₂)) = some pp)
    (hw : has k.a₅ pteW = true → has (s.pteOf e₀ (pdx k.a₂) (ptx k.a₂)) pteW = true) :
    Remaps s a k e k.a₄ (page2pa pp ||| k.a₅ ||| pteP)
  | unmap {e : EnvIx} (hk : k.sysno = some .pageUnmap) (he : s.findEnv a k.a₁ true = some e)
    (hv : badVa k.a₂ = false) : Remaps s a k e k.a₂ 0#32

-- In an environment that runs on a processor other than `c`, no page that is mapped gets a different entry.
def SparesMappings (s : Kernel) (c : CpuIx) (a : EnvIx) (k : Call) : Prop :=
  ∀ e va w, s.Remaps a k e va w → s.Elsewhere c e →
    s.target (.pte e (pdx va) (ptx va)) = none ∨ s.pteOf e (pdx va) (ptx va) = w

-- What a system call finds when `trap` dispatches it.
theorem cur_entered (hu : UpToAddr ((s.started c).saveTf a tf) s') : s'.cur = s.cur := by
  obtain ⟨x, rfl⟩ := hu
  exact (SameTable.started (c := c)).cur

theorem findEnv_addr (hu : UpToAddr ((s.started c).saveTf a tf) s') {envid : EnvId} {check : Bool} :
    s'.findEnv a envid check = s.findEnv a envid check := by
  obtain ⟨x, rfl⟩ := hu
  exact System.findEnv_entered

theorem Receives.of_entered (hu : UpToAddr ((s.started c).saveTf a tf) s') (hr : s'.Receives a k b) :
    s.Receives a k b := by
  obtain ⟨hk, he, hi⟩ := hr
  refine ⟨hk, findEnv_addr hu ▸ he, ?_⟩
  obtain ⟨x, rfl⟩ := hu
  change (((s.started c).saveTf a tf).envs b).ipcRecving = true at hi
  rwa [System.envs_entered] at hi

theorem SparesMappings.entered (h : s.SparesMappings c a k) (hu : UpToAddr ((s.started c).saveTf a tf) s') :
    s'.SparesMappings c a k := by
  have hm : SameMem s s' := (sameMem_started.trans sameMem_saveTf).trans hu.sameMem
  have hf : ∀ envid check, s'.findEnv a envid check = s.findEnv a envid check := fun _ _ => findEnv_addr hu
  intro e va w hr he
  rw [hm.target, hm.pteOf]
  refine h e va w ?_ (by simpa only [Elsewhere, cur_entered hu] using he)
  cases hr
  case alloc pp hk hv hp hl he => exact .alloc hk (hf _ _ ▸ he) hv hp (hm.alloc.free ▸ hl)
  case map e₀ pp hk he₀ hv₀ hv hp hr hw he =>
    rw [hm.target] at hr
    rw [hm.pteOf] at hw
    exact .map hk (hf _ _ ▸ he₀) (hf _ _ ▸ he) hv₀ hv hp hr hw
  case unmap hk hv he => exact .unmap hk (hf _ _ ▸ he) hv

end Kernel

section Events

variable (h : PageInv M ∅ l s) (hk : KernHalf s₀ s)

include h hk in
theorem Kernel.Effect.kernHalf (hx : Effect c a k s s') : KernHalf s₀ s' := by
  cases hx
  case skip => exact hk
  case alloc e pd pp hk' _ hd hv _ hl hn =>
    obtain ⟨l', rfl⟩ := h.free_of_head hl
    have hx : PageInv.Held (insert pp ∅) ∅ (s.popFree pp) pp := .flight rfl (by simp)
    have hk₁ : KernHalf s₀ (s.popFree pp) := hk.sameUpper (.of_mem rfl rfl rfl)
    exact hk₁.sameUpper (h.popFree.sameUpper_mapPage hd (pdx_lt (lt_utop_of_badVa hv)) hn hx)
  case map e₀ e pd pp _ _ _ hd _ hv _ hr _ hn =>
    exact hk.sameUpper (h.sameUpper_mapPage hd (pdx_lt (lt_utop_of_badVa hv)) hn (.mapped rfl hr))
  case send e pd pp _ _ _ hd _ hv _ hr _ hn =>
    exact hk.sameUpper (h.sameUpper_mapPage hd (pdx_lt hv) hn (.mapped rfl hr))
  case unmap e pd _ _ hd hv => exact hk.sameUpper (h.sameUpper_unmapPage hd (pdx_lt (lt_utop_of_badVa hv)))
  case fork e p _ _ hl =>
    obtain ⟨l', rfl⟩ := h.free_of_head hl
    exact hk.newEnv h
  case free e pd _ hd => exact hk.freeEnv h hd

-- What a system call leaves of the translations of an environment that runs on another processor.
include h hk in
theorem Kernel.Effect.walks (hL : EnvInv L s) (hx : Effect c a k s s') (hs : s.SparesMappings c a k)
    (hw : s.Elsewhere c b) (hr : ¬s.Receives a k b) (hb : s.pgdirOf b ≠ none) (hb' : s'.pgdirOf b ≠ none) :
    KeepsWalks b s s' := by
  cases hx
  case skip => exact .of_mem rfl rfl
  case alloc e pd pp hk' he hd hv hp hl hn =>
    obtain ⟨l', rfl⟩ := h.free_of_head hl
    have hk₁ : KernHalf s₀ (s.popFree pp) := hk.sameUpper (.of_mem rfl rfl rfl)
    refine KeepsWalks.trans (show KeepsWalks _ s (s.popFree pp) from .of_mem rfl rfl) ?_
    refine h.popFree.mapPage_walks hk₁ hd (pdx_lt (lt_utop_of_badVa hv)) hn fun hbe => ?_
    exact hs e _ _ (.alloc hk' he hv hp hl) (hbe ▸ hw)
  case map e₀ e pd pp hk' he₀ he hd hv₀ hv hp hr hpw hn =>
    refine h.mapPage_walks hk hd (pdx_lt (lt_utop_of_badVa hv)) hn fun hbe => ?_
    exact hs e _ _ (.map hk' he₀ he hv₀ hv hp hr hpw) (hbe ▸ hw)
  case send e pd pp hk' he hi hd _ hv _ _ _ hn =>
    refine h.mapPage_walks hk hd (pdx_lt hv) hn fun hbe => ?_
    exact absurd ⟨hk', hbe ▸ he, hbe ▸ hi⟩ hr
  case unmap e pd hk' he hd hv =>
    refine h.unmapPage_walks hk hd (pdx_lt (lt_utop_of_badVa hv)) fun hbe => ?_
    exact hs e _ _ (.unmap hk' he hv) (hbe ▸ hw)
  case fork e p _ he hl =>
    obtain ⟨L', rfl⟩ := hL.of_head he
    obtain ⟨l', rfl⟩ := h.free_of_head hl
    refine h.newEnv_walks hk ?_
    rintro rfl
    exact hb (pgdirOf_free (hL.mem.mp (by simp)))
  case free e pd _ hd =>
    refine h.freeEnv_walks hk hd ?_
    rintro rfl
    exact hb' (h.freed hd).gone

include h hk in
theorem Kernel.Poke.kernHalf (hx : Poke e s s') : KernHalf s₀ s' := by
  obtain ⟨hv, hp, hw⟩ := hx
  refine hk.sameUpper ⟨rfl, rfl, fun hq => ?_, fun hd _ => ?_⟩
  case refine_1 =>
    rw [mem_setByteAt_of_ne (h.page_ne_tables hp (hq.imp .inl fun ⟨i, _, ht⟩ => ⟨i, ht⟩))]
  case refine_2 => rw [mem_setByteAt_of_ne (h.page_ne_tables hp (.inl (.inr (.inl ⟨_, hd⟩))))]

include h hk in
theorem PageInv.pokes_walks (hx : ReflTransGen (Poke e) s s') :
    PageInv M ∅ l s' ∧ KernHalf s₀ s' ∧ KeepsWalks a s s' := by
  induction hx
  case refl => exact ⟨h, hk, .of_mem rfl rfl⟩
  case tail s₁ s₂ _ hx ih =>
    obtain ⟨h₁, hk₁, hw⟩ := ih
    exact ⟨h₁.poke hx, hx.kernHalf h₁ hk₁, hw.trans (h₁.poke_walks hk₁ hx)⟩

omit h hk in
theorem KernHalf.sameMem (hk : KernHalf s₀ s) (hs : SameMem s s') : KernHalf s₀ s' :=
  hk.sameUpper (.of_mem hs.alloc.kernPgdir hs.pgdirOf hs.mem)

include h hk in
theorem Kernel.TrapMem.walks (hL : EnvInv L s) (hx : TrapMem c a tf s s') :
    KernHalf s₀ s' ∧ ((tf.trapno = tSyscall → s.SparesMappings c a tf.call ∧ ¬s.Receives a tf.call b) →
      s.Elsewhere c b → s.pgdirOf b ≠ none → s'.pgdirOf b ≠ none → KeepsWalks b s s') := by
  cases hx
  case call hk' hx =>
    obtain ⟨s₁, s₂, hu, hx, hs⟩ := hx
    have hm : SameMem s s₁ := (sameMem_started.trans sameMem_saveTf).trans hu.sameMem
    have h₁ := hm.pageInv h
    have hk₁ := hk.sameMem hm
    refine ⟨(hx.kernHalf h₁ hk₁).sameMem hs, fun hc hw hb hb' => ?_⟩
    obtain ⟨hsp, hr⟩ := hc hk'
    refine ((KeepsWalks.sameMem hm).trans ?_).trans (.sameMem hs)
    refine hx.walks h₁ hk₁ (hm.envInv hL) (hsp.entered hu) ?_ ?_ (by rwa [hm.pgdirOf]) (by rwa [← hs.pgdirOf])
    case refine_1 => simpa only [Elsewhere, cur_entered hu] using hw
    case refine_2 => exact fun hr' => hr (hr'.of_entered hu)
  case reap s₁ pd h₁ hd hs =>
    have hi := h₁.pageInv h
    have hk₁ := hk.sameMem h₁
    refine ⟨(hk₁.freeEnv hi hd).sameMem hs, fun _ _ _ hb' => ?_⟩
    refine ((KeepsWalks.sameMem h₁).trans (hi.freeEnv_walks hk₁ hd ?_)).trans (.sameMem hs)
    rintro rfl
    rw [hs.pgdirOf] at hb'
    exact hb' (hi.freed hd).gone
  case pokes s₁ s₂ h₀ hx h₁ =>
    obtain ⟨-, hk₂, hw⟩ := (h₀.pageInv h).pokes_walks (a := b) (hk.sameMem h₀) hx
    exact ⟨hk₂.sameMem h₁, fun _ _ _ _ => ((KeepsWalks.sameMem h₀).trans hw).trans (.sameMem h₁)⟩

end Events

namespace System

-- No system call changes a translation of an environment that runs on another processor.
def Quiet (S : System) (y : Action) : Prop :=
  S.Orderly y ∧ S.Calls SparesMappings y

-- A processor in user mode has cached only what is still in the page tables of its environment.
def Fresh (S : System) : Prop :=
  ∀ {c n w}, S.mode c = .user → (n, w) ∈ (S.kern.cpus c).tlb →
    ∀ va, pgnum va = n → S.kern.walk (S.kern.cpus c).cr3 va = some w

-- What an event leaves of the translations of an environment that runs on another processor.
theorem MemEvent.walks (hx : MemEvent S y s') (h : PageInv M ∅ l S.kern) (hL : EnvInv L S.kern)
    (hk : KernHalf s₀ S.kern) (hy : S.Quiet y) :
    KernHalf s₀ s' ∧ (S.kern.Elsewhere y.cpu b → S.kern.pgdirOf b ≠ none → s'.pgdirOf b ≠ none →
      KeepsWalks b S.kern s') := by
  cases hx
  case skip hs => exact ⟨hk.sameMem hs, fun _ _ _ => .sameMem hs⟩
  case trap c a tf va hy' ha hx =>
    subst hy'
    obtain ⟨hk', hw⟩ := hx.walks (b := b) h hk hL
    refine ⟨hk', fun he => hw (fun hn => ?_) he⟩
    exact ⟨hy.2 a ha hn, (hy.1.1 a ha hn b he).2.1⟩
  case refault c a tf hy' hn ha hx =>
    subst hy'
    obtain ⟨hk', hw⟩ := hx.walks (b := b) h hk hL
    refine ⟨hk', fun he => hw (fun hn' => ?_) he⟩
    rw [hn] at hn'
    exact absurd hn' (by decide)
  case store ha hx => exact ⟨hx.kernHalf h hk, fun _ _ _ => h.poke_walks hk hx⟩

-- The invariant of the processors and of memory, for the caches.
structure TlbInv (M : Set Ppn) (s₀ : Kernel) (S : System) : Prop where
  inv   : S.Inv suspendedPolicy
  mem   : MemInv M S.kern
  kern  : KernHalf s₀ S.kern
  fresh : S.Fresh

namespace TlbInv

variable (h : S.TlbInv M s₀)

-- Another processor goes on with what it has cached.
include h in
theorem fresh_other (hi : S'.Inv suspendedPolicy) (hev : Event S y S') (hf : Forgets S.kern S'.kern)
    (hw : ∀ b, S.kern.Elsewhere y.cpu b → S.kern.pgdirOf b ≠ none → S'.kern.pgdirOf b ≠ none →
      KeepsWalks b S.kern S'.kern)
    (hc : c ≠ y.cpu) (hm : S'.mode c = .user) (he : (p, w) ∈ (S'.kern.cpus c).tlb) (hp : pgnum va = p) :
    S'.kern.walk (S'.kern.cpus c).cr3 va = some w := by
  obtain ⟨hcur, hmode, -⟩ := hev.others hc
  have hm₀ : S.mode c = .user := hmode ▸ hm
  obtain ⟨b, hb'⟩ := hi.runs (c := c) (by simp [hm]) (by simp [hm]) (by simp [hm])
  have hb : S.kern.cur c = some b := hcur ▸ hb'
  have hd := h.inv.loaded (by simp [hm₀]) hb
  have hd' := hi.loaded (by simp [hm]) hb'
  obtain ⟨hd₁, hw⟩ := hw b ⟨c, hc, hb⟩ (by simp [hd]) (by simp [hd']) _ hd
  have hcr : (S'.kern.cpus c).cr3 = (S.kern.cpus c).cr3 := Option.some.inj (hd'.symm.trans hd₁)
  rw [hcr]
  exact hw va w (h.fresh hm₀ (hf c he) va hp)

-- So does the processor on which a program stores a byte.
include h in
theorem fresh_store (hl : PageInv M ∅ l S.kern) (hm : S.mode c = .user) (hv : va < utop)
    (ht : S.kern.translate (S.kern.cpus c).cr3 va ⟨true, true⟩ = some p)
    (he : (q, w) ∈ (S.kern.cpus c).tlb) (hq : pgnum va' = q) :
    (S.kern.setByteAt p va v).walk (S.kern.cpus c).cr3 va' = some w := by
  obtain ⟨a, ha⟩ := h.inv.runs (c := c) (by simp [hm]) (by simp [hm]) (by simp [hm])
  have hd := h.inv.loaded (by simp [hm]) ha
  exact (hl.poke_walks h.kern (poke_of_translate hd hv ht) _ hd).2 va' w (h.fresh hm he va' hq)

include h in
theorem kernel (hs : S.step y = some S') (hy : S.Quiet y) : S'.TlbInv M s₀ := by
  have hi := h.inv.step hs (Calls.allows SparesRunnable.allows S y hy.1.1)
  obtain ⟨l, L, hl, hL⟩ := h.mem
  have hx := h.inv.memEvent hl hs
  have hev := h.inv.healthy.event hs
  refine ⟨hi, hx.memInv h.mem hy.1.2.1 (hy.1.2.2 S' hs), (hx.walks (b := 0) hl hL h.kern hy).1,
    fun {c n w} hm he va hn => ?_⟩
  by_cases hc : c = y.cpu
  case neg => exact h.fresh_other hi hev (forgets_step hs) (fun b => (hx.walks hl hL h.kern hy).2) hc hm he hn
  case pos =>
    subst hc
    cases y
    case store c va' b =>
      cases hev
      case store p hm hv ht => exact h.fresh_store hl hm hv ht he hn
    all_goals
      rw [hev.flushed (fun _ _ _ hst => by cases hst) hm] at he
      cases he

include h in
theorem fill : ({ S with kern := S.kern.fill c va } : System).TlbInv M s₀ := by
  simp only [Kernel.fill]
  split
  case h_1 => exact h
  case h_2 w hw =>
    have hst : SameTable S.kern (S.kern.setCpu c fun i => { i with tlb := (pgnum va, w) :: i.tlb }) := by
      refine ⟨rfl, rfl, rfl, funext fun c' => ?_, fun c' => ?_⟩
      all_goals by_cases hc : c' = c <;> simp [Kernel.cur, setCpu, hc]
    have hsm : SameMem S.kern (S.kern.setCpu c fun i => { i with tlb := (pgnum va, w) :: i.tlb }) := .setCpu
    refine ⟨⟨h.inv.apart.sameTable hst, fun h₁ h₂ h₃ => ?_, fun hs => (h.inv.tables hs).sameTable hst⟩,
      h.mem.sameMem hsm, h.kern.sameMem hsm, fun {c' n x} hm he va' hn => ?_⟩
    case refine_1 =>
      rw [hst.cur]
      exact h.inv.runs h₁ h₂ h₃
    case refine_2 =>
      simp only [hst.cr3]
      change S.kern.walk _ va' = _
      by_cases hc : c' = c
      case neg => exact h.fresh hm (by simpa [setCpu, hc] using he) va' hn
      case pos =>
        subst hc
        simp only [setCpu, update_self, List.mem_cons, Prod.mk.injEq] at he
        obtain ⟨rfl, rfl⟩ | he := he
        case inl => rw [walk_page hn, hw]
        case inr => exact h.fresh hm he va' hn

-- A store through a cached translation is a store through the page tables.
include h in
theorem store_step (hm : S.mode c = .user) (hv : va < utop) (he : (pgnum va, w) ∈ (S.kern.cpus c).tlb)
    (hr : reach w ⟨true, true⟩ = some p) :
    S.step (.store c va v) = some { S with kern := S.kern.setByteAt p va v } := by
  rw [reach_walk (h.fresh hm he va rfl)] at hr
  simp [System.step, hm, hv, hr]

include h in
theorem store_quiet : S.Quiet (.store c va v) := by
  refine ⟨⟨trivial, trivial, fun S' hs => ?_⟩, trivial⟩
  obtain ⟨l, L, hl, hL⟩ := h.mem
  have hx := h.inv.memEvent hl hs
  cases hx
  case skip hs => exact (h.mem.sameMem hs).refsFit
  case store hx => exact (h.mem.pokes (.single hx)).refsFit
  case trap hy _ _ => cases hy
  case refault hy _ _ _ => cases hy

end TlbInv

-- The events of a run that enter the kernel all satisfy `C`.
def ReachesTlb (C : System → Action → Prop) : System → System → Prop :=
  ReflTransGen fun S S' => ∃ z, S.stepTlb z = some S' ∧ ∀ y, z = .kernel y → C S y

theorem TlbInv.step {z : TlbAction} (h : S.TlbInv M s₀) (hs : S.stepTlb z = some S')
    (hz : ∀ y, z = .kernel y → S.Quiet y) : S'.TlbInv M s₀ := by
  cases z
  case kernel y =>
    have hy : S.step y = some S' := by
      cases y
      case store => cases hs
      all_goals exact hs
    exact h.kernel hy (hz y rfl)
  case fill c va =>
    cases hs
    exact h.fill
  case store c va w b =>
    simp only [stepTlb] at hs
    split at hs
    case isFalse => cases hs
    case isTrue hc =>
      obtain ⟨p, hp, rfl⟩ := Option.map_eq_some_iff.mp hs
      exact h.kernel (h.store_step hc.1 hc.2.1 hc.2.2 hp) h.store_quiet

theorem TlbInv.reaches (h : S₀.TlbInv M s₀) (hr : ReachesTlb Quiet S₀ S) : S.TlbInv M s₀ := by
  induction hr
  case refl => exact h
  case tail _ hs ih =>
    obtain ⟨z, hz, hq⟩ := hs
    exact ih.step hz hq

theorem Booted.tlbInv (hb : Booted M S₀) (hk : KernHalf s₀ S₀.kern) : S₀.TlbInv M s₀ :=
  ⟨hb.inv trivial, hb.mem, hk, fun hm => by rw [hb.mode] at hm; cases hm⟩

end System

theorem soleSystem_kernHalf : KernHalf (freshKernel 16) soleSystem.kern := by
  obtain ⟨l, L, h, -⟩ := freshKernel_inv (n := 16) (by decide)
  have hf : (freshKernel 16).pageFreeList = some 1#20 := rfl
  obtain ⟨l', rfl⟩ := h.free_of_head hf
  refine KernHalf.newEnv ⟨rfl, fun _ => rfl, fun {e pd i} hd _ => ?_⟩ h
  have hn : (freshKernel 16).pgdirOf e = none := rfl
  cases hn.symm.trans hd

-- The parent maps a page in its child, which another processor runs, and unmaps it again. The child can still write to
-- the page, although it is free.
theorem unmapped_page_still_cached :
    soleSystem.Booted { p | p ∈ freshPages 16 } ∧ KernHalf (freshKernel 16) soleSystem.kern ∧
    ∃ S, soleSystem.runTlb [.kernel (.start 0), .kernel (.call 0 7 0 0),
        .kernel (.trap 0 (Call.frame ⟨4, 0x1001, 0x1000, 7, 0, 0⟩) 0), .kernel (.call 0 8 0x1001 2), .kernel (.start 1),
        .fill 1 0x1000#32, .kernel (.call 0 6 0x1001 0x1000)] = some S ∧
      S.mode 1 = .user ∧ (pgnum 0x1000#32, 0x3007#32) ∈ (S.kern.cpus 1).tlb ∧
      S.kern.walk (S.kern.cpus 1).cr3 0x1000#32 = none ∧ reach 0x3007#32 ⟨true, true⟩ = S.kern.pageFreeList ∧
      S.kern.pageFreeList = some 3#20 := by
  have hr : (soleSystem.runTlb [.kernel (.start 0), .kernel (.call 0 7 0 0),
        .kernel (.trap 0 (Call.frame ⟨4, 0x1001, 0x1000, 7, 0, 0⟩) 0), .kernel (.call 0 8 0x1001 2), .kernel (.start 1),
        .fill 1 0x1000#32, .kernel (.call 0 6 0x1001 0x1000)]).map (fun S =>
          (S.mode 1, (S.kern.cpus 1).tlb, S.kern.walk (S.kern.cpus 1).cr3 0x1000#32, S.kern.pageFreeList)) =
      some (.user, [(1#20, 0x3007#32)], none, some 3#20) := by decide +kernel
  obtain ⟨S, hS, h⟩ := Option.map_eq_some_iff.mp hr
  simp only [Prod.mk.injEq] at h
  obtain ⟨hm, ht, hw, hf⟩ := h
  refine ⟨soleSystem_booted, soleSystem_kernHalf, S, hS, hm, ?_, hw, ?_, hf⟩
  case refine_1 =>
    rw [ht]
    decide
  case refine_2 =>
    rw [hf]
    decide

end Jos
