import Jos.Kernel.Theorems.System

-- In which order `sched_yield` picks environments: what every entry into the kernel leaves behind.

open Function Program Relation

namespace Jos

open Kernel

variable {α β : Type} {s s' : Kernel} {c : CpuIx} {a e f g h : EnvIx} {o : Option EnvIx}
  {m : K α} {pd pp : Ppn} {va len perm faultVa : Word} {tf : Trapframe} {ptr : TfPtr} {x : Exit}
  {envid : EnvId}

-- How many slots after `a` the slot `b` comes, in circular order.
def ahead (a b : EnvIx) : Nat :=
  (b.val + 1024 - a.val) % 1024

theorem ahead_pos (hne : g ≠ a) : 0 < ahead a g := by
  have hv : g.val ≠ a.val := fun hv => hne (Fin.ext hv)
  have := a.isLt
  have := g.isLt
  simp only [ahead]
  omega

theorem ahead_self : ahead a a = 0 := by
  simp [ahead]

-- Going on from `a` by less than it takes to `f`, with `a` between `e` and `f`.
theorem ahead_between (hlt : ahead e a < ahead e f) (hfg : f ≠ g) (hga : g ≠ a) (hle : ¬ahead a f < ahead a g) :
    ahead e a < ahead e g ∧ ahead e g < ahead e f := by
  have hv : f.val ≠ g.val := fun hv => hfg (Fin.ext hv)
  have hv' : g.val ≠ a.val := fun hv => hga (Fin.ext hv)
  have := a.isLt
  have := e.isLt
  have := f.isLt
  have := g.isLt
  simp only [ahead] at hlt hle ⊢
  omega

namespace Kernel

-- The state `s'` in which the processor `c` has left the kernel, after it had entered it with `a`. Unless `a` has been
-- freed, another environment is only running now if the slots in between are not runnable, and there is none
-- only if no other environment is runnable.
structure Fair (c : CpuIx) (a : EnvIx) (s' : Kernel) : Prop where
  pick : ∀ g, s'.cur c = some g → g ≠ a → (s'.envs a).status ≠ .free →
    (s'.envs g).status ≠ .runnable ∧ ∀ h, 0 < ahead a h → ahead a h < ahead a g → (s'.envs h).status ≠ .runnable
  none : s'.cur c = .none → (s'.envs a).status ≠ .free → ∀ h, h ≠ a → (s'.envs h).status ≠ .runnable

-- The processor `c` leaves the kernel, where it had entered it with the environment `o`, if any.
def Leaving (c : CpuIx) (o : Option EnvIx) (s' : Kernel) : Prop :=
  ∀ a, o = some a → Fair c a s'

-- The environment is still the current one.
theorem Fair.of_cur (hc : s'.cur c = some a) : Fair c a s' where
  pick g hg hne := by
    rw [hc] at hg
    cases hg
    exact absurd rfl hne
  none hn := by
    rw [hc] at hn
    cases hn

theorem Leaving.of_cur (hc : s'.cur c = o) : Leaving c o s' :=
  fun _ ha => .of_cur (hc.trans ha)

end Kernel

-- Whoever runs `m` keeps its processor while `m` goes on, and leaves the kernel in turn.
def InTurn (c : CpuIx) (o : Option EnvIx) (m : K α) : Prop :=
  ∀ s, s.cur c = o → wp m (fun _ s' => s'.cur c = o) (fun _ => Leaving c o) s

theorem InTurn.bind {u : α → K β} (hm : InTurn c o m) (hu : ∀ x, InTurn c o (u x)) : InTurn c o (m >>= u) :=
  Within.bind hm hu

theorem InTurn.get_bind {u : Kernel → K α}
    (hu : ∀ s, s.cur c = o → wp (u s) (fun _ s' => s'.cur c = o) (fun _ => Leaving c o) s) :
    InTurn c o (MonadState.get >>= u) :=
  fun s hc => wp_bind_get.mpr (hu s hc)

theorem InTurn.of_page (hm : KeepsOr (fun s s' : Kernel => s.cur c = o → s'.cur c = o) (· = .panic) m) : InTurn c o m :=
  Within.of_keeps hm .of_cur

theorem pageClosed_cur : PageClosed fun s s' => s.cur c = o → s'.cur c = o where
  pages := id
  addr := id
  tlb hc := (congrFun SameEnvs.invalidate.cur c).trans hc

section Scheduler

-- What `env_run` does to the environments, also if it panics on the way.
theorem envRun_state : wp (envRun c g) (fun _ _ => False)
    (fun _ s' => s'.cur c = some g ∧ (s'.envs g).status = .running ∧
      ∀ h, h ≠ g → s.cur c ≠ some h → s'.envs h = s.envs h) s := by
  have hp : ∀ h, s.cur c ≠ some h → (s.preempt c).envs h = s.envs h := by
    intro h hh
    simp only [preempt]
    split
    case _ => rfl
    case _ e he =>
      split
      case isTrue =>
        have hne : h ≠ e := fun hc => hh (hc ▸ he)
        simp [setEnv, hne]
      case isFalse => rfl
  simp only [envRun, wp_bind_modify, wp_bind_get]
  split
  case _ =>
    refine ⟨by simp [Kernel.cur, setCpu, setEnv], by simp [setEnv], fun h hne hh => ?_⟩
    rw [← hp h hh]
    simp [setEnv, setCpu, hne]
  case _ =>
    simp only [lcr3, wp_bind_modify, wp_throw]
    refine ⟨by simp [Kernel.cur, setCpu, setEnv], by simp [setEnv, setCpu], fun h hne hh => ?_⟩
    rw [← hp h hh]
    simp [setEnv, setCpu, hne]

theorem envRun_leaving (hc : s.cur c = o)
    (hn : ∀ a, o = some a → ∀ h, 0 < ahead a h → ahead a h < ahead a g → (s.envs h).status ≠ .runnable) :
    wp (envRun c g) (fun _ _ => False) (fun _ => Leaving c o) s := by
  refine wp_mono envRun_state (fun _ _ => id) ?_
  rintro x s' ⟨hg, hst, hsame⟩
  refine fun a ha => ⟨fun g' hg' _ _ => ?_, fun hnone => ?_⟩
  case refine_1 =>
    rw [hg] at hg'
    cases hg'
    refine ⟨by simp [hst], fun h h₀ hlt => ?_⟩
    have hne : h ≠ g := by
      rintro rfl
      omega
    have hna : s.cur c ≠ some h := by
      rw [hc, ha]
      rintro ⟨rfl⟩
      rw [ahead_self] at h₀
      omega
    rw [hsame h hne hna]
    exact hn a ha h h₀ hlt
  case refine_2 =>
    rw [hg] at hnone
    cases hnone

theorem schedHalt_leaving (hc : s.cur c = o)
    (hn : ∀ a, o = some a → ∀ h, h ≠ a → (s.envs h).status ≠ .runnable) :
    wp (schedHalt c) (fun _ _ => False) (fun _ => Leaving c o) s := by
  simp only [schedHalt, wp_bind_get]
  split
  case isTrue =>
    simp only [lcr3, wp_bind_modify, wp_throw]
    have hcur : (((s.setCpu c fun i => { i with env := none }).setCpu c fun i =>
        { i with cr3 := s.kernPgdir, tlb := [] }).setCpu c fun i => { i with status := .halted }).cur c = none := by
      simp [Kernel.cur, setCpu]
    refine fun a ha => ⟨fun g hg => ?_, fun _ _ h hne => hn a ha h hne⟩
    rw [hcur] at hg
    cases hg
  case isFalse => exact .of_cur hc

-- The search from the slot after the current one, when the slots passed so far are not runnable.
theorem schedLoop_leaving {n : Nat} {i : EnvIx} (hc : s.cur c = some a) (hn : 0 < n) (hn' : n ≤ 1024)
    (hi : i.val = (a.val + 1025 - n) % 1024)
    (hs : ∀ h, 0 < ahead a h → ahead a h < 1025 - n → (s.envs h).status ≠ .runnable) :
    wp (schedLoop c n i) (fun _ _ => False) (fun _ => Leaving c (some a)) s := by
  induction n generalizing i
  case zero => omega
  case succ n ih =>
    have ha := a.isLt
    have hcur : s.cur c = some i ↔ n = 0 := by
      rw [hc, Option.some.injEq, Fin.ext_iff]
      omega
    simp only [schedLoop, wp_bind_get, hcur]
    split
    case isTrue hz =>
      have hia : i = a := Fin.ext (by omega)
      split
      case isTrue =>
        refine envRun_leaving hc fun a' ha' h _ hlt => ?_
        cases ha'
        rw [hia, ahead_self] at hlt
        omega
      case isFalse =>
        refine schedHalt_leaving hc fun a' ha' h hne => ?_
        cases ha'
        have hb : ahead a h < 1024 := Nat.mod_lt _ (by decide)
        exact hs h (ahead_pos hne) (by omega)
    case isFalse hz =>
      have hai : ahead a i = 1024 - n := by
        simp only [ahead]
        omega
      split
      case isTrue =>
        refine envRun_leaving hc fun a' ha' h h₀ hlt => ?_
        cases ha'
        exact hs h h₀ (by omega)
      case isFalse hr =>
        refine ih (by omega) (by omega) ?_ fun h h₀ hlt => ?_
        case refine_1 =>
          have : (i + 1).val = (i.val + 1) % 1024 := rfl
          omega
        case refine_2 =>
          by_cases he : ahead a h = 1024 - n
          case pos =>
            have hih : h = i := by
              have := h.isLt
              have := i.isLt
              simp only [ahead] at he hai
              exact Fin.ext (by omega)
            rw [hih]
            exact hr
          case neg => exact hs h h₀ (by omega)

-- Without a current environment there is no turn to keep.
theorem schedLoop_leaving_none {n : Nat} {i : EnvIx} (hc : s.cur c = none) :
    wp (schedLoop c n i) (fun _ _ => False) (fun _ => Leaving c none) s := by
  induction n generalizing i
  case zero => exact schedHalt_leaving hc fun _ ha => nomatch ha
  case succ n ih =>
    simp only [schedLoop, wp_bind_get]
    split
    case isTrue hi =>
      rw [hc] at hi
      cases hi
    case isFalse =>
      split
      case isTrue => exact envRun_leaving hc fun _ ha => nomatch ha
      case isFalse => exact ih

theorem schedYield_leaving (hc : s.cur c = o) : wp (schedYield c) (fun _ _ => False) (fun _ => Leaving c o) s := by
  simp only [schedYield, wp_bind_get, hc]
  cases o
  case none => exact schedLoop_leaving_none hc
  case some a =>
    have ha := a.isLt
    refine schedLoop_leaving hc (by decide) (by decide) ?_ fun h _ _ => by omega
    have : (a + 1).val = (a.val + 1) % 1024 := rfl
    omega

-- The current environment is not picked while another one is runnable.
theorem schedLoop_switches {n : Nat} {i : EnvIx} (hc : s.cur c = some a) (hn : 0 < n) (hn' : n ≤ 1024)
    (hi : i.val = (a.val + 1025 - n) % 1024) (hf : (s.envs f).status = .runnable) (hlt : 1025 - n ≤ ahead a f) :
    wp (schedLoop c n i) (fun _ _ => False) (fun _ s' => ∃ g, s'.cur c = some g ∧ g ≠ a) s := by
  induction n generalizing i
  case zero => omega
  case succ n ih =>
    have ha := a.isLt
    have hb : ahead a f < 1024 := Nat.mod_lt _ (by decide)
    have hne : i ≠ a := fun hia => by
      rw [hia] at hi
      omega
    simp only [schedLoop, wp_bind_get, hc, Option.some.injEq, if_neg hne.symm]
    split
    case isTrue => exact wp_mono envRun_state (fun _ _ => id) fun _ _ h => ⟨i, h.1, hne⟩
    case isFalse hr =>
      refine ih (by omega) (by omega) ?_ ?_
      case refine_1 =>
        have : (i + 1).val = (i.val + 1) % 1024 := rfl
        omega
      case refine_2 =>
        by_contra hlt'
        have hfi : f = i := by
          have := f.isLt
          have := i.isLt
          simp only [ahead] at hlt hlt'
          exact Fin.ext (by omega)
        exact hr (hfi ▸ hf)

theorem schedYield_switches (hc : s.cur c = some a) (hf : (s.envs f).status = .runnable) (hfa : f ≠ a) :
    wp (schedYield c) (fun _ _ => False) (fun _ s' => ∃ g, s'.cur c = some g ∧ g ≠ a) s := by
  simp only [schedYield, wp_bind_get, hc]
  have ha := a.isLt
  refine schedLoop_switches hc (by decide) (by decide) ?_ hf (by have := ahead_pos hfa; omega)
  have : (a + 1).val = (a.val + 1) % 1024 := rfl
  omega

theorem inTurn_schedYield : InTurn c o (schedYield c) :=
  fun _ hc => wp_mono (schedYield_leaving hc) (fun _ _ => False.elim) fun _ _ => id

end Scheduler

section Destroy

theorem inTurn_envPgdir : InTurn c o (envPgdir e) := by
  refine Within.get.bind fun s => ?_
  split
  case _ => exact .throw .of_cur
  case _ => exact .pure

-- The environment is free once `env_free` returns.
theorem envFreeDir_leaving (hc : s.cur c = o) :
    wp (envFreeDir e pd) (fun _ s' => s'.cur c = o ∧ (s'.envs e).status = .free) (fun _ => Leaving c o) s := by
  have hd : InTurn c o (pa2page (page2pa pd) >>= pageDecref) :=
    Within.bind (InTurn.of_page keepsOr_pa2page) fun _ => InTurn.of_page pageClosed_cur.pageDecref
  simp only [envFreeDir, wp_bind_modify]
  rw [← bind_assoc]
  refine wp_seq (hd (s.setEnv e fun v => { v with pgdir := none }) hc) fun _ s' hc' => ?_
  simp only [wp_bind_modify, wp_bind_get, wp_set]
  exact ⟨hc', by simp [setEnv]⟩

theorem envFree_leaving (hc : s.cur c = o) :
    wp (envFree c e) (fun _ s' => s'.cur c = o ∧ (s'.envs e).status = .free) (fun _ => Leaving c o) s := by
  have hw : ∀ {s}, s.cur c = o → wp (envPgdir e >>= fun pgdir => do userPdxs.forM (envFreeTable c pgdir); envFreeDir e pgdir)
      (fun _ s' => s'.cur c = o ∧ (s'.envs e).status = .free) (fun _ => Leaving c o) s := by
    intro s hc
    generalize userPdxs = is
    refine wp_seq (inTurn_envPgdir s hc) fun pd s₁ h₁ => ?_
    refine wp_seq (Within.forM (fun _ => InTurn.of_page pageClosed_cur.envFreeTable) s₁ h₁) fun _ s₂ h₂ => ?_
    exact envFreeDir_leaving h₂
  simp only [envFree, wp_bind_get]
  split
  case isTrue => exact wp_bind_get.mpr (wp_bind_modify.mpr (hw (by simpa [Kernel.cur, setCpu] using hc)))
  case isFalse => exact hw hc

-- The scheduler runs after the environment `e` has been freed, which then stays free.
theorem freed_leaving (hf : (s.envs e).status = .free) (ho : ∀ a, o = some a → a = e) :
    wp (do modify (·.setCpu c fun i => { i with env := none }); schedYield c : K Unit) (fun _ _ => False)
      (fun _ => Leaving c o) s := by
  have hc : (s.setCpu c fun i => { i with env := none }).cur c = none := by simp [Kernel.cur, setCpu]
  simp only [wp_bind_modify]
  refine wp_mono (wp_and (schedYield_leaving hc) (keeps_schedYield _)) (fun _ _ h => h.1) ?_
  intro x s' hs a ha
  have hfree : (s'.envs a).status = .free := by
    rw [ho a ha, hs.2.live]
    exact hf
  exact ⟨fun g _ _ hn => absurd hfree hn, fun _ hn => absurd hfree hn⟩

theorem inTurn_envDestroy : InTurn c o (envDestroy c e) := by
  intro s hc
  simp only [envDestroy, wp_bind_get]
  split
  case isTrue => exact hc
  case isFalse =>
    refine wp_seq (envFree_leaving hc) fun _ s₁ h₁ => ?_
    simp only [wp_bind_get]
    split
    case isTrue he =>
      refine wp_mono (freed_leaving h₁.2 fun a ha => ?_) (fun _ _ => False.elim) fun _ _ => id
      rw [h₁.1, ha] at he
      exact Option.some.inj he
    case isFalse => exact h₁.1

theorem callClosed_inTurn : CallClosed c (·.cur c = o) (Leaving c o) where
  leave := .of_cur
  page := pageClosed_cur
  envs := id
  cons := id
  yield := inTurn_schedYield
  destroy := inTurn_envDestroy

end Destroy

section Trap

theorem inTurn_storeWord {w : Word} : InTurn c o (storeWord c va w) :=
  fun s hc => wp_mono (keepsOr_storeWord s) (fun _ _ hs => (congrFun hs.cur c).trans hc)
    fun _ _ hs => .of_cur ((congrFun hs.2.cur c).trans hc)

theorem inTurn_write {u : Trapframe → Trapframe} : InTurn c o (ptr.write u) := by
  cases ptr
  case env e => exact callClosed_inTurn.setEnv
  case stack => exact Within.pure

theorem inTurn_pageFaultHandler : InTurn c o (pageFaultHandler c ptr tf faultVa) := by
  intro s hc
  cases o
  case none =>
    have hr : (curenv c).run s = .error (.fault 0#32) s := by simp [curenv, hc]
    rw [pageFaultHandler, wp_bind_of_error hr]
    exact .of_cur hc
  case some a =>
    rw [pageFaultHandler, wp_bind_of_ok (curenv_run hc), wp_bind_get]
    have hrest : InTurn c (some a) (do
        ptr.write fun t => { t with esp := upcallEsp tf.esp }
        userMemAssert c a (upcallEsp tf.esp) (uxstacktop - upcallEsp tf.esp) (pteW ||| pteU)
        (utrapframe tf faultVa).forM fun q => storeWord c (upcallEsp tf.esp + q.1) q.2
        let upcall := ((← get).envs a).pgfaultUpcall
        ptr.write fun t => { t with eip := upcall }
        envRun c a) := by
      refine inTurn_write.bind fun _ => callClosed_inTurn.userMemAssert.bind fun _ => ?_
      refine (Within.forM fun _ => inTurn_storeWord).bind fun _ => Within.get.bind fun s => ?_
      refine inTurn_write.bind fun _ s' hc' => ?_
      refine wp_mono (envRun_leaving hc' fun a' ha' h _ hlt => ?_) (fun _ _ => False.elim) fun _ _ => id
      cases ha'
      rw [ahead_self] at hlt
      omega
    split
    case isTrue => exact wp_seq (inTurn_envDestroy s hc) fun _ s' hc' => hrest s' hc'
    case isFalse => exact hrest s hc

theorem inTurn_trapDispatch : InTurn c o (trapDispatch c ptr tf faultVa) := by
  simp only [trapDispatch]
  split
  case isTrue => exact Within.pure
  case isFalse =>
    split
    case isTrue => exact Within.pure
    case isFalse =>
      split
      case isTrue => exact inTurn_pageFaultHandler
      case isFalse =>
        split
        case isTrue => exact Within.bind callClosed_inTurn.syscall fun _ => inTurn_write
        case isFalse =>
          split
          case isTrue => exact inTurn_schedYield
          case isFalse =>
            split
            case isTrue => exact Within.throw .of_cur
            case isFalse => exact Within.bind callClosed_inTurn.curenv fun _ => inTurn_envDestroy

theorem inTurn_trapReturn : InTurn c o (trapReturn c) := by
  refine .get_bind fun s hc => ?_
  split
  case _ => exact inTurn_schedYield s hc
  case _ e he =>
    split
    case isTrue =>
      refine wp_mono (envRun_leaving hc fun a ha h _ hlt => ?_) (fun _ _ => False.elim) fun _ _ => id
      rw [hc, ha] at he
      cases he
      rw [ahead_self] at hlt
      omega
    case isFalse => exact inTurn_schedYield s hc

theorem inTurn_trap : InTurn c o (trap c tf faultVa) := by
  have hst : InTurn c o (modify fun s => s.setCpu c fun i => { i with status := .started }) :=
    Within.modify fun hc => by simpa [Kernel.cur, setCpu] using hc
  refine hst.bind fun _ => ?_
  split
  case isTrue =>
    refine .get_bind fun s hc => ?_
    split
    case _ => exact .of_cur hc
    case _ cur he =>
      simp only [wp_bind_get]
      split
      case isTrue =>
        refine wp_seq (envFree_leaving hc) fun _ s₁ h₁ => ?_
        refine wp_mono (freed_leaving h₁.2 fun a ha => ?_) (fun _ _ => False.elim) fun _ _ => id
        rw [hc, ha] at he
        exact Option.some.inj he
      case isFalse =>
        exact InTurn.bind callClosed_inTurn.setEnv (fun _ => inTurn_trapDispatch.bind fun _ => inTurn_trapReturn) s hc
  case isFalse => exact inTurn_trapDispatch.bind fun _ => inTurn_trapReturn

end Trap

end Jos
