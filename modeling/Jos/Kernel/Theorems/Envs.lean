import Jos.Kernel.Theorems.Closed

-- What the kernel does to environments and processors. None of this depends on the state of memory:
-- where the page tables are not what they should be, the kernel may panic.

open Function Program

namespace Jos

open Kernel

variable {s s' : Kernel} {c c' : CpuIx} {e e' a : EnvIx} {pd p pp : Ppn} {va len perm : Word}
  {zero create : Bool} {envid : EnvId} {x : Exit}

namespace Kernel

-- The environments and what the processors run are the same.
structure SameTable (s s' : Kernel) : Prop where
  envs      : s'.envs = s.envs
  free      : s'.envFreeList = s.envFreeList
  kernPgdir : s'.kernPgdir = s.kernPgdir
  cur       : s'.cur = s.cur
  cr3       : ∀ c, (s'.cpus c).cr3 = (s.cpus c).cr3

namespace SameTable

theorem refl (s : Kernel) : SameTable s s :=
  ⟨rfl, rfl, rfl, rfl, fun _ => rfl⟩

theorem trans {s₁ s₂ s₃ : Kernel} (h : SameTable s₁ s₂) (h' : SameTable s₂ s₃) : SameTable s₁ s₃ where
  envs := h'.envs.trans h.envs
  free := h'.free.trans h.free
  kernPgdir := h'.kernPgdir.trans h.kernPgdir
  cur := h'.cur.trans h.cur
  cr3 c := (h'.cr3 c).trans (h.cr3 c)

instance : Std.Refl SameTable :=
  ⟨refl⟩

instance : IsTrans Kernel SameTable :=
  ⟨fun _ _ _ => trans⟩

theorem setEnv {f : Env → Env} (h : SameTable s s') : SameTable (s.setEnv e f) (s'.setEnv e f) where
  envs := by simp only [Kernel.setEnv, h.envs]
  free := h.free
  kernPgdir := h.kernPgdir
  cur := h.cur
  cr3 := h.cr3

theorem of_addr (h : UpToAddr s s') : SameTable s s' := by
  obtain ⟨x, rfl⟩ := h
  exact ⟨rfl, rfl, rfl, rfl, fun _ => rfl⟩

theorem of_pages {pages : Ppn → PageInfo} {free : Option Ppn} {mem : Ppn → Ptx → Word} :
    SameTable s { s with pages, pageFreeList := free, mem } :=
  ⟨rfl, rfl, rfl, rfl, fun _ => rfl⟩

theorem of_envs (h : SameEnvs s s') : SameTable s s' :=
  ⟨h.envs, h.free, h.kernPgdir, h.cur, fun _ => h.cr3⟩

end SameTable

end Kernel

section Pages

-- What deals with pages only does not touch the environments, and leaves only by a panic.
abbrev PageOnly {α : Type} : K α → Prop :=
  KeepsOr SameTable (· = .panic)

theorem Kernel.SameTable.closed : PageClosed SameTable where
  pages := .of_pages
  addr := .of_addr ⟨_, rfl⟩
  tlb := .of_envs .invalidate

end Pages

namespace Kernel

-- `env_run`, for an environment with the page directory `pd`.
def runEnv (s : Kernel) (c : CpuIx) (e : EnvIx) (pd : Ppn) : Kernel :=
  ((s.preempt c).setCpu c fun i => { i with env := some e, cr3 := pd, tlb := [] }).setEnv e fun v =>
    { v with status := .running, runs := v.runs + 1#32, cpunum := c }

-- `sched_halt`, when some environment may still run.
def haltCpu (s : Kernel) (c : CpuIx) : Kernel :=
  s.setCpu c fun i => { i with status := .halted, env := none, cr3 := s.kernPgdir, tlb := [] }

-- How the scheduler leaves the kernel.
inductive Schedules (c : CpuIx) (s : Kernel) : Exit → Kernel → Prop
  | pick {e : EnvIx} {pd : Ppn} (hr : (s.envs e).status = .runnable) (hd : (s.envs e).pgdir = some pd) :
    Schedules c s .user (s.runEnv c e pd)
  | resume {e : EnvIx} {pd : Ppn} (hc : s.cur c = some e) (hr : (s.envs e).status = .running)
    (hd : (s.envs e).pgdir = some pd) : Schedules c s .user (s.runEnv c e pd)
  | halt : Schedules c s .halt (s.haltCpu c)
  | monitor : Schedules c s .monitor s

end Kernel

theorem pgdir_preempt : ((s.preempt c).envs e).pgdir = (s.envs e).pgdir := by
  simp only [preempt]
  split
  case _ => rfl
  case _ x _ =>
    split
    case isTrue =>
      by_cases he : e = x <;> simp [setEnv, he]
    case isFalse => rfl

theorem envRun_run (hd : (s.envs e).pgdir = some pd) :
    (envRun c e).run s = .error .user (s.runEnv c e pd) := by
  have hp : ((s.preempt c).envs e).pgdir = some pd := pgdir_preempt.trans hd
  simp [envRun, setEnv, setCpu, lcr3, hp, runEnv]

section Scheduler

variable (hd : s.HasDirs)

include hd in
theorem HasDirs.some_of_live (he : (s.envs e).status ≠ .free) : ∃ pd, (s.envs e).pgdir = some pd :=
  Option.ne_none_iff_exists'.mp (mt hd.mpr he)

theorem schedHalt_schedules : wp (schedHalt c) (fun _ _ => False) (Schedules c s) s := by
  simp only [schedHalt, wp_bind_get]
  split
  case isTrue =>
    simp only [lcr3, wp_bind_modify, wp_throw]
    have hh : ((s.setCpu c fun i => { i with env := none }).setCpu c fun i =>
        { i with cr3 := s.kernPgdir, tlb := [] }).setCpu c (fun i => { i with status := .halted }) =
        s.haltCpu c := by simp [setCpu, haltCpu]
    rw [hh]
    exact .halt
  case isFalse => exact .monitor

include hd in
theorem schedLoop_schedules {n : Nat} {i : EnvIx} :
    wp (schedLoop c n i) (fun _ _ => False) (Schedules c s) s := by
  induction n generalizing i
  case zero => exact schedHalt_schedules
  case succ n ih =>
    simp only [schedLoop, wp_bind_get]
    split
    case isTrue hc =>
      split
      case isTrue hr =>
        obtain ⟨pd, hp⟩ := HasDirs.some_of_live hd (e := i) (by simp [hr])
        exact wp_of_error (envRun_run hp) (.resume hc hr hp)
      case isFalse => exact schedHalt_schedules
    case isFalse =>
      split
      case isTrue hr =>
        obtain ⟨pd, hp⟩ := HasDirs.some_of_live hd (e := i) (by simp [hr])
        exact wp_of_error (envRun_run hp) (.pick hr hp)
      case isFalse => exact ih

-- `sched_yield` does not return.
include hd in
theorem schedYield_schedules : wp (schedYield c) (fun _ _ => False) (Schedules c s) s := by
  simp only [schedYield, wp_bind_get]
  split <;> exact schedLoop_schedules hd

end Scheduler

namespace Kernel

-- The kernel may have panicked in the middle of freeing the environment `e` on the processor `c`.
structure Stopped (c : CpuIx) (e : EnvIx) (s s' : Kernel) : Prop where
  cur  : s'.cur = s.cur
  cr3  : ∀ c', c' ≠ c → (s'.cpus c').cr3 = (s.cpus c').cr3
  envs : ∀ e', ∃ x, s'.envs e' = { s.envs e' with pgdir := x } ∧ (e' ≠ e → x = (s.envs e').pgdir)

-- The current environment has been freed.
def reap (s : Kernel) (c : CpuIx) (e : EnvIx) : Kernel :=
  (s.retire e).setCpu c fun i => { i with env := none, cr3 := s.kernPgdir, tlb := [] }

theorem SameTable.stopped (h : SameTable s s') : Stopped c e s s' :=
  ⟨h.cur, fun _ _ => h.cr3 _, fun e => ⟨(s.envs e).pgdir, by rw [h.envs], fun _ => rfl⟩⟩

theorem Stopped.trans {s'' : Kernel} (h : Stopped c e s s') (h' : Stopped c e s' s'') : Stopped c e s s'' := by
  refine ⟨h'.cur.trans h.cur, fun c' hc => (h'.cr3 c' hc).trans (h.cr3 c' hc), fun e' => ?_⟩
  obtain ⟨x, hx, hx'⟩ := h.envs e'
  obtain ⟨y, hy, hy'⟩ := h'.envs e'
  refine ⟨y, by rw [hy, hx], fun he => ?_⟩
  rw [hy' he, hx]
  exact hx' he

theorem SameTable.retire (h : SameTable s s') : SameTable (s.retire e) (s'.retire e) where
  envs := by simp only [Kernel.retire, Kernel.setEnv, h.envs, h.free]
  free := rfl
  kernPgdir := h.kernPgdir
  cur := h.cur
  cr3 := h.cr3

theorem SameTable.hasDirs (h : SameTable s s') (hd : s.HasDirs) : s'.HasDirs := by
  intro e
  rw [h.envs]
  exact hd

theorem hasDirs_retire (hd : s.HasDirs) : (s.retire e).HasDirs := by
  intro e'
  by_cases he : e' = e
  case pos => simp [Kernel.retire, setEnv, he]
  case neg =>
    simp only [Kernel.retire, setEnv, update_of_ne he]
    exact hd

theorem cur_leave : (s.leave c e).cur = s.cur := by
  funext c'
  simp only [leave]
  split
  case isTrue => by_cases hc : c' = c <;> simp [Kernel.cur, setCpu, hc]
  case isFalse => rfl

theorem cr3_leave (hc : c' ≠ c) : ((s.leave c e).cpus c').cr3 = (s.cpus c').cr3 := by
  simp only [leave]
  split
  case isTrue => simp [setCpu, hc]
  case isFalse => rfl

end Kernel

section Free

theorem envFreeDir_table :
    wp (envFreeDir e pd) (fun _ => SameTable (s.retire e)) (fun x s' => x = .panic ∧ Stopped c e s s') s := by
  have hs : Stopped c e s (s.setEnv e fun v => { v with pgdir := none }) := by
    refine ⟨rfl, fun _ _ => rfl, fun e' => ?_⟩
    by_cases he : e' = e
    case pos => exact ⟨none, by simp [setEnv, he], fun h => absurd he h⟩
    case neg => exact ⟨(s.envs e').pgdir, by simp [setEnv, he], fun _ => rfl⟩
  simp only [envFreeDir, wp_bind_modify]
  refine wp_seq (wp_mono (keepsOr_pa2page (T := SameTable) _) (fun _ _ => id) fun _ _ h => ⟨h.1, hs.trans h.2.stopped⟩) fun q s₁ h₁ => ?_
  refine wp_seq (wp_mono (SameTable.closed.pageDecref s₁) (fun _ _ => id)
    fun _ _ h => ⟨h.1, hs.trans (h₁.trans h.2).stopped⟩) fun _ s₂ h₂ => ?_
  have h₃ := h₁.trans h₂
  simp only [wp_bind_modify, wp_bind_get, wp_set]
  refine ⟨?_, rfl, h₃.kernPgdir, h₃.cur, h₃.cr3⟩
  simp [setEnv, Kernel.retire, h₃.envs, h₃.free]

theorem envFree_table (hd : (s.envs e).pgdir = some pd) :
    wp (envFree c e) (fun _ => SameTable ((s.leave c e).retire e))
      (fun x s' => x = .panic ∧ Stopped c e s s') s := by
  have hl : Stopped c e s (s.leave c e) :=
    ⟨cur_leave, fun _ hc => cr3_leave hc, fun e' => ⟨(s.envs e').pgdir, by rw [envs_leave], fun _ => rfl⟩⟩
  have hp : (envPgdir e).run (s.leave c e) = .ok pd (s.leave c e) := by simp [envPgdir, envs_leave, hd]
  have hw : wp (envPgdir e >>= fun pgdir => do userPdxs.forM (envFreeTable c pgdir); envFreeDir e pgdir)
      (fun _ => SameTable ((s.leave c e).retire e)) (fun x s' => x = .panic ∧ Stopped c e s s') (s.leave c e) := by
    rw [wp_bind_of_ok hp]
    generalize userPdxs = is
    have hf : PageOnly (is.forM (envFreeTable c pd)) := KeepsOr.forM fun _ => SameTable.closed.envFreeTable
    refine wp_seq (wp_mono (hf _) (fun _ _ => id) fun _ _ h => ⟨h.1, hl.trans h.2.stopped⟩) fun _ s₁ h₁ => ?_
    refine wp_mono (envFreeDir_table (c := c)) ?_ ?_
    case refine_1 => exact fun _ _ h₂ => h₁.retire.trans h₂
    case refine_2 => exact fun _ _ h₂ => ⟨h₂.1, (hl.trans h₁.stopped).trans h₂.2⟩
  by_cases hc : s.cur c = some e
  case pos =>
    simp only [envFree, wp_bind_get, if_pos hc, lcr3, wp_bind_modify]
    simpa only [leave, if_pos hc] using hw
  case neg =>
    simp only [envFree, wp_bind_get, if_neg hc]
    simpa only [leave, if_neg hc] using hw

theorem hasDirs_reap (hd : s.HasDirs) : (s.reap c e).HasDirs :=
  hasDirs_retire hd

theorem sameTable_reap (hc : s.cur c = some e) (h : SameTable ((s.leave c e).retire e) s') :
    SameTable (s.reap c e) (s'.setCpu c fun i => { i with env := none }) := by
  simp only [leave, if_pos hc] at h
  refine ⟨h.envs, h.free, h.kernPgdir, ?_, fun c' => ?_⟩
  case refine_1 =>
    funext c'
    have hc' := congrFun h.cur c'
    by_cases he : c' = c
    case pos => simp [Kernel.cur, setCpu, reap, he]
    case neg => simpa [Kernel.cur, setCpu, reap, Kernel.retire, setEnv, he] using hc'
  case refine_2 =>
    have hc' := h.cr3 c'
    by_cases he : c' = c
    case pos =>
      subst he
      simpa [setCpu, reap, Kernel.retire, setEnv] using hc'
    case neg => simpa [setCpu, reap, Kernel.retire, setEnv, he] using hc'

-- An environment that runs elsewhere is marked; the others are freed at once.
theorem envDestroy_table (hd : s.HasDirs) (he : (s.envs e).status ≠ .free) :
    wp (envDestroy c e)
      (fun _ s' => s.cur c ≠ some e ∧
        (((s.envs e).status = .running ∧ s' = s.setEnv e fun v => { v with status := .dying }) ∨
          ((s.envs e).status ≠ .running ∧ SameTable (s.retire e) s')))
      (fun x s' => (x = .panic ∧ ((s.envs e).status = .running → s.cur c = some e) ∧ Stopped c e s s') ∨
        (s.cur c = some e ∧ ∃ s₁, SameTable (s.reap c e) s₁ ∧ Schedules c s₁ x s')) s := by
  have ⟨pd, hp⟩ := HasDirs.some_of_live hd he
  simp only [envDestroy, wp_bind_get]
  split
  case isTrue h => exact ⟨h.2, .inl ⟨h.1, rfl⟩⟩
  case isFalse h =>
    have hr : (s.envs e).status = .running → s.cur c = some e := fun hr => by_contra fun hc => h ⟨hr, hc⟩
    refine wp_seq (wp_mono (envFree_table hp) (fun _ _ => id) fun _ _ h => .inl ⟨h.1, hr, h.2⟩) fun _ s₁ h₁ => ?_
    have hc₁ : s₁.cur = s.cur := h₁.cur.trans cur_leave
    simp only [wp_bind_get, hc₁]
    split
    case isTrue hc =>
      have h₂ := sameTable_reap hc h₁
      simp only [wp_bind_modify]
      refine wp_mono (schedYield_schedules (h₂.hasDirs (hasDirs_reap hd))) (fun _ _ => False.elim) ?_
      exact fun x s' hs => .inr ⟨hc, _, h₂, hs⟩
    case isFalse hc =>
      refine ⟨hc, .inr ⟨fun h => hc (hr h), ?_⟩⟩
      simpa only [leave, if_neg hc] using h₁

end Free

end Jos
