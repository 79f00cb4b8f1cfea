import Jos.User.Theorems.Window

-- What `fork` returns, and where.

open Function Client Program

namespace Jos

open Kernel

variable {M : Set Ppn} {s s' s₁ s₂ : Kernel} {c : CpuIx} {a e thisenv : EnvIx} {p : Ppn} {r : EnvId} {m : Access}
  {T : Kernel → Kernel → Prop} {tr : List (Sigma UserOp.Result)} {o : Option (EnvId × EnvIx)}

-- The event in which `sys_env_set_status` makes the environment `pid` runnable.
def madeRunnable (pid : EnvId) : Sigma UserOp.Result :=
  ⟨.syscall ⟨8#32, pid, 2#32, 0#32, 0#32, 0#32⟩, 0#32⟩

-- A question other than `sys_env_set_status`.
def NotSetStatus (q : UserOp) : Prop :=
  ∀ k, q = .syscall k → k.no ≠ 8#32

section Asks

theorem asks_load {va : Word} : (User.load va).Asks NotSetStatus :=
  .ask (by rintro k ⟨⟩) fun _ => .done _

theorem asks_env : (User.env e).Asks NotSetStatus :=
  .ask (by rintro k ⟨⟩) fun _ => .done _

theorem asks_syscall {check : Bool} {k : Call} (hk : k.no ≠ 8#32) : (User.syscall check k).Asks NotSetStatus := by
  refine .ask ?_ fun r => ?_
  case refine_1 =>
    rintro k' ⟨⟩
    exact hk
  case refine_2 =>
    split
    case isTrue => exact .stop
    case isFalse => exact .done _

theorem asks_sysPageMap {i j : EnvId} {u v w : Word} : (User.sysPageMap i u j v w).Asks NotSetStatus :=
  asks_syscall (show (5#32 : Word) ≠ 8#32 by decide)

theorem asks_duppage {pn : Word} : (duppage r pn).Asks NotSetStatus := by
  refine asks_bind asks_load fun w => asks_bind asks_sysPageMap fun r₁ => ?_
  split
  case isTrue => exact .stop
  case isFalse =>
    refine asks_bind asks_sysPageMap fun r₂ => ?_
    split
    case isTrue => exact .stop
    case isFalse => exact .done _

theorem asks_forkPage {i j : Ptx} : (forkPage (duppage r) i j).Asks NotSetStatus := by
  simp only [forkPage]
  split
  case isFalse => exact .done _
  case isTrue =>
    refine asks_bind asks_load fun w => ?_
    split
    case isTrue => exact asks_duppage
    case isFalse => exact .done _

theorem asks_forkLoop : (forkLoop (duppage r)).Asks NotSetStatus := by
  refine asks_forM fun i => asks_bind asks_load fun w => ?_
  split
  case isFalse => exact .done _
  case isTrue => exact asks_forM fun j => asks_forkPage

theorem asks_forkCopy : (forkCopy thisenv r).Asks NotSetStatus := by
  refine asks_bind asks_forkLoop fun _ => ?_
  refine asks_bind (asks_syscall (show (4#32 : Word) ≠ 8#32 by decide)) fun r₁ => ?_
  split
  case isTrue => exact .stop
  case isFalse =>
    refine asks_bind asks_env fun v => ?_
    refine asks_bind (asks_syscall (show (9#32 : Word) ≠ 8#32 by decide)) fun r₂ => ?_
    split
    case isTrue => exact .stop
    case isFalse => exact .done _

end Asks

section Runs

-- The environment `pid` has been made runnable in `s`.
def Kernel.Runnable (s : Kernel) (pid : EnvId) : Prop :=
  (s.envs (envx pid)).id = pid ∧ (s.envs (envx pid)).status = .runnable

theorem setStatus_runnable (hc : s.cur c = some a) (hr : r ≠ 0#32)
    (h : (Call.run c ⟨8#32, r, 2#32, 0#32, 0#32, 0#32⟩).run s = .ok 0#32 s') : s'.Runnable r := by
  change (sysEnvSetStatus c r 2#32).run s = _ at h
  have hst : settableStatus 2#32 = some .runnable := rfl
  simp only [sysEnvSetStatus, hst, run_bind, envid2env_run hc] at h
  cases hf : s.findEnv a r true
  case none =>
    simp only [hf, run_pure, EStateM.Result.ok.injEq] at h
    exact absurd h.1 (by decide)
  case some e =>
    simp only [hf, run_bind, run_modify, run_pure, EStateM.Result.ok.injEq, true_and] at h
    subst h
    simp only [findEnv, hr, if_false] at hf
    split at hf
    case isTrue => cases hf
    case isFalse hn =>
      have he : envx r = e := by
        split at hf
        case isTrue => cases hf
        case isFalse => exact Option.some.inj hf
      simp only [not_or, not_not] at hn
      simp [Runnable, setEnv, ← he, hn.2]

-- The parent returns the identifier of the child if and only if it has made the child runnable.
theorem runs_parent [Std.Refl T] (hr : (0#32).slt r = true) (h : Runs (userServer a m T) (forkRest thisenv r) s tr o s') :
    (o = some (r, thisenv) ∧ madeRunnable r ∈ tr ∧ ∃ s₁, s₁.Runnable r ∧ T s₁ s') ∨
      (o = none ∧ madeRunnable r ∉ tr) := by
  have hne : r ≠ 0#32 := by
    rintro rfl
    cases hr
  have hnot : ∀ {tr : List (Sigma UserOp.Result)} {o : Option Unit} {s s' : Kernel},
      Runs (userServer a m T) (forkCopy thisenv r) s tr o s' → madeRunnable r ∉ tr := by
    intro tr o s s' h hm
    exact h.asks asks_forkCopy hm _ rfl rfl
  rw [forkRest, if_pos hr] at h
  obtain ⟨x, s₁, tr₁, tr₂, h₁, h₂, rfl⟩ | ⟨rfl, h₁⟩ := h.bind_cases
  case inr => exact .inr ⟨rfl, hnot h₁⟩
  case inl =>
    change Runs (userServer a m T) (.ask (.syscall ⟨8#32, r, 2#32, 0#32, 0#32, 0#32⟩) fun (ret : Word) =>
      ((if true && (0#32).slt ret then Prog.stop else .done ret) : User Word) >>= fun r' =>
        if r' ≠ 0#32 then Prog.stop else Prog.done (r, thisenv)) s₁ tr₂ o s' at h₂
    cases h₂
    case ask s₂ s₃ tr ret ha hm hk =>
      obtain ⟨c, hc, hrun⟩ := ha
      by_cases hz : ret = 0#32
      case pos =>
        subst hz
        change Runs _ (.done (r, thisenv)) s₃ tr o s' at hk
        cases hk
        case done hm' => exact .inl ⟨rfl, by simp [madeRunnable], s₃, setStatus_runnable hc hne hrun, hm'⟩
      case neg =>
        have hstop : (((if true && (0#32).slt ret then Prog.stop else .done ret) : User Word) >>= fun r' =>
            if r' ≠ 0#32 then Prog.stop else Prog.done (r, thisenv)) = Prog.stop := by
          split
          case isTrue => rfl
          case isFalse =>
            change (if ret ≠ 0#32 then Prog.stop else Prog.done (r, thisenv)) = Prog.stop
            rw [if_pos hz]
        beta_reduce at hk
        rw [hstop] at hk
        cases hk
        refine .inr ⟨rfl, fun hx => ?_⟩
        cases List.mem_append.mp hx
        case inl hx => exact hnot h₁ hx
        case inr hx =>
          have he := List.mem_singleton.mp hx
          simp only [madeRunnable, Sigma.mk.injEq, heq_eq_eq, true_and] at he
          exact hz he.symm

-- Whoever does not see a positive identifier takes itself for the child.
theorem runs_other (hr : (0#32).slt r = false) (h : Runs (userServer a m T) (forkRest thisenv r) s tr o s') :
    ∃ s₁ c, T s s₁ ∧ s₁.cur c = some a ∧ o = some (0#32, envx (s₁.envs a).id) := by
  rw [forkRest, if_neg (by simp [hr])] at h
  change Runs (userServer a m T) (.ask (.syscall ⟨2#32, 0#32, 0#32, 0#32, 0#32, 0#32⟩) fun (ret : Word) =>
    Prog.done (0#32, envx ret)) s tr o s' at h
  cases h
  case ask s₁ s₂ tr ret ha hm hk =>
    obtain ⟨c, hc, hrun⟩ := ha
    change (sysGetenvid c).run s₁ = _ at hrun
    simp only [sysGetenvid, run_bind, curenv_run hc, run_get, run_pure, EStateM.Result.ok.injEq] at hrun
    cases hk
    exact ⟨s₁, c, hm, hc, by rw [hrun.1]⟩

end Runs

-- A run of `fork` by `a`: `sys_exofork` is called in the state `s₁` on the processor `c`, and returns `r`.
structure Forked (T : Kernel → Kernel → Prop) (m : Access) (a thisenv : EnvIx) (installed : Bool) (upcall : Word)
    (regs : PushRegs) (s s₁ s₂ s' : Kernel) (c : CpuIx) (r : EnvId) (tr : List (Sigma UserOp.Result))
    (o : Option (EnvId × EnvIx)) : Prop where
  handler : Ends (userServer a m T) (setPgfaultHandler thisenv installed upcall) s (some ()) s₁
  cur     : s₁.cur c = some a
  call    : ((User.exoforkCall regs).run c).run s₁ = .ok r s₂
  rest    : Runs (userServer a m T) (forkRest thisenv r) s₂ tr o s'

variable {installed : Bool} {upcall : Word} {regs : PushRegs} {x : EnvId × EnvIx}

-- These are the runs of `fork` which return.
theorem ends_fork [Std.Refl T] [IsTrans Kernel T] :
    Ends (userServer a m T) (fork thisenv installed upcall regs) s (some x) s' ↔
      ∃ s₁ s₂ c r tr, Forked T m a thisenv installed upcall regs s s₁ s₂ s' c r tr (some x) := by
  rw [fork, ends_bind]
  constructor
  case mp =>
    rintro (⟨⟨⟩, s₀, h₀, h⟩ | ⟨h, -⟩)
    case inr => cases h
    case inl =>
      change Ends _ (.ask (.syscall (User.exoforkCall regs)) fun pid => forkRest thisenv pid) s₀ _ s' at h
      rw [ends_ask] at h
      obtain ⟨s₁, r, s₂, hm, ⟨c, hc, hr⟩, tr, hk⟩ := h
      obtain ⟨tr₀, h₀⟩ := h₀
      have h₁ := h₀.bind (f := pure) (.done hm)
      rw [bind_pure] at h₁
      exact ⟨s₁, s₂, c, r, tr, ⟨_, h₁⟩, hc, hr, hk⟩
  case mpr =>
    rintro ⟨s₁, s₂, c, r, tr, h⟩
    refine .inl ⟨(), s₁, h.handler, ?_⟩
    change Ends _ (.ask (.syscall (User.exoforkCall regs)) fun pid => forkRest thisenv pid) s₁ _ s'
    exact ends_ask.mpr ⟨s₁, r, s₂, Std.Refl.refl (r := T) s₁, ⟨c, h.cur, h.call⟩, tr, h.rest⟩

-- The environment `e` has been created between the two states.
def NewEnv (s₁ s₂ : Kernel) (e : EnvIx) : Prop :=
  (s₁.envs e).status = .free ∧ (s₂.envs e).status ≠ .free

-- The caller, the child and a failure can be told apart by what `fork` returns.
structure ForkTells (T : Kernel → Kernel → Prop) (m : Access) (a thisenv : EnvIx) (s₁ s₂ s' : Kernel) (r : EnvId)
    (tr : List (Sigma UserOp.Result)) (o : Option (EnvId × EnvIx)) : Prop where
  -- The caller does not get zero.
  zero   : ∀ x, o = some x → x.1 ≠ 0#32
  -- It gets the positive identifier of the child, if and only if it has made the child runnable.
  parent : ∀ e, NewEnv s₁ s₂ e →
    (∀ x, o = some x → x.1 = (s₂.envs e).id ∧ (0#32).slt x.1 ∧ ∃ s₃, s₃.Runnable x.1 ∧ T s₃ s') ∧
    (madeRunnable (s₂.envs e).id ∈ tr → o = some ((s₂.envs e).id, thisenv))
  -- The child starts where the caller is, with zero in `%eax`. Whenever it is run, it returns zero and knows itself.
  child  : ∀ e, NewEnv s₁ s₂ e → (s₂.envs e).tf = { (s₁.envs a).tf with regs.eax := 0#32 } ∧
    ∀ s c o' s', s.cur c = some e → (s.envs e).id = (s₂.envs e).id →
      (Ends (userServer e m Eq) (forkRest thisenv 0#32) s o' s' ↔ o' = some (0#32, e) ∧ s' = s)
  -- The caller gets the error, and there is no child.
  error  : r.slt 0#32 = true → (∀ x, o = some x → x.1 = r) ∧ s₂ = s₁

section Exofork

variable (hm : MemInv M s₁) (hc : s₁.cur c = some a) (hr : (sysExofork c).run s₁ = .ok r s₂)

-- `sys_exofork` fails if and only if there is no environment or no page left.
include hm hc hr in
theorem exofork_cases :
    ((s₁.envFreeList = none ∨ s₁.pageFreeList = none) ∧ (0#32).slt r = false ∧ s₂ = s₁) ∨
      ∃ e p, s₁.envFreeList = some e ∧ s₁.pageFreeList = some p ∧ (s₁.envs e).status = .free ∧
        r = nextEnvId (s₁.envs e).id e ∧ s₂ = s₁.forkChild a e p := by
  obtain ⟨l, L, h, hL⟩ := hm
  cases he : s₁.envFreeList
  case none =>
    simp only [sysExofork, run_bind, curenv_run hc, run_get, envAlloc_full he, run_pure,
      EStateM.Result.ok.injEq] at hr
    exact .inl ⟨.inl rfl, hr.1 ▸ by decide, hr.2.symm⟩
  case some e =>
    cases hf : s₁.pageFreeList
    case none =>
      simp only [sysExofork, run_bind, curenv_run hc, run_get, envAlloc_nomem he hf, run_pure,
        EStateM.Result.ok.injEq] at hr
      exact .inl ⟨.inr rfl, hr.1 ▸ by decide, hr.2.symm⟩
    case some p =>
      obtain ⟨L', rfl⟩ := hL.of_head he
      rw [sysExofork_run h hc he hf, EStateM.Result.ok.injEq] at hr
      exact .inr ⟨e, p, rfl, rfl, hL.mem.mp (by simp), hr.1.symm, hr.2.symm⟩

theorem forkChild_id : ((s.forkChild a e p).envs e).id = nextEnvId (s.envs e).id e := by
  simp [forkChild, setEnv, Kernel.newEnv, freshEnv, newDir, incRef, setPage, Kernel.zeroPage, Kernel.popFree]

theorem forkChild_tf (hne : a ≠ e) :
    ((s.forkChild a e p).envs e).tf = { (s.envs a).tf with regs.eax := 0#32 } := by
  simp [forkChild, setEnv, Kernel.newEnv, newDir, incRef, setPage, Kernel.zeroPage, Kernel.popFree, hne]

-- The child is the only new environment.
theorem NewEnv.eq_child {e' : EnvIx} (h : NewEnv s (s.forkChild a e p) e') : e' = e := by
  by_contra hne
  refine h.2 ?_
  rw [← h.1]
  simp [forkChild, setEnv, Kernel.newEnv, newDir, incRef, setPage, Kernel.zeroPage, Kernel.popFree, hne]

-- What the child does when it is run for the first time.
theorem ends_child {id : EnvId} {s₀ : Kernel} (hc : s.cur c = some e) (hid : (s.envs e).id = nextEnvId id e) :
    Ends (userServer e m Eq) (forkRest thisenv 0#32) s o s₀ ↔ o = some (0#32, e) ∧ s₀ = s := by
  have hg : ∀ c s, s.cur c = some e → (Call.run c ⟨2#32, 0#32, 0#32, 0#32, 0#32, 0#32⟩).run s =
      .ok (s.envs e).id s := by
    intro c s hc
    change (sysGetenvid c).run s = _
    simp [sysGetenvid, curenv_run hc]
  change Ends (userServer e m Eq) (.ask (.syscall ⟨2#32, 0#32, 0#32, 0#32, 0#32, 0#32⟩) fun (ret : Word) =>
    Prog.done (0#32, envx ret)) s o s₀ ↔ _
  rw [ends_ask]
  constructor
  case mp =>
    rintro ⟨s₁, ret, s₂, hm, ⟨c', hc', hr⟩, tr, hk⟩
    cases (show s = s₁ from hm)
    rw [hg c' s hc'] at hr
    cases hr
    cases hk
    case done hm' => exact ⟨by rw [hid, envx_nextEnvId], (show s = s₀ from hm').symm⟩
  case mpr =>
    rintro ⟨rfl, rfl⟩
    refine ⟨s₀, _, s₀, rfl, ⟨c, hc, hg c s₀ hc⟩, [], ?_⟩
    rw [hid, envx_nextEnvId]
    exact .done rfl

end Exofork

-- `fork` tells them apart in exactly those runs in which there is a free environment and a free page for `sys_exofork`.
theorem fork_tells_apart [Std.Refl T] [IsTrans Kernel T] (hm : MemInv M s₁) (hl : (s₁.envs a).status ≠ .free)
    (h : Forked T m a thisenv installed upcall regs s s₁ s₂ s' c r tr o) :
    ForkTells T m a thisenv s₁ s₂ s' r tr o ↔ s₁.envFreeList ≠ none ∧ s₁.pageFreeList ≠ none := by
  have hcall : (sysExofork c).run s₁ = .ok r s₂ := h.call
  obtain ⟨hn, hr, -⟩ | ⟨e, p, he, hf, hfree, rfl, rfl⟩ := exofork_cases hm h.cur hcall
  case inl =>
    -- The caller takes the branch of the child.
    obtain ⟨s₃, c', -, -, ho⟩ := runs_other hr h.rest
    refine iff_of_false (fun ht => ht.zero _ ho rfl) ?_
    rintro ⟨he, hf⟩
    exact hn.elim he hf
  case inr =>
    refine iff_of_true ?_ ⟨by simp [he], by simp [hf]⟩
    have hne : a ≠ e := by
      rintro rfl
      exact hl hfree
    have hpar := runs_parent slt_nextEnvId h.rest
    refine ⟨fun x hx => ?_, fun e' hn => ?_, fun e' hn => ?_, fun hs => ?_⟩
    case refine_1 =>
      obtain ⟨ho, -⟩ | ⟨ho, -⟩ := hpar
      case inl =>
        cases ho.symm.trans hx
        exact nextEnvId_ne_zero
      case inr => cases ho.symm.trans hx
    case refine_2 =>
      cases hn.eq_child
      rw [forkChild_id]
      refine ⟨fun x hx => ?_, fun hx => ?_⟩
      case refine_1 =>
        obtain ⟨ho, -, hrun⟩ | ⟨ho, -⟩ := hpar
        case inl =>
          cases ho.symm.trans hx
          exact ⟨rfl, slt_nextEnvId, hrun⟩
        case inr => cases ho.symm.trans hx
      case refine_2 => exact hpar.elim (fun ho => ho.1) fun ho => absurd hx ho.2
    case refine_3 =>
      cases hn.eq_child
      refine ⟨forkChild_tf hne, fun s c' o' s' hc hid => ?_⟩
      rw [forkChild_id] at hid
      exact ends_child hc hid
    case refine_4 => simp [nextEnvId_pos] at hs

-- The only environment forks when its page directory has taken the only page.
theorem forked_nomem : Forked Eq ⟨true, false⟩ 0 0 true 0#32 {} (soleEnv 1) (soleEnv 1) (soleEnv 1) (soleEnv 1) 0 enomem
    [⟨.syscall ⟨2#32, 0#32, 0#32, 0#32, 0#32, 0#32⟩, 0x1000#32⟩] (some (0#32, 0)) := by
  have hcur : (soleEnv 1).cur 0 = some 0 := rfl
  refine ⟨⟨[], .done rfl⟩, hcur, ?_, ?_⟩
  case refine_1 =>
    change (sysExofork 0).run (soleEnv 1) = _
    have he : (soleEnv 1).envFreeList = some 1 := by decide +kernel
    have hf : (soleEnv 1).pageFreeList = none := by decide +kernel
    simp only [sysExofork, run_bind, curenv_run hcur, run_get, envAlloc_nomem he hf, run_pure]
  case refine_2 =>
    have hid : ((soleEnv 1).envs 0).id = 0x1000#32 := by decide +kernel
    have hrun : (Call.run 0 ⟨2#32, 0#32, 0#32, 0#32, 0#32, 0#32⟩).run (soleEnv 1) = .ok 0x1000#32 (soleEnv 1) := by
      change (sysGetenvid 0).run (soleEnv 1) = _
      simp [sysGetenvid, curenv_run hcur, hid]
    exact .ask rfl ⟨0, hcur, hrun⟩ (.done rfl)

-- In this run the parent cannot know that it is not the child.
theorem fork_tells_apart_nomem : ¬ForkTells Eq ⟨true, false⟩ 0 0 (soleEnv 1) (soleEnv 1) (soleEnv 1) enomem
    [⟨.syscall ⟨2#32, 0#32, 0#32, 0#32, 0#32, 0#32⟩, 0x1000#32⟩] (some (0#32, 0)) := by
  have hl : ((soleEnv 1).envs 0).status ≠ .free := by decide +kernel
  have hf : (soleEnv 1).pageFreeList = none := by decide +kernel
  rw [fork_tells_apart (soleEnv_inv (by decide) (by decide)) hl forked_nomem]
  exact fun h => h.2 hf

-- `sys_exofork` fails with `-E_NO_MEM`, and `fork` returns zero to the caller.
theorem fork_zero_in_parent :
    (sysExofork 0).run (soleEnv 1) = .ok enomem (soleEnv 1) ∧
    Ends (userServer 0 ⟨true, false⟩ Eq) (fork 0 true 0#32 {}) (soleEnv 1) (some (0#32, 0)) (soleEnv 1) :=
  ⟨forked_nomem.call, ends_fork.mpr ⟨_, _, _, _, _, forked_nomem⟩⟩

end Jos
