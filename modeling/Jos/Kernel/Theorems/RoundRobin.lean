import Jos.Kernel.Theorems.Turns
import Jos.Kernel.Theorems.Blank

-- The choice `sched_yield` makes, against the one that round-robin scheduling asks for.

open Function Program

namespace Jos

open Kernel

variable {s : Kernel} {c : CpuIx} {e g i : EnvIx} {n m : Nat}

-- The `n` slots from `i` on, in circular order.
def slotsFrom : EnvIx → Nat → List EnvIx
  | _, 0     => []
  | i, n + 1 => i :: slotsFrom (i + 1) n

theorem val_succ : (i + 1).val = (i.val + 1) % 1024 :=
  Fin.val_add i 1

theorem mem_slotsFrom (hn : n ≤ 1024) : g ∈ slotsFrom i n ↔ ahead i g < n := by
  induction n generalizing i
  case zero => simp [slotsFrom]
  case succ n ih =>
    have hg := g.isLt
    have hi := i.isLt
    rw [slotsFrom, List.mem_cons, ih (by omega), Fin.ext_iff]
    simp only [ahead, val_succ]
    omega

theorem add_ofNat_zero : i + Fin.ofNat 1024 0 = i := by
  ext
  simp

theorem add_ofNat_succ : i + Fin.ofNat 1024 (n + 1) = i + 1 + Fin.ofNat 1024 n := by
  ext
  simp only [Fin.val_add, Fin.ofNat, Fin.val_one]
  omega

theorem succ_add_last : e + 1 + Fin.ofNat 1024 1023 = e := by
  have h := e.isLt
  ext
  simp only [Fin.val_add, Fin.ofNat, Fin.val_one]
  omega

theorem slotsFrom_add : slotsFrom i (n + m) = slotsFrom i n ++ slotsFrom (i + Fin.ofNat 1024 n) m := by
  induction n generalizing i
  case zero =>
    rw [Nat.zero_add, add_ofNat_zero]
    rfl
  case succ n ih =>
    rw [Nat.succ_add, slotsFrom, ih, slotsFrom, add_ofNat_succ]
    rfl

-- Starting after `e`, the slot of `e` itself comes last.
theorem slotsFrom_last : slotsFrom (e + 1) 1024 = slotsFrom (e + 1) 1023 ++ [e] := by
  rw [slotsFrom_add (n := 1023) (m := 1), succ_add_last]
  rfl

theorem not_mem_slotsFrom : e ∉ slotsFrom (e + 1) 1023 := by
  have h := e.isLt
  rw [mem_slotsFrom (by decide)]
  simp only [ahead, val_succ]
  omega

namespace Kernel

-- All slots in the order in which the processor has to look at them.
def roundRobin (s : Kernel) (c : CpuIx) : List EnvIx :=
  match s.cur c with
  | none   => slotsFrom 0 1024
  | some e => slotsFrom (e + 1) 1024

def firstRunnable (s : Kernel) (l : List EnvIx) : Option EnvIx :=
  l.find? fun e => (s.envs e).status = .runnable

-- What `sched_yield` has to do: it runs the first runnable environment, or else goes on with the current one, and
-- halts only if there is neither.
def InOrder (s : Kernel) (c : CpuIx) : Prop :=
  match s.firstRunnable (s.roundRobin c) with
  | some e => (schedYield c).run s = (envRun c e).run s
  | none   =>
    match s.cur c with
    | none   => (schedYield c).run s = (schedHalt c).run s
    | some e =>
      if (s.envs e).status = .running then (schedYield c).run s = (envRun c e).run s
      else (schedYield c).run s = (schedHalt c).run s

-- The current environment is runnable, and it is the only one.
def OnlySelf (s : Kernel) (c : CpuIx) : Prop :=
  ∃ e, s.cur c = some e ∧ (s.envs e).status = .runnable ∧ ∀ g, g ≠ e → (s.envs g).status ≠ .runnable

theorem mem_roundRobin : e ∈ s.roundRobin c := by
  have he := e.isLt
  simp only [roundRobin]
  split
  case _ =>
    rw [mem_slotsFrom le_rfl]
    simp only [ahead]
    omega
  case _ =>
    rw [mem_slotsFrom le_rfl]
    simp only [ahead]
    omega

-- No slot of the list is runnable.
theorem firstRunnable_eq_none {l : List EnvIx} :
    s.firstRunnable l = none ↔ ∀ e ∈ l, (s.envs e).status ≠ .runnable := by
  simp [firstRunnable]

end Kernel

-- The loop looks at the slots one after the other, up to the one of the current environment.
theorem schedLoop_run (hc : ∀ e ∈ slotsFrom i n, s.cur c ≠ some e) :
    (schedLoop c (n + m) i).run s =
      match s.firstRunnable (slotsFrom i n) with
      | some e => (envRun c e).run s
      | none   => (schedLoop c m (i + Fin.ofNat 1024 n)).run s := by
  induction n generalizing i
  case zero =>
    rw [Nat.zero_add, add_ofNat_zero]
    rfl
  case succ n ih =>
    simp only [slotsFrom, List.forall_mem_cons] at hc
    rw [Nat.succ_add]
    simp only [schedLoop, run_bind, run_get, if_neg hc.1, slotsFrom, firstRunnable, List.find?_cons]
    by_cases hr : (s.envs i).status = .runnable
    case pos => simp [hr]
    case neg =>
      simp only [hr, if_false, decide_false, add_ofNat_succ]
      exact ih hc.2

-- The loop comes back to the current environment.
theorem schedLoop_self (hc : s.cur c = some e) : (schedLoop c 1 e).run s =
    if (s.envs e).status = .running then (envRun c e).run s else (schedHalt c).run s := by
  simp only [schedLoop, run_bind, run_get, if_pos hc]
  split <;> rfl

theorem schedYield_none (hc : s.cur c = none) : (schedYield c).run s =
    match s.firstRunnable (slotsFrom 0 1024) with
    | some e => (envRun c e).run s
    | none   => (schedHalt c).run s := by
  have h := schedLoop_run (s := s) (c := c) (i := 0) (n := 1024) (m := 0) (by simp [hc])
  simp only [schedYield, run_bind, run_get, hc]
  exact h

theorem schedYield_some (hc : s.cur c = some e) : (schedYield c).run s =
    match s.firstRunnable (slotsFrom (e + 1) 1023) with
    | some g => (envRun c g).run s
    | none   => if (s.envs e).status = .running then (envRun c e).run s else (schedHalt c).run s := by
  have hne : ∀ g ∈ slotsFrom (e + 1) 1023, s.cur c ≠ some g := by
    intro g hg hc'
    cases hc.symm.trans hc'
    exact not_mem_slotsFrom hg
  have h := schedLoop_run (m := 1) hne
  rw [succ_add_last, schedLoop_self hc] at h
  simp only [schedYield, run_bind, run_get, hc]
  exact h

-- Running an environment is not halting.
theorem envRun_ne_schedHalt : (envRun c e).run s ≠ (schedHalt c).run s := by
  intro h
  have hw : wp (envRun c e) (fun _ _ => False) (fun x _ => x = .user ∨ x = .panic) s := by
    simp only [envRun, wp_bind_modify, wp_bind_get]
    split
    case _ => exact .inr rfl
    case _ =>
      simp only [lcr3, wp_bind_modify, wp_throw]
      exact .inl trivial
  have hh : wp (schedHalt c) (fun _ _ => False) (fun x _ => x = .halt ∨ x = .monitor) s := by
    simp only [schedHalt, wp_bind_get]
    split
    case isTrue =>
      simp only [lcr3, wp_bind_modify, wp_throw]
      exact .inl trivial
    case isFalse => exact .inr rfl
  cases hr : (envRun c e).run s
  case ok => exact wp_ok hw hr
  case error x s' =>
    have h₁ := wp_error hw hr
    have h₂ := wp_error hh (h ▸ hr)
    obtain rfl | rfl := h₁ <;> simp at h₂

-- `sched_yield` makes the right choice, unless the current environment is runnable and no other one is. Then it halts.
theorem sched_yield_round_robin (s : Kernel) (c : CpuIx) : s.InOrder c ↔ ¬s.OnlySelf c := by
  cases hc : s.cur c
  case none =>
    have hn : ¬s.OnlySelf c := by
      rintro ⟨e, he, -⟩
      rw [hc] at he
      cases he
    refine iff_of_true ?_ hn
    simp only [InOrder, roundRobin, hc, schedYield_none hc]
    split <;> simp_all
  case some e =>
    have hf : s.firstRunnable (slotsFrom (e + 1) 1024) = (s.firstRunnable (slotsFrom (e + 1) 1023)).or
        (if (s.envs e).status = .runnable then some e else none) := by
      rw [slotsFrom_last, firstRunnable, List.find?_append]
      simp only [firstRunnable, List.find?_cons, List.find?_nil]
      split <;> simp_all
    have hall : s.firstRunnable (slotsFrom (e + 1) 1023) = none ↔ ∀ g, g ≠ e → (s.envs g).status ≠ .runnable := by
      rw [firstRunnable_eq_none]
      refine ⟨fun h g hg => h g ?_, fun h g hg => h g ?_⟩
      case refine_1 =>
        have hm := mem_roundRobin (s := s) (c := c) (e := g)
        simp only [roundRobin, hc, slotsFrom_last, List.mem_append, List.mem_singleton] at hm
        exact hm.resolve_right hg
      case refine_2 =>
        rintro rfl
        exact not_mem_slotsFrom hg
    have ho : s.OnlySelf c ↔ (s.envs e).status = .runnable ∧ s.firstRunnable (slotsFrom (e + 1) 1023) = none := by
      rw [hall]
      simp [OnlySelf, hc]
    simp only [InOrder, roundRobin, hc, schedYield_some hc, hf, ho]
    cases s.firstRunnable (slotsFrom (e + 1) 1023)
    case some g => simp
    case none =>
      by_cases hr : (s.envs e).status = .runnable
      case pos => simp [hr, envRun_ne_schedHalt.symm]
      case neg =>
        simp only [hr, Option.or_none, if_false, false_and, not_false_eq_true, iff_true]
        split <;> rfl

-- The only environment of the machine, while it runs.
def soleRunning : Kernel :=
  (soleEnv 4).setEnv 0 fun v => { v with status := .running }

-- It makes itself runnable, and yields: the processor halts, although there is an environment to run.
theorem sched_yield_halts_runnable :
    ∃ s s', (sysEnvSetStatus 0 0#32 2#32).run soleRunning = .ok 0#32 s ∧ (s.envs 0).status = .runnable ∧
      (schedYield 0).run s = .error .halt s' ∧ ¬s.InOrder 0 := by
  have hr : (sysEnvSetStatus 0 0#32 2#32).run soleRunning =
      .ok 0#32 (soleRunning.setEnv 0 fun v => { v with status := .runnable }) := rfl
  generalize hs : soleRunning.setEnv 0 (fun v => { v with status := .runnable }) = s at hr
  have hc : s.cur 0 = some 0 := by rw [← hs]; rfl
  have h₀ : (s.envs 0).status = .runnable := by simp [← hs, setEnv]
  have hne : s.firstRunnable (slotsFrom 1 1023) = none := by
    refine firstRunnable_eq_none.mpr fun g hg => ?_
    have hg₀ : g ≠ 0 := by
      rintro rfl
      exact not_mem_slotsFrom hg
    have hf : (s.envs g).status = .free := by
      rw [← hs]
      simp [soleRunning, soleEnv, setEnv, setCpu, newEnv, newDir, incRef, setPage, zeroPage, popFree, freshKernel, hg₀]
    simp [hf]
  have hy : (schedYield 0).run s = (schedHalt 0).run s := by
    rw [schedYield_some hc]
    simp [hne, h₀]
  have hw : s.hasWork = true := by
    unfold hasWork
    exact List.any_eq_true.mpr ⟨0, List.mem_finRange 0, by simp [h₀, EnvStatus.schedulable]⟩
  refine ⟨s, _, hr, h₀, hy.trans (by simp [schedHalt, hw, lcr3]; rfl), fun ho => ?_⟩
  have hf : s.firstRunnable (s.roundRobin 0) = some 0 := by
    have hl : slotsFrom 1 1024 = slotsFrom 1 1023 ++ [0] := slotsFrom_last (e := 0)
    have h := hne
    rw [firstRunnable] at h
    simp [roundRobin, hc, firstRunnable, hl, List.find?_append, h, h₀]
  simp only [InOrder, hf] at ho
  exact envRun_ne_schedHalt (ho.symm.trans hy)

end Jos
