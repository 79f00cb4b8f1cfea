import Jos.Kernel.Theorems.Running
import Jos.Kernel.Theorems.Blank
import Mathlib.Logic.Relation

-- The invariant of the machine with all of its processors, over whole runs.

open Function Program Relation

namespace Jos

open Kernel

variable {S S' S₀ : System} {s s' : Kernel} {c c' : CpuIx} {e e' a : EnvIx} {p : Ppn} {va : Word} {tf : Trapframe}
  {x : Exit} {y : Action} {k : Call} {b : BitVec 8} {P : Policy} {M : Set Ppn}

-- The processor on which the event takes place.
def Action.cpu : Action → CpuIx
  | start c | trap c _ _ | wake c _ | refault c _ | store c _ _ => c

namespace System

-- The processor `c` leaves the kernel in the state `s`.
def leave (S : System) (c : CpuIx) (x : Exit) (s : Kernel) : System :=
  { kern := s, mode := update S.mode c x.mode }

-- No other processor keeps the lock, so that `c` gets it.
def Unlocked (S : System) (c : CpuIx) : Prop :=
  ∀ c', c' ≠ c → (S.mode c').holdsLock = false

-- What the events do.
inductive Event (S : System) : Action → System → Prop
  | start {c : CpuIx} {x : Exit} {s : Kernel} (hu : S.Unlocked c) (hm : S.mode c = .boot)
    (h : Schedules c S.kern x s) : Event S (.start c) (S.leave c x s)
  | trap {c : CpuIx} {a : EnvIx} {tf : Trapframe} {va : Word} {x : Exit} {s : Kernel} (hu : S.Unlocked c)
    (hm : S.mode c = .user) (ha : S.kern.cur c = some a) (h : Traps c a tf (S.kern.started c) x s) :
    Event S (.trap c tf va) (S.leave c x s)
  | wake {c : CpuIx} {tf : Trapframe} {x : Exit} {s : Kernel} (hu : S.Unlocked c) (hm : S.mode c = .halted)
    (h : (x = .panic ∧ s = S.kern.started c) ∨ Schedules c (S.kern.started c) x s) :
    Event S (.wake c tf) (S.leave c x s)
  | refault {c : CpuIx} {a : EnvIx} {tf : Trapframe} {va : Word} {x : Exit} {s : Kernel} (hu : S.Unlocked c)
    (hm : S.mode c = .fault va) (ha : S.kern.cur c = some a) (h : Handles c a (S.kern.started c) x s) :
    Event S (.refault c tf) (S.leave c x s)
  | store {c : CpuIx} {va : Word} {b : BitVec 8} {p : Ppn} (hm : S.mode c = .user) (hv : va < utop)
    (ht : S.kern.translate (S.kern.cpus c).cr3 va ⟨true, true⟩ = some p) :
    Event S (.store c va b) { S with kern := S.kern.setByteAt p va b }

theorem unlocked_of_locked (h : S.locked c = false) : S.Unlocked c := by
  simp only [locked, decide_eq_false_iff_not, not_exists, not_and, Bool.not_eq_true] at h
  exact h

theorem enter_of_wp {m : K Unit} {E : Exit → Kernel → Prop} (h : wp m (fun _ _ => False) E S.kern) :
    ∃ x s, S.enter c m = S.leave c x s ∧ E x s := by
  simp only [wp] at h
  split at h
  case _ => exact h.elim
  case _ x s hr => exact ⟨x, s, by simp only [enter, hr, leave], h⟩

-- The processors which are in user mode, or inside of the kernel, have an environment.
structure Healthy (S : System) : Prop where
  dirs : (∀ c, S.mode c ≠ .stopped) → S.kern.HasDirs
  runs : ∀ {c}, S.mode c ≠ .stopped → S.mode c ≠ .halted → S.mode c ≠ .boot →
    ∃ a, S.kern.cur c = some a ∧ (S.kern.envs a).status ≠ .free

theorem Unlocked.no_stopped (hu : S.Unlocked c) (hc : S.mode c ≠ .stopped) (c' : CpuIx) : S.mode c' ≠ .stopped := by
  by_cases h : c' = c
  case pos => exact h ▸ hc
  case neg =>
    intro hs
    have := hu c' h
    rw [hs] at this
    exact absurd this (by decide)

theorem Healthy.event (h : S.Healthy) (hs : S.step y = some S') : Event S y S' := by
  cases y
  all_goals simp only [step] at hs
  case start c =>
    split at hs
    case isFalse => cases hs
    case isTrue hc =>
      cases hs
      have hu : S.Unlocked c := unlocked_of_locked (by simpa using hc.2)
      have hd : S.kern.HasDirs := h.dirs (hu.no_stopped (by simp [hc.1]))
      obtain ⟨x, s, he, hx⟩ := enter_of_wp (c := c) (schedYield_schedules (c := c) hd)
      exact he ▸ .start hu hc.1 hx
  case trap c tf va =>
    split at hs
    case isFalse => cases hs
    case isTrue hc =>
      cases hs
      have hu : S.Unlocked c := unlocked_of_locked (by simpa using hc.2.2)
      have hd : S.kern.HasDirs := h.dirs (hu.no_stopped (by simp [hc.1]))
      obtain ⟨a, ha, hl⟩ := h.runs (c := c) (by simp [hc.1]) (by simp [hc.1]) (by simp [hc.1])
      obtain ⟨x, s, he, hx⟩ := enter_of_wp (c := c) (trap_traps hd ha hl va hc.2.1)
      exact he ▸ .trap hu hc.1 ha hx
  case wake c tf =>
    split at hs
    case isFalse => cases hs
    case isTrue hc =>
      cases hs
      have hu : S.Unlocked c := unlocked_of_locked (by simpa using hc.2.2.2.2)
      have hd : S.kern.HasDirs := h.dirs (hu.no_stopped (by simp [hc.1]))
      obtain ⟨x, s, he, hx⟩ := enter_of_wp (c := c) (trap_wakes (c := c) 0#32 hd hc.2.1 hc.2.2.1 hc.2.2.2.1)
      exact he ▸ .wake hu hc.1 hx
  case refault c tf =>
    split at hs
    case _ va hm =>
      split at hs
      case isFalse => cases hs
      case isTrue hc =>
        cases hs
        have hu : S.Unlocked c := unlocked_of_locked (by simpa using hc.2.2)
        have hd : S.kern.HasDirs := h.dirs (hu.no_stopped (by simp [hm]))
        obtain ⟨a, ha, hl⟩ := h.runs (c := c) (by simp [hm]) (by simp [hm]) (by simp [hm])
        obtain ⟨x, s, he, hx⟩ := enter_of_wp (c := c) (trap_refaults va hd ha hl hc.1 hc.2.1)
        exact he ▸ .refault hu hm ha hx
    case _ => cases hs
  case store c va b =>
    split at hs
    case isFalse => cases hs
    case isTrue hc =>
      obtain ⟨p, hp, rfl⟩ := Option.map_eq_some_iff.mp hs
      exact .store hc.1 hc.2 hp

-- The invariant for the policy `P`. While the kernel has stopped on some processor, the others may still be in
-- user mode.
structure Inv (P : Policy) (S : System) : Prop where
  apart  : Apart P { c | S.mode c ≠ .stopped } S.kern
  runs   : ∀ {c}, S.mode c ≠ .stopped → S.mode c ≠ .halted → S.mode c ≠ .boot → ∃ a, S.kern.cur c = some a
  tables : (∀ c, S.mode c ≠ .stopped) → Tables S.kern

-- The system calls which the policy does not allow do not occur.
def Allows (P : Policy) (S : System) : Action → Prop
  | .trap c tf _ => ∀ a, S.kern.cur c = some a → tf.trapno = tSyscall → P.Allows S.kern c a tf.call
  | _ => True

theorem Inv.healthy (h : S.Inv P) : S.Healthy where
  dirs hs := (h.tables hs).1
  runs h₁ h₂ h₃ := by
    obtain ⟨a, ha⟩ := h.runs h₁ h₂ h₃
    exact ⟨a, ha, h.apart.live h₁ ha⟩

theorem Inv.univ (h : S.Inv P) (hs : ∀ c, S.mode c ≠ .stopped) : Apart P Set.univ S.kern :=
  h.apart.mono fun c _ => hs c

theorem Inv.of_outcome (h : S.Inv P) (ho : Outcome P c x s) (hk : ∀ c', c' ≠ c → s.cur c' = S.kern.cur c') :
    (S.leave c x s).Inv P := by
  have hm : ∀ {c'}, c' ≠ c → (S.leave c x s).mode c' = S.mode c' := fun hc => by simp [leave, hc]
  have hc : (S.leave c x s).mode c = x.mode := by simp [leave]
  refine ⟨ho.apart.mono fun c' hc' => ?_, fun {c'} h₁ h₂ h₃ => ?_, fun hs => ?_⟩
  case refine_1 =>
    by_cases he : c' = c
    case pos =>
      refine .inr fun hx => hc' ?_
      rw [he, hc, hx]
    case neg => exact .inl he
  case refine_2 =>
    by_cases he : c' = c
    case pos =>
      subst he
      rw [hc] at h₁ h₂
      exact ho.runs h₁ h₂
    case neg =>
      rw [hm he] at h₁ h₂ h₃
      obtain ⟨a, ha⟩ := h.runs h₁ h₂ h₃
      exact ⟨a, (hk c' he).trans ha⟩
  case refine_3 => exact ho.tables (hc ▸ hs c)

-- The environments when `trap` dispatches.
theorem envs_entered :
    ((s.started c).saveTf a tf).envs e = { s.envs e with tf := if e = a then tf else (s.envs e).tf } := by
  by_cases hne : e = a <;> simp [saveTf, started, setCpu, setEnv, hne]

theorem findEnv_entered {envid : EnvId} {b : Bool} :
    ((s.started c).saveTf a tf).findEnv a envid b = s.findEnv a envid b := by
  simp only [findEnv, envs_entered]

theorem allows_entered (h : P.Allows s c a k) : P.Allows ((s.started c).saveTf a tf) c a k := by
  have hc : ((s.started c).saveTf a tf).cur = s.cur := (SameTable.started (c := c)).cur
  have hw : ∀ e, ((s.started c).saveTf a tf).Elsewhere c e ↔ s.Elsewhere c e := by
    intro e
    simp only [Elsewhere, hc]
  refine ⟨?_, ?_, ?_⟩
  all_goals simp only [findEnv_entered, hw, envs_entered]
  case refine_1 => exact h.status
  case refine_2 => exact h.send
  case refine_3 => exact h.destroy

-- The invariant over one event.
theorem Inv.step (h : S.Inv P) (hs : S.step y = some S') (hy : S.Allows P y) : S'.Inv P := by
  have hev := h.healthy.event hs
  cases hev
  case start c x s hu hm hx =>
    have hn := hu.no_stopped (by simp [hm])
    refine h.of_outcome (hx.outcome (h.univ hn).others (h.tables hn) fun e he _ => ?_) fun c' hc => hx.cur_of_ne hc
    exact P.cur_again ((h.univ hn).cur trivial he)
  case trap c a tf va x s hu hm ha hx =>
    have hn := hu.no_stopped (by simp [hm])
    have hst : SameTable S.kern (S.kern.started c) := .started
    have ha' : (S.kern.started c).cur c = some a := by rw [hst.cur, ha]
    refine h.of_outcome (hx.outcome ((h.univ hn).sameTable hst) ((h.tables hn).sameTable hst) ha' fun hk => ?_)
      fun c' hc => ?_
    case refine_1 => exact allows_entered (hy a ha hk)
    case refine_2 => rw [hx.cur_of_ne hc, hst.cur]
  case wake c tf x s hu hm hx =>
    have hn := hu.no_stopped (by simp [hm])
    have hst : SameTable S.kern (S.kern.started c) := .started
    have hap := (h.univ hn).sameTable hst
    obtain ⟨rfl, rfl⟩ | hx := hx
    case inl => exact h.of_outcome (.of_stopped hap.others rfl) fun c' _ => by rw [hst.cur]
    case inr =>
      refine h.of_outcome (hx.outcome hap.others ((h.tables hn).sameTable hst) fun e he _ => ?_) fun c' hc => ?_
      case refine_1 => exact P.cur_again (hap.cur trivial he)
      case refine_2 => rw [hx.cur_of_ne hc, hst.cur]
  case refault c a tf va x s hu hm ha hx =>
    have hn := hu.no_stopped (by simp [hm])
    have hst : SameTable S.kern (S.kern.started c) := .started
    have ha' : (S.kern.started c).cur c = some a := by rw [hst.cur, ha]
    refine h.of_outcome (hx.outcome ((h.univ hn).sameTable hst) ((h.tables hn).sameTable hst) ha') fun c' hc => ?_
    rw [hx.cur_of_ne hc, hst.cur]
  case store c va b p hm hv ht =>
    have hst : SameTable S.kern (S.kern.setByteAt p va b) := .setMem
    exact ⟨h.apart.sameTable hst, fun h₁ h₂ h₃ => h.runs h₁ h₂ h₃, fun hs => (h.tables hs).sameTable hst⟩

-- The other processors go on with what they do. An event that takes place while one of them keeps the lock
-- is no affair of the kernel.
theorem Event.others (h : Event S y S') (hc : c ≠ y.cpu) :
    S'.kern.cur c = S.kern.cur c ∧ S'.mode c = S.mode c ∧
      ((S.mode c).holdsLock = false ∨ S'.kern.envs = S.kern.envs) := by
  have hst : ∀ c', (S.kern.started c').cur = S.kern.cur := fun c' => (SameTable.started (c := c')).cur
  cases h
  case store => exact ⟨rfl, rfl, .inr rfl⟩
  all_goals refine ⟨?_, update_of_ne hc _ _, .inl (‹S.Unlocked _› c hc)⟩
  case start hx => exact hx.cur_of_ne hc
  case trap hx => exact (hx.cur_of_ne hc).trans (congrFun (hst _) c)
  case wake hx =>
    obtain ⟨rfl, rfl⟩ | hx := hx
    case inl => exact congrFun (hst _) c
    case inr => exact (hx.cur_of_ne hc).trans (congrFun (hst _) c)
  case refault hx => exact (hx.cur_of_ne hc).trans (congrFun (hst _) c)

-- The events of a run all satisfy `C`.
def Reaches (C : System → Action → Prop) : System → System → Prop :=
  ReflTransGen fun S S' => ∃ y, S.step y = some S' ∧ C S y

-- The invariant over a whole run.
theorem Inv.reaches (h : S₀.Inv P) (hr : Reaches (Allows P) S₀ S) : S.Inv P := by
  induction hr
  case refl => exact h
  case tail S S' _ hs ih =>
    obtain ⟨y, hy, hc⟩ := hs
    exact ih.step hy hc

theorem Reaches.mono {C C' : System → Action → Prop} (h : Reaches C S S') (hc : ∀ S y, C S y → C' S y) :
    Reaches C' S S' := by
  induction h
  case refl => exact .refl
  case tail S₁ S₂ _ hs ih =>
    obtain ⟨y, hy, h⟩ := hs
    exact ih.tail ⟨y, hy, hc S₁ y h⟩

-- The machine at the end of `i386_init`: no processor has chosen an environment yet, and the environments
-- are as `env_create` makes them.
structure Booted (M : Set Ppn) (S : System) : Prop where
  mem  : MemInv M S.kern
  mode : ∀ c, S.mode c = .boot
  cur  : ∀ c, S.kern.cur c = none
  envs : ∀ e, (S.kern.envs e).status = .free ∨
    ((S.kern.envs e).status = .runnable ∧ (S.kern.envs e).ipcRecving = false)

theorem Booted.inv (h : Booted M S) (hp : P.every .runnable false) : S.Inv P := by
  refine ⟨⟨fun h₁ => ?_, fun _ h₁ => ?_, fun _ h₁ => ?_, fun e => ?_⟩, fun _ _ h₃ => absurd (h.mode _) h₃, fun _ => ?_⟩
  case refine_1 | refine_2 | refine_3 =>
    rw [h.cur] at h₁
    cases h₁
  case refine_4 =>
    obtain he | ⟨he, hi⟩ := h.envs e
    case inl =>
      rw [he]
      exact P.every_free
    case inr =>
      rw [he, hi]
      exact hp
  case refine_5 =>
    obtain ⟨l, L, hl, hL⟩ := h.mem
    exact ⟨hl.dir, L, hL⟩

end System

-- All system calls among the events satisfy `C`.
def System.Calls (C : Kernel → CpuIx → EnvIx → Call → Prop) (S : System) : Action → Prop
  | .trap c tf _ => ∀ a, S.kern.cur c = some a → tf.trapno = tSyscall → C S.kern c a tf.call
  | _ => True

theorem System.Calls.allows {C : Kernel → CpuIx → EnvIx → Call → Prop} {P : Policy}
    (h : ∀ {s c a k}, C s c a k → P.Allows s c a k) (S : System) (y : Action) (hy : S.Calls C y) : S.Allows P y := by
  cases y
  case trap c tf va => exact fun a ha hk => h (hy a ha hk)
  all_goals exact trivial

-- The registers with which a program makes the system call `k`.
def Call.frame (k : Call) : Trapframe :=
  { regs := { eax := k.no, edx := k.a₁, ecx := k.a₂, ebx := k.a₃, edi := k.a₄, esi := k.a₅ }
    trapno := tSyscall
    cs := gdUt ||| 3#16 }

def Action.call (c : CpuIx) (no : Word) (a₁ a₂ : Word) : Action :=
  .trap c (Call.frame ⟨no, a₁, a₂, 0#32, 0#32, 0#32⟩) 0#32

-- A machine with one environment.
def soleSystem : System :=
  { kern := (freshKernel 16).newEnv 0 1#20 0#32, mode := fun _ => .boot }

theorem soleSystem_booted : soleSystem.Booted { p | p ∈ freshPages 16 } where
  mem := (freshKernel_inv (by decide)).newEnv rfl rfl
  mode _ := rfl
  cur _ := rfl
  envs e := by
    by_cases he : e = 0
    case pos => exact .inr (by simp [soleSystem, Kernel.newEnv, setEnv, freshEnv, he])
    case neg =>
      left
      simp only [soleSystem, Kernel.newEnv, setEnv, update_of_ne he]
      rfl

end Jos
