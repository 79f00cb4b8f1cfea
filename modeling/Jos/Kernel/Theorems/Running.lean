import Jos.Kernel.Theorems.Traps
import Jos.Kernel.Theorems.Pages
import Jos.Kernel.System

-- Which environments the processors run. The invariants about it differ in what they ask of the status of an
-- environment, and of its flag `env_ipc_recving`.

open Function Program

namespace Jos

open Kernel

variable {s s' : Kernel} {c c' : CpuIx} {e e' a : EnvIx} {pd p : Ppn} {t tf : Trapframe} {x : Exit} {k : Call}
  {r : Word} {f : Env → Env} {A B : Set CpuIx}

structure Policy where
  -- What holds of every environment.
  every       : EnvStatus → Bool → Prop
  -- What holds of an environment while a processor runs it.
  cur         : EnvStatus → Bool → Prop
  not_free    : ∀ {r}, ¬cur .free r
  not_runnable : ∀ {r}, ¬cur .runnable r
  every_free  : ∀ {r}, every .free r
  every_fresh : every .notRunnable false
  every_await : every .notRunnable true
  every_wake  : ∀ {st}, every st true → every .runnable false
  every_preempt : ∀ {r}, every .running r → every .runnable r
  every_doom  : ∀ {r}, every .running r → every .dying r
  every_pick  : ∀ {r}, every .runnable r → every .running r
  every_again : ∀ {st r}, cur st r → every st r → every .running r
  cur_pick    : ∀ {r}, every .runnable r → cur .running r
  cur_again   : ∀ {st r}, cur st r → cur .running r
  cur_doom    : ∀ {r}, cur .running r → cur .dying r

variable {P : Policy}

namespace Kernel

-- A processor other than `c` runs `e`.
def Elsewhere (s : Kernel) (c : CpuIx) (e : EnvIx) : Prop :=
  ∃ c', c' ≠ c ∧ s.cur c' = some e

-- No environment is current twice, and on the processors in `A` the current environments are as `P` wants them
-- and their page directories are loaded.
structure Apart (P : Policy) (A : Set CpuIx) (s : Kernel) : Prop where
  inj   : ∀ {c c' e}, s.cur c = some e → s.cur c' = some e → c = c'
  cur   : ∀ {c e}, c ∈ A → s.cur c = some e → P.cur (s.envs e).status (s.envs e).ipcRecving
  cr3   : ∀ {c e}, c ∈ A → s.cur c = some e → (s.envs e).pgdir = some (s.cpus c).cr3
  every : ∀ e, P.every (s.envs e).status (s.envs e).ipcRecving

-- The environments and their free list are in order.
def Tables (s : Kernel) : Prop :=
  s.HasDirs ∧ ∃ L, EnvInv L s

namespace Apart

theorem mono (h : Apart P A s) (hb : B ⊆ A) : Apart P B s where
  inj := h.inj
  cur hc := h.cur (hb hc)
  cr3 hc := h.cr3 (hb hc)
  every := h.every

theorem not_elsewhere (h : Apart P A s) (ha : s.cur c = some a) : ¬s.Elsewhere c a := by
  rintro ⟨c', hc, ha'⟩
  exact hc (h.inj ha' ha)

theorem live (h : Apart P A s) (hc : c ∈ A) (ha : s.cur c = some a) : (s.envs a).status ≠ .free := by
  intro hf
  have hp := h.cur hc ha
  rw [hf] at hp
  exact P.not_free hp

-- Nobody runs what the scheduler may choose.
theorem not_elsewhere_of_runnable (h : Apart P {c}ᶜ s) (hr : (s.envs e).status = .runnable) : ¬s.Elsewhere c e := by
  rintro ⟨c', hc, he⟩
  have hp := h.cur hc he
  rw [hr] at hp
  exact P.not_runnable hp

theorem sameTable (h : Apart P A s) (hs : SameTable s s') : Apart P A s' where
  inj := by
    rw [hs.cur]
    exact h.inj
  cur := by
    rw [hs.cur, hs.envs]
    exact h.cur
  cr3 := by
    intro c e hc he
    rw [hs.cur] at he
    rw [hs.envs, hs.cr3]
    exact h.cr3 hc he
  every := by
    rw [hs.envs]
    exact h.every

theorem setEnv (h : Apart P A s) (hp : (f (s.envs e)).pgdir = (s.envs e).pgdir)
    (he : P.every (f (s.envs e)).status (f (s.envs e)).ipcRecving)
    (hc : ∀ c ∈ A, s.cur c = some e → P.cur (f (s.envs e)).status (f (s.envs e)).ipcRecving) :
    Apart P A (s.setEnv e f) := by
  refine ⟨h.inj, fun {c e'} hA hx => ?_, fun {c e'} hA hx => ?_, fun e' => ?_⟩
  case refine_1 =>
    by_cases hne : e' = e
    case pos => simpa [Kernel.setEnv, hne] using hc c hA (hne ▸ hx)
    case neg => simpa [Kernel.setEnv, hne] using h.cur hA hx
  case refine_2 =>
    by_cases hne : e' = e
    case pos => simpa [Kernel.setEnv, hne, hp] using h.cr3 hA (hne ▸ hx)
    case neg => simpa [Kernel.setEnv, hne] using h.cr3 hA hx
  case refine_3 =>
    by_cases hne : e' = e
    case pos => simpa [Kernel.setEnv, hne] using he
    case neg => simpa [Kernel.setEnv, hne] using h.every e'

-- Only registers, or other fields which do not matter here, change.
theorem retouch (h : Apart P A s) (hp : (f (s.envs e)).pgdir = (s.envs e).pgdir)
    (hs : (f (s.envs e)).status = (s.envs e).status) (hi : (f (s.envs e)).ipcRecving = (s.envs e).ipcRecving) :
    Apart P A (s.setEnv e f) := by
  refine h.setEnv hp ?_ fun c hA hc => ?_
  all_goals rw [hs, hi]
  case refine_1 => exact h.every e
  case refine_2 => exact h.cur hA hc

-- The processor `c` turns to another environment, or to none.
theorem setCpu {g : CpuInfo → CpuInfo} (h : Apart P {c}ᶜ s)
    (hg : ∀ e, (g (s.cpus c)).env = some e → ¬s.Elsewhere c e ∧
      P.cur (s.envs e).status (s.envs e).ipcRecving ∧ (s.envs e).pgdir = some (g (s.cpus c)).cr3) :
    Apart P Set.univ (s.setCpu c g) := by
  have hself : (s.setCpu c g).cpus c = g (s.cpus c) := by simp [Kernel.setCpu]
  have hother : ∀ {c'}, c' ≠ c → (s.setCpu c g).cpus c' = s.cpus c' := fun hc => by simp [Kernel.setCpu, hc]
  refine ⟨fun {c₁ c₂ e} h₁ h₂ => ?_, fun {c' e} _ he => ?_, fun {c' e} _ he => ?_, h.every⟩
  all_goals simp only [Kernel.cur] at *
  case refine_1 =>
    by_cases hc₁ : c₁ = c
    case pos =>
      by_contra hc₂
      rw [hc₁, hself] at h₁
      rw [hother (fun h => hc₂ (hc₁.trans h.symm))] at h₂
      exact (hg e h₁).1 ⟨c₂, fun h => hc₂ (hc₁.trans h.symm), h₂⟩
    case neg =>
      rw [hother hc₁] at h₁
      by_cases hc₂ : c₂ = c
      case pos =>
        rw [hc₂, hself] at h₂
        exact absurd ⟨c₁, hc₁, h₁⟩ (hg e h₂).1
      case neg =>
        rw [hother hc₂] at h₂
        exact h.inj h₁ h₂
  case refine_2 =>
    by_cases hc : c' = c
    case pos =>
      rw [hc, hself] at he
      exact (hg e he).2.1
    case neg =>
      rw [hother hc] at he
      exact h.cur hc he
  case refine_3 =>
    by_cases hc : c' = c
    case pos =>
      rw [hc, hself] at he ⊢
      exact (hg e he).2.2
    case neg =>
      rw [hother hc] at he ⊢
      exact h.cr3 hc he

theorem retire (h : Apart P {c}ᶜ s) (hc : ¬s.Elsewhere c e) : Apart P {c}ᶜ (s.retire e) := by
  have hne : ∀ {c' e'}, c' ∈ ({c}ᶜ : Set CpuIx) → s.cur c' = some e' → e' ≠ e := by
    rintro c' e' hc' he' rfl
    exact hc ⟨c', hc', he'⟩
  refine ⟨h.inj, fun hc' he' => ?_, fun hc' he' => ?_, fun e' => ?_⟩
  case refine_1 => simpa [Kernel.retire, Kernel.setEnv, hne hc' he'] using h.cur hc' he'
  case refine_2 => simpa [Kernel.retire, Kernel.setEnv, hne hc' he'] using h.cr3 hc' he'
  case refine_3 =>
    by_cases he : e' = e
    case pos => simpa [Kernel.retire, Kernel.setEnv, he] using P.every_free
    case neg => simpa [Kernel.retire, Kernel.setEnv, he] using h.every e'

theorem stopped (h : Apart P {c}ᶜ s) (hc : ¬s.Elsewhere c e) (hs : Stopped c e s s') : Apart P {c}ᶜ s' := by
  have hst : ∀ e', (s'.envs e').status = (s.envs e').status ∧ (s'.envs e').ipcRecving = (s.envs e').ipcRecving := by
    intro e'
    obtain ⟨y, hy, -⟩ := hs.envs e'
    simp [hy]
  refine ⟨fun h₁ h₂ => ?_, fun {c' e'} hc' he' => ?_, fun {c' e'} hc' he' => ?_, fun e' => ?_⟩
  case refine_1 =>
    rw [hs.cur] at h₁ h₂
    exact h.inj h₁ h₂
  case refine_2 =>
    rw [hs.cur] at he'
    rw [(hst e').1, (hst e').2]
    exact h.cur hc' he'
  case refine_3 =>
    rw [hs.cur] at he'
    obtain ⟨y, hy, hy'⟩ := hs.envs e'
    rw [hs.cr3 c' hc', hy, ← h.cr3 hc' he']
    refine hy' ?_
    rintro rfl
    exact hc ⟨c', hc', he'⟩
  case refine_4 =>
    rw [(hst e').1, (hst e').2]
    exact h.every e'

end Apart

namespace Tables

theorem sameTable (h : Tables s) (hs : SameTable s s') : Tables s' := by
  obtain ⟨hd, L, hL⟩ := h
  refine ⟨hs.hasDirs hd, L, ?_, hL.nodup, ?_⟩
  case refine_1 =>
    rw [hs.envs, hs.free]
    exact hL.chain
  case refine_2 =>
    rw [hs.envs]
    exact hL.mem

theorem sameMem (h : Tables s) (hs : SameMem s s') : Tables s' := by
  obtain ⟨hd, L, hL⟩ := h
  refine ⟨fun {e} => ?_, L, hs.envInv hL⟩
  rw [hs.live, hs.pgdir]
  exact hd

theorem head_free (h : Tables s) (he : s.envFreeList = some e) : (s.envs e).status = .free := by
  obtain ⟨-, L, hL⟩ := h
  obtain ⟨L', hL'⟩ := hL.of_head he
  subst hL'
  exact hL.mem.mp (by simp)

theorem retire (h : Tables s) (he : (s.envs e).status ≠ .free) : Tables (s.retire e) := by
  obtain ⟨hd, L, hL⟩ := h
  have hne : ∀ e', e' ≠ e → (s.retire e).envs e' = s.envs e' := fun e' hc => by simp [Kernel.retire, setEnv, hc]
  refine ⟨hasDirs_retire hd, e :: L, hL.push (mt hL.mem.mp he) rfl ?_ ?_ (fun e' hc => by rw [hne e' hc])
    fun e' hc => by rw [hne e' hc]⟩
  all_goals simp [Kernel.retire, setEnv]

theorem forkSlot (h : Tables s) (he : s.envFreeList = some e) : Tables (s.forkSlot a e p) := by
  obtain ⟨hd, L, hL⟩ := h
  obtain ⟨L', hL'⟩ := hL.of_head he
  subst hL'
  have hne : ∀ e', e' ≠ e → (s.forkSlot a e p).envs e' = s.envs e' := fun e' hc => by
    simp [Kernel.forkSlot, setEnv, hc]
  refine ⟨fun {e'} => ?_, L', hL.pop rfl ?_ (fun e' hc => by rw [hne e' hc]) fun e' hc => by rw [hne e' hc]⟩
  case refine_1 =>
    by_cases hc : e' = e
    case pos => simp [Kernel.forkSlot, setEnv, freshEnv, hc]
    case neg =>
      rw [hne e' hc]
      exact hd
  case refine_2 => simp [Kernel.forkSlot, setEnv, freshEnv]

end Tables

-- What is left of the invariant when the processor `c` leaves the kernel.
structure Outcome (P : Policy) (c : CpuIx) (x : Exit) (s : Kernel) : Prop where
  apart  : Apart P { c' | c' ≠ c ∨ x.mode ≠ .stopped } s
  runs   : x.mode ≠ .stopped → x.mode ≠ .halted → ∃ e, s.cur c = some e
  tables : x.mode ≠ .stopped → Tables s

theorem Outcome.of_univ (h : Apart P Set.univ s) (hr : x.mode ≠ .halted → ∃ e, s.cur c = some e)
    (ht : Tables s) : Outcome P c x s :=
  ⟨h.mono (Set.subset_univ _), fun _ => hr, fun _ => ht⟩

theorem Outcome.of_stopped (h : Apart P {c}ᶜ s) (hx : x.mode = .stopped) : Outcome P c x s :=
  ⟨h.mono fun _ hc => hc.resolve_right fun h => h hx, fun h => absurd hx h, fun h => absurd hx h⟩

theorem Apart.preempt (h : Apart P {c}ᶜ s) : Apart P {c}ᶜ (s.preempt c) := by
  simp only [Kernel.preempt]
  split
  case _ => exact h
  case _ e he =>
    split
    case isTrue hr =>
      refine h.setEnv rfl (P.every_preempt (hr ▸ h.every e)) fun c' hc hc' => ?_
      exact absurd ⟨c', hc, hc'⟩ (h.not_elsewhere he)
    case isFalse => exact h

theorem cur_preempt : (s.preempt c).cur = s.cur := by
  simp only [Kernel.preempt]
  split
  case _ => rfl
  case _ => split <;> rfl

theorem recving_preempt : ((s.preempt c).envs e).ipcRecving = (s.envs e).ipcRecving := by
  simp only [Kernel.preempt]
  split
  case _ => rfl
  case _ e' _ =>
    split
    case isTrue => by_cases he : e = e' <;> simp [Kernel.setEnv, he]
    case isFalse => rfl

-- The processor `c` runs an environment that no other processor runs.
theorem Apart.runEnv (h : Apart P {c}ᶜ s) (hc : ¬s.Elsewhere c e) (hd : (s.envs e).pgdir = some pd)
    (he : P.every .running (s.envs e).ipcRecving) (hr : P.cur .running (s.envs e).ipcRecving) :
    Apart P Set.univ (s.runEnv c e pd) := by
  have h₁ : Apart P {c}ᶜ ((s.preempt c).setEnv e fun v =>
      { v with status := .running, runs := v.runs + 1#32, cpunum := c }) := by
    refine h.preempt.setEnv rfl ?_ fun c' hc' he' => ?_
    case refine_1 =>
      simp only [recving_preempt]
      exact he
    case refine_2 =>
      rw [cur_preempt] at he'
      exact absurd ⟨c', hc', he'⟩ hc
  refine h₁.setCpu (g := fun i => { i with env := some e, cr3 := pd, tlb := [] }) fun e' he' => ?_
  cases Option.some.inj he'
  refine ⟨?_, ?_, ?_⟩
  case refine_1 =>
    rintro ⟨c', hc', he'⟩
    have : s.cur c' = some e := by
      rw [← cur_preempt (c := c)]
      exact he'
    exact hc ⟨c', hc', this⟩
  case refine_2 => simpa [Kernel.setEnv, recving_preempt] using hr
  case refine_3 => simpa [Kernel.setEnv, pgdir_preempt] using hd

theorem sameMem_runEnv (hl : (s.envs e).status ≠ .free) : SameMem s (s.runEnv c e pd) := by
  have hp := sameMem_preempt (s := s) (c := c)
  refine (hp.trans .setCpu).trans (.setEnv rfl rfl ?_)
  exact iff_of_false (by simp) (mt (hp.live e).mp hl)

theorem cur_runEnv : (s.runEnv c e pd).cur c = some e := by
  simp [Kernel.cur, Kernel.runEnv, Kernel.setEnv, Kernel.setCpu]

-- The scheduler chooses among the environments that nobody runs.
theorem Schedules.outcome (hs : Schedules c s x s') (h : Apart P {c}ᶜ s) (ht : Tables s)
    (ha : ∀ e, s.cur c = some e → (s.envs e).status = .running → P.cur .running (s.envs e).ipcRecving) :
    Outcome P c x s' := by
  cases hs
  case pick e pd hr hd =>
    have he := h.every e
    rw [hr] at he
    refine .of_univ (h.runEnv (h.not_elsewhere_of_runnable hr) hd (P.every_pick he) (P.cur_pick he)) ?_ ?_
    case refine_1 => exact fun _ => ⟨e, cur_runEnv⟩
    case refine_2 => exact ht.sameMem (sameMem_runEnv (by simp [hr]))
  case resume e pd hc hr hd =>
    have he := h.every e
    rw [hr] at he
    refine .of_univ (h.runEnv (h.not_elsewhere hc) hd he (ha e hc hr)) ?_ ?_
    case refine_1 => exact fun _ => ⟨e, cur_runEnv⟩
    case refine_2 => exact ht.sameMem (sameMem_runEnv (by simp [hr]))
  case halt =>
    refine .of_univ (h.setCpu fun e he => ?_) (fun hh => absurd rfl hh) (ht.sameMem .setCpu)
    cases he
  case monitor => exact .of_stopped h rfl

theorem Apart.reap (h : Apart P {c}ᶜ s) (hc : ¬s.Elsewhere c e) : Apart P {c}ᶜ (s.reap c e) := by
  refine ((h.retire hc).setCpu fun e' he' => ?_).mono (Set.subset_univ _)
  cases he'

theorem Reaps.outcome (hs : Reaps c a s x s') (h : Apart P {c}ᶜ s) (ht : Tables s) (ha : s.cur c = some a)
    (hl : (s.envs a).status ≠ .free) : Outcome P c x s' := by
  have hc := h.not_elsewhere ha
  cases hs
  case panic hs => exact .of_stopped (h.stopped hc hs) rfl
  case sched s₁ hr hs =>
    refine hs.outcome ((h.reap hc).sameTable hr) ((ht.retire hl).sameMem .setCpu |>.sameTable hr) fun e he => ?_
    rw [hr.cur] at he
    simp [Kernel.cur, Kernel.reap, Kernel.setCpu] at he

end Kernel

-- The system calls of `a`, on the processor `c`, which do not upset the policy by what they do to the
-- environments of other processors.
structure Policy.Allows (P : Policy) (s : Kernel) (c : CpuIx) (a : EnvIx) (k : Call) : Prop where
  status  : ∀ {e st}, k.sysno = some .envSetStatus → s.findEnv a k.a₁ true = some e →
    settableStatus k.a₂ = some st →
    P.every st (s.envs e).ipcRecving ∧
      (s.Elsewhere c e → P.cur (s.envs e).status (s.envs e).ipcRecving → P.cur st (s.envs e).ipcRecving)
  send    : ∀ {e}, k.sysno = some .ipcTrySend → s.findEnv a k.a₁ false = some e → (s.envs e).ipcRecving = true →
    ¬s.Elsewhere c e
  destroy : ∀ {e}, k.sysno = some .envDestroy → s.findEnv a k.a₁ true = some e → (s.envs e).status ≠ .running →
    ¬s.Elsewhere c e

theorem settableStatus_cases {w : Word} {st : EnvStatus} (h : settableStatus w = some st) :
    st = .runnable ∨ st = .notRunnable := by
  simp only [settableStatus] at h
  split at h
  case isTrue => exact .inl (Option.some.inj h).symm
  case isFalse =>
    split at h
    case isTrue => exact .inr (Option.some.inj h).symm
    case isFalse => cases h

namespace Kernel

theorem EnvAct.cur_eq (hx : EnvAct a k s r s') : s'.cur = s.cur := by
  cases hx <;> rfl

theorem EnvAct.tables (hx : EnvAct a k s r s') (ht : Tables s) (hl : (s.envs a).status ≠ .free) : Tables s' := by
  cases hx
  case skip => exact ht
  case fork _ he _ => exact ht.forkSlot he
  case status e st _ he hst =>
    refine ht.sameMem (.setEnv rfl rfl (iff_of_false ?_ (findEnv_live hl he)))
    obtain rfl | rfl := settableStatus_cases hst <;> simp
  case upcall => exact ht.sameMem (.setEnv rfl rfl Iff.rfl)
  case send e _ _ he _ _ => exact ht.sameMem (.setEnv rfl rfl (iff_of_false (by simp) (findEnv_live hl he)))
  case doom e _ he _ _ => exact ht.sameMem (.setEnv rfl rfl (iff_of_false (by simp) (findEnv_live hl he)))
  case free _ he _ _ => exact ht.retire (findEnv_live hl he)

theorem EnvAct.apart (hx : EnvAct a k s r s') (h : Apart P {c}ᶜ s) (ht : Tables s) (hp : P.Allows s c a k) :
    Apart P {c}ᶜ s' := by
  cases hx
  case skip => exact h
  case fork e p _ he _ =>
    have hf := ht.head_free he
    have hne : ∀ {c' e'}, c' ∈ ({c}ᶜ : Set CpuIx) → s.cur c' = some e' → e' ≠ e := by
      rintro c' e' hc' he' rfl
      exact h.live hc' he' hf
    refine ⟨h.inj, fun hc' he' => ?_, fun hc' he' => ?_, fun e' => ?_⟩
    case refine_1 => simpa [forkSlot, setEnv, hne hc' he'] using h.cur hc' he'
    case refine_2 => simpa [forkSlot, setEnv, hne hc' he'] using h.cr3 hc' he'
    case refine_3 =>
      by_cases hee : e' = e
      case pos => simpa [forkSlot, setEnv, freshEnv, hee] using P.every_fresh
      case neg => simpa [forkSlot, setEnv, hee] using h.every e'
  case status e st hk he hst =>
    obtain ⟨h₁, h₂⟩ := hp.status hk he hst
    exact h.setEnv rfl h₁ fun c' hc hc' => h₂ ⟨c', hc, hc'⟩ (h.cur hc hc')
  case upcall => exact h.retouch rfl rfl rfl
  case send e perm hk he hi _ =>
    refine h.setEnv rfl (P.every_wake (hi ▸ h.every e)) fun c' hc hc' => ?_
    exact absurd ⟨c', hc, hc'⟩ (hp.send hk he hi)
  case doom e hk he _ hs =>
    refine h.setEnv rfl (P.every_doom (hs ▸ h.every e)) fun c' hc hc' => ?_
    exact P.cur_doom (hs ▸ h.cur hc hc')
  case free e hk he _ hs => exact h.retire (hp.destroy hk he hs)

-- If the caller is still running after its call, it has not begun to receive.
theorem EnvAct.recving_eq (hx : EnvAct a k s r s') (ht : Tables s) (hl : (s.envs a).status ≠ .free)
    (hr : (s'.envs a).status = .running) : (s'.envs a).ipcRecving = (s.envs a).ipcRecving := by
  cases hx
  case skip => rfl
  case fork e p _ he _ =>
    have hne : a ≠ e := by
      rintro rfl
      exact hl (ht.head_free he)
    simp [forkSlot, setEnv, hne]
  case status e st _ _ _ => by_cases he : a = e <;> simp [setEnv, he]
  case upcall e _ _ => by_cases he : a = e <;> simp [setEnv, he]
  case send e _ _ _ _ _ =>
    by_cases he : a = e
    case pos => simp [deliver, setEnv, he] at hr
    case neg => simp [deliver, setEnv, he]
  case doom e _ _ hne _ => simp [setEnv, hne.symm]
  case free e _ _ hne _ => simp [Kernel.retire, setEnv, hne.symm]

section Others

variable (hc : c' ≠ c)

include hc in
theorem cur_setCpu_of_ne {g : CpuInfo → CpuInfo} : (s.setCpu c g).cur c' = s.cur c' := by
  simp [Kernel.cur, setCpu, hc]

include hc in
theorem cur_runEnv_of_ne : (s.runEnv c e pd).cur c' = s.cur c' := by
  rw [← cur_preempt (s := s) (c := c)]
  simp [runEnv, Kernel.cur, setCpu, setEnv, hc]

include hc in
theorem Schedules.cur_of_ne (hs : Schedules c s x s') : s'.cur c' = s.cur c' := by
  cases hs
  case pick => exact cur_runEnv_of_ne hc
  case resume => exact cur_runEnv_of_ne hc
  case halt => exact cur_setCpu_of_ne hc
  case monitor => rfl

include hc in
theorem Reaps.cur_of_ne (hs : Reaps c a s x s') : s'.cur c' = s.cur c' := by
  cases hs
  case panic h => rw [h.cur]
  case sched s₁ h hs =>
    rw [hs.cur_of_ne hc, h.cur]
    exact cur_setCpu_of_ne hc

include hc in
theorem EnvExit.cur_of_ne (hx : EnvExit c a k s x s') : s'.cur c' = s.cur c' := by
  cases hx
  case panic h => rw [h.cur]
  case fault h => rw [h.cur]
  case yield h => exact h.cur_of_ne hc
  case recv h => exact (h.cur_of_ne hc :)
  case reap h => exact h.cur_of_ne hc

include hc in
theorem Handles.cur_of_ne (hx : Handles c a s x s') : s'.cur c' = s.cur c' := by
  cases hx
  case reap h => exact (h.cur_of_ne hc :)
  case fault h =>
    rw [h.cur]
    rfl
  case upcall h _ =>
    rw [cur_runEnv_of_ne hc, h.cur]
    rfl

-- Only the processor that has trapped may turn to another environment.
include hc in
theorem Traps.cur_of_ne (hx : Traps c a tf s x s') : s'.cur c' = s.cur c' := by
  cases hx
  case zombie h => exact h.cur_of_ne hc
  case pgflt h => exact (h.cur_of_ne hc :)
  case destroy h => exact (h.cur_of_ne hc :)
  case sched h => exact (h.cur_of_ne hc :)
  case exit h => exact (h.cur_of_ne hc :)
  case ret s₁ _ h hs =>
    obtain ⟨s₀, h₀, h₁⟩ := h
    rw [hs.cur_of_ne hc]
    exact (congrFun h₁.cur c').trans (congrFun h₀.cur_eq c')

end Others

section Leaving

variable (h : Apart P Set.univ s) (ht : Tables s) (ha : s.cur c = some a)

theorem Apart.others (h : Apart P Set.univ s) : Apart P {c}ᶜ s :=
  h.mono (Set.subset_univ _)

include h ha in
theorem Apart.running (e : EnvIx) (he : s.cur c = some e) (_ : (s.envs e).status = .running) :
    P.cur .running (s.envs e).ipcRecving := by
  cases ha.symm.trans he
  exact P.cur_again (h.cur trivial ha)

include h ht ha in
theorem EnvExit.outcome (hx : EnvExit c a k s x s') (hk : P.Allows s c a k) : Outcome P c x s' := by
  have hl := h.live trivial ha
  have hn := h.not_elsewhere ha
  cases hx
  case panic e he hs =>
    refine .of_stopped (h.others.stopped ?_ hs) rfl
    obtain rfl | ⟨hd, he, hr⟩ := he
    case inl => exact hn
    case inr => exact hk.destroy hd he hr
  case fault va _ hs => exact .of_univ (h.sameTable hs) (fun _ => ⟨a, by rw [hs.cur, ha]⟩) (ht.sameTable hs)
  case yield hs => exact hs.outcome h.others ht (h.running ha)
  case recv hs =>
    have hw : Apart P {c}ᶜ (s.await a k.a₁) :=
      h.others.setEnv rfl P.every_await fun c' hc hc' => absurd ⟨c', hc, hc'⟩ hn
    refine hs.outcome hw (ht.sameMem (.setEnv rfl rfl (iff_of_false (by simp) hl))) fun e he hr => ?_
    cases ha.symm.trans he
    simp [await, setEnv] at hr
  case reap hs => exact hs.outcome h.others ht ha hl

include h ht ha in
theorem Handles.outcome (hx : Handles c a s x s') : Outcome P c x s' := by
  have hl := h.live trivial ha
  have hs : ∀ t, Apart P Set.univ (s.saveTf a t) := fun t => h.retouch rfl rfl rfl
  have htb : ∀ t, Tables (s.saveTf a t) := fun t => ht.sameMem (.setEnv rfl rfl Iff.rfl)
  cases hx
  case reap t hr => exact hr.outcome (hs t).others (htb t) ha ((hs t).live trivial ha)
  case fault t va hf => exact .of_univ ((hs t).sameTable hf) (fun _ => ⟨a, by rw [hf.cur]; exact ha⟩) ((htb t).sameTable hf)
  case upcall t s₁ pd hf hd =>
    have h₁ := (hs t).sameTable hf
    have ha₁ : s₁.cur c = some a := by rw [hf.cur]; exact ha
    have hd₁ : (s₁.envs a).pgdir = some pd := by
      rw [hf.envs]
      simpa [saveTf, setEnv] using hd
    have hc₁ := h₁.cur trivial ha₁
    refine .of_univ (h₁.others.runEnv (h₁.not_elsewhere ha₁) hd₁ (P.every_again hc₁ (h₁.every a)) (P.cur_again hc₁))
      (fun _ => ⟨a, cur_runEnv⟩) ?_
    exact ((htb t).sameTable hf).sameMem (sameMem_runEnv (h₁.live trivial ha₁))

include h ht ha in
theorem Traps.outcome (hx : Traps c a tf s x s') (hk : tf.trapno = tSyscall → P.Allows (s.saveTf a tf) c a tf.call) :
    Outcome P c x s' := by
  have hl := h.live trivial ha
  have hs : Apart P Set.univ (s.saveTf a tf) := h.retouch rfl rfl rfl
  have htb : Tables (s.saveTf a tf) := ht.sameMem (.setEnv rfl rfl Iff.rfl)
  have hls := hs.live trivial ha
  cases hx
  case zombie _ hr => exact hr.outcome h.others ht ha hl
  case pgflt _ hf => exact hf.outcome hs htb ha
  case destroy _ hr => exact hr.outcome hs.others htb ha hls
  case sched _ hr => exact hr.outcome hs.others htb (hs.running ha)
  case exit hn hx => exact hx.outcome hs htb ha (hk hn)
  case ret r s₁ hn hacts hsch =>
    obtain ⟨s₀, hact, hst⟩ := hacts
    have h₀ := hact.apart hs.others htb (hk hn)
    have ht₀ := hact.tables htb hls
    have h₁ : Apart P {c}ᶜ (s₁.answer a r) := (h₀.sameTable hst).retouch rfl rfl rfl
    refine hsch.outcome h₁ ((ht₀.sameTable hst).sameMem (.setEnv rfl rfl Iff.rfl)) fun e he hr => ?_
    have ha₁ : s₁.cur c = some a := by rw [hst.cur, hact.cur_eq]; exact ha
    cases ha₁.symm.trans he
    have hr₀ : (s₀.envs a).status = .running := by
      rw [← hst.envs]
      simpa [answer, setEnv] using hr
    have hi : ((s₁.answer a r).envs a).ipcRecving = (s₀.envs a).ipcRecving := by simp [answer, setEnv, hst.envs]
    rw [hi, hact.recving_eq htb hls hr₀]
    exact P.cur_again (hs.cur trivial ha)

end Leaving

end Kernel

end Jos
