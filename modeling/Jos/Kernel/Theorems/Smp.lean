import Jos.Kernel.Theorems.Memory
import Jos.Kernel.Theorems.Confine

-- Environments on several processors at once, and environments that wait for a message.

open Function Program

namespace Jos

open Kernel

variable {M : Set Ppn} {S S' S₀ : System} {s s' : Kernel} {c c' : CpuIx} {e e' a b : EnvIx} {tf : Trapframe} {x : Exit}
  {y : Action} {k : Call} {r : Word} {st : EnvStatus}

namespace Kernel

-- The call `k` of `a` sets the status of `e` to `st`.
def SetsStatus (s : Kernel) (a : EnvIx) (k : Call) (e : EnvIx) (st : EnvStatus) : Prop :=
  k.sysno = some .envSetStatus ∧ s.findEnv a k.a₁ true = some e ∧ settableStatus k.a₂ = some st

-- The call destroys `e` at once, rather than only mark it.
def Frees (s : Kernel) (a : EnvIx) (k : Call) (e : EnvIx) : Prop :=
  k.sysno = some .envDestroy ∧ s.findEnv a k.a₁ true = some e ∧ (s.envs e).status ≠ .running

-- No environment that runs on a processor other than `c` is given another status, or a message, or is freed.
def SparesRunning (s : Kernel) (c : CpuIx) (a : EnvIx) (k : Call) : Prop :=
  ∀ e, s.Elsewhere c e → (∀ st, ¬s.SetsStatus a k e st) ∧ ¬s.Receives a k e ∧ ¬s.Frees a k e

-- The same, but an environment that runs elsewhere may be suspended.
def SparesRunnable (s : Kernel) (c : CpuIx) (a : EnvIx) (k : Call) : Prop :=
  ∀ e, s.Elsewhere c e → ¬s.SetsStatus a k e .runnable ∧ ¬s.Receives a k e ∧ ¬s.Frees a k e

-- No environment that waits for a message is made runnable by hand.
def SparesReceivers (s : Kernel) (a : EnvIx) (k : Call) : Prop :=
  ∀ e, s.SetsStatus a k e .runnable → (s.envs e).ipcRecving = false

end Kernel

section OneCpu

-- Environments run, or are about to be freed, while a processor runs them.
def runningPolicy : Policy where
  every _ _ := True
  cur st _ := st = .running ∨ st = .dying
  not_free := by simp
  not_runnable := by simp
  every_free := trivial
  every_fresh := trivial
  every_await := trivial
  every_wake := id
  every_preempt := id
  every_doom := id
  every_pick := id
  every_again _ := id
  cur_pick _ := .inl rfl
  cur_again _ := .inl rfl
  cur_doom _ := .inr rfl

theorem Kernel.SparesRunning.allows (h : s.SparesRunning c a k) : runningPolicy.Allows s c a k where
  status hk he hst := ⟨trivial, fun hw => absurd ⟨hk, he, hst⟩ ((h _ hw).1 _)⟩
  send hk he hi hw := (h _ hw).2.1 ⟨hk, he, hi⟩
  destroy hk he hs hw := (h _ hw).2.2 ⟨hk, he, hs⟩

-- As long as nobody meddles with the environments that other processors run, no two processors run the same
-- environment, and the environments that run have the status for it.
theorem env_on_one_cpu (hb : System.Booted M S₀) (hr : System.Reaches (System.Calls SparesRunning) S₀ S) :
    (∀ {c c' e}, S.kern.cur c = some e → S.kern.cur c' = some e → c = c') ∧
    ∀ {c}, S.mode c = .user → ∃ e, S.kern.cur c = some e ∧
      ((S.kern.envs e).status = .running ∨ (S.kern.envs e).status = .dying) := by
  have h₀ : S₀.Inv runningPolicy := hb.inv trivial
  have h := h₀.reaches (hr.mono (System.Calls.allows SparesRunning.allows))
  refine ⟨h.apart.inj, fun {c} hm => ?_⟩
  have hs : S.mode c ≠ .stopped := by simp [hm]
  obtain ⟨e, he⟩ := h.runs hs (by simp [hm]) (by simp [hm])
  exact ⟨e, he, h.apart.cur hs he⟩

theorem env_on_one_cpu_start :
    ∃ S, soleSystem.run [.start 0] = some S ∧
      (∀ {c c' e}, S.kern.cur c = some e → S.kern.cur c' = some e → c = c') ∧ S.mode 0 = .user := by
  have hs : (soleSystem.step (.start 0)).isSome = true := by decide +kernel
  obtain ⟨S, hS⟩ := Option.isSome_iff_exists.mp hs
  refine ⟨S, by simp [System.run, hS], ?_, ?_⟩
  case refine_1 => exact (env_on_one_cpu soleSystem_booted (.single ⟨.start 0, hS, trivial⟩)).1
  case refine_2 =>
    have hm : (soleSystem.step (.start 0)).map (·.mode 0) = some .user := by decide +kernel
    rw [hS] at hm
    exact Option.some.inj hm

-- The first environment forks a child, which the second processor runs; then it makes the child runnable
-- once more, and yields.
theorem env_on_two_cpus :
    soleSystem.Booted { p | p ∈ freshPages 16 } ∧
    ∃ S, soleSystem.run [.start 0, .call 0 7 0 0, .call 0 8 0x1001 2, .start 1, .call 0 8 0x1001 2,
        .call 0 10 0 0] = some S ∧
      S.mode 0 = .user ∧ S.mode 1 = .user ∧ S.kern.cur 0 = some 1 ∧ S.kern.cur 1 = some 1 := by
  have hr : (soleSystem.run [.start 0, .call 0 7 0 0, .call 0 8 0x1001 2, .start 1, .call 0 8 0x1001 2,
      .call 0 10 0 0]).map (fun S => (S.mode 0, S.mode 1, S.kern.cur 0, S.kern.cur 1)) =
      some (.user, .user, some 1, some 1) := by decide +kernel
  obtain ⟨S, hS, h⟩ := Option.map_eq_some_iff.mp hr
  simp only [Prod.mk.injEq] at h
  exact ⟨soleSystem_booted, S, hS, h⟩

end OneCpu

section Zombies

-- Environments may be suspended while a processor runs them.
def suspendedPolicy : Policy where
  every _ _ := True
  cur st _ := st = .running ∨ st = .dying ∨ st = .notRunnable
  not_free := by simp
  not_runnable := by simp
  every_free := trivial
  every_fresh := trivial
  every_await := trivial
  every_wake := id
  every_preempt := id
  every_doom := id
  every_pick := id
  every_again _ := id
  cur_pick _ := .inl rfl
  cur_again _ := .inl rfl
  cur_doom _ := .inr (.inl rfl)

theorem Kernel.SparesRunnable.allows (h : s.SparesRunnable c a k) : suspendedPolicy.Allows s c a k where
  status {e st} hk he hst := by
    refine ⟨trivial, fun hw _ => ?_⟩
    obtain rfl | rfl := settableStatus_cases hst
    case inl => exact absurd ⟨hk, he, hst⟩ (h _ hw).1
    case inr => exact .inr (.inr rfl)
  send hk he hi hw := (h _ hw).2.1 ⟨hk, he, hi⟩
  destroy hk he hs hw := (h _ hw).2.2 ⟨hk, he, hs⟩

-- The reference counts still fit after the event.
def System.Fits (S : System) (y : Action) : Prop :=
  ∀ S', S.step y = some S' → RefsFit S'.kern

-- Nobody makes an environment runnable, sends to it or destroys it twice while another processor runs it; the
-- permissions are mere flags, and the reference counts fit.
def System.Orderly (S : System) (y : Action) : Prop :=
  S.Calls SparesRunnable y ∧ S.Flags y ∧ S.Fits y

theorem System.Booted.orderly (hb : System.Booted M S₀) (hr : System.Reaches System.Orderly S₀ S) :
    S.Inv suspendedPolicy ∧ MemInv M S.kern := by
  induction hr
  case refl => exact ⟨hb.inv trivial, hb.mem⟩
  case tail S₁ S₂ _ hs ih =>
    obtain ⟨y, hy, hc, hf, hx⟩ := hs
    obtain ⟨h, hm⟩ := ih
    refine ⟨h.step hy (System.Calls.allows SparesRunnable.allows S₁ y hc), ?_⟩
    obtain ⟨l, L, hl, hL⟩ := hm
    exact (h.memEvent hl hy).memInv ⟨l, L, hl, hL⟩ hf (hx S₂ hy)

-- In every orderly run, an environment is freed only on the processor that runs it, if any; the page directory of
-- a processor in user mode is not on the free list, and its environment is not free.
theorem env_freed_alone (hb : System.Booted M S₀) (hr : System.Reaches System.Orderly S₀ S) :
    (∀ {y S' c e}, S.step y = some S' → S.Orderly y → S.kern.cur c = some e → (S.kern.envs e).status ≠ .free →
      (S'.kern.envs e).status = .free → c = y.cpu) ∧
    ∀ {c}, S.mode c = .user → ∃ e, S.kern.cur c = some e ∧ (S.kern.envs e).status ≠ .free ∧
      ∀ l, S.kern.FreeList l → (S.kern.cpus c).cr3 ∉ l := by
  obtain ⟨h, hm⟩ := hb.orderly hr
  refine ⟨fun {y S' c e} hs hy hc hl hf => ?_, fun {c} hu => ?_⟩
  case refine_1 =>
    by_contra hne
    have h' := h.step hs (System.Calls.allows SparesRunnable.allows S y hy.1)
    obtain ⟨hcur, hmode, hlock | hsame⟩ := (h.healthy.event hs).others hne
    case inl =>
      have hn : S'.mode c ≠ .stopped := by
        rw [hmode]
        intro hst
        rw [hst] at hlock
        cases hlock
      exact h'.apart.live hn (hcur.trans hc) hf
    case inr => exact hl (hsame ▸ hf)
  case refine_2 =>
    have hn : S.mode c ≠ .stopped := by simp [hu]
    obtain ⟨e, he⟩ := h.runs hn (by simp [hu]) (by simp [hu])
    refine ⟨e, he, h.apart.live hn he, fun l hl => ?_⟩
    obtain ⟨l', L, hi, -⟩ := hm
    rw [Linked.Chain.unique hl hi.chain]
    have ht : S.kern.target (.pgdir e) = some (S.kern.cpus c).cr3 := h.loaded hn he
    exact hi.pool.not_free_of_ref ht

theorem env_freed_alone_start :
    ∃ S, soleSystem.run [.start 0] = some S ∧ ∃ e, S.kern.cur 0 = some e ∧ (S.kern.envs e).status ≠ .free ∧
      ∀ l, S.kern.FreeList l → (S.kern.cpus 0).cr3 ∉ l := by
  have hs : (soleSystem.step (.start 0)).map (·.mode 0) = some .user := by decide +kernel
  obtain ⟨S, hS, hm⟩ := Option.map_eq_some_iff.mp hs
  refine ⟨S, by simp [System.run, hS], ?_⟩
  have hi : soleSystem.Inv suspendedPolicy := soleSystem_booted.inv trivial
  obtain ⟨l, L, hl, hL⟩ := soleSystem_booted.mem
  have hsame : SameMem soleSystem.kern S.kern := by
    have hev := hi.healthy.event hS
    cases hev
    case start hx => exact hx.sameMem
  have hf : soleSystem.Fits (.start 0) := by
    intro S' hS'
    cases hS.symm.trans hS'
    exact (MemInv.sameMem ⟨l, L, hl, hL⟩ hsame).refsFit
  exact (env_freed_alone soleSystem_booted (.single ⟨.start 0, hS, trivial, trivial, hf⟩)).2 hm

-- The child runs on the second processor while its parent destroys it twice.
theorem env_freed_while_running :
    soleSystem.Booted { p | p ∈ freshPages 16 } ∧
    ∃ S, soleSystem.run [.start 0, .call 0 7 0 0, .call 0 8 0x1001 2, .start 1, .call 0 3 0x1001 0,
        .call 0 3 0x1001 0] = some S ∧
      S.mode 1 = .user ∧ S.kern.cur 1 = some 1 ∧ (S.kern.envs 1).status = .free ∧
      S.kern.pageFreeList = some (S.kern.cpus 1).cr3 := by
  have hr : (soleSystem.run [.start 0, .call 0 7 0 0, .call 0 8 0x1001 2, .start 1, .call 0 3 0x1001 0,
      .call 0 3 0x1001 0]).map (fun S => (S.mode 1, S.kern.cur 1, (S.kern.envs 1).status,
        decide (S.kern.pageFreeList = some (S.kern.cpus 1).cr3))) =
      some (.user, some 1, .free, true) := by decide +kernel
  obtain ⟨S, hS, h⟩ := Option.map_eq_some_iff.mp hr
  simp only [Prod.mk.injEq, decide_eq_true_eq] at h
  exact ⟨soleSystem_booted, S, hS, h⟩

end Zombies

section Receivers

-- An environment that waits for a message is not runnable, and no processor runs it.
def receiverPolicy : Policy where
  every st r := r = true → st = .notRunnable ∨ st = .free
  cur st r := r = false ∧ (st = .running ∨ st = .dying ∨ st = .notRunnable)
  not_free := by simp
  not_runnable := by simp
  every_free _ := .inr rfl
  every_fresh := by simp
  every_await _ := .inl rfl
  every_wake _ := by simp
  every_preempt := by simp
  every_doom := by simp
  every_pick := by simp
  every_again h _ hr := by simp [h.1] at hr
  cur_pick h := ⟨by simpa using h, .inl rfl⟩
  cur_again h := ⟨h.1, .inl rfl⟩
  cur_doom h := ⟨h.1, .inr (.inl rfl)⟩

theorem Kernel.SparesReceivers.allows (h : s.SparesRunnable c a k ∧ s.SparesReceivers a k) :
    receiverPolicy.Allows s c a k where
  status {e st} hk he hst := by
    obtain rfl | rfl := settableStatus_cases hst
    case inl =>
      refine ⟨fun hi => ?_, fun hw => absurd ⟨hk, he, hst⟩ (h.1 _ hw).1⟩
      rw [h.2 e ⟨hk, he, hst⟩] at hi
      cases hi
    case inr => exact ⟨fun _ => .inl rfl, fun _ hc => ⟨hc.1, .inr (.inr rfl)⟩⟩
  send hk he hi hw := (h.1 _ hw).2.1 ⟨hk, he, hi⟩
  destroy hk he hs hw := (h.1 _ hw).2.2 ⟨hk, he, hs⟩

-- `b` has not been made runnable.
def Kernel.Asleep (s : Kernel) (b : EnvIx) : Prop :=
  (s.envs b).status ≠ .runnable ∧ (s.envs b).status ≠ .running

section Wake

variable (hb : s.cur c ≠ some b) (hr : s.Asleep b)

include hb hr in
theorem Kernel.Schedules.asleep (hs : Schedules c s x s') : s'.Asleep b := by
  obtain hs | ⟨hs, -⟩ := (hs.sameButSched hb).status
  case inl =>
    simp only [Asleep, hs]
    exact hr
  case inr =>
    obtain hs | hs := hs
    case inl => exact absurd hs hr.1
    case inr => exact absurd hs hr.2

theorem Kernel.Asleep.congr (hr : s.Asleep b) (he : (s'.envs b).status = (s.envs b).status) : s'.Asleep b := by
  simp only [Asleep, he]
  exact hr

theorem Kernel.Stopped.asleep (hs : Stopped c e s s') (hr : s.Asleep b) : s'.Asleep b := by
  obtain ⟨o, ho, -⟩ := hs.envs b
  exact hr.congr (by rw [ho])

include hr in
theorem Kernel.Reaps.asleep (hs : Reaps c a s x s') (hne : b ≠ a) : s'.Asleep b := by
  cases hs
  case panic h => exact h.asleep hr
  case sched s₁ h hs =>
    refine hs.asleep ?_ ?_
    case refine_1 =>
      rw [h.cur]
      simp [Kernel.cur, Kernel.reap, setCpu]
    case refine_2 =>
      refine hr.congr ?_
      rw [h.envs]
      exact congrArg Env.status (envs_retire_of_ne hne)

variable (ha : s.cur c = some a) (hne : b ≠ a)

include ha hne in
theorem Kernel.not_cur : s.cur c ≠ some b :=
  fun h => hne (Option.some.inj (h.symm.trans ha))

include hr ha hne in
theorem Kernel.EnvExit.asleep (hx : EnvExit c a k s x s') : s'.Asleep b := by
  cases hx
  case panic h => exact h.asleep hr
  case fault h => exact hr.congr (by rw [h.envs])
  case yield h => exact h.asleep (not_cur ha hne) hr
  case recv h =>
    have hr' : (s.await a k.a₁).Asleep b := hr.congr (congrArg Env.status (envs_setEnv_of_ne hne))
    have hb : (s.await a k.a₁).cur c ≠ some b := not_cur ha hne
    exact h.asleep hb hr'
  case reap h => exact h.asleep hr hne

include hr ha hne in
theorem Kernel.Handles.asleep (hx : Handles c a s x s') : s'.Asleep b := by
  have he : ∀ t, (s.saveTf a t).envs b = s.envs b := fun t => envs_setEnv_of_ne hne
  have hs : ∀ t, (s.saveTf a t).Asleep b := fun t => hr.congr (by rw [he t])
  cases hx
  case reap t h => exact h.asleep (hs t) hne
  case fault t va h => exact (hs t).congr (by rw [h.envs])
  case upcall t s₁ pd h hd =>
    have h₁ : s₁.cur c ≠ some b := by
      rw [h.cur]
      exact not_cur ha hne
    refine (hs t).congr ?_
    rw [← h.envs]
    exact congrArg Env.status ((envs_setEnv_of_ne hne).trans (envs_preempt_of_ne h₁))

end Wake

-- What the scheduler leaves alone.
theorem Kernel.Schedules.tf_eq (hs : Schedules c s x s') (e : EnvIx) : (s'.envs e).tf = (s.envs e).tf := by
  have hp : ((s.preempt c).envs e).tf = (s.envs e).tf := by
    simp only [preempt]
    split
    case _ => rfl
    case _ e' _ =>
      split
      case isTrue => by_cases he : e = e' <;> simp [setEnv, he]
      case isFalse => rfl
  have hr : ∀ e' pd, ((s.runEnv c e' pd).envs e).tf = (s.envs e).tf := by
    intro e' pd
    rw [← hp]
    by_cases he : e = e' <;> simp [runEnv, setEnv, setCpu, he]
  cases hs
  case pick => exact hr _ _
  case resume => exact hr _ _
  case halt => rfl
  case monitor => rfl

-- A system call wakes an environment that waits only by sending to it.
theorem Kernel.EnvAct.wakes (hx : EnvAct a k s r s') (ht : Tables s) (hr : s.Asleep b)
    (hi : (s.envs b).ipcRecving = true) (hl : (s.envs b).status ≠ .free) (hk : s.SparesReceivers a k) :
    s'.Asleep b ∨ (s.Receives a k b ∧ r = 0#32 ∧ (s'.envs b).tf = { (s.envs b).tf with regs.eax := 0#32 }) := by
  cases hx
  case skip => exact .inl hr
  case fork e p _ he _ =>
    have hne : b ≠ e := fun h => hl (h ▸ ht.head_free he)
    exact .inl (hr.congr (by simp [forkSlot, setEnv, hne]))
  case status e st hk' he hst =>
    by_cases hne : b = e
    case neg => exact .inl (hr.congr (by simp [setEnv, hne]))
    case pos =>
      subst hne
      obtain rfl | rfl := settableStatus_cases hst
      case inl =>
        rw [hk b ⟨hk', he, hst⟩] at hi
        cases hi
      case inr => exact .inl (by simp [Asleep, setEnv])
  case upcall e _ _ => exact .inl (hr.congr (by by_cases hne : b = e <;> simp [setEnv, hne]))
  case send e perm hk' he hie hr₀ =>
    by_cases hne : b = e
    case neg => exact .inl (hr.congr (by simp [deliver, setEnv, hne]))
    case pos =>
      subst hne
      exact .inr ⟨⟨hk', he, hie⟩, hr₀, by simp [deliver, setEnv]⟩
  case doom e _ _ _ hs =>
    have hne : b ≠ e := fun h => hr.2 (h ▸ hs)
    exact .inl (hr.congr (by simp [setEnv, hne]))
  case free e _ _ _ _ =>
    by_cases hne : b = e
    case neg => exact .inl (hr.congr (by rw [envs_retire_of_ne hne]))
    case pos => exact .inl (by simp [Asleep, Kernel.retire, setEnv, hne])

theorem Kernel.Traps.wakes (hx : Traps c a tf s x s') (ht : Tables s) (ha : s.cur c = some a) (hne : b ≠ a)
    (hr : s.Asleep b) (hi : (s.envs b).ipcRecving = true) (hl : (s.envs b).status ≠ .free)
    (hk : tf.trapno = tSyscall → (s.saveTf a tf).SparesReceivers a tf.call) :
    s'.Asleep b ∨ (tf.trapno = tSyscall ∧ (s.saveTf a tf).Receives a tf.call b ∧ (s'.envs a).tf.regs.eax = 0#32 ∧
      (s'.envs b).tf = { (s.envs b).tf with regs.eax := 0#32 }) := by
  have hb : (s.saveTf a tf).envs b = s.envs b := envs_setEnv_of_ne hne
  have hrs : (s.saveTf a tf).Asleep b := hr.congr (by rw [hb])
  have has : (s.saveTf a tf).cur c = some a := ha
  cases hx
  case zombie _ h => exact .inl (h.asleep hr hne)
  case pgflt _ h => exact .inl (h.asleep hrs has hne)
  case destroy _ h => exact .inl (h.asleep hrs hne)
  case sched _ h => exact .inl (h.asleep (not_cur has hne) hrs)
  case exit _ h => exact .inl (h.asleep hrs has hne)
  case ret r s₁ hn hacts hsch =>
    obtain ⟨s₀, hact, hst⟩ := hacts
    have hc₁ : (s₁.answer a r).cur c ≠ some b := by
      have : s₁.cur c = some a := by rw [hst.cur, hact.cur_eq, has]
      exact not_cur this hne
    have he₁ : (s₁.answer a r).envs b = s₀.envs b := by rw [answer, envs_setEnv_of_ne hne, hst.envs]
    have hts : Tables (s.saveTf a tf) := ht.sameMem (.setEnv rfl rfl Iff.rfl)
    obtain hr₀ | ⟨hrec, rfl, htf⟩ := hact.wakes hts hrs (by rw [hb, hi]) (by rwa [hb]) (hk hn)
    case inl => exact .inl (hsch.asleep hc₁ (hr₀.congr (by rw [he₁])))
    case inr =>
      refine .inr ⟨hn, hrec, ?_, ?_⟩
      case refine_1 =>
        rw [hsch.tf_eq]
        simp [answer, setEnv]
      case refine_2 => rw [hsch.tf_eq, he₁, htf, hb]

-- In every state with the invariant, an event wakes an environment that waits only if it is a send to it.
theorem System.Inv.wakes (h : S.Inv receiverPolicy) (hs : S.step y = some S')
    (hy : S.Calls (fun s _ a k => s.SparesReceivers a k) y) (hl : (S.kern.envs b).status ≠ .free)
    (hi : (S.kern.envs b).ipcRecving = true) :
    S'.kern.Asleep b ∨ ∃ c a tf va, y = .trap c tf va ∧ S.kern.cur c = some a ∧ tf.trapno = tSyscall ∧
      S.kern.Receives a tf.call b ∧ (S'.kern.envs a).tf.regs.eax = 0#32 ∧
      (S'.kern.envs b).tf = { (S.kern.envs b).tf with regs.eax := 0#32 } := by
  have hr : S.kern.Asleep b := by
    have hst := (h.apart.every b hi).resolve_right hl
    simp [Asleep, hst]
  have hcur : ∀ c, S.mode c ≠ .stopped → S.kern.cur c ≠ some b := by
    intro c hc hb
    have := (h.apart.cur hc hb).1
    rw [hi] at this
    cases this
  have hstart : ∀ c, (S.kern.started c).Asleep b := fun c => hr
  have hcs : ∀ c, S.mode c ≠ .stopped → (S.kern.started c).cur c ≠ some b := by
    intro c hc
    rw [(SameTable.started (c := c)).cur]
    exact hcur c hc
  have hev := h.healthy.event hs
  cases hev
  case start c x s hu hm hx => exact .inl (hx.asleep (hcur c (by simp [hm])) hr)
  case trap c a tf va x s hu hm ha hx =>
    have hn := hu.no_stopped (by simp [hm])
    have hst : SameTable S.kern (S.kern.started c) := .started
    have ha' : (S.kern.started c).cur c = some a := by rw [hst.cur, ha]
    have hne : b ≠ a := fun hba => hcur c (by simp [hm]) (hba ▸ ha)
    have hk : tf.trapno = tSyscall → ((S.kern.started c).saveTf a tf).SparesReceivers a tf.call := by
      intro hk
      have := hy a ha hk
      simpa only [SparesReceivers, SetsStatus, findEnv_entered, envs_entered] using this
    obtain ho | ⟨hn, hrec, h₁, h₂⟩ := hx.wakes ((h.tables hn).sameTable hst) ha' hne (hstart c) hi hl hk
    case inl => exact .inl ho
    case inr =>
      refine .inr ⟨c, a, tf, va, rfl, ha, hn, ?_, h₁, h₂⟩
      simpa only [Receives, findEnv_entered, envs_entered] using hrec
  case wake c tf x s hu hm hx =>
    obtain ⟨rfl, rfl⟩ | hx := hx
    case inl => exact .inl (hstart c)
    case inr => exact .inl (hx.asleep (hcs c (by simp [hm])) (hstart c))
  case refault c a tf va x s hu hm ha hx =>
    have hst : SameTable S.kern (S.kern.started c) := .started
    have ha' : (S.kern.started c).cur c = some a := by rw [hst.cur, ha]
    have hne : b ≠ a := fun hba => hcur c (by simp [hm]) (hba ▸ ha)
    exact .inl (hx.asleep (hstart c) ha' hne)
  case store c va b p hm hv ht => exact .inl hr

-- A send does not touch environments that are runnable or running.
theorem System.Inv.send_spares (h : S.Inv receiverPolicy) (hm : S.mode c = .user) (hu : S.Unlocked c)
    (ha : S.kern.cur c = some a) (hk : k.sysno = some .ipcTrySend) (hr : Leaves (k.run c) S.kern s')
    (he : (S.kern.envs e).status = .runnable ∨ (S.kern.envs e).status = .running) :
    (s'.envs e).status = (S.kern.envs e).status ∧ (s'.envs e).tf = (S.kern.envs e).tf := by
  have hn := hu.no_stopped (by simp [hm])
  have hl := (h.univ hn).live trivial ha
  have hw := syscall_acts (k := k) (h.tables hn).1 ha hl
  obtain ⟨w, hw'⟩ | ⟨x, hw'⟩ := hr
  case inl =>
    obtain ⟨s₁, hx, hs⟩ := wp_ok hw hw'
    rw [hs.envs]
    cases hx
    case skip => exact ⟨rfl, rfl⟩
    case send e' perm _ hf hi _ =>
      have hne : e ≠ e' := by
        rintro rfl
        have hst := h.apart.every e hi
        obtain he | he := he <;> simp [he] at hst
      simp [deliver, setEnv, hne]
    all_goals simp_all
  case inr =>
    have hx := wp_error hw hw'
    cases hx
    case panic e' _ hs =>
      obtain ⟨o, ho, -⟩ := hs.envs e
      simp [ho]
    all_goals simp_all

-- As long as nobody makes an environment runnable by hand that waits for a message, nor meddles with the
-- environments that other processors run: an environment that waits is not runnable, it is woken only by a
-- successful send to it, after which its call returns zero, and a send changes neither the status nor the
-- registers of an environment that is runnable or running.
theorem receiver_woken_by_send (hb : System.Booted M S₀)
    (hr : System.Reaches (System.Calls fun s c a k => s.SparesRunnable c a k ∧ s.SparesReceivers a k) S₀ S) :
    (∀ {e}, (S.kern.envs e).status ≠ .free → (S.kern.envs e).ipcRecving = true →
      (S.kern.envs e).status = .notRunnable) ∧
    (∀ {y S' e}, S.step y = some S' → S.Calls (fun s c a k => s.SparesRunnable c a k ∧ s.SparesReceivers a k) y →
      (S.kern.envs e).status ≠ .free → (S.kern.envs e).ipcRecving = true →
      (S'.kern.envs e).status = .runnable ∨ (S'.kern.envs e).status = .running →
      ∃ c a tf va, y = .trap c tf va ∧ S.kern.cur c = some a ∧ tf.trapno = tSyscall ∧
        S.kern.Receives a tf.call e ∧ (S'.kern.envs a).tf.regs.eax = 0#32 ∧
        (S'.kern.envs e).tf = { (S.kern.envs e).tf with regs.eax := 0#32 }) ∧
    (∀ {c a s' e} {k : Call}, S.mode c = .user → S.Unlocked c → S.kern.cur c = some a → k.sysno = some .ipcTrySend →
      Leaves (k.run c) S.kern s' → (S.kern.envs e).status = .runnable ∨ (S.kern.envs e).status = .running →
      (s'.envs e).status = (S.kern.envs e).status ∧ (s'.envs e).tf = (S.kern.envs e).tf) := by
  have h₀ : S₀.Inv receiverPolicy := hb.inv fun h => absurd h (by decide)
  have h := h₀.reaches (hr.mono (System.Calls.allows SparesReceivers.allows))
  refine ⟨fun hl hi => (h.apart.every _ hi).resolve_right hl, fun {y S' e} hs hy hl hi he => ?_,
    fun hm hu ha hk hx he => h.send_spares hm hu ha hk hx he⟩
  have hy' : S.Calls (fun s _ a k => s.SparesReceivers a k) y := by
    cases y
    case trap c tf va => exact fun a ha hk => (hy a ha hk).2
    all_goals exact trivial
  refine (h.wakes hs hy' hl hi).resolve_left fun ha => ?_
  obtain he | he := he
  case inl => exact ha.1 he
  case inr => exact ha.2 he

theorem receiver_woken_by_send_start :
    ∃ S, soleSystem.run [.start 0] = some S ∧
      ∀ {e}, (S.kern.envs e).status ≠ .free → (S.kern.envs e).ipcRecving = true →
        (S.kern.envs e).status = .notRunnable := by
  have hs : (soleSystem.step (.start 0)).isSome = true := by decide +kernel
  obtain ⟨S, hS⟩ := Option.isSome_iff_exists.mp hs
  refine ⟨S, by simp [System.run, hS], ?_⟩
  exact (receiver_woken_by_send soleSystem_booted (.single ⟨.start 0, hS, trivial⟩)).1

-- The child waits for a message, and its parent makes it runnable.
theorem receiver_woken_by_hand :
    soleSystem.Booted { p | p ∈ freshPages 16 } ∧
    ∃ S, soleSystem.run [.start 0, .call 0 7 0 0, .call 0 8 0x1001 2, .call 0 10 0 0, .call 0 12 0xEEC00000 0,
        .call 0 8 0x1001 2] = some S ∧
      (S.kern.envs 1).ipcRecving = true ∧ (S.kern.envs 1).status = .runnable := by
  have hr : (soleSystem.run [.start 0, .call 0 7 0 0, .call 0 8 0x1001 2, .call 0 10 0 0, .call 0 12 0xEEC00000 0,
      .call 0 8 0x1001 2]).map (fun S => ((S.kern.envs 1).ipcRecving, (S.kern.envs 1).status)) =
      some (true, .runnable) := by decide +kernel
  obtain ⟨S, hS, h⟩ := Option.map_eq_some_iff.mp hr
  simp only [Prod.mk.injEq] at h
  exact ⟨soleSystem_booted, S, hS, h⟩

end Receivers

end Jos
