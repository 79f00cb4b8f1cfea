import Jos.Kernel.Theorems.Smp

-- What the events of a run do to the messages that environments send to each other.

open Function Program

namespace Jos

open Kernel

variable {S S' : System} {s s' s₁ : Kernel} {c : CpuIx} {e a b : EnvIx} {tf : Trapframe} {va : Word} {x : Exit}
  {y : Action} {k : Call} {r : Word}

-- The fields that hold a message.
structure Mail where
  recving : Bool
  value   : Word
  sender  : EnvId
  perm    : Word
  deriving DecidableEq

namespace Env

def mail (v : Env) : Mail :=
  ⟨v.ipcRecving, v.ipcValue, v.ipcFrom, v.ipcPerm⟩

structure SamePost (v v' : Env) : Prop where
  mail : v'.mail = v.mail
  tf   : v'.tf = v.tf

theorem SamePost.refl (v : Env) : SamePost v v :=
  ⟨rfl, rfl⟩

theorem SamePost.trans {v v' v'' : Env} (h : SamePost v v') (h' : SamePost v' v'') : SamePost v v'' :=
  ⟨h'.mail.trans h.mail, h'.tf.trans h.tf⟩

theorem recving_of_mail {v v' : Env} (h : v'.mail = v.mail) : v'.ipcRecving = v.ipcRecving :=
  congrArg Mail.recving h

end Env

section Post

theorem samePost_setEnv {f : Env → Env} (hf : (s.envs e).SamePost (f (s.envs e))) :
    (s.envs b).SamePost ((s.setEnv e f).envs b) := by
  by_cases hb : b = e
  case pos =>
    subst hb
    simpa [setEnv] using hf
  case neg =>
    rw [envs_setEnv_of_ne hb]
    exact .refl _

theorem mail_setEnv {f : Env → Env} (hf : (f (s.envs e)).mail = (s.envs e).mail) :
    ((s.setEnv e f).envs b).mail = (s.envs b).mail := by
  by_cases hb : b = e
  case pos =>
    subst hb
    simpa [setEnv] using hf
  case neg => rw [envs_setEnv_of_ne hb]

theorem samePost_preempt : (s.envs b).SamePost ((s.preempt c).envs b) := by
  simp only [preempt]
  split
  case _ => exact .refl _
  case _ =>
    split
    case isTrue => exact samePost_setEnv ⟨rfl, rfl⟩
    case isFalse => exact .refl _

theorem samePost_retire : (s.envs b).SamePost ((s.retire e).envs b) :=
  samePost_setEnv (f := fun v => { v with pgdir := none, status := .free, link := s.envFreeList }) ⟨rfl, rfl⟩

theorem mail_saveTf : ((s.saveTf e tf).envs b).mail = (s.envs b).mail :=
  mail_setEnv rfl

theorem samePost_saveTf (hb : b ≠ e) : (s.envs b).SamePost ((s.saveTf e tf).envs b) := by
  rw [saveTf, envs_setEnv_of_ne hb]
  exact .refl _

namespace Kernel

theorem Schedules.samePost (h : Schedules c s x s') : (s.envs b).SamePost (s'.envs b) := by
  have hrun : ∀ e pd, (s.envs b).SamePost ((s.runEnv c e pd).envs b) := by
    intro e pd
    have h₁ : ((s.preempt c).envs b).SamePost ((s.runEnv c e pd).envs b) :=
      samePost_setEnv (s := (s.preempt c).setCpu c _) ⟨rfl, rfl⟩
    exact samePost_preempt.trans h₁
  cases h
  case pick => exact hrun _ _
  case resume => exact hrun _ _
  case halt => exact .refl _
  case monitor => exact .refl _

theorem Stopped.samePost (h : Stopped c e s s') : (s.envs b).SamePost (s'.envs b) := by
  obtain ⟨o, ho, -⟩ := h.envs b
  rw [ho]
  exact ⟨rfl, rfl⟩

theorem Reaps.samePost (h : Reaps c a s x s') : (s.envs b).SamePost (s'.envs b) := by
  cases h
  case panic h => exact h.samePost
  case sched s₁ h hs =>
    refine Env.SamePost.trans ?_ hs.samePost
    rw [h.envs]
    exact samePost_retire

-- A call that does not return has sent nothing.
theorem EnvExit.samePost (h : EnvExit c a k s x s') (hb : k.sysno = some .ipcRecv → b ≠ a) :
    (s.envs b).SamePost (s'.envs b) := by
  cases h
  case panic h => exact h.samePost
  case fault h =>
    rw [h.envs]
    exact .refl _
  case yield h => exact h.samePost
  case recv hk h =>
    refine Env.SamePost.trans ?_ h.samePost
    rw [await, envs_setEnv_of_ne (hb hk)]
    exact .refl _
  case reap h => exact h.samePost

theorem Handles.mail_eq (h : Handles c a s x s') : (s'.envs b).mail = (s.envs b).mail := by
  cases h
  case reap t h => exact h.samePost.mail.trans mail_saveTf
  case fault t va h =>
    rw [h.envs]
    exact mail_saveTf
  case upcall t s₁ pd h hd =>
    have h₁ : ((s₁.runEnv c a pd).envs b).mail = (s₁.envs b).mail :=
      (mail_setEnv (s := (s₁.preempt c).setCpu c _) rfl).trans samePost_preempt.mail
    rw [h₁, h.envs]
    exact mail_saveTf

theorem Handles.samePost (h : Handles c a s x s') (hb : b ≠ a) : (s.envs b).SamePost (s'.envs b) := by
  refine ⟨h.mail_eq, ?_⟩
  cases h
  case reap t h => exact h.samePost.tf.trans (samePost_saveTf hb).tf
  case fault t va h =>
    rw [h.envs]
    exact (samePost_saveTf hb).tf
  case upcall t s₁ pd h hd =>
    have h₁ : ((s₁.runEnv c a pd).envs b).tf = (s₁.envs b).tf := by
      rw [runEnv, envs_setEnv_of_ne hb]
      exact samePost_preempt.tf
    rw [h₁, h.envs]
    exact (samePost_saveTf hb).tf

-- A message reaches the environment that waits for it, and nobody else.
theorem EnvAct.samePost (h : EnvAct a k s r s') (ht : Tables s) (hl : (s.envs b).status ≠ .free)
    (hb : ¬s.Receives a k b) : (s.envs b).SamePost (s'.envs b) := by
  cases h
  case skip => exact .refl _
  case fork e p _ he _ =>
    have hne : b ≠ e := fun h => hl (h ▸ ht.head_free he)
    simp only [forkSlot, setEnv, update_of_ne hne]
    exact .refl _
  case status => exact samePost_setEnv ⟨rfl, rfl⟩
  case upcall => exact samePost_setEnv ⟨rfl, rfl⟩
  case send e perm hk he hi _ =>
    have hne : b ≠ e := by
      rintro rfl
      exact hb ⟨hk, he, hi⟩
    rw [deliver, envs_setEnv_of_ne hne]
    exact .refl _
  case doom => exact samePost_setEnv ⟨rfl, rfl⟩
  case free => exact samePost_retire

theorem EnvAct.delivers (h : EnvAct a k s r s') (hb : s.Receives a k b) :
    (r ≠ 0#32 ∧ s' = s) ∨
      r = 0#32 ∧ ∃ perm, s' = s.deliver a b k.a₂ perm := by
  obtain ⟨hk, he, hi⟩ := hb
  cases h
  case skip hr => exact .inl ⟨hr hk, rfl⟩
  case send e perm _ he' _ hr =>
    cases he.symm.trans he'
    exact .inr ⟨hr, perm, rfl⟩
  all_goals simp_all

end Kernel

end Post

section Call

variable (ha : s.cur c = some a)

-- A system call of an environment that nobody has marked to be freed.
include ha in
theorem trap_syscall {Q : Word → Kernel → Prop} {E : Exit → Kernel → Prop} (faultVa : Word)
    (hu : tf.cs &&& 3#16 = 3#16) (hn : tf.trapno = tSyscall) (hdy : (s.envs a).status ≠ .dying)
    (hq : ∀ {r s₁}, Q r s₁ → s₁.HasDirs) (hw : wp (tf.call.run c) Q E ((s.started c).saveTf a tf)) :
    wp (trap c tf faultVa) (fun _ _ => False)
      (fun x s' => E x s' ∨ ∃ r s₁, Q r s₁ ∧ Schedules c (s₁.answer a r) x s') s := by
  have ha₁ : (s.setCpu c fun i => { i with status := .started }).cur c = some a := by
    rw [← ha]
    exact congrFun (SameTable.started (c := c)).cur c
  simp only [trap, wp_bind_modify, if_pos hu, wp_bind_get, ha₁]
  rw [if_neg (by exact hdy)]
  simp only [trapDispatch, hn, wp_bind_modify]
  rw [if_neg (by decide), if_neg (by decide), if_neg (by decide), if_pos trivial, bind_assoc]
  refine wp_seq (wp_mono hw (fun _ _ => id) fun _ _ => .inl) fun r s₁ h₁ => ?_
  have hd₂ : (s₁.answer a r).HasDirs := hasDirs_setEnv (hq h₁) (hq h₁ (e := a))
  exact wp_bind_modify.mpr <|
    wp_mono (trapReturn_schedules hd₂) (fun _ _ => False.elim) fun _ _ h => .inr ⟨r, s₁, h₁, h⟩

include ha in
theorem ipcRecv_awaits (hd : s.HasDirs) (hl : (s.envs a).status ≠ .free) (hk : k.sysno = some .ipcRecv) :
    wp (k.run c) (fun r s₁ => r = einval ∧ s₁ = s) (Schedules c (s.await a k.a₁)) s := by
  simp only [Call.run, syscall, show Sysno.ofWord k.no = some .ipcRecv from hk, sysIpcRecv]
  split
  case isTrue => exact ⟨rfl, rfl⟩
  case isFalse =>
    rw [wp_bind_of_ok (curenv_run ha)]
    simp only [wp_bind_modify]
    exact wp_seq (wp_mono (schedYield_schedules (hasDirs_await hd hl)) (fun _ _ => False.elim) fun _ _ => id)
      fun _ _ => False.elim

-- The garbage collection, when somebody has.
include ha in
theorem trap_zombie (faultVa : Word) (hd : s.HasDirs) (hl : (s.envs a).status ≠ .free) (hu : tf.cs &&& 3#16 = 3#16)
    (hdy : (s.envs a).status = .dying) :
    wp (trap c tf faultVa) (fun _ _ => False) (Reaps c a (s.started c)) s := by
  have hs : SameTable s (s.started c) := .started
  have ha₁ : (s.started c).cur c = some a := by rw [hs.cur, ha]
  have ha₂ : (s.setCpu c fun i => { i with status := .started }).cur c = some a := ha₁
  simp only [trap, wp_bind_modify, if_pos hu, wp_bind_get, ha₂]
  rw [if_pos (by exact hdy)]
  exact zombie_reaps (hs.hasDirs hd) ha₁ hl

end Call

namespace Kernel

theorem Reaps.freed (h : Reaps c a s x s') : (s'.envs a).status = .free ∨ (x = .panic ∧ s'.cur = s.cur) := by
  cases h
  case panic h => exact .inr ⟨rfl, h.cur⟩
  case sched s₁ h hs =>
    have hf : (s₁.envs a).status = .free := by
      rw [h.envs]
      simp [reap, Kernel.retire, setEnv, setCpu]
    have hc : s₁.cur c ≠ some a := by
      rw [h.cur]
      simp [Kernel.cur, reap, setCpu]
    refine .inl ?_
    obtain he | ⟨he, -⟩ := (hs.sameButSched hc).status
    case inl => rw [he, hf]
    case inr => simp [hf] at he

theorem Traps.samePost (h : Traps c a tf s x s') (ht : Tables s) (hl : (s.envs b).status ≠ .free) (hb : b ≠ a) :
    (s.envs b).SamePost (s'.envs b) ∨ tf.trapno = tSyscall ∧ (s.saveTf a tf).Receives a tf.call b ∧
      ∃ perm, (s'.envs b).mail = ⟨false, tf.call.a₂, (s.envs a).id, perm⟩ ∧
        (s'.envs b).tf = { (s.envs b).tf with regs.eax := 0#32 } := by
  have hp : (s.envs b).SamePost ((s.saveTf a tf).envs b) := samePost_saveTf hb
  cases h
  case zombie _ h => exact .inl h.samePost
  case pgflt _ h => exact .inl (hp.trans (h.samePost hb))
  case destroy _ h => exact .inl (hp.trans h.samePost)
  case sched _ h => exact .inl (hp.trans h.samePost)
  case exit _ h => exact .inl (hp.trans (h.samePost fun _ => hb))
  case ret r s₁ hn hacts hs =>
    obtain ⟨s₀, hact, hst⟩ := hacts
    have he : (s₁.answer a r).envs b = s₀.envs b := by rw [answer, envs_setEnv_of_ne hb, hst.envs]
    have h₁ : (s₀.envs b).SamePost (s'.envs b) := by
      rw [← he]
      exact hs.samePost
    have hts : Tables (s.saveTf a tf) := ht.sameMem (.setEnv rfl rfl Iff.rfl)
    have hls : ((s.saveTf a tf).envs b).status ≠ .free := by rwa [saveTf, envs_setEnv_of_ne hb]
    by_cases hr : (s.saveTf a tf).Receives a tf.call b
    case neg => exact .inl ((hp.trans (hact.samePost hts hls hr)).trans h₁)
    case pos =>
      obtain ⟨-, rfl⟩ | ⟨-, perm, rfl⟩ := hact.delivers hr
      case inl => exact .inl (hp.trans h₁)
      case inr =>
        refine .inr ⟨hn, hr, perm, ?_, ?_⟩
        case refine_1 =>
          rw [h₁.mail]
          simp [deliver, setEnv, Env.mail, saveTf]
        case refine_2 =>
          rw [h₁.tf, ← hp.tf]
          simp [deliver, setEnv]

-- The environment that has trapped only loses or gains a message by the calls for it.
theorem Traps.mail_eq (h : Traps c a tf s x s') (ht : Tables s) (hl : (s.envs a).status ≠ .free)
    (hi : (s.envs a).ipcRecving = false) (hk : tf.trapno = tSyscall → tf.call.sysno ≠ some .ipcRecv) :
    (s'.envs a).mail = (s.envs a).mail := by
  have hp : ((s.saveTf a tf).envs a).mail = (s.envs a).mail := mail_saveTf
  cases h
  case zombie _ h => exact h.samePost.mail
  case pgflt _ h => exact h.mail_eq.trans hp
  case destroy _ h => exact h.samePost.mail.trans hp
  case sched _ h => exact h.samePost.mail.trans hp
  case exit hn h => exact (h.samePost fun h => absurd h (hk hn)).mail.trans hp
  case ret r s₁ hn hacts hs =>
    obtain ⟨s₀, hact, hst⟩ := hacts
    have hts : Tables (s.saveTf a tf) := ht.sameMem (.setEnv rfl rfl Iff.rfl)
    have hls : ((s.saveTf a tf).envs a).status ≠ .free := by simpa [saveTf, setEnv] using hl
    have hr : ¬(s.saveTf a tf).Receives a tf.call a := by
      rintro ⟨-, -, h⟩
      simp [saveTf, setEnv, hi] at h
    have h₀ : (s₀.envs a).mail = (s.envs a).mail := (hact.samePost hts hls hr).mail.trans hp
    have h₁ : ((s₁.answer a r).envs a).mail = (s₁.envs a).mail := mail_setEnv rfl
    rw [hs.samePost.mail, h₁, hst.envs, h₀]

-- `sys_ipc_try_send` reports success if and only if some receiver has been served.
theorem Traps.trySend (h : Traps c a tf s x s') (hn : tf.trapno = tSyscall)
    (hk : tf.call.sysno = some .ipcTrySend) :
    ((∀ e, (s'.envs e).mail = (s.envs e).mail) ∧
      ((s'.envs a).status = .free ∨ (x = .panic ∧ s'.cur = s.cur) ∨ (s'.envs a).tf.regs.eax ≠ 0#32)) ∨
    (s'.envs a).tf.regs.eax = 0#32 ∧
      ∃ e, (s.saveTf a tf).Receives a tf.call e ∧ (s'.envs e).ipcRecving = false := by
  cases h
  case zombie _ h => exact .inl ⟨fun _ => h.samePost.mail, h.freed.imp_right .inl⟩
  case pgflt hn' _ =>
    rw [hn] at hn'
    exact absurd hn' (by decide)
  case destroy hn' _ => exact absurd hn hn'
  case sched hn' _ => exact absurd hn hn'
  case exit _ h =>
    have hm : ∀ e, (s'.envs e).mail = (s.envs e).mail :=
      fun e => (h.samePost fun h => by simp [hk] at h).mail.trans mail_saveTf
    refine .inl ⟨hm, .inr (.inl ?_)⟩
    cases h
    case panic h => exact ⟨rfl, h.cur⟩
    all_goals simp_all
  case ret r s₁ _ hacts hs =>
    obtain ⟨s₀, hact, hst⟩ := hacts
    have hr : (s'.envs a).tf.regs.eax = r := by
      rw [hs.samePost.tf]
      simp [answer, setEnv]
    have hm : ∀ e, (s'.envs e).mail = (s₀.envs e).mail := by
      intro e
      have h₁ : ((s₁.answer a r).envs e).mail = (s₁.envs e).mail := mail_setEnv rfl
      rw [hs.samePost.mail, h₁, hst.envs]
    rw [hr]
    cases hact
    case skip hr₀ => exact .inl ⟨fun e => (hm e).trans mail_saveTf, .inr (.inr (hr₀ hk))⟩
    case send e perm _ he hi hr₀ =>
      refine .inr ⟨hr₀, e, ⟨hk, he, hi⟩, ?_⟩
      rw [Env.recving_of_mail (hm e)]
      simp [deliver, setEnv]
    all_goals simp_all

-- The kernel faults only where it handles a page fault or reads a string, and then it goes on for the same
-- environment.
theorem Traps.of_fault (h : Traps c a tf s (.fault va) s') :
    s'.cur = s.cur ∧ (tf.trapno = tSyscall → tf.call.sysno = some .cputs) := by
  cases h
  case zombie _ h =>
    cases h
    case sched h => cases h
  case pgflt hn h =>
    refine ⟨?_, fun hn' => ?_⟩
    case refine_1 =>
      cases h
      case reap h =>
        cases h
        case sched h => cases h
      case fault h =>
        rw [h.cur]
        rfl
    case refine_2 =>
      rw [hn] at hn'
      exact absurd hn' (by decide)
  case destroy _ h =>
    cases h
    case sched h => cases h
  case sched _ h => cases h
  case exit _ h =>
    cases h
    case fault hk h => exact ⟨h.cur, fun _ => hk⟩
    case yield h => cases h
    case recv h => cases h
    case reap h =>
      cases h
      case sched h => cases h
  case ret hs => cases hs

theorem Handles.of_fault (h : Handles c a s (.fault va) s') : s'.cur = s.cur := by
  cases h
  case reap h =>
    cases h
    case sched h => cases h
  case fault h =>
    rw [h.cur]
    rfl

section Born

variable (hf : (s.envs b).status = .free)

include hf

theorem Schedules.stays_free (h : Schedules c s x s') : (s'.envs b).status = .free :=
  (h.sameMem.live b).mpr hf

theorem Stopped.stays_free (h : Stopped c e s s') : (s'.envs b).status = .free := by
  obtain ⟨o, ho, -⟩ := h.envs b
  rw [ho, hf]

theorem Reaps.stays_free (h : Reaps c a s x s') : (s'.envs b).status = .free := by
  cases h
  case panic h => exact h.stays_free hf
  case sched s₁ h hs =>
    refine hs.stays_free ?_
    rw [h.envs]
    by_cases hb : b = a
    case pos => simp [reap, Kernel.retire, setEnv, setCpu, hb]
    case neg => exact (congrArg Env.status (envs_retire_of_ne hb)).trans hf

variable (hl : (s.envs a).status ≠ .free)

include hl

theorem EnvExit.stays_free (h : EnvExit c a k s x s') : (s'.envs b).status = .free := by
  have hb : b ≠ a := fun h => hl (h ▸ hf)
  cases h
  case panic h => exact h.stays_free hf
  case fault h => rw [h.envs, hf]
  case yield h => exact h.stays_free hf
  case recv h =>
    refine h.stays_free ?_
    rw [await, envs_setEnv_of_ne hb, hf]
  case reap h => exact h.stays_free hf

theorem Handles.stays_free (h : Handles c a s x s') : (s'.envs b).status = .free := by
  have hb : b ≠ a := fun h => hl (h ▸ hf)
  have hs : ∀ t, ((s.saveTf a t).envs b).status = .free := fun t => by rw [saveTf, envs_setEnv_of_ne hb, hf]
  cases h
  case reap t h => exact h.stays_free (hs t)
  case fault t va h => rw [h.envs, hs t]
  case upcall t s₁ pd h hd =>
    have hl₁ : (s₁.envs a).status ≠ .free := by
      rw [h.envs]
      simpa [saveTf, setEnv] using hl
    rw [(sameMem_runEnv hl₁).live, h.envs, hs t]

theorem EnvAct.born (h : EnvAct a k s r s') : (s'.envs b).status = .free ∨ (s'.envs b).ipcRecving = false := by
  have hne : ∀ {e w p}, s.findEnv a w p = some e → b ≠ e := fun he h => findEnv_live hl he (h ▸ hf)
  cases h
  case skip => exact .inl hf
  case fork e p _ _ _ =>
    by_cases hb : b = e
    case pos => exact .inr (by simp [forkSlot, setEnv, freshEnv, hb])
    case neg => exact .inl (by simpa [forkSlot, setEnv, hb] using hf)
  case status e st _ he _ => exact .inl (by rw [envs_setEnv_of_ne (hne he), hf])
  case upcall e _ he => exact .inl (by rw [envs_setEnv_of_ne (hne he), hf])
  case send e perm _ he _ _ => exact .inl (by rw [deliver, envs_setEnv_of_ne (hne he), hf])
  case doom e _ he _ _ => exact .inl (by rw [envs_setEnv_of_ne (hne he), hf])
  case free e _ he _ _ => exact .inl (by rw [envs_retire_of_ne (hne he), hf])

-- An environment that is created does not wait for messages.
theorem Traps.born (h : Traps c a tf s x s') :
    (s'.envs b).status = .free ∨ (s'.envs b).ipcRecving = false := by
  have hb : b ≠ a := fun h => hl (h ▸ hf)
  have hs : ((s.saveTf a tf).envs b).status = .free := by rw [saveTf, envs_setEnv_of_ne hb, hf]
  have hls : ((s.saveTf a tf).envs a).status ≠ .free := by simpa [saveTf, setEnv] using hl
  cases h
  case zombie _ h => exact .inl (h.stays_free hf)
  case pgflt _ h => exact .inl (h.stays_free hs hls)
  case destroy _ h => exact .inl (h.stays_free hs)
  case sched _ h => exact .inl (h.stays_free hs)
  case exit _ h => exact .inl (h.stays_free hs hls)
  case ret r s₁ hn hacts hsch =>
    obtain ⟨s₀, hact, hst⟩ := hacts
    have he : (s₁.answer a r).envs b = s₀.envs b := by rw [answer, envs_setEnv_of_ne hb, hst.envs]
    obtain h | h := hact.born hs hls
    case inl => exact .inl (hsch.stays_free (by rw [he, h]))
    case inr => exact .inr (by rw [Env.recving_of_mail hsch.samePost.mail, he, h])

end Born

end Kernel

-- A message on its way. The identifiers are those of the sender and of the receiver.
structure Message where
  sender   : EnvIx
  receiver : EnvIx
  fromId   : EnvId
  toId     : EnvId
  value    : Word
  perm     : Word
  deriving DecidableEq

namespace System

-- The message which an event delivers: the receiver does not wait any more.
def sends (S : System) (y : Action) (S' : System) : Option Message :=
  match y with
  | .trap c tf _ => do
    let a ← S.kern.cur c
    let e ← S.kern.findEnv a tf.call.a₁ false
    if tf.trapno = tSyscall ∧ tf.call.sysno = some .ipcTrySend ∧ (S.kern.envs e).ipcRecving = true ∧
        (S'.kern.envs e).ipcRecving = false then
      some
        { sender := a
          receiver := e
          fromId := (S.kern.envs a).id
          toId := (S.kern.envs e).id
          value := tf.call.a₂
          perm := (S'.kern.envs e).ipcPerm }
    else
      none
  | _ => none

variable {m : Message}

theorem sends_trap (ha : S.kern.cur c = some a) (hn : tf.trapno = tSyscall) (hr : S.kern.Receives a tf.call e)
    (hi : (S'.kern.envs e).ipcRecving = false) :
    S.sends (.trap c tf va) S' = some ⟨a, e, (S.kern.envs a).id, (S.kern.envs e).id, tf.call.a₂, (S'.kern.envs e).ipcPerm⟩ := by
  obtain ⟨hk, he, hie⟩ := hr
  simp [sends, ha, he, hn, hk, hie, hi]

theorem of_sends (h : S.sends y S' = some m) :
    ∃ c tf va, y = .trap c tf va ∧ S.kern.cur c = some m.sender ∧ tf.trapno = tSyscall ∧
      S.kern.Receives m.sender tf.call m.receiver ∧ (S'.kern.envs m.receiver).ipcRecving = false ∧
      m.fromId = (S.kern.envs m.sender).id ∧ m.toId = (S.kern.envs m.receiver).id ∧ m.value = tf.call.a₂ ∧
      m.perm = (S'.kern.envs m.receiver).ipcPerm := by
  cases y
  case trap c tf va =>
    simp only [sends, Option.bind_eq_bind, Option.bind_eq_some_iff, Option.ite_none_right_eq_some] at h
    obtain ⟨a, ha, e, he, ⟨hn, hk, hi, hi'⟩, hm⟩ := h
    cases hm
    exact ⟨c, tf, va, rfl, ha, hn, ⟨hk, he, hi⟩, hi', rfl, rfl, rfl, rfl⟩
  all_goals cases h

theorem sends_none (hk : tf.call.sysno ≠ some .ipcTrySend) : S.sends (.trap c tf va) S' = none := by
  refine Option.eq_none_iff_forall_ne_some.mpr fun m hm => ?_
  obtain ⟨_, _, _, hy, -, -, ⟨hk', -⟩, -⟩ := of_sends hm
  cases hy
  exact hk hk'

theorem receiver_ne_of_mail (h : (S'.kern.envs b).mail = (S.kern.envs b).mail) (hm : S.sends y S' = some m) :
    m.receiver ≠ b := by
  rintro rfl
  obtain ⟨_, _, _, -, -, -, ⟨-, -, hi⟩, hi', -⟩ := of_sends hm
  rw [Env.recving_of_mail h, hi] at hi'
  cases hi'

-- The environment runs on a processor that has stopped inside of the kernel, or that has taken a page fault there.
def Stuck (S : System) (b : EnvIx) : Prop :=
  ∃ c, S.kern.cur c = some b ∧ S.mode c = .stopped

def Faulting (S : System) (b : EnvIx) : Prop :=
  ∃ c va, S.kern.cur c = some b ∧ S.mode c = .fault va

-- The environment which enters the kernel.
def actor (S : System) : Action → Option EnvIx
  | .trap c _ _ | .refault c _ => S.kern.cur c
  | _ => none

section Events

variable (h : S.Inv receiverPolicy) (hs : S.step y = some S')

include h in
theorem Inv.recving_of_cur (hc : S.kern.cur c = some b) (hm : S.mode c ≠ .stopped) :
    (S.kern.envs b).ipcRecving = false :=
  (h.apart.cur hm hc).1

include h in
theorem Inv.not_stuck (hc : S.kern.cur c = some b) (hm : S.mode c = .user) : ¬S.Stuck b := by
  rintro ⟨c', hc', hm'⟩
  rw [h.apart.inj hc' hc, hm] at hm'
  cases hm'

include h hs in
theorem Inv.stays_stuck (hb : S.Stuck b) : S'.Stuck b := by
  obtain ⟨c, hc, hm⟩ := hb
  have hev := h.healthy.event hs
  have hne : c ≠ y.cpu := by
    rintro rfl
    cases hev
    all_goals simp_all [Action.cpu]
  obtain ⟨hc', hm', -⟩ := hev.others hne
  exact ⟨c, hc'.trans hc, hm'.trans hm⟩

-- Other environments leave the mail of `b` alone, unless they send to it.
include h hs in
theorem Inv.samePost (hl : (S.kern.envs b).status ≠ .free) (ha : S.actor y ≠ some b) :
    (S.kern.envs b).SamePost (S'.kern.envs b) ∨ ∃ m, S.sends y S' = some m ∧ m.receiver = b ∧
      (S'.kern.envs b).mail = ⟨false, m.value, m.fromId, m.perm⟩ ∧
      (S'.kern.envs b).tf = { (S.kern.envs b).tf with regs.eax := 0#32 } := by
  have hst : ∀ {c}, (S.kern.envs b).SamePost ((S.kern.started c).envs b) := .refl _
  have hev := h.healthy.event hs
  cases hev
  case start c x s hu hm hx => exact .inl hx.samePost
  case trap c a tf va x s hu hm hc hx =>
    have hn := hu.no_stopped (by simp [hm])
    have hb : b ≠ a := fun hb => ha (hb ▸ hc)
    have ht := (h.tables hn).sameTable (SameTable.started (c := c))
    obtain hx | ⟨hk, hr, perm, hm, htf⟩ := hx.samePost ht hl hb
    case inl => exact .inl (hst.trans hx)
    case inr =>
      have hr' : S.kern.Receives a tf.call b := by simpa only [Receives, findEnv_entered, envs_entered] using hr
      have hi : (s.envs b).ipcRecving = false := congrArg Mail.recving hm
      have hp : (s.envs b).ipcPerm = perm := congrArg Mail.perm hm
      refine .inr ⟨_, sends_trap hc hk hr' hi, rfl, ?_, htf⟩
      rw [show (S.leave c x s).kern = s from rfl, hp, hm]
      rfl
  case wake c tf x s hu hm hx =>
    obtain ⟨rfl, rfl⟩ | hx := hx
    case inl => exact .inl hst
    case inr => exact .inl (hst.trans hx.samePost)
  case refault c a tf va x s hu hm hc hx =>
    have hb : b ≠ a := fun hb => ha (hb ▸ hc)
    exact .inl (hst.trans (hx.samePost hb))
  case store => exact .inl (.refl _)

-- Nor does `b` lose a message by what it does itself.
include h hs in
theorem Inv.mail_eq (ha : S.actor y = some b)
    (hk : ∀ c tf va, y = .trap c tf va → tf.trapno = tSyscall → tf.call.sysno ≠ some .ipcRecv) :
    (S'.kern.envs b).mail = (S.kern.envs b).mail := by
  have hev := h.healthy.event hs
  cases hev
  case start => cases ha
  case trap c a tf va x s hu hm hc hx =>
    have hn := hu.no_stopped (by simp [hm])
    cases hc.symm.trans ha
    have ht := (h.tables hn).sameTable (SameTable.started (c := c))
    exact hx.mail_eq ht ((h.univ hn).live trivial hc) (h.recving_of_cur hc (hn c)) (hk c tf va rfl)
  case wake => cases ha
  case refault c a tf va x s hu hm hc hx => exact hx.mail_eq
  case store => cases ha

include h hs in
theorem Inv.born (hf : (S.kern.envs b).status = .free) (hl : (S'.kern.envs b).status ≠ .free) :
    (S'.kern.envs b).ipcRecving = false := by
  have hev := h.healthy.event hs
  cases hev
  case start c x s hu hm hx => exact absurd (hx.stays_free hf) hl
  case trap c a tf va x s hu hm hc hx =>
    have hf' : ((S.kern.started c).envs b).status = .free := hf
    have hla : ((S.kern.started c).envs a).status ≠ .free := (h.univ (hu.no_stopped (by simp [hm]))).live trivial hc
    exact (hx.born hf' hla).resolve_left hl
  case wake c tf x s hu hm hx =>
    obtain ⟨rfl, rfl⟩ | hx := hx
    case inl => exact absurd hf hl
    case inr =>
      have hf' : ((S.kern.started c).envs b).status = .free := hf
      exact absurd (hx.stays_free hf') hl
  case refault c a tf va x s hu hm hc hx =>
    have hf' : ((S.kern.started c).envs b).status = .free := hf
    have hla : ((S.kern.started c).envs a).status ≠ .free := (h.univ (hu.no_stopped (by simp [hm]))).live trivial hc
    exact absurd (hx.stays_free hf' hla) hl
  case store => exact absurd hf hl

include h hs in
theorem Inv.receiver_live (hm : S.sends y S' = some m) : (S.kern.envs m.receiver).status ≠ .free := by
  obtain ⟨c, tf, va, rfl, hc, -, ⟨-, he, -⟩, -⟩ := of_sends hm
  have hev := h.healthy.event hs
  cases hev
  case trap hu hmode _ _ => exact findEnv_live ((h.univ (hu.no_stopped (by simp [hmode]))).live trivial hc) he

omit hs in
include h in
theorem Inv.faulting_of_refault (hs : S.step (.refault c tf) = some S') (hc : S.kern.cur c = some b) :
    S.Faulting b := by
  have hev := h.healthy.event hs
  cases hev
  case refault hm ha hx => exact ⟨c, _, hc, hm⟩

include h hs in
theorem Inv.faulting (hf : S'.Faulting b) : S.Faulting b ∨ S.actor y = some b := by
  obtain ⟨c', va, hc', hm'⟩ := hf
  have hev := h.healthy.event hs
  by_cases hne : c' = y.cpu
  case neg =>
    obtain ⟨hc, hm, -⟩ := hev.others hne
    exact .inl ⟨c', va, hc.symm.trans hc', hm.symm.trans hm'⟩
  case pos =>
    subst hne
    have hx : ∀ {c x s}, (S.leave c x s).mode c = .fault va → x = .fault va := by
      intro c x s hx
      cases x
      all_goals simp_all [leave, Exit.mode]
    cases hev
    case start c x s hu hm h =>
      cases hx hm'
      cases h
    case trap c a tf va' x s hu hm hc h =>
      cases hx hm'
      right
      have hc₁ : s.cur c = S.kern.cur c := congrFun (h.of_fault.1.trans (SameTable.started (c := c)).cur) c
      exact hc₁.symm.trans hc'
    case wake c tf x s hu hm h =>
      cases hx hm'
      obtain ⟨h, -⟩ | h := h
      all_goals cases h
    case refault c a tf va' x s hu hm hc h =>
      cases hx hm'
      right
      have hc₁ : s.cur c = S.kern.cur c := congrFun (h.of_fault.trans (SameTable.started (c := c)).cur) c
      exact hc₁.symm.trans hc'
    case store c va' w p hm hv ht =>
      have hm₁ : S.mode c = .fault va := hm'
      rw [hm] at hm₁
      cases hm₁

end Events

section Call

variable (h : S.Inv receiverPolicy) (hs : S.step (.trap c tf va) = some S') (hc : S.kern.cur c = some b)
  (hn : tf.trapno = tSyscall)

include h hs hc hn

theorem Inv.not_faulting (hk : tf.call.sysno ≠ some .cputs) : ¬S'.Faulting b := by
  rintro ⟨c', va', hc', hm'⟩
  have hev := h.healthy.event hs
  cases hev
  case trap a x s hu hm ha hx =>
    by_cases hne : c' = c
    case pos =>
      subst hne
      have hx' : x = .fault va' := by
        cases x
        all_goals simp_all [leave, Exit.mode]
      subst hx'
      exact hk (hx.of_fault.2 hn)
    case neg =>
      have hc₁ : S.kern.cur c' = some b := by
        rw [← hc']
        exact ((hx.cur_of_ne hne).trans (congrFun (SameTable.started (c := c)).cur c')).symm
      exact hne (h.apart.inj hc₁ hc)

-- What becomes of an environment that begins to receive.
theorem Inv.recv (hk : tf.call.sysno = some .ipcRecv) :
    (S'.kern.envs b).status = .free ∨ S'.Stuck b ∨ (S'.kern.envs b).ipcRecving = true ∨
      ((S'.kern.envs b).ipcRecving = false ∧ (S'.kern.envs b).tf.regs.eax = einval) := by
  simp only [System.step] at hs
  split at hs
  case isFalse => cases hs
  case isTrue hm =>
    cases hs
    have hu : S.Unlocked c := unlocked_of_locked (by simpa using hm.2.2)
    have hd : S.kern.HasDirs := (h.tables (hu.no_stopped (by simp [hm.1]))).1
    have hl := h.apart.live (c := c) (by simp [hm.1]) hc
    have hi := h.recving_of_cur hc (by simp [hm.1])
    by_cases hdy : (S.kern.envs b).status = .dying
    case pos =>
      obtain ⟨x, s, he, hx⟩ := enter_of_wp (c := c) (trap_zombie hc va hd hl hm.2.1 hdy)
      rw [he]
      obtain hf | ⟨rfl, hcur⟩ := hx.freed
      case inl => exact .inl hf
      case inr =>
        refine .inr (.inl ⟨c, ?_, by simp [leave, Exit.mode]⟩)
        exact (congrFun (hcur.trans (SameTable.started (c := c)).cur) c).trans hc
    case neg =>
      have hd₁ : ((S.kern.started c).saveTf b tf).HasDirs := hasDirs_saveTf (SameTable.started.hasDirs hd)
      have hc₁ : ((S.kern.started c).saveTf b tf).cur c = some b := by
        rw [← hc]
        exact congrFun (SameTable.started (c := c)).cur c
      have hl₁ : (((S.kern.started c).saveTf b tf).envs b).status ≠ .free := by simpa only [envs_entered] using hl
      have hw := ipcRecv_awaits hc₁ hd₁ hl₁ hk
      obtain ⟨x, s, he, hx⟩ := enter_of_wp (c := c) (trap_syscall hc va hm.2.1 hn hdy (by
        rintro r s₁ ⟨-, rfl⟩
        exact hd₁) hw)
      rw [he]
      obtain hx | ⟨_, _, ⟨rfl, rfl⟩, hx⟩ := hx
      case inl =>
        refine .inr (.inr (.inl ?_))
        rw [show (S.leave c x s).kern = s from rfl, Env.recving_of_mail hx.samePost.mail]
        simp [await, setEnv]
      case inr =>
        refine .inr (.inr (.inr ⟨?_, ?_⟩))
        case refine_1 =>
          rw [show (S.leave c x s).kern = s from rfl, Env.recving_of_mail hx.samePost.mail]
          simpa [answer, setEnv, saveTf, Kernel.started, setCpu] using hi
        case refine_2 =>
          rw [show (S.leave c x s).kern = s from rfl, hx.samePost.tf]
          simp [answer, setEnv]

-- What becomes of an environment that tries to send.
theorem Inv.trySend (hk : tf.call.sysno = some .ipcTrySend) :
    (S.sends (.trap c tf va) S' = none ∧
      ((S'.kern.envs b).status = .free ∨ S'.Stuck b ∨ (S'.kern.envs b).tf.regs.eax ≠ 0#32)) ∨
    (S'.kern.envs b).tf.regs.eax = 0#32 ∧ ∃ m, S.sends (.trap c tf va) S' = some m ∧ m.sender = b ∧
      m.value = tf.call.a₂ ∧ S.kern.Receives b tf.call m.receiver ∧ m.toId = (S.kern.envs m.receiver).id := by
  have hev := h.healthy.event hs
  cases hev
  case trap a x s hu hm ha hx =>
    cases ha.symm.trans hc
    obtain ⟨hsame, hx⟩ | ⟨hr, e, hrec, hi⟩ := hx.trySend hn hk
    case inl =>
      refine .inl ⟨Option.eq_none_iff_forall_ne_some.mpr fun m hm => ?_, ?_⟩
      case refine_1 => exact receiver_ne_of_mail (hsame m.receiver) hm rfl
      case refine_2 =>
        obtain hf | ⟨rfl, hcur⟩ | hr := hx
        case inl => exact .inl hf
        case inr.inl =>
          refine .inr (.inl ⟨c, ?_, by simp [leave, Exit.mode]⟩)
          exact (congrFun (hcur.trans (SameTable.started (c := c)).cur) c).trans hc
        case inr.inr => exact .inr (.inr hr)
    case inr =>
      have hrec' : S.kern.Receives b tf.call e := by simpa only [Receives, findEnv_entered, envs_entered] using hrec
      exact .inr ⟨hr, _, sends_trap hc hn hrec' hi, rfl, rfl, hrec', rfl⟩

end Call

end System

end Jos
