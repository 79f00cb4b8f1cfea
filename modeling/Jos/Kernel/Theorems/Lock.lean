import Jos.Kernel.Spinlock
import Jos.Kernel.Theorems.Smp

-- The discipline of the big kernel lock, for any number of processors and any interleaving of their steps.

open Function Relation

namespace Jos

-- How far a processor is with the lock: it has done the `xchg` of `spin_lock`, it is recorded as the holder, or it is
-- about to do the `xchg` of `spin_unlock`.
inductive Phase
  | out
  | taken
  | recorded
  | leaving
  deriving DecidableEq

-- What the lock says, in terms of the phases of the processors.
inductive Owned {Cpu : Type} [DecidableEq Cpu] (lk : Spinlock Cpu) (ph : Cpu → Phase) : Prop
  | free (hl : lk = {}) (hp : ∀ c, ph c = .out)
  | held {c : Cpu} (hl : lk = ⟨true, if ph c = .recorded then some c else none⟩) (hc : ph c ≠ .out)
    (hp : ∀ d, d ≠ c → ph d = .out)

namespace Owned

variable {Cpu : Type} [DecidableEq Cpu] {lk : Spinlock Cpu} {ph : Cpu → Phase} {c d : Cpu}

theorem eq_of_ne_out (h : Owned lk ph) (hc : ph c ≠ .out) (hd : ph d ≠ .out) : c = d := by
  cases h
  case free _ hp => exact absurd (hp c) hc
  case held e _ _ hp =>
    have hce : c = e := by_contra fun hne => hc (hp c hne)
    have hde : d = e := by_contra fun hne => hd (hp d hne)
    exact hce.trans hde.symm

theorem lock_eq (h : Owned lk ph) (hc : ph c ≠ .out) : lk = ⟨true, if ph c = .recorded then some c else none⟩ := by
  cases h
  case free _ hp => exact absurd (hp c) hc
  case held e hl _ hp =>
    have hce : c = e := by_contra fun hne => hc (hp c hne)
    exact hce ▸ hl

theorem locked_iff (h : Owned lk ph) : lk.locked = true ↔ ∃ c, ph c ≠ .out := by
  cases h
  case free hl hp => simp [hl, hp]
  case held c hl hc _ => exact ⟨fun _ => ⟨c, hc⟩, fun _ => by rw [hl]⟩

theorem holding_iff (h : Owned lk ph) : lk.holding c = true ↔ ph c = .recorded := by
  constructor
  case mp =>
    intro hh
    simp only [Spinlock.holding, Bool.and_eq_true, beq_iff_eq] at hh
    obtain ⟨d, hd⟩ := h.locked_iff.mp hh.1
    have hl := hh.2
    rw [h.lock_eq hd] at hl
    split at hl
    case isTrue hr =>
      cases hl
      exact hr
    case isFalse => cases hl
  case mpr =>
    intro hr
    have hl := h.lock_eq (c := c) (by simp [hr])
    simp [Spinlock.holding, hl, hr]

-- The processor `c` has the lock, and moves on to another phase.
theorem update_held (h : Owned lk ph) (hc : ph c ≠ .out) {p : Phase} (hp : p ≠ .out) :
    Owned ⟨true, if p = .recorded then some c else none⟩ (update ph c p) := by
  refine .held (c := c) (by simp) (by simpa using hp) fun d hd => ?_
  rw [update_of_ne hd]
  exact by_contra fun hne => hd (h.eq_of_ne_out hne hc)

theorem acquire (h : Owned lk ph) (hl : lk.locked = false) :
    Owned { lk with locked := true } (update ph c .taken) := by
  cases h
  case free hlk hp => exact .held (c := c) (by simp [hlk]) (by simp) fun d hd => by rw [update_of_ne hd, hp]
  case held _ hlk _ _ => simp [hlk] at hl

theorem record (h : Owned lk ph) (hc : ph c = .taken) : Owned { lk with cpu := some c } (update ph c .recorded) := by
  have hl := h.lock_eq (c := c) (by simp [hc])
  have hu := h.update_held (c := c) (p := .recorded) (by simp [hc]) (by simp)
  simpa [hl] using hu

theorem forget (h : Owned lk ph) (hc : ph c = .recorded) : Owned { lk with cpu := none } (update ph c .leaving) := by
  have hl := h.lock_eq (c := c) (by simp [hc])
  have hu := h.update_held (c := c) (p := .leaving) (by simp [hc]) (by simp)
  simpa [hl] using hu

theorem release (h : Owned lk ph) (hc : ph c = .leaving) : Owned { lk with locked := false } (update ph c .out) := by
  have hl := h.lock_eq (c := c) (by simp [hc])
  refine .free (by simp [hl, hc]) fun d => ?_
  by_cases hd : d = c
  case pos => rw [hd, update_self]
  case neg =>
    rw [update_of_ne hd]
    exact by_contra fun hne => hd (h.eq_of_ne_out hne (by simp [hc]))

end Owned

namespace LockSite

variable {Cpu : Type}

-- Only a processor that was halted in the kernel takes the lock at the start of `trap`.
def valid : LockSite Cpu → Bool
  | woken user => !user
  | _ => true

def todo : LockSite Cpu → List Cpu
  | i386Init aps => aps
  | _ => []

end LockSite

def UnlockSite.halts : UnlockSite → Bool
  | envRun => false
  | schedHalt => true

namespace Pc

variable {Cpu : Type}

def phase : Pc Cpu → Phase
  | record _ => .taken
  | bootAps _ | waitAp _ _ | locked _ | schedHalt | spinUnlock _ | forget _ | monitor | fault => .recorded
  | dispatch true => .out
  | dispatch false => .recorded
  | release _ => .leaving
  | off | mpMain | spinLock _ | spin _ | user | hlt | trap _ | dead | lockPanic => .out

-- The processor has set `cpu_status` to `CPU_HALTED`, and not yet to `CPU_STARTED` again.
def halted : Pc Cpu → Bool
  | spinUnlock site | forget site | release site => site.halts
  | hlt => true
  | trap false => true
  | _ => false

def valid : Pc Cpu → Bool
  | spinLock site | spin site | record site => site.valid
  | lockPanic => false
  | _ => true

-- The processors that are still to be started.
def todo : Pc Cpu → List Cpu
  | spinLock site | spin site | record site => site.todo
  | bootAps todo | waitAp _ todo => todo
  | _ => []

end Pc

namespace Smp

variable {Cpu σ : Type} [DecidableEq Cpu] {S S' : Smp Cpu σ} {runs : Cpu → Section → σ → Exit → σ → Prop} {c d : Cpu}
  {p : Pc Cpu}

def phases (S : Smp Cpu σ) (c : Cpu) : Phase :=
  (S.pc c).phase

theorem phases_goto : (S.goto c p).phases = update S.phases c p.phase := by
  funext d
  by_cases hd : d = c
  case pos => simp [phases, goto, hd]
  case neg => simp [phases, goto, update_of_ne hd]

theorem phases_goto_same (h : p.phase = S.phases c) : (S.goto c p).phases = S.phases := by
  rw [phases_goto, h, update_eq_self]

-- What holds of the places where the processors are, whoever has the lock.
structure Control (S : Smp Cpu σ) : Prop where
  valid  : ∀ c, (S.pc c).valid
  halted : ∀ c, (S.pc c).halted → S.status c = .halted
  awake  : ∀ c, S.status c = .halted → (S.pc c).halted ∨ S.pc c = .dead
  nodup  : ∀ c, (S.pc c).todo.Nodup
  off    : ∀ c, ∀ d ∈ (S.pc c).todo, S.pc d = .off
  once   : ∀ c d e, e ∈ (S.pc c).todo → e ∈ (S.pc d).todo → c = d

namespace Control

-- A processor moves on, and does not gain processors to start.
theorem move (h : Control S) {t : CpuStatus} (hpc : S'.pc = update S.pc c p) (hst : S'.status = update S.status c t)
    (hoff : S.pc c ≠ .off) (hv : p.valid) (hh : p.halted → t = .halted) (ha : t = .halted → p.halted ∨ p = .dead)
    (ht : p.todo.Sublist (S.pc c).todo) : Control S' := by
  have hsub : ∀ d, (S'.pc d).todo.Sublist (S.pc d).todo := by
    intro d
    by_cases hd : d = c
    case pos => simpa [hpc, hd] using ht
    case neg => simp [hpc, update_of_ne hd]
  refine ⟨fun d => ?_, fun d => ?_, fun d => ?_, fun d => (h.nodup d).sublist (hsub d), fun d e he => ?_,
    fun d e f hd he => h.once d e f ((hsub d).subset hd) ((hsub e).subset he)⟩
  case refine_1 =>
    by_cases hd : d = c
    case pos => simpa [hpc, hd] using hv
    case neg => simpa [hpc, update_of_ne hd] using h.valid d
  case refine_2 =>
    by_cases hd : d = c
    case pos => simpa [hpc, hst, hd] using hh
    case neg => simpa [hpc, hst, update_of_ne hd] using h.halted d
  case refine_3 =>
    by_cases hd : d = c
    case pos => simpa [hpc, hst, hd] using ha
    case neg => simpa [hpc, hst, update_of_ne hd] using h.awake d
  case refine_4 =>
    have hoff' := h.off d e ((hsub d).subset he)
    have hne : e ≠ c := by
      rintro rfl
      exact hoff hoff'
    rw [hpc, update_of_ne hne]
    exact hoff'

omit [DecidableEq Cpu] in
theorem valid_site (h : Control S) {site : LockSite Cpu} (hc : S.pc c = .spinLock site ∨ S.pc c = .spin site) :
    site.valid := by
  have hv := h.valid c
  obtain hc | hc := hc <;> simpa [hc, Pc.valid] using hv

-- A processor moves on and leaves `cpu_status` alone.
theorem stay (h : Control S) {q : Pc Cpu} (hc : S.pc c = q) (hpc : S'.pc = update S.pc c p) (hst : S'.status = S.status)
    (hv : p.valid) (hq : q ≠ .off ∧ q ≠ .dead) (hp : p.halted = q.halted) (ht : p.todo.Sublist q.todo) :
    Control S' := by
  subst hc
  refine h.move (t := S.status c) hpc (by rw [hst, update_eq_self]) hq.1 hv ?_ ?_ ht
  case refine_1 => exact fun hh => h.halted c (hp ▸ hh)
  case refine_2 => exact fun hs => .inl (hp ▸ (h.awake c hs).resolve_right hq.2)

-- The processor `d` is started by one that has taken it off its list.
theorem start (h : Control S) (hd : S.pc d = .off) (hn : ∀ c, d ∉ (S.pc c).todo) : Control (S.goto d .mpMain) := by
  have htodo : ∀ e, ((S.goto d .mpMain).pc e).todo = (S.pc e).todo := by
    intro e
    by_cases he : e = d
    case pos => simp [Smp.goto, he, hd, Pc.todo]
    case neg => simp [Smp.goto, update_of_ne he]
  refine ⟨fun e => ?_, fun e => ?_, fun e => ?_, fun e => htodo e ▸ h.nodup e, fun e f hf => ?_,
    fun e f g he hf => h.once e f g (htodo e ▸ he) (htodo f ▸ hf)⟩
  case refine_1 =>
    by_cases he : e = d
    case pos => simp [Smp.goto, he, Pc.valid]
    case neg => simpa [Smp.goto, update_of_ne he] using h.valid e
  case refine_2 =>
    by_cases he : e = d
    case pos => simp [Smp.goto, he, Pc.halted]
    case neg => simpa [Smp.goto, update_of_ne he] using h.halted e
  case refine_3 =>
    by_cases he : e = d
    case pos =>
      intro hs
      have haw := h.awake d (he ▸ hs)
      simp [hd, Pc.halted] at haw
    case neg => simpa [Smp.goto, update_of_ne he] using h.awake e
  case refine_4 =>
    rw [htodo] at hf
    have hne : f ≠ d := by
      rintro rfl
      exact hn e hf
    simpa [Smp.goto, update_of_ne hne] using h.off e f hf

theorem step (h : Control S) (ho : Owned S.lock S.phases) (hs : Step runs S S') : Control S' := by
  cases hs
  case startAp c d todo hc =>
    have hd : S.pc d = .off := h.off c d (by simp [hc, Pc.todo])
    have hne : d ≠ c := by
      rintro rfl
      simp [hc] at hd
    have hn := h.nodup c
    rw [hc] at hn
    have hg : Control (S.goto c (.waitAp d todo)) := h.stay hc rfl rfl rfl (by simp) rfl (by simp [Pc.todo])
    have hcomm : (S.goto d .mpMain).goto c (.waitAp d todo) = (S.goto c (.waitAp d todo)).goto d .mpMain := by
      simp [Smp.goto, update_comm hne]
    rw [hcomm]
    refine hg.start (by simpa [Smp.goto, update_of_ne hne] using hd) fun e he => ?_
    by_cases hec : e = c
    case pos =>
      rw [hec] at he
      simp only [Smp.goto, update_self] at he
      exact (List.nodup_cons.mp hn).1 he
    case neg =>
      simp only [Smp.goto, update_of_ne hec] at he
      exact hec (h.once e c d he (by simp [hc, Pc.todo]))
  case waitAp hc _ => exact h.stay hc rfl rfl rfl (by simp) rfl (by simp [Pc.todo])
  case bootAps hc => exact h.stay hc rfl rfl rfl (by simp) rfl (by simp [Pc.todo])
  case mpMain c hc =>
    exact h.move rfl rfl (by simp [hc]) rfl (by simp [Pc.halted]) (by simp) (by simp [Pc.todo, LockSite.todo])
  case spinLock c site hc =>
    have hn : S.lock.holding c = false := by
      rw [← Bool.not_eq_true, ho.holding_iff]
      simp [phases, hc, Pc.phase]
    rw [hn]
    exact h.stay hc rfl rfl (h.valid_site (.inl hc)) (by simp) rfl (.refl _)
  case spin => exact h
  case acquire c site hc _ => exact h.stay hc rfl rfl (h.valid_site (.inr hc)) (by simp) rfl (.refl _)
  case record c site hc =>
    exact h.stay hc rfl rfl (by cases site <;> rfl) (by simp) (by cases site <;> rfl)
      (by cases site <;> simp [LockSite.next, LockSite.todo, Pc.todo])
  case leave x _ hc _ =>
    exact h.stay hc rfl rfl (by cases x <;> rfl) (by simp) (by cases x <;> rfl)
      (by cases x <;> simp [Exit.next, Pc.todo])
  case schedHalt c hc =>
    exact h.move rfl rfl (by simp [hc]) rfl (by simp) (by simp [Pc.halted, UnlockSite.halts]) (by simp [Pc.todo])
  case spinUnlock c site hc =>
    have hy : S.lock.holding c = true := by
      rw [ho.holding_iff]
      simp [phases, hc, Pc.phase]
    rw [hy]
    exact h.stay hc rfl rfl rfl (by simp) rfl (by simp [Pc.todo])
  case forget hc => exact h.stay hc rfl rfl rfl (by simp) rfl (by simp [Pc.todo])
  case release site hc =>
    exact h.stay hc rfl rfl (by cases site <;> rfl) (by simp) (by cases site <;> rfl)
      (by cases site <;> simp [UnlockSite.next, Pc.todo])
  case trapUser hc => exact h.stay hc rfl rfl rfl (by simp) rfl (by simp [Pc.todo])
  case interrupt hc => exact h.stay hc rfl rfl rfl (by simp) rfl (by simp [Pc.todo])
  case dead c user hc _ =>
    exact h.move (t := S.status c) rfl (update_eq_self c S.status).symm (by simp [hc]) rfl (by simp [Pc.halted])
      (by simp) (by simp [Pc.todo])
  case trap c user hc _ =>
    refine h.move rfl rfl (by simp [hc]) ?_ ?_ (by simp) ?_
    all_goals split
    case refine_1.isTrue hs =>
      -- A processor that comes from user mode is not halted.
      have ha := h.awake c hs
      rw [hc] at ha
      cases user
      case false => rfl
      case true => simp [Pc.halted] at ha
    case refine_1.isFalse => rfl
    all_goals simp [Pc.halted, Pc.todo, LockSite.todo]
  case dispatch user hc =>
    exact h.stay hc rfl rfl (by cases user <;> rfl) (by simp) (by cases user <;> rfl)
      (by cases user <;> simp [Pc.todo, LockSite.todo])

end Control

-- What a step means for the lock.
inductive Protocol (S S' : Smp Cpu σ) : Prop
  | stay (hl : S'.lock = S.lock) (hp : S'.phases = S.phases) (hk : S'.locks = S.locks) (hu : S'.unlocks = S.unlocks)
  | acquire {c : Cpu} (hf : S.lock.locked = false) (hc : S.phases c = .out)
    (hl : S'.lock = { S.lock with locked := true }) (hp : S'.phases = update S.phases c .taken)
    (hk : S'.locks = update S.locks c (S.locks c + 1)) (hu : S'.unlocks = S.unlocks)
  | record {c : Cpu} (hc : S.phases c = .taken) (hl : S'.lock = { S.lock with cpu := some c })
    (hp : S'.phases = update S.phases c .recorded) (hk : S'.locks = S.locks) (hu : S'.unlocks = S.unlocks)
  | forget {c : Cpu} (hc : S.phases c = .recorded) (hl : S'.lock = { S.lock with cpu := none })
    (hp : S'.phases = update S.phases c .leaving) (hk : S'.locks = S.locks) (hu : S'.unlocks = S.unlocks)
  | release {c : Cpu} (hc : S.phases c = .leaving) (hl : S'.lock = { S.lock with locked := false })
    (hp : S'.phases = update S.phases c .out) (hk : S'.locks = S.locks)
    (hu : S'.unlocks = update S.unlocks c (S.unlocks c + 1))

theorem Protocol.goto {T : Smp Cpu σ} (hl : T.lock = S.lock) (hT : T.phases = S.phases) (hk : T.locks = S.locks)
    (hu : T.unlocks = S.unlocks) (hp : p.phase = S.phases c) : Protocol S (T.goto c p) :=
  .stay hl (by rw [phases_goto_same (hp.trans (congrFun hT c).symm), hT]) hk hu

theorem Step.protocol (hs : Step runs S S') (ho : Owned S.lock S.phases) (hv : Control S) : Protocol S S' := by
  cases hs
  case startAp c d todo hc =>
    have hd : S.pc d = .off := hv.off c d (by simp [hc, Pc.todo])
    have hp : (S.goto d .mpMain).phases = S.phases := phases_goto_same (by simp [phases, hd, Pc.phase])
    exact .goto rfl hp rfl rfl (by simp [phases, hc, Pc.phase])
  case waitAp hc _ => exact .goto rfl rfl rfl rfl (by simp [phases, hc, Pc.phase])
  case bootAps hc => exact .goto rfl rfl rfl rfl (by simp [phases, hc, Pc.phase])
  case mpMain hc => exact .goto rfl rfl rfl rfl (by simp [phases, hc, Pc.phase])
  case spinLock c site hc => exact .goto rfl rfl rfl rfl (by split <;> simp [phases, hc, Pc.phase])
  case spin => exact .stay rfl rfl rfl rfl
  case acquire c site hc hl => exact .acquire hl (by simp [phases, hc, Pc.phase]) rfl phases_goto rfl rfl
  case record c site hc =>
    have hp : (LockSite.next site).phase = .recorded := by
      have hv' := hv.valid c
      cases site
      case woken user =>
        cases user
        case false => rfl
        case true => simp [hc, Pc.valid, LockSite.valid] at hv'
      all_goals rfl
    exact .record (by simp [phases, hc, Pc.phase]) rfl (by rw [phases_goto, hp]; rfl) rfl rfl
  case leave x s hc _ => exact .goto rfl rfl rfl rfl (by cases x <;> simp [phases, hc, Exit.next, Pc.phase])
  case schedHalt hc => exact .goto rfl rfl rfl rfl (by simp [phases, hc, Pc.phase])
  case spinUnlock c site hc =>
    have hr : S.phases c = .recorded := by simp [phases, hc, Pc.phase]
    rw [ho.holding_iff.mpr hr]
    exact .goto rfl rfl rfl rfl hr.symm
  case forget c site hc => exact .forget (by simp [phases, hc, Pc.phase]) rfl phases_goto rfl rfl
  case release c site hc =>
    have hp : (UnlockSite.next site : Pc Cpu).phase = .out := by cases site <;> rfl
    exact .release (by simp [phases, hc, Pc.phase]) rfl (by rw [phases_goto, hp]; rfl) rfl rfl
  case trapUser hc => exact .goto rfl rfl rfl rfl (by simp [phases, hc, Pc.phase])
  case interrupt hc => exact .goto rfl rfl rfl rfl (by simp [phases, hc, Pc.phase])
  case dead hc _ => exact .goto rfl rfl rfl rfl (by simp [phases, hc, Pc.phase])
  case trap c user hc _ =>
    refine .goto rfl rfl rfl rfl ?_
    split
    case isTrue => simp [phases, hc, Pc.phase]
    case isFalse hs =>
      -- A processor that comes from the kernel is halted.
      have hh := hv.halted c
      cases user
      case false => simp [hc, Pc.halted, hs] at hh
      case true => simp [phases, hc, Pc.phase]
  case dispatch user hc => exact .goto rfl rfl rfl rfl (by cases user <;> simp [phases, hc, Pc.phase])

theorem Protocol.owned (hs : Protocol S S') (h : Owned S.lock S.phases) : Owned S'.lock S'.phases := by
  cases hs
  case stay hl hp _ _ => rwa [hl, hp]
  case acquire hf _ hl hp _ _ => rw [hl, hp]; exact h.acquire hf
  case record hc hl hp _ _ => rw [hl, hp]; exact h.record hc
  case forget hc hl hp _ _ => rw [hl, hp]; exact h.forget hc
  case release hc hl hp _ _ => rw [hl, hp]; exact h.release hc

-- A processor that is in some phase has taken the lock once more than it has given it up.
def Counted (S : Smp Cpu σ) : Prop :=
  ∀ c, S.locks c = S.unlocks c + if S.phases c = .out then 0 else 1

theorem Counted.move (h : Counted S) {ph : Phase} (hp : S'.phases = update S.phases c ph)
    (hk : ∀ d, d ≠ c → S'.locks d = S.locks d) (hu : ∀ d, d ≠ c → S'.unlocks d = S.unlocks d)
    (hc : S'.locks c = S'.unlocks c + if ph = .out then 0 else 1) : Counted S' := by
  intro d
  rw [hp]
  by_cases hd : d = c
  case pos => rwa [hd, update_self]
  case neg =>
    rw [update_of_ne hd, hk d hd, hu d hd]
    exact h d

theorem Protocol.counted (hs : Protocol S S') (h : Counted S) : Counted S' := by
  cases hs
  case stay _ hp hk hu => simpa only [Counted, hp, hk, hu] using h
  case acquire c _ hc _ hp hk hu =>
    have hn := h c
    rw [hc] at hn
    exact h.move hp (fun d hd => by rw [hk, update_of_ne hd]) (fun d _ => by rw [hu]) (by simp [hk, hu, hn])
  case record c hc _ hp hk hu =>
    have hn := h c
    rw [hc] at hn
    exact h.move hp (fun d _ => by rw [hk]) (fun d _ => by rw [hu]) (by simp [hk, hu, hn])
  case forget c hc _ hp hk hu =>
    have hn := h c
    rw [hc] at hn
    exact h.move hp (fun d _ => by rw [hk]) (fun d _ => by rw [hu]) (by simp [hk, hu, hn])
  case release c hc _ hp hk hu =>
    have hn := h c
    rw [hc] at hn
    exact h.move hp (fun d _ => by rw [hk]) (fun d hd => by rw [hu, update_of_ne hd]) (by simp [hk, hu, hn])

structure Disciplined (S : Smp Cpu σ) : Prop where
  control : Control S
  owned   : Owned S.lock S.phases
  counted : Counted S

namespace Disciplined

theorem step (h : Disciplined S) (hs : Step runs S S') : Disciplined S' :=
  have hp := hs.protocol h.owned h.control
  ⟨h.control.step h.owned hs, hp.owned h.owned, hp.counted h.counted⟩

theorem run (h : Disciplined S) (hr : ReflTransGen (Step runs) S S') : Disciplined S' := by
  induction hr
  case refl => exact h
  case tail _ hs ih => exact ih.step hs

theorem inside_iff (h : Disciplined S) : S.Inside c ↔ S.phases c ≠ .out := by
  have hc := h.counted c
  unfold Inside
  split at hc
  case isTrue hp => simp [hp, hc]
  case isFalse hp => simp [hp, hc]

end Disciplined

theorem Boots.disciplined {bsp : Cpu} {aps : List Cpu} (h : S.Boots bsp aps) : Disciplined S := by
  have hpc : ∀ c, c = bsp ∧ S.pc c = .spinLock (.i386Init aps) ∨ c ≠ bsp ∧ S.pc c = .off := by
    intro c
    by_cases hc : c = bsp
    case pos => exact .inl ⟨hc, hc ▸ h.pc⟩
    case neg => exact .inr ⟨hc, h.off c hc⟩
  have htodo : ∀ c d, d ∈ (S.pc c).todo → c = bsp ∧ d ∈ aps := by
    intro c d hd
    obtain ⟨hc, hp⟩ | ⟨_, hp⟩ := hpc c
    case inl => exact ⟨hc, by simpa [hp, Pc.todo, LockSite.todo] using hd⟩
    case inr => simp [hp, Pc.todo] at hd
  have hphase : ∀ c, S.phases c = .out := by
    intro c
    obtain ⟨_, hp⟩ | ⟨_, hp⟩ := hpc c <;> simp [phases, hp, Pc.phase]
  refine ⟨⟨fun c => ?_, fun c => ?_, fun c => ?_, fun c => ?_, fun c d hd => ?_, fun c d e hc hd => ?_⟩,
    .free h.lock hphase, fun c => by simp [h.locks, h.unlocks, hphase]⟩
  case refine_1 => obtain ⟨_, hp⟩ | ⟨_, hp⟩ := hpc c <;> simp [hp, Pc.valid, LockSite.valid]
  case refine_2 => obtain ⟨_, hp⟩ | ⟨_, hp⟩ := hpc c <;> simp [hp, Pc.halted]
  case refine_3 =>
    rw [h.status]
    split <;> simp
  case refine_4 => obtain ⟨_, hp⟩ | ⟨_, hp⟩ := hpc c <;> simp [hp, Pc.todo, LockSite.todo, h.nodup]
  case refine_5 =>
    have hne : d ≠ bsp := by
      rintro rfl
      exact h.other (htodo c d hd).2
    exact h.off d hne
  case refine_6 => exact (htodo c e hc).1.trans (htodo d e hd).1.symm

end Smp

-- In every reachable state the lock is held iff exactly one processor is between `lock_kernel` and `unlock_kernel`, and
-- otherwise none is. Nobody calls `lock_kernel` inside, nobody calls `unlock_kernel` outside, no test of `holding`
-- fails, and a processor that is halted is not inside: once `cpu_status` says so, all that is left of the time inside
-- is the call of `unlock_kernel` in `sched_halt`.
theorem lock_discipline {Cpu σ : Type} [DecidableEq Cpu] {runs : Cpu → Section → σ → Exit → σ → Prop}
    {S₀ S : Smp Cpu σ} {bsp : Cpu} {aps : List Cpu} (hb : S₀.Boots bsp aps) (hr : ReflTransGen (Smp.Step runs) S₀ S) :
    (S.lock.locked = true ↔ ∃! c, S.Inside c) ∧ (S.lock.locked = false ↔ ∀ c, ¬S.Inside c) ∧
    (∀ c, S.locks c ≤ S.unlocks c + 1 ∧ S.unlocks c ≤ S.locks c) ∧
    (∀ c site, S.pc c = .spinLock site → ¬S.Inside c) ∧
    (∀ c site, S.pc c = .spinUnlock site → S.Inside c ∧ S.lock.cpu = some c) ∧
    (∀ c, S.pc c ≠ .lockPanic) ∧
    (∀ c, S.pc c = .hlt → S.status c = .halted ∧ ¬S.Inside c) ∧
    ∀ c, S.status c = .halted → S.Inside c →
      S.pc c = .spinUnlock .schedHalt ∨ S.pc c = .forget .schedHalt ∨ S.pc c = .release .schedHalt := by
  have h := hb.disciplined.run hr
  have hl : S.lock.locked = true ↔ ∃ c, S.Inside c := by simp only [h.inside_iff, h.owned.locked_iff]
  refine ⟨⟨fun hk => ?_, fun hk => hl.mpr hk.exists⟩, ?_, fun c => ?_, fun c site hc => ?_, fun c site hc => ?_,
    fun c hc => ?_, fun c hc => ⟨h.control.halted c (by simp [hc, Pc.halted]), ?_⟩, fun c hc hi => ?_⟩
  case refine_1 =>
    obtain ⟨c, hc⟩ := hl.mp hk
    refine ⟨c, hc, fun d hd => ?_⟩
    exact h.owned.eq_of_ne_out (h.inside_iff.mp hd) (h.inside_iff.mp hc)
  case refine_2 => rw [← Bool.not_eq_true, hl, not_exists]
  case refine_3 =>
    have hn := h.counted c
    split at hn <;> omega
  case refine_4 => simp [h.inside_iff, Smp.phases, hc, Pc.phase]
  case refine_5 =>
    have hp : S.phases c = .recorded := by simp [Smp.phases, hc, Pc.phase]
    have hne : S.phases c ≠ .out := by simp [hp]
    exact ⟨h.inside_iff.mpr hne, by rw [h.owned.lock_eq hne, if_pos hp]⟩
  case refine_6 =>
    have hv := h.control.valid c
    simp [hc, Pc.valid] at hv
  case refine_7 => simp [h.inside_iff, Smp.phases, hc, Pc.phase]
  case refine_8 =>
    have ha := h.control.awake c hc
    have hp := h.inside_iff.mp hi
    simp only [Smp.phases] at hp
    generalize S.pc c = q at ha hp
    cases q
    case spinUnlock site => cases site <;> simp_all [Pc.halted, UnlockSite.halts]
    case forget site => cases site <;> simp_all [Pc.halted, UnlockSite.halts]
    case release site => cases site <;> simp_all [Pc.halted, UnlockSite.halts]
    all_goals simp_all [Pc.halted, Pc.phase]

-- Two processors, the first of which is about to boot.
def bootSmp : Smp CpuIx Kernel where
  status c := if c = 0 then .started else .unused
  kern := soleSystem.kern
  pc := update (fun _ => .off) 0 (.spinLock (.i386Init [1]))

theorem bootSmp_boots : bootSmp.Boots 0 [1] where
  lock := rfl
  pc := rfl
  off c hc := by simp [bootSmp, update_of_ne hc]
  status _ := rfl
  locks _ := rfl
  unlocks _ := rfl
  nodup := by simp
  other := by decide

-- The first processor starts the second one, picks its environment and is about to release the lock.
theorem lock_discipline_boot :
    ∃ S, ReflTransGen (Smp.Step kernelRuns) bootSmp S ∧ S.pc 0 = .spinUnlock .envRun ∧ S.pc 1 = .spinLock .mpMain ∧
      S.Inside 0 ∧ S.lock.cpu = some 0 ∧ ¬S.Inside 1 := by
  have hm : (soleSystem.enter 0 (schedYield 0)).mode 0 = .user := by decide +kernel
  obtain ⟨s, hx⟩ : ∃ s, (schedYield 0).run bootSmp.kern = .error .user s := by
    unfold System.enter at hm
    split at hm
    case h_1 => simp at hm
    case h_2 x s hx =>
      cases x <;> simp [Exit.mode] at hm
      exact ⟨s, hx⟩
  have hr := ReflTransGen.refl (r := Smp.Step kernelRuns) (a := bootSmp)
    |>.tail (.spinLock (c := 0) rfl)
    |>.tail (.acquire (c := 0) rfl rfl)
    |>.tail (.record (c := 0) rfl)
    |>.tail (.startAp (c := 0) rfl)
    |>.tail (.mpMain (c := 1) rfl)
    |>.tail (.waitAp (c := 0) rfl rfl)
    |>.tail (.bootAps (c := 0) rfl)
    |>.tail (.leave (c := 0) rfl hx)
  have h := lock_discipline bootSmp_boots hr
  exact ⟨_, hr, rfl, rfl, (h.2.2.2.2.1 0 .envRun rfl).1, (h.2.2.2.2.1 0 .envRun rfl).2, h.2.2.2.1 1 .mpMain rfl⟩

end Jos
