import Jos.User.Ipc
import Jos.Kernel.Theorems.Ipc

-- Programs that send messages to each other: every message is received once, and in order.

open Function Client Relation

namespace Jos

open Kernel

variable {S S' S₀ : System} {s : Kernel} {c : CpuIx} {a b e : EnvIx} {tf : Trapframe} {va : Word} {y : Action} {k : Call}
  {m : Message} {T : Finset EnvIx} {M : Set Ppn}

deriving instance DecidableEq for Call

-- A call of one of the two functions.
inductive IpcOp
  | recv (fromEnvStore : Bool) (pg : Word) (permStore : Bool)
  | send (toEnv : EnvId) (val pg perm : Word)

abbrev IpcOp.Result : IpcOp → Type
  | recv _ _ _   => Except Receipt Receipt
  | send _ _ _ _ => Unit

def IpcOp.program (thisenv : EnvIx) (n : Nat) : (op : IpcOp) → User op.Result
  | recv fromEnvStore pg permStore => ipcRecv thisenv fromEnvStore pg permStore
  | send toEnv val pg perm => ipcSend toEnv val pg perm n

-- What is left of a program: it goes on, or it waits for a system call to return.
inductive Rest (α : Type)
  | ready (p : User α)
  | waiting (f : Word → User α)

inductive Thread
  | idle
  | busy (op : IpcOp) (rest : Rest op.Result)

def Thread.waits : Thread → Bool
  | busy _ (.waiting _) => true
  | _                   => false

-- The machine with the programs in its environments. `log` is the sequence of all messages that were delivered;
-- `received` and `sent` hold what the calls that have returned have received and sent.
structure Pool where
  sys      : System
  thread   : EnvIx → Thread
  log      : List Message
  received : EnvIx → List Receipt
  sent     : EnvIx → List (EnvId × Word)

inductive PoolAction
  -- Any event, as long as it is not a system call by which a program of `T` sends or receives.
  | kernel (y : Action)
  -- The program on the processor makes the system call which is its next step.
  | call (c : CpuIx) (tf : Trapframe) (va : Word)
  -- The system call returns to the program on the processor.
  | resume (c : CpuIx)
  -- The program on the processor reads from `envs`.
  | read (c : CpuIx)
  | begin (c : CpuIx) (op : IpcOp) (n : Nat)
  | finish (c : CpuIx)

def PoolAction.event : PoolAction → Option Action
  | kernel y => some y
  | call c tf va => some (.trap c tf va)
  | _ => none

namespace Pool

variable (p : Pool)

-- The environment that runs on the processor.
def running (c : CpuIx) : Option EnvIx :=
  if p.sys.mode c = .user then p.sys.kern.cur c else none

-- Outside of the two functions, the programs of `T` neither send nor receive.
def mayOccur (T : Finset EnvIx) : Action → Bool
  | .trap c tf _ => p.sys.kern.cur c |>.all fun b => decide (b ∉ T ∨ ((p.thread b).waits = false ∧
      ¬(tf.trapno = tSyscall ∧ (tf.call.sysno = some .ipcTrySend ∨ tf.call.sysno = some .ipcRecv))))
  | _ => true

-- The event `y` takes the machine to `S'`.
def after (y : Action) (S' : System) : Pool :=
  { p with sys := S', log := p.log ++ (p.sys.sends y S').toList }

def setThread (b : EnvIx) (t : Thread) : Pool :=
  { p with thread := update p.thread b t }

-- The call returns.
def finished (b : EnvIx) : (op : IpcOp) → op.Result → Pool
  | .recv _ _ _, .ok r => { p.setThread b .idle with received := update p.received b (p.received b ++ [r]) }
  | .recv _ _ _, .error _ => p.setThread b .idle
  | .send toEnv val _ _, () => { p.setThread b .idle with sent := update p.sent b (p.sent b ++ [(toEnv, val)]) }

def step (T : Finset EnvIx) : PoolAction → Option Pool
  | .kernel y => if p.mayOccur T y then (p.sys.step y).map (p.after y) else none
  | .call c tf va => do
    let b ← p.running c
    match p.thread b with
    | .busy op (.ready (.ask (.syscall k) f)) =>
      if b ∈ T ∧ tf.trapno = tSyscall ∧ tf.call = k then
        (p.sys.step (.trap c tf va)).map fun S' => (p.after (.trap c tf va) S').setThread b (.busy op (.waiting f))
      else
        none
    | _ => none
  | .resume c => do
    let b ← p.running c
    match p.thread b with
    | .busy op (.waiting f) => some (p.setThread b (.busy op (.ready (f (p.sys.kern.envs b).tf.regs.eax))))
    | _ => none
  | .read c => do
    let b ← p.running c
    match p.thread b with
    | .busy op (.ready (.ask (.env e) f)) => some (p.setThread b (.busy op (.ready (f (p.sys.kern.envs e)))))
    | _ => none
  | .begin c op n => do
    let b ← p.running c
    match p.thread b with
    | .idle => if b ∈ T then some (p.setThread b (.busy op (.ready (op.program b n)))) else none
    | _ => none
  | .finish c => do
    let b ← p.running c
    match p.thread b with
    | .busy op (.ready (.done r)) => some (p.finished b op r)
    | _ => none

end Pool

-- What the steps do.
inductive Pool.Steps (T : Finset EnvIx) (p : Pool) : PoolAction → Pool → Prop
  | kernel {y : Action} {S' : System} (hy : p.mayOccur T y = true) (hs : p.sys.step y = some S') :
    Steps T p (.kernel y) (p.after y S')
  | call {c : CpuIx} {tf : Trapframe} {va : Word} {b : EnvIx} {op : IpcOp} {k : Call} {f : Word → User op.Result}
    {S' : System} (hb : p.running c = some b) (ht : p.thread b = .busy op (.ready (.ask (.syscall k) f))) (hT : b ∈ T)
    (hn : tf.trapno = tSyscall) (hk : tf.call = k) (hs : p.sys.step (.trap c tf va) = some S') :
    Steps T p (.call c tf va) ((p.after (.trap c tf va) S').setThread b (.busy op (.waiting f)))
  | resume {c : CpuIx} {b : EnvIx} {op : IpcOp} {f : Word → User op.Result} (hb : p.running c = some b)
    (ht : p.thread b = .busy op (.waiting f)) :
    Steps T p (.resume c) (p.setThread b (.busy op (.ready (f (p.sys.kern.envs b).tf.regs.eax))))
  | read {c : CpuIx} {b e : EnvIx} {op : IpcOp} {f : Env → User op.Result} (hb : p.running c = some b)
    (ht : p.thread b = .busy op (.ready (.ask (.env e) f))) :
    Steps T p (.read c) (p.setThread b (.busy op (.ready (f (p.sys.kern.envs e)))))
  | begin {c : CpuIx} {b : EnvIx} {op : IpcOp} {n : Nat} (hb : p.running c = some b) (ht : p.thread b = .idle)
    (hT : b ∈ T) : Steps T p (.begin c op n) (p.setThread b (.busy op (.ready (op.program b n))))
  | finish {c : CpuIx} {b : EnvIx} {op : IpcOp} {r : op.Result} (hb : p.running c = some b)
    (ht : p.thread b = .busy op (.ready (.done r))) : Steps T p (.finish c) (p.finished b op r)

theorem Pool.steps_of_step {p p' : Pool} {x : PoolAction} (h : p.step T x = some p') : Pool.Steps T p x p' := by
  cases x
  case kernel y =>
    simp only [step, Option.ite_none_right_eq_some, Option.map_eq_some_iff] at h
    obtain ⟨hy, S', hs, rfl⟩ := h
    exact .kernel hy hs
  all_goals simp only [step, Option.bind_eq_bind, Option.bind_eq_some_iff] at h
  all_goals obtain ⟨b, hb, h⟩ := h
  case call c tf va =>
    split at h
    case h_1 op k f ht =>
      simp only [Option.ite_none_right_eq_some, Option.map_eq_some_iff] at h
      obtain ⟨⟨hT, hn, hk⟩, S', hs, rfl⟩ := h
      exact .call hb ht hT hn hk hs
    case h_2 => cases h
  case resume c =>
    split at h
    case h_1 op f ht =>
      cases h
      exact .resume hb ht
    case h_2 => cases h
  case read c =>
    split at h
    case h_1 op e f ht =>
      cases h
      exact .read hb ht
    case h_2 => cases h
  case begin c op n =>
    split at h
    case h_1 ht =>
      simp only [Option.ite_none_right_eq_some] at h
      obtain ⟨hT, h⟩ := h
      cases h
      exact .begin hb ht hT
    case h_2 => cases h
  case finish c =>
    split at h
    case h_1 op r ht =>
      cases h
      exact .finish hb ht
    case h_2 => cases h

section Programs

namespace Message

-- The message lies in the environment.
def In (m : Message) (v : Env) : Prop :=
  v.mail = ⟨false, m.value, m.fromId, m.perm⟩

-- `ipc_recv` has returned the message.
structure Taken (m : Message) (r : Receipt) : Prop where
  value  : r.ret = m.value
  sender : ∀ w ∈ r.fromEnv, w = m.fromId
  perm   : ∀ w ∈ r.perm, w = m.perm

-- `ipc_send` was called to send the message.
def Given (m : Message) (x : EnvId × Word) : Prop :=
  m.toId = x.1 ∧ m.value = x.2

end Message

inductive RecvPhase
  | before
  | got (m : Message)
  | failed

-- The programs in `b` that wait for a message, and then read it.
inductive Receiving (b : EnvIx) : RecvPhase → User (Except Receipt Receipt) → Prop
  | recv {k : Call} {f : Word → User (Except Receipt Receipt)} (hk : k.sysno = some .ipcRecv)
    (hf : ∀ r : Word, r.slt 0#32 = true → Receiving b .failed (f r)) (hm : ∀ m, Receiving b (.got m) (f 0#32)) :
    Receiving b .before (.ask (.syscall k) f)
  | read {m : Message} {f : Env → User (Except Receipt Receipt)} (hf : ∀ v, m.In v → Receiving b (.got m) (f v)) :
    Receiving b (.got m) (.ask (.env b) f)
  | ok {m : Message} {r : Receipt} (hr : m.Taken r) : Receiving b (.got m) (.done (.ok r))
  | error {r : Receipt} : Receiving b .failed (.done (.error r))

-- The programs that try to send `val`; the flag says whether they have succeeded.
inductive Sending (toEnv : EnvId) (val : Word) : Bool → User Unit → Prop
  | done : Sending toEnv val true (.done ())
  | stop {b : Bool} : Sending toEnv val b .stop
  | trySend {k : Call} {f : Word → User Unit} (hk : k.sysno = some .ipcTrySend) (h₁ : k.a₁ = toEnv) (h₂ : k.a₂ = val)
    (hf : ∀ r : Word, Sending toEnv val (decide (r = 0#32)) (f r)) : Sending toEnv val false (.ask (.syscall k) f)
  | yield {k : Call} {f : Word → User Unit} (hk : k.sysno = some .yield) (hf : ∀ r, Sending toEnv val false (f r)) :
    Sending toEnv val false (.ask (.syscall k) f)

theorem receiving_envField {store : Bool} {g : Env → Word} {f : Option Word → User (Except Receipt Receipt)}
    (h : ∀ o : Option Word, (∀ w ∈ o, ∃ v, m.In v ∧ w = g v) → Receiving b (.got m) (f o)) :
    Receiving b (.got m) (User.envField b store g >>= f) := by
  cases store
  case false => exact h none (by simp)
  case true => exact .read fun v hv => h (some (g v)) (by simpa using ⟨v, hv, rfl⟩)

theorem syscall_bind {α : Type} {check : Bool} {g : Word → User α} : User.syscall check k >>= g =
    .ask (.syscall k) fun (r : Word) => if check && (0#32).slt r then .stop else g r := by
  change Prog.ask (UserOp.syscall k) (fun (r : Word) => (if check && (0#32).slt r then .stop else .done r) >>= g) = _
  congr 1
  funext r
  split
  case isTrue => rfl
  case isFalse => rfl

theorem ipcRecv_receiving {fromEnvStore permStore : Bool} {pg : Word} :
    Receiving b .before (ipcRecv b fromEnvStore pg permStore) := by
  rw [ipcRecv, User.sysIpcRecv, syscall_bind]
  refine .recv rfl (fun r hr => ?_) fun m => ?_
  case refine_1 =>
    have hp : (0#32).slt r = false := by
      simp only [BitVec.slt, decide_eq_true_eq, decide_eq_false_iff_not] at hr ⊢
      omega
    rw [hp, if_neg (by decide), if_pos hr]
    exact .error
  case refine_2 =>
    have hread : ∀ {fromEnv perm : Option Word}, (∀ w ∈ fromEnv, ∃ v, m.In v ∧ w = v.ipcFrom) →
        (∀ w ∈ perm, ∃ v, m.In v ∧ w = v.ipcPerm) →
        Receiving b (.got m) (.ask (.env b) fun v => .done (.ok ⟨v.ipcValue, fromEnv, perm⟩)) := by
      refine fun hf hp => .read fun v hv => .ok ⟨congrArg Mail.value hv, fun w hw => ?_, fun w hw => ?_⟩
      case refine_1 =>
        obtain ⟨v', hv', rfl⟩ := hf w hw
        exact congrArg Mail.sender hv'
      case refine_2 =>
        obtain ⟨v', hv', rfl⟩ := hp w hw
        exact congrArg Mail.perm hv'
    exact receiving_envField fun o ho => receiving_envField fun o' ho' => hread ho ho'

theorem ipcSendLoop_sending {toEnv : EnvId} {val pg perm : Word} {n : Nat} :
    Sending toEnv val false (ipcSendLoop toEnv val pg perm n) := by
  induction n
  case zero => exact .stop
  case succ n ih =>
    rw [ipcSendLoop, User.sysIpcTrySend, syscall_bind]
    refine .trySend rfl rfl rfl fun r => ?_
    rw [if_neg (by simp)]
    by_cases hr : r = 0#32
    case pos =>
      subst hr
      exact .done
    case neg =>
      rw [decide_eq_false hr]
      split
      case isTrue => exact .stop
      case isFalse => exact .yield rfl fun _ => ih

end Programs

def Rest.program {α : Type} (w : Word) : Rest α → User α
  | ready p => p
  | waiting f => f w

section Standing

variable {t : Thread} {li lo : List Message}

-- Where a program in `b` stands: the messages it has been sent but not returned, and those it has sent by a call that
-- has not returned.
inductive Standing (S : System) (b : EnvIx) : Thread → List Message → List Message → Prop
  | idle (hi : (S.kern.envs b).status ≠ .free → (S.kern.envs b).ipcRecving = false) : Standing S b .idle [] []
  | before {fs ps : Bool} {pg : Word} {p : User (Except Receipt Receipt)} (hi : (S.kern.envs b).ipcRecving = false)
    (hp : Receiving b .before p) : Standing S b (.busy (.recv fs pg ps) (.ready p)) [] []
  | waits {fs ps : Bool} {pg : Word} {f : Word → User (Except Receipt Receipt)} (hi : (S.kern.envs b).ipcRecving = true)
    (hf : ∀ m, Receiving b (.got m) (f 0#32)) : Standing S b (.busy (.recv fs pg ps) (.waiting f)) [] []
  | got {fs ps : Bool} {pg : Word} {m : Message} {rest : Rest (Except Receipt Receipt)} (hm : m.In (S.kern.envs b))
    (hp : Receiving b (.got m) (rest.program (S.kern.envs b).tf.regs.eax)) :
    Standing S b (.busy (.recv fs pg ps) rest) [m] []
  | failed {fs ps : Bool} {pg : Word} {rest : Rest (Except Receipt Receipt)} (hi : (S.kern.envs b).ipcRecving = false)
    (hp : Receiving b .failed (rest.program (S.kern.envs b).tf.regs.eax)) :
    Standing S b (.busy (.recv fs pg ps) rest) [] []
  | stuck {fs ps : Bool} {pg : Word} {f : Word → User (Except Receipt Receipt)} (hi : (S.kern.envs b).ipcRecving = false)
    (hs : S.Stuck b) : Standing S b (.busy (.recv fs pg ps) (.waiting f)) [] []
  | sends {toEnv : EnvId} {val pg perm : Word} {rest : Rest Unit} {l : List Message}
    (hi : (S.kern.envs b).ipcRecving = false) (hl : l.length ≤ 1) (hg : ∀ m ∈ l, m.Given (toEnv, val))
    (hp : S.Stuck b ∨ Sending toEnv val (!l.isEmpty) (rest.program (S.kern.envs b).tf.regs.eax)) :
    Standing S b (.busy (.send toEnv val pg perm) rest) [] l

namespace Standing

-- The mail of `b` does not change, nor do its registers while it waits for a system call.
theorem congr (h : Standing S b t li lo) (hl : (S.kern.envs b).status ≠ .free)
    (hm : (S'.kern.envs b).mail = (S.kern.envs b).mail)
    (ht : t.waits = true → (S'.kern.envs b).tf = (S.kern.envs b).tf) (hs : S.Stuck b → S'.Stuck b) :
    Standing S' b t li lo := by
  have hi' : ∀ {i}, (S.kern.envs b).ipcRecving = i → (S'.kern.envs b).ipcRecving = i :=
    fun hi => (Env.recving_of_mail hm).trans hi
  have hr : ∀ {op : IpcOp} {rest : Rest op.Result}, t = .busy op rest →
      rest.program (S'.kern.envs b).tf.regs.eax = rest.program (S.kern.envs b).tf.regs.eax := by
    rintro op rest rfl
    cases rest
    case ready => rfl
    case waiting => rw [ht rfl]
  cases h
  case idle hi => exact .idle fun _ => hi' (hi hl)
  case before hi hp => exact .before (hi' hi) hp
  case waits hi hf => exact .waits (hi' hi) hf
  case got hm₁ hp => exact .got (hm.trans hm₁) (by rwa [hr rfl])
  case failed hi hp => exact .failed (hi' hi) (by rwa [hr rfl])
  case stuck hi hst => exact .stuck (hi' hi) (hs hst)
  case sends hi hlen hg hp => exact .sends (hi' hi) hlen hg (hp.imp hs fun hp => by rwa [hr rfl])

-- A message arrives.
theorem receives (h : Standing S b t li lo) (hi : (S.kern.envs b).ipcRecving = true)
    (hl : (S.kern.envs b).status ≠ .free) (hm : m.In (S'.kern.envs b))
    (htf : (S'.kern.envs b).tf.regs.eax = 0#32) : li = [] ∧ Standing S' b t [m] lo := by
  have hn : (S.kern.envs b).ipcRecving ≠ false := by simp [hi]
  cases h
  case idle hi' => exact absurd (hi' hl) hn
  case before hi' _ => exact absurd hi' hn
  case waits f _ hf =>
    refine ⟨rfl, .got hm ?_⟩
    rw [htf]
    exact hf m
  case got hm' _ => exact absurd (congrArg Mail.recving hm') hn
  case failed hi' _ => exact absurd hi' hn
  case stuck hi' _ => exact absurd hi' hn
  case sends hi' _ _ _ => exact absurd hi' hn

end Standing

end Standing

section Behind

variable {α β : Type} {R : α → β → Prop} {l last : List α} {l' : List β} {x : α} {z : β}

-- The history `l'` has everything that is in `l`, but for what is in `last`.
def Behind (R : α → β → Prop) (l : List α) (l' : List β) (last : List α) : Prop :=
  ∃ front, l = front ++ last ∧ List.Forall₂ R front l'

theorem Behind.push (h : Behind R l l' []) : Behind R (l ++ [x]) l' [x] := by
  obtain ⟨front, rfl, hf⟩ := h
  exact ⟨front, by simp, hf⟩

theorem Behind.settle (h : Behind R l l' [x]) (hx : R x z) : Behind R l (l' ++ [z]) [] := by
  obtain ⟨front, rfl, hf⟩ := h
  exact ⟨front ++ [x], by simp, List.rel_append hf (.cons hx .nil)⟩

end Behind

namespace Pool

variable {p p' : Pool} {t : Thread} {li lo : List Message} {op : IpcOp} {f : Word → User op.Result}

-- What holds of an environment of `T`.
structure Box (p : Pool) (b : EnvIx) (li lo : List Message) : Prop where
  stands : Standing p.sys b (p.thread b) li lo
  live   : p.thread b = .idle ∨ (p.sys.kern.envs b).status ≠ .free
  taken  : Behind Message.Taken (p.log.filter (·.receiver = b)) (p.received b) li
  given  : Behind Message.Given (p.log.filter (·.sender = b)) (p.sent b) lo

theorem Box.frame (h : Box p b li lo) (hs : p'.sys = p.sys) (hl : p'.log = p.log) (ht : p'.thread b = p.thread b)
    (hr : p'.received b = p.received b) (hg : p'.sent b = p.sent b) : Box p' b li lo where
  stands := by
    rw [hs, ht]
    exact h.stands
  live := by
    rw [hs, ht]
    exact h.live
  taken := by
    rw [hl, hr]
    exact h.taken
  given := by
    rw [hl, hg]
    exact h.given

theorem filter_after {g : Message → EnvIx} (h : ∀ m, p.sys.sends y S' = some m → g m ≠ b) :
    (p.after y S').log.filter (g · = b) = p.log.filter (g · = b) := by
  cases hm : p.sys.sends y S'
  case none => simp [after, hm]
  case some m => simp [after, hm, h m hm]

theorem filter_after_of_eq {g : Message → EnvIx} (hm : p.sys.sends y S' = some m) (h : g m = b) :
    (p.after y S').log.filter (g · = b) = p.log.filter (g · = b) ++ [m] := by
  simp [after, hm, h]

section Event

variable (h : p.sys.Inv receiverPolicy) (hs : p.sys.step y = some S') (hx : Box p b li lo)
  (hl : (p.sys.kern.envs b).status ≠ .free → (S'.kern.envs b).status ≠ .free)

-- An event that is no call by which `b` sends or receives.
include h hs hx hl in
theorem Box.event (hf : (p.thread b).waits = true → ¬p.sys.Faulting b)
    (hy : ∀ c tf va, y = .trap c tf va → p.sys.kern.cur c = some b → (p.thread b).waits = false ∧
      ¬(tf.trapno = tSyscall ∧ (tf.call.sysno = some .ipcTrySend ∨ tf.call.sysno = some .ipcRecv))) :
    ∃ li, Box (p.after y S') b li lo := by
  have hsend : ∀ m, p.sys.sends y S' = some m → m.sender ≠ b := by
    rintro m hm rfl
    obtain ⟨c, tf, va, rfl, hc, hn, ⟨hk, -⟩, -⟩ := System.of_sends hm
    exact (hy c tf va rfl hc).2 ⟨hn, .inl hk⟩
  have hgiven : Behind Message.Given ((p.after y S').log.filter (·.sender = b)) (p.sent b) lo := by
    rw [filter_after hsend]
    exact hx.given
  have hsame : (∀ m, p.sys.sends y S' = some m → m.receiver ≠ b) → Standing S' b (p.thread b) li lo →
      (p.thread b = .idle ∨ (S'.kern.envs b).status ≠ .free) → ∃ li, Box (p.after y S') b li lo := by
    refine fun hm hst hl => ⟨li, hst, hl, ?_, hgiven⟩
    rw [filter_after hm]
    exact hx.taken
  by_cases hfree : (p.sys.kern.envs b).status = .free
  case pos =>
    have hidle : p.thread b = .idle := hx.live.resolve_right (not_not.mpr hfree)
    have hm : ∀ m, p.sys.sends y S' = some m → m.receiver ≠ b := by
      rintro m hm rfl
      exact h.receiver_live hs hm hfree
    refine hsame hm ?_ (.inl hidle)
    have hst := hx.stands
    rw [hidle] at hst ⊢
    cases hst
    exact .idle fun hl' => h.born hs hfree hl'
  case neg =>
    have hlive : p.thread b = .idle ∨ (S'.kern.envs b).status ≠ .free := .inr (hl hfree)
    by_cases ha : p.sys.actor y = some b
    case neg =>
      obtain hp | ⟨m, hm, hr, hmail, htf⟩ := h.samePost hs hfree ha
      case inl =>
        exact hsame (fun m => System.receiver_ne_of_mail hp.mail)
          (hx.stands.congr hfree hp.mail (fun _ => hp.tf) (h.stays_stuck hs)) hlive
      case inr =>
        obtain ⟨_, _, _, -, -, -, ⟨-, -, hi⟩, -⟩ := System.of_sends hm
        have ⟨hli, hst⟩ := hx.stands.receives (hr ▸ hi) hfree hmail (by rw [htf])
        refine ⟨[m], hst, hlive, ?_, hgiven⟩
        rw [filter_after_of_eq hm hr]
        exact (hli ▸ hx.taken).push
    case pos =>
      have hw : (p.thread b).waits = false := by
        cases y
        case trap c tf va => exact (hy c tf va rfl ha).1
        case refault c tf =>
          by_contra hw
          exact hf (by simpa using hw) (h.faulting_of_refault hs ha)
        all_goals cases ha
      have hm : (S'.kern.envs b).mail = (p.sys.kern.envs b).mail := by
        refine h.mail_eq hs ha fun c tf va hy' hn hk => ?_
        subst hy'
        exact (hy c tf va rfl ha).2 ⟨hn, .inr hk⟩
      exact hsame (fun m => System.receiver_ne_of_mail hm)
        (hx.stands.congr hfree hm (fun h => by simp [hw] at h) (h.stays_stuck hs)) hlive

end Event

theorem cur_of_running (hb : p.running c = some b) : p.sys.mode c = .user ∧ p.sys.kern.cur c = some b := by
  simp only [running, Option.ite_none_right_eq_some] at hb
  exact hb

section Call

variable (h : p.sys.Inv receiverPolicy) (hb : p.running c = some b)
  (ht : p.thread b = .busy op (.ready (.ask (.syscall k) f))) (hn : tf.trapno = tSyscall) (hk : tf.call = k)
  (hs : p.sys.step (.trap c tf va) = some S') (hx : Box p b li lo)

-- The call is one of the three which the programs make.
include h hb ht hx in
theorem Box.sysno : k.sysno = some .ipcRecv ∨ k.sysno = some .ipcTrySend ∨ k.sysno = some .yield := by
  have hst := hx.stands
  obtain ⟨hm, hc⟩ := cur_of_running hb
  rw [ht] at hst
  cases hst
  case before hi hp =>
    cases hp
    case recv hk _ _ => exact .inl hk
  case got hm hp => cases hp
  case failed hi hp => cases hp
  case sends hi hlen hg hp =>
    have hp := hp.resolve_left (h.not_stuck hc hm)
    generalize (!lo.isEmpty) = sent at hp
    cases hp
    case trySend hk _ _ _ => exact .inr (.inl hk)
    case yield hk _ => exact .inr (.inr hk)

-- A call which sends nothing.
include hk hx in
theorem Box.call_of_none (hk' : k.sysno ≠ some .ipcTrySend) (hl : (S'.kern.envs b).status ≠ .free)
    (hst : Standing S' b (.busy op (.waiting f)) li lo) :
    Box ((p.after (.trap c tf va) S').setThread b (.busy op (.waiting f))) b li lo := by
  have hnone : p.sys.sends (.trap c tf va) S' = none := System.sends_none (hk ▸ hk')
  have hlog : ∀ {g : Message → EnvIx}, (p.after (.trap c tf va) S').log.filter (g · = b) = p.log.filter (g · = b) :=
    filter_after fun m hm => by simp [hnone] at hm
  refine ⟨?_, .inr hl, ?_, ?_⟩
  case refine_1 =>
    simp only [setThread, update_self]
    exact hst
  case refine_2 =>
    rw [show (setThread _ b _).log = (p.after (.trap c tf va) S').log from rfl, hlog]
    exact hx.taken
  case refine_3 =>
    rw [show (setThread _ b _).log = (p.after (.trap c tf va) S').log from rfl, hlog]
    exact hx.given

-- The identifier by which the receiver was found is its own.
omit ht hn hk hs hx in
include h hb in
theorem toId_of_receives (hr : p.sys.kern.Receives b k e) : (p.sys.kern.envs e).id = k.a₁ := by
  obtain ⟨hm, hc⟩ := cur_of_running hb
  obtain ⟨-, he, hi⟩ := hr
  simp only [findEnv] at he
  split at he
  case isTrue =>
    cases he
    rw [h.recving_of_cur hc (by simp [hm])] at hi
    cases hi
  case isFalse =>
    split at he
    case isTrue => cases he
    case isFalse hid =>
      rw [if_neg (by simp)] at he
      cases he
      exact not_not.mp (not_or.mp hid).2

include h hb ht hn hk hs hx in
theorem Box.call (hl : (S'.kern.envs b).status ≠ .free) :
    ∃ lo, Box ((p.after (.trap c tf va) S').setThread b (.busy op (.waiting f))) b li lo := by
  obtain ⟨hm, hc⟩ := cur_of_running hb
  have hst := hx.stands
  rw [ht] at hst
  cases hst
  case before hi hp =>
    cases hp
    case recv hk' hf hg =>
      refine ⟨[], hx.call_of_none hk (by simp [hk']) hl ?_⟩
      by_cases hi' : (S'.kern.envs b).ipcRecving = true
      case pos => exact .waits hi' hg
      case neg =>
        obtain hfree | hstuck | hr | ⟨-, he⟩ := h.recv hs hc hn (hk ▸ hk')
        case inl => exact absurd hfree hl
        case inr.inl => exact .stuck (by simpa using hi') hstuck
        case inr.inr.inl => exact absurd hr hi'
        case inr.inr.inr =>
          refine .failed (by simpa using hi') ?_
          rw [he]
          exact hf einval (by decide)
  case got hm hp => cases hp
  case failed hi hp => cases hp
  case sends toEnv val pg perm hi hlen hg hp =>
    have hp := hp.resolve_left (h.not_stuck hc hm)
    have hmail : k.sysno ≠ some .ipcRecv → (S'.kern.envs b).mail = (p.sys.kern.envs b).mail := by
      refine fun hk' => h.mail_eq hs hc fun c' tf' va' hy _ => ?_
      cases hy
      rwa [hk]
    have hi' : k.sysno ≠ some .ipcRecv → (S'.kern.envs b).ipcRecving = false :=
      fun hk' => (Env.recving_of_mail (hmail hk')).trans hi
    cases lo
    case cons => cases hp
    case nil =>
      cases hp
      case yield hk' hf =>
        refine ⟨[], hx.call_of_none hk (by simp [hk']) hl ?_⟩
        exact .sends (hi' (by simp [hk'])) (by simp) (by simp) (.inr (hf _))
      case trySend hk' h₁ h₂ hf =>
        have hni : k.sysno ≠ some .ipcRecv := by simp [hk']
        obtain ⟨hnone, hout⟩ | ⟨he, m, hsend, hb', hval, hrec, hto⟩ := h.trySend hs hc hn (hk ▸ hk')
        case inl =>
          have hlog : ∀ {g : Message → EnvIx},
              (p.after (.trap c tf va) S').log.filter (g · = b) = p.log.filter (g · = b) :=
            filter_after fun m hm => by simp [hnone] at hm
          refine ⟨[], ?_, .inr hl, hlog ▸ hx.taken, hlog ▸ hx.given⟩
          simp only [setThread, update_self]
          refine .sends (hi' hni) (by simp) (by simp) ?_
          obtain hfree | hstuck | hr := hout
          case inl => exact absurd hfree hl
          case inr.inl => exact .inl hstuck
          case inr.inr =>
            right
            have := hf (S'.kern.envs b).tf.regs.eax
            rwa [decide_eq_false hr] at this
        case inr =>
          have hr : ∀ m', p.sys.sends (.trap c tf va) S' = some m' → m'.receiver ≠ b :=
            fun m' hm' => System.receiver_ne_of_mail (hmail hni) hm'
          refine ⟨[m], ?_, .inr hl, filter_after hr ▸ hx.taken, ?_⟩
          case refine_1 =>
            simp only [setThread, update_self]
            refine .sends (hi' hni) (by simp) ?_ (.inr ?_)
            case refine_1 =>
              intro m' hm'
              cases List.mem_singleton.mp hm'
              rw [hk] at hval hrec
              exact ⟨by rw [hto, toId_of_receives h hb hrec, h₁], by rw [hval, h₂]⟩
            case refine_2 =>
              have := hf (S'.kern.envs b).tf.regs.eax
              rwa [decide_eq_true he] at this
          case refine_2 =>
            have hlog := filter_after_of_eq hsend hb'
            exact hlog ▸ hx.given.push

end Call

section Local

variable (h : p.sys.Inv receiverPolicy) (hb : p.running c = some b) (hx : Box p b li lo)

include h hb

theorem live_of_running : (p.sys.kern.envs b).status ≠ .free := by
  obtain ⟨hm, hc⟩ := cur_of_running hb
  exact h.apart.live (by simp [hm]) hc

theorem recving_of_running : (p.sys.kern.envs b).ipcRecving = false := by
  obtain ⟨hm, hc⟩ := cur_of_running hb
  exact h.recving_of_cur hc (by simp [hm])

theorem not_stuck_of_running : ¬p.sys.Stuck b := by
  obtain ⟨hm, hc⟩ := cur_of_running hb
  exact h.not_stuck hc hm

include hx

-- The program goes on to `t`.
theorem Box.goes_on (hst : Standing p.sys b t li lo) : Box (p.setThread b t) b li lo where
  stands := by
    simp only [setThread, update_self]
    exact hst
  live := .inr (live_of_running h hb)
  taken := hx.taken
  given := hx.given

theorem Box.resume (ht : p.thread b = .busy op (.waiting f)) :
    Box (p.setThread b (.busy op (.ready (f (p.sys.kern.envs b).tf.regs.eax)))) b li lo := by
  refine hx.goes_on h hb ?_
  have hst := hx.stands
  rw [ht] at hst
  cases hst
  case waits hi _ =>
    rw [recving_of_running h hb] at hi
    cases hi
  case got hm hp => exact .got hm hp
  case failed hi hp => exact .failed hi hp
  case stuck hs => exact absurd hs (not_stuck_of_running h hb)
  case sends hi hlen hg hp => exact .sends hi hlen hg (.inr (hp.resolve_left (not_stuck_of_running h hb)))

theorem Box.read {f : Env → User op.Result} (ht : p.thread b = .busy op (.ready (.ask (.env e) f))) :
    Box (p.setThread b (.busy op (.ready (f (p.sys.kern.envs e))))) b li lo := by
  refine hx.goes_on h hb ?_
  have hst := hx.stands
  rw [ht] at hst
  cases hst
  case before hi hp => cases hp
  case got hm hp =>
    cases hp
    case read hf => exact .got hm (hf _ hm)
  case failed hi hp => cases hp
  case sends hi hlen hg hp =>
    have hp := hp.resolve_left (not_stuck_of_running h hb)
    generalize (!lo.isEmpty) = sent at hp
    cases hp

theorem Box.begin {n : Nat} (ht : p.thread b = .idle) :
    Box (p.setThread b (.busy op (.ready (op.program b n)))) b li lo := by
  refine hx.goes_on h hb ?_
  have hst := hx.stands
  have hi := recving_of_running h hb
  rw [ht] at hst
  cases hst
  cases op
  case recv => exact .before hi ipcRecv_receiving
  case send => exact .sends hi (by simp) (by simp) (.inr ipcSendLoop_sending)

theorem Box.finish {r : op.Result} (ht : p.thread b = .busy op (.ready (.done r))) :
    Box (p.finished b op r) b [] [] := by
  have hst := hx.stands
  have hidle : Standing p.sys b .idle [] [] := .idle fun _ => recving_of_running h hb
  rw [ht] at hst
  cases hst
  case before hi hp => cases hp
  case got hm hp =>
    cases hp
    case ok hr =>
      refine ⟨?_, .inl ?_, ?_, hx.given⟩
      case refine_1 =>
        simp only [finished, setThread, update_self]
        exact hidle
      case refine_2 => simp only [finished, setThread, update_self]
      case refine_3 =>
        simp only [finished, setThread, update_self]
        exact hx.taken.settle hr
  case failed hi hp =>
    cases hp
    case error => exact hx.goes_on h hb hidle
  case sends toEnv val pg perm hi hlen hg hp =>
    have hp := hp.resolve_left (not_stuck_of_running h hb)
    obtain _ | ⟨m, lo⟩ := lo
    case nil => cases hp
    case cons =>
      obtain rfl : lo = [] := by simpa using hlen
      refine ⟨?_, .inl ?_, hx.taken, ?_⟩
      case refine_1 =>
        simp only [finished, setThread, update_self]
        exact hidle
      case refine_2 => simp only [finished, setThread, update_self]
      case refine_3 =>
        simp only [finished, setThread, update_self]
        exact hx.given.settle (hg m (by simp))

end Local

end Pool

-- The call makes no environment runnable that waits for a message or that runs on another processor, and frees none
-- that runs there.
def Kernel.Considerate (s : Kernel) (c : CpuIx) (a : EnvIx) (k : Call) : Prop :=
  (k.sysno = some .envSetStatus → settableStatus k.a₂ = some .runnable →
    ∀ e ∈ s.findEnv a k.a₁ true, ¬s.Elsewhere c e ∧ (s.envs e).ipcRecving = false) ∧
  (k.sysno = some .envDestroy →
    ∀ e ∈ s.findEnv a k.a₁ true, (s.envs e).status ≠ .running → ¬s.Elsewhere c e)

-- A running environment does not wait for a message, so that nobody sends to it.
theorem System.Inv.allows (h : S.Inv receiverPolicy) (hs : S.step y = some S') (hy : S.Calls Considerate y) :
    S.Allows receiverPolicy y := by
  have hev := h.healthy.event hs
  cases hev
  case trap c a tf va x s hu hm ha hx =>
    intro a' ha' hn
    cases ha.symm.trans ha'
    have hc := hy a ha hn
    refine SparesReceivers.allows ⟨fun e hw => ⟨?_, ?_, ?_⟩, fun e he => ?_⟩
    case refine_1 => exact fun hst => (hc.1 hst.1 hst.2.2 e hst.2.1).1 hw
    case refine_2 =>
      obtain ⟨c', hne, hc'⟩ := hw
      rintro ⟨-, -, hi⟩
      rw [h.recving_of_cur hc' (hu.no_stopped (by simp [hm]) c')] at hi
      cases hi
    case refine_3 => exact fun hf => hc.2 hf.1 e hf.2.1 hf.2.2 hw
    case refine_4 => exact (hc.1 he.1 he.2.2 e he.2.1).2
  all_goals exact trivial

namespace Pool

-- The system calls are considerate, and no environment of `T` is freed.
def Orderly (T : Finset EnvIx) (p : Pool) (x : PoolAction) (p' : Pool) : Prop :=
  ∀ y ∈ x.event, p.sys.Calls Considerate y ∧
    ∀ b ∈ T, (p'.sys.kern.envs b).status = .free → (p.sys.kern.envs b).status = .free

def Reaches (T : Finset EnvIx) : Pool → Pool → Prop :=
  ReflTransGen fun p p' => ∃ x, p.step T x = some p' ∧ p.Orderly T x p'

-- The machine has booted, and no program has sent or received.
structure Booted (M : Set Ppn) (p : Pool) : Prop where
  sys      : p.sys.Booted M
  thread   : ∀ b, p.thread b = .idle
  log      : p.log = []
  received : ∀ b, p.received b = []
  sent     : ∀ b, p.sent b = []

structure Inv (T : Finset EnvIx) (p : Pool) : Prop where
  sys   : p.sys.Inv receiverPolicy
  fault : ∀ b ∈ T, (p.thread b).waits = true → ¬p.sys.Faulting b
  box   : ∀ b ∈ T, ∃ li lo, Box p b li lo

variable {p p' p₀ : Pool} {t : Thread} {x : PoolAction} {li lo : List Message}

theorem not_waits_of_mayOccur (hy : p.mayOccur T (.trap c tf va) = true) (hc : p.sys.kern.cur c = some b)
    (hT : b ∈ T) : (p.thread b).waits = false ∧
      ¬(tf.trapno = tSyscall ∧ (tf.call.sysno = some .ipcTrySend ∨ tf.call.sysno = some .ipcRecv)) := by
  simp only [mayOccur, hc, Option.all_some, decide_eq_true_eq] at hy
  exact hy.resolve_left (not_not.mpr hT)

theorem Booted.inv (h : p.Booted M) : p.Inv T where
  sys := h.sys.inv fun h => absurd h (by decide)
  fault b _ hw := by
    rw [h.thread b] at hw
    cases hw
  box b _ := by
    refine ⟨[], [], ?_, .inl (h.thread b), ?_, ?_⟩
    case refine_1 =>
      rw [h.thread b]
      refine .idle fun hl => ?_
      exact ((h.sys.envs b).resolve_left hl).2
    case refine_2 =>
      rw [h.log, h.received b]
      exact ⟨[], rfl, .nil⟩
    case refine_3 =>
      rw [h.log, h.sent b]
      exact ⟨[], rfl, .nil⟩

-- A step of the program in `b` alone.
theorem Inv.local (h : p.Inv T) (hsys : p'.sys = p.sys) (hlog : p'.log = p.log) (hw : (p'.thread b).waits = false)
    (ho : ∀ b', b' ≠ b → p'.thread b' = p.thread b' ∧ p'.received b' = p.received b' ∧ p'.sent b' = p.sent b')
    (hx : ∀ li lo, Box p b li lo → ∃ li lo, Box p' b li lo) : p'.Inv T where
  sys := hsys ▸ h.sys
  fault b' hT hw' := by
    by_cases hb : b' = b
    case pos =>
      rw [hb, hw] at hw'
      cases hw'
    case neg =>
      rw [hsys]
      exact h.fault b' hT ((ho b' hb).1 ▸ hw')
  box b' hT := by
    obtain ⟨li, lo, hb'⟩ := h.box b' hT
    by_cases hb : b' = b
    case pos =>
      subst hb
      exact hx li lo hb'
    case neg =>
      obtain ⟨h₁, h₂, h₃⟩ := ho b' hb
      exact ⟨li, lo, hb'.frame hsys hlog h₁ h₂ h₃⟩

theorem setThread_of_ne (hb : e ≠ b) : (p.setThread b t).thread e = p.thread e ∧
    (p.setThread b t).received e = p.received e ∧ (p.setThread b t).sent e = p.sent e :=
  ⟨by simp [setThread, hb], rfl, rfl⟩

theorem setThread_self (ht : t.waits = false) : ((p.setThread b t).thread b).waits = false := by
  simpa [setThread] using ht

theorem finished_of_ne {op : IpcOp} {r : op.Result} (hb : e ≠ b) :
    (p.finished b op r).thread e = p.thread e ∧ (p.finished b op r).received e = p.received e ∧
      (p.finished b op r).sent e = p.sent e := by
  cases op
  case recv =>
    cases r
    all_goals simp [finished, setThread, hb]
  case send => simp [finished, setThread, hb]

theorem finished_self {op : IpcOp} {r : op.Result} : (p.finished b op r).sys = p.sys ∧
    (p.finished b op r).log = p.log ∧ ((p.finished b op r).thread b).waits = false := by
  cases op
  case recv =>
    cases r
    all_goals simp [finished, setThread, Thread.waits]
  case send => simp [finished, setThread, Thread.waits]

theorem Inv.steps (h : p.Inv T) (hs : Steps T p x p') (ho : p.Orderly T x p') : p'.Inv T := by
  cases hs
  case kernel y S' hy hs =>
    have ⟨hcalls, hsv⟩ := ho y rfl
    refine ⟨h.sys.step hs (h.sys.allows hs hcalls), fun b hT hw hf => ?_, fun b hT => ?_⟩
    case refine_1 =>
      obtain hf | ha := h.sys.faulting hs hf
      case inl => exact h.fault b hT hw hf
      case inr =>
        cases y
        case trap c tf va =>
          have hw' := (not_waits_of_mayOccur hy ha hT).1
          rw [show (p.after _ S').thread b = p.thread b from rfl, hw'] at hw
          cases hw
        case refault c tf => exact h.fault b hT hw (h.sys.faulting_of_refault hs ha)
        all_goals cases ha
    case refine_2 =>
      obtain ⟨li, lo, hb⟩ := h.box b hT
      have ⟨li, hb'⟩ := hb.event h.sys hs (mt (hsv b hT)) (h.fault b hT) fun c tf va hy' hc => by
        subst hy'
        exact not_waits_of_mayOccur hy hc hT
      exact ⟨li, lo, hb'⟩
  case call c tf va b op k f S' hb ht hT hn hk hs =>
    have ⟨hm, hc⟩ := cur_of_running hb
    have ⟨hcalls, hsv⟩ := ho _ rfl
    refine ⟨h.sys.step hs (h.sys.allows hs hcalls), fun b' hT' hw hf => ?_, fun b' hT' => ?_⟩
    case refine_1 =>
      by_cases hne : b' = b
      case pos =>
        subst hne
        obtain ⟨li, lo, hx⟩ := h.box b' hT'
        refine h.sys.not_faulting hs hc hn ?_ hf
        rw [hk]
        obtain hk | hk | hk := hx.sysno h.sys hb ht
        all_goals simp [hk]
      case neg =>
        have hw : (p.thread b').waits = true := by simpa [setThread, after, hne] using hw
        obtain hf | ha := h.sys.faulting hs hf
        case inl => exact h.fault b' hT' hw hf
        case inr => exact hne (Option.some.inj (ha.symm.trans hc))
    case refine_2 =>
      obtain ⟨li, lo, hx⟩ := h.box b' hT'
      by_cases hne : b' = b
      case pos =>
        subst hne
        exact ⟨li, hx.call h.sys hb ht hn hk hs (mt (hsv b' hT') (live_of_running h.sys hb))⟩
      case neg =>
        have ⟨li, hx'⟩ := hx.event h.sys hs (mt (hsv b' hT')) (h.fault b' hT') fun c' tf' va' hy hc' => by
          cases hy
          exact absurd (Option.some.inj (hc'.symm.trans hc)) hne
        exact ⟨li, lo, hx'.frame rfl rfl (by simp [setThread, hne]) rfl rfl⟩
  case resume c b op f hb ht =>
    exact h.local rfl rfl (setThread_self rfl) (fun _ => setThread_of_ne) fun li lo hx => ⟨li, lo, hx.resume h.sys hb ht⟩
  case read c b e op f hb ht =>
    exact h.local rfl rfl (setThread_self rfl) (fun _ => setThread_of_ne) fun li lo hx => ⟨li, lo, hx.read h.sys hb ht⟩
  case begin c b op n hb ht hT =>
    exact h.local rfl rfl (setThread_self rfl) (fun _ => setThread_of_ne) fun li lo hx => ⟨li, lo, hx.begin h.sys hb ht⟩
  case finish c b op r hb ht =>
    obtain ⟨h₁, h₂, h₃⟩ := finished_self (p := p) (b := b) (r := r)
    exact h.local h₁ h₂ h₃ (fun _ => finished_of_ne) fun li lo hx => ⟨[], [], hx.finish h.sys hb ht⟩

theorem Inv.reaches (h : p₀.Inv T) (hr : Reaches T p₀ p) : p.Inv T := by
  induction hr
  case refl => exact h
  case tail p p' _ hs ih =>
    obtain ⟨x, hx, ho⟩ := hs
    exact ih.steps (steps_of_step hx) ho

end Pool

-- In every run, there is one order of all messages such that what a program has received is what was sent to it, but
-- for at most one message, which lies in its environment untouched; and what it has sent is what it was asked to send,
-- but for at most one message whose call has not returned yet.
theorem ipc_exactly_once {p₀ p : Pool} (hb : p₀.Booted M) (hr : Pool.Reaches T p₀ p) (hT : b ∈ T) :
    (∃ last, Behind Message.Taken (p.log.filter (·.receiver = b)) (p.received b) last ∧ last.length ≤ 1 ∧
      ∀ m ∈ last, m.In (p.sys.kern.envs b)) ∧
    ∃ last, Behind Message.Given (p.log.filter (·.sender = b)) (p.sent b) last ∧ last.length ≤ 1 := by
  have h : p.Inv T := hb.inv.reaches hr
  obtain ⟨li, lo, hx⟩ := h.box b hT
  have hst : (li.length ≤ 1 ∧ ∀ m ∈ li, m.In (p.sys.kern.envs b)) ∧ lo.length ≤ 1 := by
    have hst := hx.stands
    generalize p.thread b = t at hst
    cases hst
    case got hm _ => exact ⟨⟨le_refl 1, by simpa using hm⟩, by simp⟩
    case sends hlen _ _ => exact ⟨⟨by simp, by simp⟩, hlen⟩
    all_goals exact ⟨⟨by simp, by simp⟩, by simp⟩
  exact ⟨⟨li, hx.taken, hst.1⟩, lo, hx.given, hst.2⟩

section Runs

-- The event sets no status and destroys no environment.
def Action.modest : Action → Bool
  | .trap _ tf _ => tf.trapno != tSyscall ||
      (tf.call.sysno != some .envSetStatus && tf.call.sysno != some .envDestroy)
  | _ => true

-- The pool after modest steps which leave all environments of `T` alive.
def Pool.run (T : List EnvIx) : Pool → List PoolAction → Option Pool
  | p, []      => some p
  | p, x :: xs => (p.step T.toFinset x).bind fun p' =>
      if x.event.all Action.modest && T.all fun b => (p'.sys.kern.envs b).status != .free then run T p' xs else none

theorem calls_of_modest (h : y.modest = true) : S.Calls Considerate y := by
  cases y
  case trap c tf va =>
    intro a _ hn
    simp only [Action.modest, hn, bne_self_eq_false, Bool.false_or, Bool.and_eq_true, bne_iff_ne] at h
    exact ⟨fun hk => absurd hk h.1, fun hk => absurd hk h.2⟩
  all_goals exact trivial

theorem Pool.reaches_of_run {p p' : Pool} {T : List EnvIx} {l : List PoolAction} (h : p.run T l = some p') :
    Reaches T.toFinset p p' := by
  induction l generalizing p
  case nil =>
    cases h
    exact .refl
  case cons x xs ih =>
    simp only [run, Option.bind_eq_some_iff, Option.ite_none_right_eq_some, Bool.and_eq_true, List.all_eq_true,
      bne_iff_ne, Option.all_eq_true] at h
    obtain ⟨p₁, hx, ⟨hm, hl⟩, h⟩ := h
    refine .head ⟨x, hx, fun y hy => ⟨calls_of_modest (hm y hy), fun b hb hf => ?_⟩⟩ (ih h)
    exact absurd hf (hl b (List.mem_toFinset.mp hb))

-- A machine with two environments.
def pairPool : Pool where
  sys := { kern := ((freshKernel 16).newEnv 0 1#20 0#32).newEnv 1 2#20 0#32, mode := fun _ => .boot }
  thread _ := .idle
  log := []
  received _ := []
  sent _ := []

theorem pairPool_booted : pairPool.Booted { p | p ∈ freshPages 16 } where
  sys := by
    have h₁ : MemInv { p | p ∈ freshPages 16 } ((freshKernel 16).newEnv 0 1#20 0#32) :=
      (freshKernel_inv (by decide)).newEnv rfl rfl
    refine ⟨h₁.newEnv rfl rfl, fun _ => rfl, fun _ => rfl, fun e => ?_⟩
    by_cases h₁ : e = 1
    case pos => exact .inr (by simp [pairPool, Kernel.newEnv, setEnv, freshEnv, h₁])
    case neg =>
      by_cases h₀ : e = 0
      case pos => exact .inr (by simp [pairPool, Kernel.newEnv, setEnv, freshEnv, newDir, incRef, setPage, zeroPage, popFree, h₀])
      case neg =>
        left
        simp only [pairPool, Kernel.newEnv, setEnv, update_of_ne h₁, newDir, incRef, setPage, zeroPage, popFree, update_of_ne h₀]
        rfl
  thread _ := rfl
  log := rfl
  received _ := rfl
  sent _ := rfl

-- The first environment waits, and the second sends to it; after a tick of the clock the first goes on.
theorem ipc_exactly_once_pair :
    ∃ p : Pool, pairPool.run [0, 1]
        [.kernel (.start 0), .begin 0 (.recv true 0 true) 0, .call 0 (Call.frame ⟨12, 0xEEC00000, 0, 0, 0, 0⟩) 0,
          .begin 0 (.send 0x1000 7 0 0) 1, .call 0 (Call.frame ⟨11, 0x1000, 7, 0xEEC00000, 0, 0⟩) 0, .resume 0,
          .finish 0, .kernel (.trap 0 { trapno := irqTimer, cs := gdUt ||| 3#16 } 0), .resume 0, .read 0, .read 0,
          .read 0, .finish 0] = some p ∧
      p.received 0 = [⟨7, some 0x1001, some 0⟩] ∧ p.sent 1 = [(0x1000, 7)] ∧
      (∃ last, Behind Message.Taken (p.log.filter (·.receiver = 0)) (p.received 0) last ∧ last.length ≤ 1 ∧
        ∀ m ∈ last, m.In (p.sys.kern.envs 0)) ∧
      ∃ last, Behind Message.Given (p.log.filter (·.sender = 0)) (p.sent 0) last ∧ last.length ≤ 1 := by
  have hrun : (pairPool.run [0, 1]
      [.kernel (.start 0), .begin 0 (.recv true 0 true) 0, .call 0 (Call.frame ⟨12, 0xEEC00000, 0, 0, 0, 0⟩) 0,
        .begin 0 (.send 0x1000 7 0 0) 1, .call 0 (Call.frame ⟨11, 0x1000, 7, 0xEEC00000, 0, 0⟩) 0, .resume 0,
        .finish 0, .kernel (.trap 0 { trapno := irqTimer, cs := gdUt ||| 3#16 } 0), .resume 0, .read 0, .read 0,
        .read 0, .finish 0]).map (fun p => (p.received 0, p.sent 1)) =
      some ([⟨7, some 0x1001, some 0⟩], [(0x1000, 7)]) := by decide +kernel
  obtain ⟨p, hp, h⟩ := Option.map_eq_some_iff.mp hrun
  simp only [Prod.mk.injEq] at h
  exact ⟨p, hp, h.1, h.2, ipc_exactly_once pairPool_booted (Pool.reaches_of_run hp) (by decide)⟩

end Runs

end Jos
