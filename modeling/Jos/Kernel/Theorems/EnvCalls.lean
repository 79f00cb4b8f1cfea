import Jos.Kernel.Theorems.Envs

-- What the system calls do to environments and processors.

open Function Program

namespace Jos

open Kernel

variable {s s' : Kernel} {c c' : CpuIx} {e e' a : EnvIx} {pd p pp : Ppn} {va len perm : Word}
  {envid : EnvId}

def Trapframe.call (tf : Trapframe) : Call :=
  ⟨tf.regs.eax, tf.regs.edx, tf.regs.ecx, tf.regs.ebx, tf.regs.edi, tf.regs.esi⟩

namespace Kernel

-- What `sys_exofork` does to the environment in the free slot `e`.
def forkSlot (s : Kernel) (a e : EnvIx) (p : Ppn) : Kernel :=
  let s' := { s.setEnv e fun v => { freshEnv { v with pgdir := some p } e (s.envs a).id with status := .notRunnable } with
    envFreeList := (s.envs e).link }
  s'.setEnv e fun v => { v with tf := { (s'.envs a).tf with regs.eax := 0#32 } }

def deliver (s : Kernel) (a e : EnvIx) (value perm : Word) : Kernel :=
  s.setEnv e fun v =>
    { v with
      ipcPerm := perm
      ipcRecving := false
      ipcFrom := (s.envs a).id
      ipcValue := value
      tf.regs.eax := 0#32
      status := .runnable }

-- `sys_ipc_recv` up to the point where the caller gives up the processor.
def await (s : Kernel) (a : EnvIx) (dstva : Word) : Kernel :=
  s.setEnv a fun v =>
    { v with
      ipcDstva := if dstva < utop then dstva else utop
      ipcRecving := true
      status := .notRunnable }

-- What a system call of `a` that returns `r` does to the environments.
inductive EnvAct (a : EnvIx) (k : Call) (s : Kernel) (r : Word) : Kernel → Prop
  | skip (hr : k.sysno = some .ipcTrySend → r ≠ 0#32) : EnvAct a k s r s
  | fork {e : EnvIx} {p : Ppn} (hk : k.sysno = some .exofork) (he : s.envFreeList = some e)
    (hr : r = nextEnvId (s.envs e).id e) : EnvAct a k s r (s.forkSlot a e p)
  | status {e : EnvIx} {st : EnvStatus} (hk : k.sysno = some .envSetStatus)
    (he : s.findEnv a k.a₁ true = some e) (hst : settableStatus k.a₂ = some st) :
    EnvAct a k s r (s.setEnv e fun v => { v with status := st })
  | upcall {e : EnvIx} (hk : k.sysno = some .envSetPgfaultUpcall) (he : s.findEnv a k.a₁ true = some e) :
    EnvAct a k s r (s.setEnv e fun v => { v with pgfaultUpcall := k.a₂ })
  | send {e : EnvIx} {perm : Word} (hk : k.sysno = some .ipcTrySend)
    (he : s.findEnv a k.a₁ false = some e) (hi : (s.envs e).ipcRecving = true) (hr : r = 0#32) :
    EnvAct a k s r (s.deliver a e k.a₂ perm)
  | doom {e : EnvIx} (hk : k.sysno = some .envDestroy) (he : s.findEnv a k.a₁ true = some e) (hne : e ≠ a)
    (hs : (s.envs e).status = .running) : EnvAct a k s r (s.setEnv e fun v => { v with status := .dying })
  | free {e : EnvIx} (hk : k.sysno = some .envDestroy) (he : s.findEnv a k.a₁ true = some e) (hne : e ≠ a)
    (hs : (s.envs e).status ≠ .running) : EnvAct a k s r (s.retire e)

-- The call `k` of `a` may free `e`.
def MayFree (s : Kernel) (a : EnvIx) (k : Call) (e : EnvIx) : Prop :=
  e = a ∨ (k.sysno = some .envDestroy ∧ s.findEnv a k.a₁ true = some e ∧ (s.envs e).status ≠ .running)

-- The current environment `a` is destroyed, and the scheduler leaves the kernel.
inductive Reaps (c : CpuIx) (a : EnvIx) (s : Kernel) : Exit → Kernel → Prop
  | panic {s' : Kernel} (h : Stopped c a s s') : Reaps c a s .panic s'
  | sched {x : Exit} {s₁ s' : Kernel} (h : SameTable (s.reap c a) s₁) (hs : Schedules c s₁ x s') :
    Reaps c a s x s'

-- How a system call of `a` leaves the kernel without returning to `trap`.
inductive EnvExit (c : CpuIx) (a : EnvIx) (k : Call) (s : Kernel) : Exit → Kernel → Prop
  | panic {e : EnvIx} {s' : Kernel} (he : s.MayFree a k e) (h : Stopped c e s s') : EnvExit c a k s .panic s'
  -- `sys_cputs` has read from a page that is not mapped.
  | fault {va : Word} {s' : Kernel} (hk : k.sysno = some .cputs) (h : SameTable s s') :
    EnvExit c a k s (.fault va) s'
  | yield {x : Exit} {s' : Kernel} (hk : k.sysno = some .yield) (h : Schedules c s x s') : EnvExit c a k s x s'
  | recv {x : Exit} {s' : Kernel} (hk : k.sysno = some .ipcRecv) (h : Schedules c (s.await a k.a₁) x s') :
    EnvExit c a k s x s'
  | reap {x : Exit} {s' : Kernel} (hk : k.sysno = some .cputs ∨ k.sysno = some .envDestroy)
    (h : Reaps c a s x s') : EnvExit c a k s x s'

-- The system call returns after an action on the environments.
def Acts (a : EnvIx) (k : Call) (s : Kernel) (r : Word) (s' : Kernel) : Prop :=
  ∃ s₁, EnvAct a k s r s₁ ∧ SameTable s₁ s'

theorem Acts.skip {k : Call} {r : Word} (hr : k.sysno = some .ipcTrySend → r ≠ 0#32) (h : SameTable s s') :
    Acts a k s r s' :=
  ⟨s, .skip hr, h⟩

theorem Acts.of_act {k : Call} {r : Word} (h : EnvAct a k s r s') : Acts a k s r s' :=
  ⟨s', h, .refl s'⟩

end Kernel

section PageCalls

variable {α β : Type} {m : K α} {f : α → K β} {s₀ : Kernel}

-- The calls that deal with pages, seen from the state `s` in which they were made.
def OnlyPages (s : Kernel) (m : K α) (s₀ : Kernel) : Prop :=
  wp m (fun _ => SameTable s) (fun x s' => x = .panic ∧ SameTable s s') s₀

theorem OnlyPages.of_pageOnly (h : PageOnly m) (hs : SameTable s s₀) : OnlyPages s m s₀ :=
  wp_mono (h s₀) (fun _ _ => hs.trans) fun _ _ h => ⟨h.1, hs.trans h.2⟩

theorem OnlyPages.bind (h : OnlyPages s m s₀) (hf : ∀ x s₁, SameTable s s₁ → OnlyPages s (f x) s₁) :
    OnlyPages s (m >>= f) s₀ :=
  wp_seq h hf

theorem OnlyPages.get {f : Kernel → K β} (hf : OnlyPages s (f s₀) s₀) : OnlyPages s (get >>= f) s₀ :=
  wp_bind_get.mpr hf

theorem OnlyPages.pure {x : α} (hs : SameTable s s₀) : OnlyPages s (pure x) s₀ :=
  hs

variable (hd : s.HasDirs) (ha : s.cur c = some a) (hl : (s.envs a).status ≠ .free)

include hd in
theorem onlyPages_envPgdir (he : (s.envs e).status ≠ .free) (hs : SameTable s s₀) :
    OnlyPages s (envPgdir e) s₀ := by
  have ⟨pd, hp⟩ := HasDirs.some_of_live hd he
  have hr : (envPgdir e).run s₀ = .ok pd s₀ := by simp [envPgdir, hs.envs, hp]
  exact wp_of_ok hr hs

include hd in
theorem onlyPages_mapShared {pt : PtePtr} (he : (s.envs e).status ≠ .free) (hs : SameTable s s₀) :
    OnlyPages s (mapShared c e pp pt va perm) s₀ := by
  refine OnlyPages.get ?_
  split
  case isTrue => exact .pure hs
  case isFalse =>
    refine (onlyPages_envPgdir hd he hs).bind fun pd s₁ h₁ => ?_
    refine OnlyPages.bind (.of_pageOnly SameTable.closed.pageInsert h₁) fun r s₂ h₂ => ?_
    split <;> exact .pure h₂

include hd ha hl in
theorem onlyPages_sysPageAlloc : OnlyPages s (sysPageAlloc c envid va perm) s := by
  rw [OnlyPages, sysPageAlloc, wp_bind_of_ok (envid2env_run ha)]
  cases he : s.findEnv a envid true
  case none => exact .refl s
  case some e =>
    have hle := findEnv_live hl he
    simp only
    split
    case isTrue => exact .refl s
    case isFalse =>
      split
      case isTrue => exact .refl s
      case isFalse =>
        refine OnlyPages.bind (.of_pageOnly SameTable.closed.pageAlloc (.refl s)) fun o s₁ h₁ => ?_
        cases o
        case none => exact .pure h₁
        case some pp =>
          refine (onlyPages_envPgdir hd hle h₁).bind fun pd s₂ h₂ => ?_
          refine OnlyPages.bind (.of_pageOnly SameTable.closed.pageInsert h₂) fun r s₃ h₃ => ?_
          split
          case isTrue =>
            exact OnlyPages.bind (.of_pageOnly SameTable.closed.pageFree h₃) fun _ _ h => .pure h
          case isFalse => exact .pure h₃

include hd ha hl in
theorem onlyPages_sysPageMap {srcva dstva : Word} {dstid : EnvId} :
    OnlyPages s (sysPageMap c envid srcva dstid dstva perm) s := by
  rw [OnlyPages, sysPageMap, wp_bind_of_ok (envid2env_run ha)]
  cases he₀ : s.findEnv a envid true
  case none => exact .refl s
  case some src =>
    simp only
    rw [wp_bind_of_ok (envid2env_run ha)]
    cases he : s.findEnv a dstid true
    case none => exact .refl s
    case some dst =>
      have hl₀ := findEnv_live hl he₀
      have hle := findEnv_live hl he
      simp only
      split
      case isTrue => exact .refl s
      case isFalse =>
        split
        case isTrue => exact .refl s
        case isFalse =>
          split
          case isTrue => exact .refl s
          case isFalse =>
            refine (onlyPages_envPgdir hd hl₀ (.refl s)).bind fun pd s₁ h₁ => ?_
            refine OnlyPages.bind (.of_pageOnly SameTable.closed.pageLookup h₁) fun o s₂ h₂ => ?_
            cases o
            case none => exact .pure h₂
            case some q => exact onlyPages_mapShared hd hle h₂

include hd ha hl in
theorem onlyPages_sysPageUnmap : OnlyPages s (sysPageUnmap c envid va) s := by
  rw [OnlyPages, sysPageUnmap, wp_bind_of_ok (envid2env_run ha)]
  cases he : s.findEnv a envid true
  case none => exact .refl s
  case some e =>
    simp only
    split
    case isTrue => exact .refl s
    case isFalse =>
      refine (onlyPages_envPgdir hd (findEnv_live hl he) (.refl s)).bind fun pd s₁ h₁ => ?_
      exact OnlyPages.bind (.of_pageOnly SameTable.closed.pageRemove h₁) fun _ _ h => .pure h

include hd ha hl in
theorem onlyPages_ipcSendPage {srcva : Word} (he : (s.envs e).status ≠ .free) :
    OnlyPages s (ipcSendPage c e srcva perm) s := by
  rw [OnlyPages, ipcSendPage]
  split
  case isTrue => exact .refl s
  case isFalse =>
    split
    case isTrue => exact .refl s
    case isFalse =>
      rw [wp_bind_of_ok (curenv_run ha)]
      refine (onlyPages_envPgdir hd hl (.refl s)).bind fun pd s₁ h₁ => ?_
      refine OnlyPages.bind (.of_pageOnly SameTable.closed.userMemCheck h₁) fun r s₂ h₂ => ?_
      split
      case isTrue => exact .pure h₂
      case isFalse =>
        refine OnlyPages.bind (.of_pageOnly SameTable.closed.pageLookup h₂) fun o s₃ h₃ => ?_
        cases o
        case none => exact .pure h₃
        case some q => exact OnlyPages.get (onlyPages_mapShared hd he h₃)

end PageCalls

section EnvCalls

theorem envSetupVm_table :
    wp (envSetupVm e)
      (fun r s' => (r = enomem ∧ SameTable s s') ∨
        (r = 0#32 ∧ ∃ p, SameTable (s.setEnv e fun v => { v with pgdir := some p }) s'))
      (fun x s' => x = .panic ∧ SameTable s s') s := by
  rw [envSetupVm]
  refine wp_seq (SameTable.closed.pageAlloc s) fun o s₁ h₁ => ?_
  cases o
  case none => exact .inl ⟨rfl, h₁⟩
  case some p =>
    have h₂ : SameTable s (s₁.incRef p) := h₁.trans .of_pages
    simp only [wp_bind_modify]
    refine wp_seq (wp_mono (keepsOr_kaddr (T := SameTable) _) (fun _ _ => id) fun _ _ h => ⟨h.1, h₂.trans h.2⟩) fun q s₂ h₃ => ?_
    simp only [wp_bind_modify, wp_pure]
    refine .inr ⟨by trivial, q, ?_⟩
    exact ((h₂.trans h₃).setEnv.trans .of_pages).trans .of_pages

theorem envAlloc_table {parentId : EnvId} :
    wp (envAlloc parentId)
      (fun x s' => (∃ w, x = .error w ∧ SameTable s s') ∨
        ∃ e p, s.envFreeList = some e ∧ x = .ok e ∧
          SameTable { s.setEnv e fun v => freshEnv { v with pgdir := some p } e parentId with
            envFreeList := (s.envs e).link } s')
      (fun x s' => x = .panic ∧ SameTable s s') s := by
  simp only [envAlloc, wp_bind_get]
  split
  case _ => exact .inl ⟨_, rfl, .refl s⟩
  case _ e he =>
    refine wp_seq envSetupVm_table fun r s₁ h₁ => ?_
    obtain ⟨rfl, h₁⟩ | ⟨rfl, p, h₁⟩ := h₁
    case inl => exact .inl ⟨_, rfl, h₁⟩
    case inr =>
      rw [if_neg (by decide)]
      simp only [wp_bind_modify, wp_pure]
      refine .inr ⟨e, p, he, rfl, ?_, ?_, h₁.kernPgdir, h₁.cur, h₁.cr3⟩
      case refine_1 => simp [setEnv, h₁.envs]
      case refine_2 => simp [setEnv, h₁.envs, freshEnv]

variable {k : Call} (hd : s.HasDirs) (ha : s.cur c = some a) (hl : (s.envs a).status ≠ .free)

include ha in
theorem sysExofork_acts (hk : k.sysno = some .exofork) :
    wp (sysExofork c) (Acts a k s) (EnvExit c a k s) s := by
  have hr : ∀ r : Word, k.sysno = some .ipcTrySend → r ≠ 0#32 := by simp [hk]
  rw [sysExofork, wp_bind_of_ok (curenv_run ha)]
  simp only [wp_bind_get]
  refine wp_seq (wp_mono envAlloc_table (fun _ _ => id) ?_) fun x s₁ h₁ => ?_
  case refine_1 =>
    rintro x s' ⟨rfl, h⟩
    exact .panic (.inl rfl) h.stopped
  case refine_2 =>
    obtain ⟨w, rfl, h₁⟩ | ⟨e, p, he, rfl, h₁⟩ := h₁
    case inl => exact .skip (hr w) h₁
    case inr =>
      simp only [wp_bind_modify, wp_bind_get, wp_pure]
      refine ⟨s.forkSlot a e p, .fork hk he ?_, ?_, ?_, h₁.kernPgdir, h₁.cur, h₁.cr3⟩
      case refine_1 => simp [setEnv, h₁.envs, freshEnv]
      case refine_2 => simp [setEnv, h₁.envs, forkSlot]
      case refine_3 => simpa [setEnv, forkSlot] using h₁.free

include ha in
theorem sysEnvSetStatus_acts (hk : k.sysno = some .envSetStatus) :
    wp (sysEnvSetStatus c k.a₁ k.a₂) (Acts a k s) (EnvExit c a k s) s := by
  have hr : ∀ r : Word, k.sysno = some .ipcTrySend → r ≠ 0#32 := by simp [hk]
  rw [sysEnvSetStatus]
  cases hst : settableStatus k.a₂
  case none => exact .skip (hr _) (.refl s)
  case some st =>
    simp only
    rw [wp_bind_of_ok (envid2env_run ha)]
    cases he : s.findEnv a k.a₁ true
    case none => exact .skip (hr _) (.refl s)
    case some e => exact .of_act (.status hk he hst)

include ha in
theorem sysEnvSetPgfaultUpcall_acts (hk : k.sysno = some .envSetPgfaultUpcall) :
    wp (sysEnvSetPgfaultUpcall c k.a₁ k.a₂) (Acts a k s) (EnvExit c a k s) s := by
  have hr : ∀ r : Word, k.sysno = some .ipcTrySend → r ≠ 0#32 := by simp [hk]
  rw [sysEnvSetPgfaultUpcall, wp_bind_of_ok (envid2env_run ha)]
  cases he : s.findEnv a k.a₁ true
  case none => exact .skip (hr _) (.refl s)
  case some e => exact .of_act (.upcall hk he)

include hd ha hl in
theorem sysEnvDestroy_acts (hk : k.sysno = some .envDestroy) :
    wp (sysEnvDestroy c k.a₁) (Acts a k s) (EnvExit c a k s) s := by
  have hr : ∀ r : Word, k.sysno = some .ipcTrySend → r ≠ 0#32 := by simp [hk]
  rw [sysEnvDestroy, wp_bind_of_ok (envid2env_run ha)]
  cases he : s.findEnv a k.a₁ true
  case none => exact .skip (hr _) (.refl s)
  case some e =>
    refine wp_seq (wp_mono (envDestroy_table hd (findEnv_live hl he)) (fun _ _ => id) ?_) fun _ s₁ h₁ => ?_
    case refine_1 =>
      rintro x s' (⟨rfl, hx, h⟩ | ⟨hc, s₁, h₁, hs⟩)
      case inl =>
        refine .panic ?_ h
        by_cases hea : e = a
        case pos => exact .inl hea
        case neg => exact .inr ⟨hk, he, fun hs => hea (Option.some.inj ((hx hs).symm.trans ha))⟩
      case inr =>
        cases ha.symm.trans hc
        exact .reap (.inr hk) (.sched h₁ hs)
    case refine_2 =>
      obtain ⟨hc, h₁⟩ := h₁
      have hne : e ≠ a := fun h => hc (h ▸ ha)
      obtain ⟨hs, rfl⟩ | ⟨hs, h₁⟩ := h₁
      case inl => exact .of_act (.doom hk he hne hs)
      case inr => exact ⟨_, .free hk he hne hs, h₁⟩

include hd ha hl in
theorem sysIpcTrySend_acts (hk : k.sysno = some .ipcTrySend) :
    wp (sysIpcTrySend c k.a₁ k.a₂ k.a₃ k.a₄) (Acts a k s) (EnvExit c a k s) s := by
  rw [sysIpcTrySend, wp_bind_of_ok (envid2env_run ha)]
  cases he : s.findEnv a k.a₁ false
  case none => exact .skip (fun _ => by decide) (.refl s)
  case some e =>
    have hle := findEnv_live hl he
    simp only [wp_bind_get]
    split
    case isTrue => exact .skip (fun _ => by decide) (.refl s)
    case isFalse hi =>
      simp only [Bool.not_eq_true, Bool.not_eq_false'] at hi
      split
      case isTrue =>
        refine wp_seq (wp_mono (onlyPages_ipcSendPage hd ha hl hle) (fun _ _ => id) ?_) fun r s₁ h₁ => ?_
        case refine_1 =>
          rintro x s' ⟨rfl, h⟩
          exact .panic (.inl rfl) h.stopped
        case refine_2 =>
          split
          case isTrue hr => exact .skip (fun _ => by rintro rfl; exact absurd hr (by decide)) h₁
          case isFalse =>
            have ha₁ : s₁.cur c = some a := by rw [h₁.cur, ha]
            rw [wp_bind_of_ok (ipcDeliver_run ha₁)]
            refine ⟨s.deliver a e k.a₂ k.a₄, .send hk he hi rfl, ?_⟩
            have := h₁.setEnv (e := e) (f := fun v =>
              { v with
                ipcPerm := k.a₄
                ipcRecving := false
                ipcFrom := (s.envs a).id
                ipcValue := k.a₂
                tf.regs.eax := 0#32
                status := .runnable })
            simpa only [deliver, h₁.envs] using this
      case isFalse =>
        rw [wp_bind_of_ok (ipcDeliver_run ha)]
        exact .of_act (.send hk he hi rfl)

theorem hasDirs_await (hd : s.HasDirs) (hl : (s.envs a).status ≠ .free) : (s.await a va).HasDirs := by
  intro e
  by_cases he : e = a
  case pos => simpa [await, setEnv, he] using mt hd.mpr hl
  case neg => simpa [await, setEnv, he] using hd

include hd ha hl in
theorem sysIpcRecv_acts (hk : k.sysno = some .ipcRecv) :
    wp (sysIpcRecv c k.a₁) (Acts a k s) (EnvExit c a k s) s := by
  have hr : ∀ r : Word, k.sysno = some .ipcTrySend → r ≠ 0#32 := by simp [hk]
  rw [sysIpcRecv]
  split
  case isTrue => exact .skip (hr _) (.refl s)
  case isFalse =>
    rw [wp_bind_of_ok (curenv_run ha)]
    simp only [wp_bind_modify]
    have hd' : (s.await a k.a₁).HasDirs := hasDirs_await hd hl
    have hs := schedYield_schedules (c := c) hd'
    exact wp_seq (wp_mono hs (fun _ _ => False.elim) fun _ _ h => .recv hk h) fun _ _ => False.elim

theorem Kernel.SameTable.reap (h : SameTable s s') : SameTable (s.reap c e) (s'.reap c e) where
  envs := h.retire.envs
  free := rfl
  kernPgdir := h.kernPgdir
  cur := by
    funext c'
    have hc' := congrFun h.cur c'
    by_cases he : c' = c
    case pos => simp [Kernel.cur, setCpu, Kernel.reap, he]
    case neg => simpa [Kernel.cur, setCpu, Kernel.reap, Kernel.retire, Kernel.setEnv, he] using hc'
  cr3 c' := by
    have hc' := h.cr3 c'
    by_cases he : c' = c
    case pos => simp [setCpu, Kernel.reap, he, h.kernPgdir]
    case neg => simpa [setCpu, Kernel.reap, Kernel.retire, Kernel.setEnv, he] using hc'

-- The caller itself is destroyed.
include hd ha hl in
theorem envDestroy_self {s₀ : Kernel} (hs : SameTable s s₀) :
    wp (envDestroy c a) (fun _ _ => False) (Reaps c a s) s₀ := by
  have ha₀ : s₀.cur c = some a := by rw [hs.cur, ha]
  refine wp_mono (envDestroy_table (hs.hasDirs hd) (by rwa [hs.envs])) (fun _ _ h => h.1 ha₀) ?_
  rintro x s' (⟨rfl, -, h⟩ | ⟨-, s₁, h₁, hx⟩)
  case inl => exact .panic (hs.stopped.trans h)
  case inr => exact .sched (hs.reap.trans h₁) hx

include hd ha hl in
theorem userMemAssert_table {s₀ : Kernel} (hs : SameTable s s₀) :
    wp (userMemAssert c a va len perm) (fun _ => SameTable s) (Reaps c a s) s₀ := by
  refine wp_seq (wp_mono (onlyPages_envPgdir hd hl hs) (fun _ _ => id) ?_) fun pd s₁ h₁ => ?_
  case refine_1 =>
    rintro x s' ⟨rfl, h⟩
    exact .panic h.stopped
  case refine_2 =>
    refine wp_seq (wp_mono (SameTable.closed.userMemCheck s₁) (fun _ _ => h₁.trans) ?_) fun r s₂ h₂ => ?_
    case refine_1 =>
      rintro x s' ⟨rfl, h⟩
      exact .panic (h₁.trans h).stopped
    case refine_2 =>
      split
      case isTrue => exact wp_mono (envDestroy_self hd ha hl h₂) (fun _ _ => False.elim) fun _ _ => id
      case isFalse => exact h₂

theorem loadByte_table : wp (loadByte c va) (fun _ => (s = ·)) (fun x s' => (∃ va, x = .fault va) ∧ s = s') s := by
  simp only [loadByte, wp_bind_get]
  split
  case _ => exact ⟨⟨va, rfl⟩, rfl⟩
  case _ => exact rfl

theorem cputsLoop_table {n : Nat} {precision : Int} :
    wp (cputsLoop c n va precision) (fun _ => (s = ·)) (fun x s' => (∃ va, x = .fault va) ∧ s = s') s := by
  induction n generalizing va precision
  case zero => exact rfl
  case succ n ih =>
    refine wp_seq loadByte_table fun ch s' hs => ?_
    subst hs
    split
    case isTrue => exact rfl
    case isFalse =>
      split
      case isTrue => exact ih
      case isFalse =>
        split
        case isTrue => exact ih
        case isFalse => exact rfl

include hd ha hl in
theorem sysCputs_table (hk : k.sysno = some .cputs) :
    wp (sysCputs c va len) (fun _ => SameTable s) (EnvExit c a k s) s := by
  rw [sysCputs, wp_bind_of_ok (curenv_run ha)]
  refine wp_seq (wp_mono (userMemAssert_table hd ha hl (.refl s)) (fun _ _ => id) fun _ _ => .reap (.inl hk))
    fun _ s₁ h₁ => ?_
  split
  case isTrue =>
    generalize 2 ^ 32 = n
    refine wp_mono cputsLoop_table ?_ ?_
    case refine_1 =>
      rintro _ s' rfl
      exact h₁
    case refine_2 =>
      rintro _ s' ⟨⟨va, rfl⟩, rfl⟩
      exact .fault hk h₁
  case isFalse => exact h₁

theorem keepsTable_consGetc : wp consGetc (fun _ => SameTable s) (fun _ _ => False) s := by
  simp only [consGetc, wp_bind_modify, wp_bind_get]
  split
  case isTrue => exact ⟨rfl, rfl, rfl, rfl, fun _ => rfl⟩
  case isFalse => exact ⟨rfl, rfl, rfl, rfl, fun _ => rfl⟩

theorem OnlyPages.acts {m : K Word} (hk : k.sysno ≠ some .ipcTrySend) (h : OnlyPages s m s) :
    wp m (Acts a k s) (EnvExit c a k s) s := by
  refine wp_mono h (fun r _ => .skip fun h => absurd h hk) ?_
  rintro x s' ⟨rfl, hs⟩
  exact .panic (.inl rfl) hs.stopped

-- What a system call of a live environment does to the environments.
include hd ha hl in
theorem syscall_acts :
    wp (k.run c) (Acts a k s) (EnvExit c a k s) s := by
  simp only [Call.run, syscall]
  cases hk : Sysno.ofWord k.no
  case none => exact .skip (fun h => by simp [Call.sysno, hk] at h) (.refl s)
  case some x =>
    have hk' : k.sysno = some x := hk
    have hr : x ≠ .ipcTrySend → ∀ r : Word, k.sysno = some .ipcTrySend → r ≠ 0#32 := by
      intro hx r h
      rw [hk'] at h
      exact absurd (Option.some.inj h) hx
    cases x
    case cputs => exact wp_seq (sysCputs_table hd ha hl hk') fun _ _ h => .skip (hr (by decide) _) h
    case cgetc =>
      exact wp_mono keepsTable_consGetc (fun _ _ => .skip (hr (by decide) _)) fun _ _ => False.elim
    case getenvid =>
      simp only [sysGetenvid]
      rw [wp_bind_of_ok (curenv_run ha)]
      exact .skip (hr (by decide) _) (.refl s)
    case envDestroy => exact sysEnvDestroy_acts hd ha hl hk'
    case pageAlloc => exact (onlyPages_sysPageAlloc hd ha hl).acts (by simp [hk'])
    case pageMap => exact (onlyPages_sysPageMap hd ha hl).acts (by simp [hk'])
    case pageUnmap => exact (onlyPages_sysPageUnmap hd ha hl).acts (by simp [hk'])
    case exofork => exact sysExofork_acts ha hk'
    case envSetStatus => exact sysEnvSetStatus_acts ha hk'
    case envSetPgfaultUpcall => exact sysEnvSetPgfaultUpcall_acts ha hk'
    case yield =>
      exact wp_seq (wp_mono (schedYield_schedules hd) (fun _ _ => False.elim) fun _ _ => .yield hk')
        fun _ _ => False.elim
    case ipcTrySend => exact sysIpcTrySend_acts hd ha hl hk'
    case ipcRecv => exact sysIpcRecv_acts hd ha hl hk'

end EnvCalls

end Jos
