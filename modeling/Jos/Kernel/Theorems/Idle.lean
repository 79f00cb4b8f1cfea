import Jos.Kernel.Theorems.Tlb
import Jos.Kernel.Theorems.Faults

-- When the kernel stops for good: it panics or enters the monitor, and does not give up the lock again.

open Function Program Relation

namespace Jos

open Kernel

variable {M : Set Ppn} {l : List Ppn} {S S' S₀ : System} {s s' s₀ : Kernel} {c : CpuIx} {e a : EnvIx} {i : Ptx}
  {pd p q t : Ppn} {va upper perm len faultVa : Word} {tf : Trapframe} {ptr : TfPtr} {x : Exit} {y : Action} {k : Call}
  {α β : Type} {m : K α}

namespace Kernel

-- No environment runs, or will be run by the scheduler.
def Idle (s : Kernel) : Prop :=
  ∀ e, (s.envs e).status.schedulable = false

theorem idle_of_hasWork (h : s.hasWork = false) : s.Idle := by
  intro e
  refine Bool.eq_false_of_not_eq_true fun he => ?_
  have hw : s.hasWork = true := by
    unfold hasWork
    rw [List.any_eq_true]
    exact ⟨e, List.mem_finRange e, he⟩
  rw [h] at hw
  cases hw

-- The kernel does not panic, and enters the monitor only when there is nothing left to do.
def Rests (x : Exit) (s : Kernel) : Prop :=
  x ≠ .panic ∧ (x = .monitor → s.Idle)

theorem Rests.user : Rests .user s :=
  ⟨by decide, fun h => by cases h⟩

theorem Rests.halt : Rests .halt s :=
  ⟨by decide, fun h => by cases h⟩

theorem Rests.fault : Rests (.fault va) s :=
  ⟨by simp, fun h => by cases h⟩

end Kernel

-- However `m` leaves the kernel, it does so in order.
def Calm (m : K α) (s : Kernel) : Prop :=
  wp m (fun _ _ => True) Rests s

theorem Calm.of_ok {r : α} (h : m.run s = .ok r s') : Calm m s :=
  wp_of_ok h trivial

theorem Calm.seq {f : α → K β} {Q : α → Kernel → Prop} {E : Exit → Kernel → Prop} (h : Calm m s) (hq : wp m Q E s)
    (hf : ∀ r s', Q r s' → Calm (f r) s') : Calm (m >>= f) s :=
  wp_seq (wp_mono (wp_and h hq) (fun _ _ => And.right) fun _ _ => And.left) hf

theorem Calm.of_fault {Q : α → Kernel → Prop} {T : Kernel → Prop}
    (h : wp m Q (fun x s' => (∃ va, x = .fault va) ∧ T s') s) : Calm m s :=
  wp_mono h (fun _ _ _ => trivial) fun x s' hx => by
    obtain ⟨⟨va, rfl⟩, -⟩ := hx
    exact .fault

theorem Calm.never {E : Exit → Kernel → Prop} (h : Calm m s) (hw : wp m (fun _ _ => False) E s) :
    wp m (fun _ _ => False) Rests s :=
  wp_mono (wp_and h hw) (fun _ _ => And.right) fun _ _ => And.left

section Scheduler

variable (hd : s.HasDirs)

theorem schedHalt_calm : Calm (schedHalt c) s := by
  simp only [Calm, schedHalt, wp_bind_get]
  split
  case isTrue =>
    simp only [lcr3, wp_bind_modify, wp_throw]
    exact .halt
  case isFalse hn => exact ⟨by decide, fun _ => idle_of_hasWork (by simpa using hn)⟩

include hd in
theorem envRun_calm (he : (s.envs e).status ≠ .free) : Calm (envRun c e) s := by
  obtain ⟨pd, hp⟩ := HasDirs.some_of_live hd he
  exact wp_of_error (envRun_run hp) .user

include hd in
theorem schedLoop_calm {n : Nat} : Calm (schedLoop c n e) s := by
  induction n generalizing e
  case zero => exact schedHalt_calm
  case succ n ih =>
    simp only [Calm, schedLoop, wp_bind_get]
    split
    case isTrue =>
      split
      case isTrue hr => exact envRun_calm hd (by simp [hr])
      case isFalse => exact schedHalt_calm
    case isFalse =>
      split
      case isTrue hr => exact envRun_calm hd (by simp [hr])
      case isFalse => exact ih

include hd in
theorem schedYield_calm : Calm (schedYield c) s := by
  simp only [Calm, schedYield, wp_bind_get]
  split <;> exact schedLoop_calm hd

include hd in
theorem trapReturn_calm : Calm (trapReturn c) s := by
  simp only [Calm, trapReturn, wp_bind_get]
  split
  case _ => exact schedYield_calm hd
  case _ e _ =>
    split
    case isTrue hr => exact envRun_calm hd (by simp [hr])
    case isFalse => exact schedYield_calm hd

-- The current environment is gone.
include hd in
theorem unset_calm : Calm (do modify (·.setCpu c fun i => { i with env := none }); schedYield c) s := by
  have hd' : (s.setCpu c fun i => { i with env := none }).HasDirs := hd
  rw [Calm, wp_bind_modify]
  exact schedYield_calm hd'

end Scheduler

section Destroy

variable (h : PageInv M ∅ l s)

-- The garbage collection in `trap`.
include h in
theorem reap_calm (hd : s.pgdirOf e = some pd) :
    Calm (do envFree c e; modify (·.setCpu c fun i => { i with env := none }); schedYield c) s := by
  obtain ⟨l', h'⟩ := h.freeEnv (c := c) hd
  rw [Calm, wp_bind_of_ok (h.envFree_run hd)]
  exact unset_calm h'.dir

include h in
theorem envDestroy_calm (hl : (s.envs e).status ≠ .free) : Calm (envDestroy c e) s := by
  obtain ⟨pd, hd⟩ := h.pgdirOf_live hl
  obtain ⟨l', h'⟩ := h.freeEnv (c := c) hd
  simp only [Calm, envDestroy, wp_bind_get]
  split
  case isTrue => exact trivial
  case isFalse =>
    rw [wp_bind_of_ok (h.envFree_run hd)]
    simp only [wp_bind_get]
    split
    case isTrue => exact unset_calm h'.dir
    case isFalse => exact trivial

end Destroy

section UserMem

-- The tables of an address space, those of the kernel included, lie in the memory there is.
theorem KernHalf.table_lt (hk : KernHalf s₀ s) (h : PageInv M ∅ l s) (hd : s.pgdirOf a = some pd)
    (ht : s.table pd i = some t) : t.toNat < s.npages := by
  by_cases hi : i.val < pdxUtop
  case pos => exact h.table_bound hd hi ht
  case neg =>
    have hm : s.mem pd i = if i = pdx uvpt then page2pa pd ||| pteP ||| pteU else s.mem s.kernPgdir i :=
      hk.dir hd (Nat.le_of_not_lt hi)
    by_cases hu : i = pdx uvpt
    case pos =>
      rw [if_pos hu, BitVec.or_assoc, BitVec.or_comm pteP, ← BitVec.or_assoc] at hm
      rw [table, hm, entryPage_insert (by decide)] at ht
      cases ht
      exact h.bound ((h.owned (r := .pgdir a) hd).resolve_right fun hx => by cases hx.1)
    case neg =>
      rw [if_neg hu] at hm
      have ht' : s.target (.kpde i) = some t := by
        rw [← ht]
        simp only [target, table, hm]
      refine h.bound ((h.owned ht').resolve_right fun hx => hu ?_)
      cases hx.1
      rfl

variable {n : Nat} {lower : Word} (hb : ∀ i t, s.table pd i = some t → t.toNat < s.npages)

include hb in
theorem userMemCheckLoop_returns :
    wp (userMemCheckLoop pd va upper perm n lower) (fun _ => UpToAddr s) (fun _ _ => False) s := by
  induction n generalizing lower
  case zero => exact .refl s
  case succ n ih =>
    rw [userMemCheckLoop, wp_bind_of_ok (entryAllows_run (hb _))]
    split
    case isTrue =>
      split
      case isTrue => exact ih
      case isFalse => exact .refl s
    case isFalse => exact ⟨_, rfl⟩

-- `user_mem_check` does not panic, whatever the range.
include hb in
theorem userMemCheck_returns : wp (userMemCheck pd va len perm) (fun _ => UpToAddr s) (fun _ _ => False) s := by
  refine wp_seq (userMemCheckLoop_returns hb) fun r s₁ h₁ => ?_
  split
  case isTrue =>
    split
    case isTrue =>
      obtain ⟨y, rfl⟩ := h₁
      exact ⟨_, rfl⟩
    case isFalse => exact h₁
  case isFalse => exact h₁

end UserMem

section Calls

variable (h : PageInv M ∅ l s) (hk : KernHalf s₀ s) (ha : s.cur c = some a) (hl : (s.envs a).status ≠ .free)

include h hk hl in
theorem userMemAssert_calm : Calm (userMemAssert c a va len perm) s := by
  obtain ⟨pd, hd⟩ := h.pgdirOf_live hl
  rw [Calm, userMemAssert, wp_bind_of_ok (envPgdir_run hd)]
  refine wp_seq (wp_mono (userMemCheck_returns fun _ _ => hk.table_lt h hd) (fun _ _ => id) fun _ _ => False.elim)
    fun r s₁ hu => ?_
  split
  case isTrue => exact envDestroy_calm (hu.sameMem.pageInv h) (mt (hu.sameMem.live a).mp hl)
  case isFalse => exact trivial

include h hk ha hl in
theorem sysCputs_calm : Calm (sysCputs c va len) s := by
  rw [Calm, sysCputs, wp_bind_of_ok (curenv_run ha)]
  refine wp_seq (userMemAssert_calm h hk hl) fun _ s₁ _ => ?_
  split
  case isTrue =>
    generalize 2 ^ 32 = n
    exact Calm.of_fault cputsLoop_table
  case isFalse => exact trivial

include h hk ha hl in
theorem ipcSendPage_calm (he : (s.envs e).status ≠ .free) (hs : va < utop) (hv : (s.envs e).ipcDstva < utop) :
    Calm (ipcSendPage c e va perm) s := by
  obtain ⟨pd₀, hd₀⟩ := h.pgdirOf_live hl
  obtain ⟨pd, hd⟩ := h.pgdirOf_live he
  simp only [Calm, ipcSendPage]
  split
  case isTrue => exact trivial
  case isFalse =>
    split
    case isTrue => exact trivial
    case isFalse =>
      rw [wp_bind_of_ok (curenv_run ha), wp_bind_of_ok (envPgdir_run hd₀)]
      refine wp_seq (wp_mono (userMemCheck_returns fun _ _ => hk.table_lt h hd₀) (fun _ _ => id)
        fun _ _ => False.elim) fun r s₁ hu => ?_
      have hm := hu.sameMem
      have h₁ := hm.pageInv h
      split
      case isTrue => exact trivial
      case isFalse =>
        obtain ⟨z, rfl⟩ := hu
        obtain hlk | ⟨pp, pt, hlk, -, hpt⟩ := pageLookup_cases h₁ hd₀ hs
        case inl =>
          rw [wp_bind_of_ok hlk]
          exact trivial
        case inr =>
          rw [wp_bind_of_ok hlk]
          simp only [wp_bind_get]
          obtain ⟨r, hrun, -⟩ | ⟨hrun, -, -⟩ := mapShared_run (c := c) pp perm h₁ hpt hd hv
          case inl => exact Calm.of_ok hrun
          case inr => exact Calm.of_ok hrun

include h hk ha hl in
theorem sysIpcTrySend_calm {envid : EnvId} {value : Word} : Calm (sysIpcTrySend c envid value va perm) s := by
  rw [Calm, sysIpcTrySend, wp_bind_of_ok (envid2env_run ha)]
  cases he : s.findEnv a envid false
  case none => exact trivial
  case some e =>
    have hle := findEnv_live hl he
    simp only [wp_bind_get]
    split
    case isTrue => exact trivial
    case isFalse =>
      split
      case isTrue hv =>
        refine (ipcSendPage_calm h hk ha hl hle hv.1 hv.2).seq (onlyPages_ipcSendPage h.dir ha hl hle)
          fun r s₁ hs => ?_
        split
        case isTrue => exact trivial
        case isFalse =>
          have ha₁ : s₁.cur c = some a := by rw [hs.cur, ha]
          rw [Calm, wp_bind_of_ok (ipcDeliver_run ha₁)]
          exact trivial
      case isFalse =>
        rw [wp_bind_of_ok (ipcDeliver_run ha)]
        exact trivial

include h ha hl in
theorem sysIpcRecv_calm : Calm (sysIpcRecv c va) s := by
  rw [Calm, sysIpcRecv]
  split
  case isTrue => exact trivial
  case isFalse =>
    rw [wp_bind_of_ok (curenv_run ha)]
    simp only [wp_bind_modify]
    have hd' : (s.await a va).HasDirs := hasDirs_await h.dir hl
    exact wp_seq (schedYield_calm hd') fun _ _ _ => trivial

include h ha hl in
theorem sysEnvDestroy_calm {envid : EnvId} : Calm (sysEnvDestroy c envid) s := by
  rw [Calm, sysEnvDestroy, wp_bind_of_ok (envid2env_run ha)]
  cases he : s.findEnv a envid true
  case none => exact trivial
  case some e => exact wp_seq (envDestroy_calm h (findEnv_live hl he)) fun _ _ _ => trivial

include ha in
theorem sysEnvSetStatus_calm {envid : EnvId} {status : Word} : Calm (sysEnvSetStatus c envid status) s := by
  rw [Calm, sysEnvSetStatus]
  cases settableStatus status
  case none => exact trivial
  case some st =>
    simp only
    rw [wp_bind_of_ok (envid2env_run ha)]
    cases s.findEnv a envid true
    case none => exact trivial
    case some e => exact trivial

include ha in
theorem sysEnvSetPgfaultUpcall_calm {envid : EnvId} {func : Word} :
    Calm (sysEnvSetPgfaultUpcall c envid func) s := by
  rw [Calm, sysEnvSetPgfaultUpcall, wp_bind_of_ok (envid2env_run ha)]
  cases s.findEnv a envid true
  case none => exact trivial
  case some e => exact trivial

include h hk ha hl in
theorem syscall_calm : Calm (k.run c) s := by
  simp only [Call.run, syscall]
  cases hn : Sysno.ofWord k.no
  case none => exact trivial
  case some x =>
    cases x
    case cputs => exact wp_seq (sysCputs_calm h hk ha hl) fun _ _ _ => trivial
    case cgetc => exact wp_mono keepsTable_consGetc (fun _ _ _ => trivial) fun _ _ => False.elim
    case getenvid =>
      simp only [sysGetenvid]
      rw [Calm, wp_bind_of_ok (curenv_run ha)]
      exact trivial
    case envDestroy => exact sysEnvDestroy_calm h ha hl
    case pageAlloc =>
      obtain ⟨r, s', hr, -⟩ := sysPageAlloc_post h ha hl hn
      exact .of_ok hr
    case pageMap =>
      obtain ⟨r, s', hr, -⟩ := sysPageMap_post h ha hl hn
      exact .of_ok hr
    case pageUnmap =>
      obtain ⟨r, s', hr, -⟩ := sysPageUnmap_post h ha hl hn
      exact .of_ok hr
    case exofork =>
      obtain ⟨r, s', hr, -⟩ := sysExofork_post h ha hn
      exact .of_ok hr
    case envSetStatus => exact sysEnvSetStatus_calm ha
    case envSetPgfaultUpcall => exact sysEnvSetPgfaultUpcall_calm ha
    case yield => exact wp_seq (schedYield_calm h.dir) fun _ _ _ => trivial
    case ipcTrySend => exact sysIpcTrySend_calm h hk ha hl
    case ipcRecv => exact sysIpcRecv_calm h ha hl

end Calls

section Trap

variable (h : PageInv M ∅ l s) (hk : KernHalf s₀ s) (ha : s.cur c = some a) (hl : (s.envs a).status ≠ .free)

include h hk ha hl in
theorem pageFaultHandler_calm (hp : ptr = .env a ∨ ptr = .stack) : Calm (pageFaultHandler c ptr tf faultVa) s := by
  rw [Calm, pageFaultHandler, wp_bind_of_ok (curenv_run ha)]
  simp only [wp_bind_get]
  split
  case isTrue =>
    refine (envDestroy_calm h hl).seq (envDestroy_self h.dir ha hl (.refl s)) fun _ _ => False.elim
  case isFalse =>
    obtain ⟨t, ht⟩ := TfPtr.write_run (s := s) (f := fun t => { t with esp := upcallEsp tf.esp }) hp
    rw [wp_bind_of_ok ht]
    have hs : SameMem s (s.saveTf a t) := sameMem_saveTf
    have h₁ := hs.pageInv h
    have hl₁ := mt (hs.live a).mp hl
    refine (userMemAssert_calm h₁ (hk.sameMem hs) hl₁).seq (userMemAssert_table h₁.dir ha hl₁ (.refl _))
      fun _ s₂ h₂ => ?_
    have hst : KeepsOr SameTable (fun x => ∃ va, x = .fault va) ((utrapframe tf faultVa).forM fun q =>
        storeWord c (upcallEsp tf.esp + q.1) q.2) := KeepsOr.forM fun _ => keepsOr_storeWord
    refine (Calm.of_fault (hst s₂)).seq (hst s₂) fun _ s₃ h₃ => ?_
    rw [Calm, wp_bind_get]
    obtain ⟨t', ht'⟩ := TfPtr.write_run (s := s₃) (f := fun t => { t with eip := (s₃.envs a).pgfaultUpcall }) hp
    rw [wp_bind_of_ok ht']
    have h₄ : SameTable (s.saveTf a t) s₃ := h₂.trans h₃
    refine envRun_calm (hasDirs_saveTf (h₄.hasDirs h₁.dir)) ?_
    simpa [saveTf, setEnv, h₄.envs] using hl

include h hk ha hl in
theorem trapDispatch_calm (hu : tf.cs ≠ gdKt) :
    Calm (do trapDispatch c (.env a) tf faultVa; trapReturn c) (s.saveTf a tf) := by
  have hs : SameMem s (s.saveTf a tf) := sameMem_saveTf
  have h₁ := hs.pageInv h
  have hk₁ := hk.sameMem hs
  have ha₁ : (s.saveTf a tf).cur c = some a := ha
  have hl₁ := mt (hs.live a).mp hl
  simp only [Calm, trapDispatch]
  split
  case isTrue => exact trapReturn_calm h₁.dir
  case isFalse =>
    split
    case isTrue => exact trapReturn_calm h₁.dir
    case isFalse =>
      split
      case isTrue =>
        exact (pageFaultHandler_calm h₁ hk₁ ha₁ hl₁ (.inl rfl)).seq
          (pageFaultHandler_handles h₁.dir ha₁ hl₁ tf faultVa (.inl rfl)) fun _ _ => False.elim
      case isFalse =>
        split
        case isTrue =>
          rw [bind_assoc]
          refine (syscall_calm (k := tf.call) h₁ hk₁ ha₁ hl₁).seq (syscall_acts h₁.dir ha₁ hl₁) fun r s₁ hx => ?_
          have hd : s₁.HasDirs := hx.hasDirs h₁.dir hl₁
          have hd₂ : (s₁.answer a r).HasDirs := hasDirs_setEnv hd (hd (e := a))
          exact wp_bind_modify.mpr (trapReturn_calm hd₂)
        case isFalse =>
          split
          case isTrue =>
            exact (schedYield_calm h₁.dir).seq (schedYield_schedules h₁.dir) fun _ _ => False.elim
          case isFalse =>
            rw [bind_assoc, wp_bind_of_ok (curenv_run ha₁)]
            exact (envDestroy_calm h₁ hl₁).seq (envDestroy_self h₁.dir ha₁ hl₁ (.refl _)) fun _ _ => False.elim

-- A trap from user mode.
include h hk ha hl in
theorem trap_calm (hu : tf.cs &&& 3#16 = 3#16) : Calm (trap c tf faultVa) s := by
  have hs : SameMem s (s.started c) := sameMem_started
  have ha₁ : (s.started c).cur c = some a := by
    rw [← ha]
    exact congrFun (SameTable.started (c := c)).cur c
  have ha₂ : (s.setCpu c fun i => { i with status := .started }).cur c = some a := ha₁
  simp only [Calm, trap, wp_bind_modify, if_pos hu, wp_bind_get, ha₂]
  split
  case isTrue =>
    obtain ⟨pd, hd⟩ := (hs.pageInv h).pgdirOf_live (mt (hs.live a).mp hl)
    exact reap_calm (hs.pageInv h) hd
  case isFalse =>
    have hg : tf.cs ≠ gdKt := by
      intro hg
      rw [hg] at hu
      exact absurd hu (by decide)
    exact trapDispatch_calm (hs.pageInv h) (hk.sameMem hs) ha₁ (mt (hs.live a).mp hl) hg

-- The page fault which the kernel itself has taken.
include h hk ha hl in
theorem trap_refaults_calm (hu : tf.cs = gdKt) (hn : tf.trapno = tPgflt) : Calm (trap c tf faultVa) s := by
  have hs : SameMem s (s.started c) := sameMem_started
  have ha₁ : (s.started c).cur c = some a := by
    rw [← ha]
    exact congrFun (SameTable.started (c := c)).cur c
  have h₁ := hs.pageInv h
  have hl₁ := mt (hs.live a).mp hl
  simp only [Calm, trap, wp_bind_modify, trapDispatch, hu, hn]
  rw [if_neg (by decide), if_neg (by decide), if_neg (by decide), if_pos trivial]
  exact (pageFaultHandler_calm h₁ (hk.sameMem hs) ha₁ hl₁ (.inr rfl)).seq
    (pageFaultHandler_handles h₁.dir ha₁ hl₁ tf faultVa (.inr rfl)) fun _ _ => False.elim

end Trap

-- The interrupts for which `trap_dispatch` has a case of its own.
def Trapframe.Expected (tf : Trapframe) : Prop :=
  tf.trapno = irqTimer ∨ tf.trapno = irqSpurious

-- An interrupt of a halted processor.
theorem trap_wakes_calm (hd : s.HasDirs) (hu : tf.cs = gdKt) (hx : tf.Expected) : Calm (trap c tf faultVa) s := by
  have hd₁ : (s.started c).HasDirs := SameTable.started.hasDirs hd
  simp only [Calm, trap, wp_bind_modify, trapDispatch, hu]
  rw [if_neg (by decide)]
  obtain hx | hx := hx
  case inl =>
    rw [hx, if_neg (by decide), if_neg (by decide), if_neg (by decide), if_neg (by decide), if_pos rfl]
    exact (schedYield_calm hd₁).seq (schedYield_schedules hd₁) fun _ _ => False.elim
  case inr =>
    rw [hx, if_pos rfl]
    exact trapReturn_calm hd₁

-- Any other one is the end of the kernel.
theorem trap_wakes_panics (hu : tf.cs = gdKt) (hn : 32#32 ≤ tf.trapno) (hn' : tf.trapno ≠ tSyscall)
    (hx : ¬tf.Expected) : (trap c tf faultVa).run s = .error .panic (s.started c) := by
  have hb : tf.trapno ≠ tBrkpt := by
    intro h
    rw [h] at hn
    exact absurd hn (by decide)
  have hp : tf.trapno ≠ tPgflt := by
    intro h
    rw [h] at hn
    exact absurd hn (by decide)
  simp only [trap, run_bind, run_modify, trapDispatch, hu, if_neg hb, if_neg hp, if_neg hn',
    if_neg fun h => hx (.inl h), if_neg fun h => hx (.inr h)]
  rw [if_neg (by decide)]
  rfl

namespace System

-- What the kernel executes at an event.
def code (S : System) : Action → Option (K Unit)
  | .start c => some (schedYield c)
  | .trap c tf faultVa => some (Jos.trap c tf faultVa)
  | .wake c tf => some (Jos.trap c tf 0#32)
  | .refault c tf =>
    match S.mode c with
    | .fault va => some (Jos.trap c tf va)
    | _ => none
  | .store .. => none

-- The kernel panics at the event.
def Panics (S : System) (y : Action) : Prop :=
  ∃ m s, S.code y = some m ∧ m.run S.kern = .error .panic s

-- An interrupt of a halted processor for which the kernel is not prepared.
def Stray (y : Action) : Prop :=
  ∃ c tf, y = .wake c tf ∧ ¬tf.Expected

theorem MemEvent.kernHalf (hx : MemEvent S y s') (h : PageInv M ∅ l S.kern) {L : List EnvIx} (hL : EnvInv L S.kern)
    (hk : KernHalf s₀ S.kern) : KernHalf s₀ s' := by
  cases hx
  case skip hs => exact hk.sameMem hs
  case trap hx => exact (hx.walks (b := 0) h hk hL).1
  case refault hx => exact (hx.walks (b := 0) h hk hL).1
  case store hx => exact hx.kernHalf h hk

-- Only system calls add references to pages.
theorem MemEvent.refsFit (hx : MemEvent S y s') (h : MemInv M S.kern)
    (hy : ∀ c tf va, y = .trap c tf va → tf.trapno ≠ tSyscall) : RefsFit s' := by
  have ht : ∀ {c a tf}, TrapMem c a tf S.kern s' → tf.trapno ≠ tSyscall → RefsFit s' := by
    intro c a tf ht hn
    cases ht
    case call hk _ => exact absurd hk hn
    case reap s₁ pd h₁ hd hs =>
      obtain ⟨l, L, hl, hL⟩ := h.sameMem h₁
      obtain ⟨l', hl'⟩ := hl.freeEnv (c := c) hd
      exact (MemInv.sameMem ⟨l', a :: L, hl', hL.freeEnv hl hd⟩ hs).refsFit
    case pokes s₁ s₂ h₁ hp h₂ => exact (((h.sameMem h₁).pokes hp).sameMem h₂).refsFit
  cases hx
  case skip hs => exact (h.sameMem hs).refsFit
  case trap hyt _ hx => exact ht hx (hy _ _ _ hyt)
  case refault hn _ hx => exact ht hx (by rw [hn]; decide)
  case store hx => exact (h.pokes (.single hx)).refsFit

-- The invariants which keep the kernel going.
structure Sound (M : Set Ppn) (s₀ : Kernel) (S : System) : Prop where
  inv  : S.Inv suspendedPolicy
  mem  : MemInv M S.kern
  kern : KernHalf s₀ S.kern

namespace Sound

variable (h : S.Sound M s₀)

include h in
theorem step (hs : S.step y = some S') (hy : S.Orderly y) : S'.Sound M s₀ := by
  obtain ⟨l, L, hl, hL⟩ := h.mem
  have hx := h.inv.memEvent hl hs
  exact ⟨h.inv.step hs (Calls.allows SparesRunnable.allows S y hy.1), hx.memInv h.mem hy.2.1 (hy.2.2 S' hs),
    hx.kernHalf hl hL h.kern⟩

include h in
theorem orderly (hs : S.step y = some S') (hy : ∀ c tf va, y = .trap c tf va → tf.trapno ≠ tSyscall) :
    S.Orderly y := by
  obtain ⟨l, L, hl, -⟩ := h.mem
  refine ⟨?_, ?_, fun S'' hs' => (h.inv.memEvent hl hs').refsFit h.mem hy⟩
  all_goals
    cases y
    case trap c tf va => exact fun a _ hn => absurd hn (hy c tf va rfl)
    all_goals exact trivial

-- Except for stray interrupts, the kernel deals with every event.
include h in
theorem calm {m : K Unit} (hs : S.step y = some S') (hy : ¬Stray y) (hm : S.code y = some m) :
    wp m (fun _ _ => False) Rests S.kern := by
  obtain ⟨l, L, hl, -⟩ := h.mem
  have hlive : ∀ {c a}, S.mode c ≠ .stopped → S.kern.cur c = some a → (S.kern.envs a).status ≠ .free :=
    fun hc ha => h.inv.apart.live hc ha
  cases y
  all_goals simp only [System.step] at hs
  case start c =>
    cases hm
    exact (schedYield_calm hl.dir).never (schedYield_schedules hl.dir)
  case trap c tf va =>
    split at hs
    case isFalse => cases hs
    case isTrue hc =>
      cases hm
      obtain ⟨a, ha⟩ := h.inv.runs (c := c) (by simp [hc.1]) (by simp [hc.1]) (by simp [hc.1])
      have hla := hlive (by simp [hc.1]) ha
      exact (trap_calm hl h.kern ha hla hc.2.1).never (trap_traps hl.dir ha hla va hc.2.1)
  case wake c tf =>
    split at hs
    case isFalse => cases hs
    case isTrue hc =>
      cases hm
      have hx : tf.Expected := not_not.mp fun hx => hy ⟨c, tf, rfl, hx⟩
      exact (trap_wakes_calm hl.dir hc.2.1 hx).never (trap_wakes 0#32 hl.dir hc.2.1 hc.2.2.1 hc.2.2.2.1)
  case refault c tf =>
    split at hs
    case _ va hva =>
      split at hs
      case isFalse => cases hs
      case isTrue hc =>
        simp only [code, hva] at hm
        cases hm
        obtain ⟨a, ha⟩ := h.inv.runs (c := c) (by simp [hva]) (by simp [hva]) (by simp [hva])
        have hla := hlive (by simp [hva]) ha
        exact (trap_refaults_calm hl h.kern ha hla hc.1 hc.2.1).never (trap_refaults va hl.dir ha hla hc.1 hc.2.1)
    case _ => cases hs
  case store => cases hm

include h in
theorem panics_iff (hs : S.step y = some S') : S.Panics y ↔ Stray y := by
  constructor
  case mp =>
    rintro ⟨m, s, hm, hr⟩
    by_contra hy
    exact (wp_error (h.calm hs hy hm) hr).1 rfl
  case mpr =>
    rintro ⟨c, tf, rfl, hx⟩
    simp only [System.step] at hs
    split at hs
    case isFalse => cases hs
    case isTrue hc => exact ⟨_, _, rfl, trap_wakes_panics hc.2.1 hc.2.2.1 hc.2.2.2.1 hx⟩

end Sound

theorem step_enter {m : K Unit} (hs : S.step y = some S') (hm : S.code y = some m) : S' = S.enter y.cpu m := by
  cases y
  all_goals simp only [System.step] at hs
  case store => cases hm
  case refault c tf =>
    split at hs
    case _ va hva =>
      split at hs
      case isFalse => cases hs
      case isTrue =>
        simp only [code, hva] at hm
        cases hm
        exact (Option.some.inj hs).symm
    case _ => cases hs
  all_goals
    split at hs
    case isFalse => cases hs
    case isTrue =>
      cases hm
      exact (Option.some.inj hs).symm

-- A processor stops only in an idle state.
def Settled (S : System) : Prop :=
  ∀ c, S.mode c = .stopped → S.kern.Idle

theorem Settled.step (hS : S.Settled) (h : S.Sound M s₀) (hs : S.step y = some S') (hy : ¬Stray y) : S'.Settled := by
  intro c hc
  have hev := h.inv.healthy.event hs
  by_cases hcy : c = y.cpu
  case neg =>
    -- The other one has kept the lock.
    obtain ⟨-, hmode, hl⟩ := hev.others hcy
    rw [hmode] at hc
    have he : S'.kern.envs = S.kern.envs := hl.resolve_left fun hl => by
      rw [hc] at hl
      cases hl
    intro e
    rw [he]
    exact hS c hc e
  case pos =>
    cases hm : S.code y
    case none =>
      cases hev
      case store => exact hS c hc
      case refault va _ hva _ _ =>
        simp only [code, hva] at hm
        cases hm
      all_goals cases hm
    case some m =>
      obtain ⟨x, s, he, hx⟩ := enter_of_wp (c := y.cpu) (h.calm hs hy hm)
      rw [step_enter hs hm, he] at hc ⊢
      have hmode : x.mode = .stopped := by simpa [leave, hcy] using hc
      refine hx.2 ?_
      cases x
      case monitor => rfl
      case panic => exact absurd rfl hx.1
      all_goals cases hmode

theorem Booted.sound (hb : Booted M S₀) (hk : KernHalf s₀ S₀.kern) : S₀.Sound M s₀ :=
  ⟨hb.inv trivial, hb.mem, hk⟩

theorem Sound.reaches (h : S₀.Sound M s₀) (hr : Reaches Orderly S₀ S) : S.Sound M s₀ := by
  induction hr
  case refl => exact h
  case tail _ hs ih =>
    obtain ⟨y, hy, ho⟩ := hs
    exact ih.step hy ho

-- An orderly event which is no stray interrupt.
def Steady (S : System) (y : Action) : Prop :=
  S.Orderly y ∧ ¬Stray y

theorem Settled.reaches (h : S₀.Sound M s₀) (hS : S₀.Settled) (hr : Reaches Steady S₀ S) : S.Settled := by
  induction hr
  case refl => exact hS
  case tail hr hs ih =>
    obtain ⟨y, hy, ho⟩ := hs
    exact ih.step (h.reaches (Reaches.mono hr fun _ _ => And.left)) hy ho.2

end System

-- A key is pressed while the second processor has nothing to do.
theorem kernel_panics_on_key :
    ∃ S, soleSystem.run [.start 0, .start 1] = some S ∧ S.mode 0 = .user ∧
      S.Panics (.wake 1 { cs := gdKt, trapno := 33#32 }) := by
  have hr : (soleSystem.run [.start 0, .start 1]).map (fun S => (S.mode 0, S.mode 1)) = some (.user, .halted) := by
    decide +kernel
  obtain ⟨S, hS, hm⟩ := Option.map_eq_some_iff.mp hr
  simp only [Prod.mk.injEq] at hm
  refine ⟨S, hS, hm.1, _, _, rfl, trap_wakes_panics rfl (by decide) (by decide) ?_⟩
  rintro (h | h)
  all_goals exact absurd h (by decide)

end Jos
