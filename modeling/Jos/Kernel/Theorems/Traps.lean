import Jos.Kernel.Theorems.EnvCalls
import Jos.Kernel.Trap

-- What a trap does to environments and processors. No trap returns to its caller: it leaves the kernel.

open Function Program

namespace Jos

open Kernel

variable {s s' : Kernel} {c c' : CpuIx} {e e' a : EnvIx} {pd p pp : Ppn} {va w faultVa : Word} {t tf : Trapframe}
  {x : Exit} {k : Call} {r : Word}

namespace Kernel

def saveTf (s : Kernel) (e : EnvIx) (tf : Trapframe) : Kernel :=
  s.setEnv e fun v => { v with tf }

def started (s : Kernel) (c : CpuIx) : Kernel :=
  s.setCpu c fun i => { i with status := .started }

-- The result of the system call is written to the saved registers.
def answer (s : Kernel) (e : EnvIx) (ret : Word) : Kernel :=
  s.setEnv e fun v => { v with tf.regs.eax := ret }

-- How `page_fault_handler` leaves the kernel. It may have changed the saved registers.
inductive Handles (c : CpuIx) (a : EnvIx) (s : Kernel) : Exit → Kernel → Prop
  | reap {t : Trapframe} {x : Exit} {s' : Kernel} (h : Reaps c a (s.saveTf a t) x s') : Handles c a s x s'
  | fault {t : Trapframe} {va : Word} {s' : Kernel} (h : SameTable (s.saveTf a t) s') : Handles c a s (.fault va) s'
  | upcall {t : Trapframe} {s₁ : Kernel} {pd : Ppn} (h : SameTable (s.saveTf a t) s₁)
    (hd : (s.envs a).pgdir = some pd) : Handles c a s .user (s₁.runEnv c a pd)

-- How a trap from user mode, with the registers `tf`, leaves the kernel.
inductive Traps (c : CpuIx) (a : EnvIx) (tf : Trapframe) (s : Kernel) : Exit → Kernel → Prop
  | zombie {x : Exit} {s' : Kernel} (hs : (s.envs a).status = .dying) (h : Reaps c a s x s') : Traps c a tf s x s'
  | pgflt {x : Exit} {s' : Kernel} (hk : tf.trapno = tPgflt) (h : Handles c a (s.saveTf a tf) x s') :
    Traps c a tf s x s'
  | destroy {x : Exit} {s' : Kernel} (hk : tf.trapno ≠ tSyscall) (h : Reaps c a (s.saveTf a tf) x s') :
    Traps c a tf s x s'
  | sched {x : Exit} {s' : Kernel} (hk : tf.trapno ≠ tSyscall) (h : Schedules c (s.saveTf a tf) x s') :
    Traps c a tf s x s'
  | exit {x : Exit} {s' : Kernel} (hk : tf.trapno = tSyscall) (h : EnvExit c a tf.call (s.saveTf a tf) x s') :
    Traps c a tf s x s'
  | ret {r : Word} {s₁ : Kernel} {x : Exit} {s' : Kernel} (hk : tf.trapno = tSyscall)
    (h : Acts a tf.call (s.saveTf a tf) r s₁) (hs : Schedules c (s₁.answer a r) x s') : Traps c a tf s x s'

theorem saveTf_self : s.saveTf e (s.envs e).tf = s := by
  simp [saveTf, setEnv]

theorem SameTable.started : SameTable s (s.started c) := by
  refine ⟨rfl, rfl, rfl, ?_, fun c' => ?_⟩
  case refine_1 =>
    funext c'
    by_cases h : c' = c <;> simp [Kernel.cur, Kernel.started, setCpu, h]
  case refine_2 => by_cases h : c' = c <;> simp [Kernel.started, setCpu, h]

theorem SameTable.setMem {i : Ptx} : SameTable s (s.setMem p i w) :=
  ⟨rfl, rfl, rfl, rfl, fun _ => rfl⟩

end Kernel

theorem hasDirs_setEnv {f : Env → Env} (hd : s.HasDirs)
    (hf : (f (s.envs e)).status = .free ↔ (f (s.envs e)).pgdir = none) : (s.setEnv e f).HasDirs := by
  intro e'
  by_cases he : e' = e
  case pos => simpa [setEnv, he] using hf
  case neg => simpa [setEnv, he] using hd

theorem hasDirs_saveTf (hd : s.HasDirs) : (s.saveTf e tf).HasDirs :=
  hasDirs_setEnv hd (hd (e := e))

section Handler

theorem storeByte_table {b : BitVec 8} :
    wp (storeByte c va b) (fun _ => SameTable s) (fun x s' => (∃ va, x = .fault va) ∧ SameTable s s') s := by
  simp only [storeByte, wp_bind_get]
  split
  case _ => exact ⟨⟨va, rfl⟩, .refl s⟩
  case _ => exact SameTable.setMem

theorem keepsOr_storeByte {b : BitVec 8} : KeepsOr SameTable (fun x => ∃ va, x = .fault va) (storeByte c va b) :=
  fun _ => storeByte_table

theorem keepsOr_storeWord : KeepsOr SameTable (fun x => ∃ va, x = .fault va) (storeWord c va w) := by
  refine KeepsOr.get.bind fun s => ?_
  dsimp only
  split
  case isTrue => exact KeepsOr.forM fun _ => keepsOr_storeByte
  case isFalse => exact .throw ⟨va, rfl⟩

variable (hd : s.HasDirs) (ha : s.cur c = some a) (hl : (s.envs a).status ≠ .free)

-- What a write through the pointer does to the current environment.
theorem TfPtr.write_run {ptr : TfPtr} {f : Trapframe → Trapframe} (hp : ptr = .env a ∨ ptr = .stack) :
    ∃ t, (ptr.write f).run s = .ok () (s.saveTf a t) := by
  obtain rfl | rfl := hp
  case inl => exact ⟨f (s.envs a).tf, rfl⟩
  case inr => exact ⟨(s.envs a).tf, by rw [saveTf_self]; rfl⟩

include hd ha hl in
theorem pageFaultHandler_handles (tf : Trapframe) (faultVa : Word) {ptr : TfPtr} (hp : ptr = .env a ∨ ptr = .stack) :
    wp (pageFaultHandler c ptr tf faultVa) (fun _ _ => False) (Handles c a s) s := by
  have hr : ∀ {x s'}, Reaps c a s x s' → Handles c a s x s' := by
    intro x s' h
    refine .reap (t := (s.envs a).tf) ?_
    rwa [saveTf_self]
  rw [pageFaultHandler, wp_bind_of_ok (curenv_run ha)]
  simp only [wp_bind_get]
  split
  case isTrue =>
    exact wp_seq (wp_mono (envDestroy_self hd ha hl (.refl s)) (fun _ _ => False.elim) fun _ _ => hr) fun _ _ =>
      False.elim
  case isFalse =>
    obtain ⟨t, ht⟩ := TfPtr.write_run (s := s) (f := fun t => { t with esp := upcallEsp tf.esp }) hp
    rw [wp_bind_of_ok ht]
    have hd₁ : (s.saveTf a t).HasDirs := hasDirs_saveTf hd
    have hl₁ : ((s.saveTf a t).envs a).status ≠ .free := by simpa [saveTf, setEnv] using hl
    refine wp_seq (wp_mono (userMemAssert_table hd₁ ha hl₁ (.refl _)) (fun _ _ => id) fun _ _ => .reap)
      fun _ s₂ h₂ => ?_
    have hst : KeepsOr SameTable (fun x => ∃ va, x = .fault va) ((utrapframe tf faultVa).forM fun q =>
        storeWord c (upcallEsp tf.esp + q.1) q.2) := KeepsOr.forM fun _ => keepsOr_storeWord
    refine wp_seq (wp_mono (hst s₂) (fun _ _ => h₂.trans) ?_) fun _ s₃ h₃ => ?_
    case refine_1 =>
      rintro x s' ⟨⟨va, rfl⟩, h⟩
      exact .fault (h₂.trans h)
    case refine_2 =>
      simp only [wp_bind_get]
      obtain ⟨t', ht'⟩ := TfPtr.write_run (s := s₃)
        (f := fun t => { t with eip := (s₃.envs a).pgfaultUpcall }) hp
      rw [wp_bind_of_ok ht']
      obtain ⟨pd, hpd⟩ := HasDirs.some_of_live hd hl
      have h₄ : SameTable (s.saveTf a t') (s₃.saveTf a t') := by
        have := h₃.setEnv (e := a) (f := fun v => { v with tf := t' })
        simpa only [saveTf, setEnv, update_self, update_idem] using this
      have hpd' : ((s₃.saveTf a t').envs a).pgdir = some pd := by
        rw [h₄.envs]
        simpa [saveTf, setEnv] using hpd
      exact wp_of_error (envRun_run hpd') (.upcall h₄ hpd)

end Handler

theorem trapReturn_schedules (hd : s.HasDirs) :
    wp (trapReturn c) (fun _ _ => False) (Schedules c s) s := by
  simp only [trapReturn, wp_bind_get]
  split
  case _ => exact schedYield_schedules hd
  case _ e he =>
    split
    case isTrue hr =>
      obtain ⟨pd, hp⟩ := HasDirs.some_of_live hd (e := e) (by simp [hr])
      exact wp_of_error (envRun_run hp) (.resume he hr hp)
    case isFalse => exact schedYield_schedules hd

theorem hasDirs_retable (hd : s.HasDirs) (hl : (s.envs e).status ≠ .free) {f : Env → Env}
    (hp : (f (s.envs e)).pgdir = (s.envs e).pgdir) (hs : (f (s.envs e)).status ≠ .free) :
    (s.setEnv e f).HasDirs := by
  refine hasDirs_setEnv hd ?_
  rw [hp]
  exact iff_of_false hs (mt hd.mpr hl)

theorem Kernel.EnvAct.hasDirs (h : EnvAct a k s r s') (hd : s.HasDirs) (hl : (s.envs a).status ≠ .free) :
    s'.HasDirs := by
  cases h
  case skip => exact hd
  case fork e p _ _ _ =>
    intro e'
    by_cases he : e' = e
    case pos => simp [forkSlot, setEnv, freshEnv, he]
    case neg => simpa [forkSlot, setEnv, he] using hd
  case status e st _ he hst =>
    refine hasDirs_retable hd (findEnv_live hl he) rfl ?_
    rintro rfl
    simp only [settableStatus] at hst
    split at hst
    case isTrue => cases hst
    case isFalse => split at hst <;> cases hst
  case upcall e _ he => exact hasDirs_retable hd (findEnv_live hl he) rfl (findEnv_live hl he)
  case send e _ _ he _ _ => exact hasDirs_retable hd (findEnv_live hl he) rfl (by simp)
  case doom e _ he _ _ => exact hasDirs_retable hd (findEnv_live hl he) rfl (by simp)
  case free => exact hasDirs_retire hd

theorem Kernel.Acts.hasDirs (h : Acts a k s r s') (hd : s.HasDirs) (hl : (s.envs a).status ≠ .free) :
    s'.HasDirs := by
  obtain ⟨s₁, h₁, hs⟩ := h
  exact hs.hasDirs (h₁.hasDirs hd hl)

section Trap

variable (hd : s.HasDirs) (ha : s.cur c = some a) (hl : (s.envs a).status ≠ .free)

-- The garbage collection at the start of `trap`.
include hd ha hl in
theorem zombie_reaps :
    wp (do envFree c a; modify (·.setCpu c fun i => { i with env := none }); schedYield c : K Unit)
      (fun _ _ => False) (Reaps c a s) s := by
  obtain ⟨pd, hp⟩ := HasDirs.some_of_live hd hl
  refine wp_seq (wp_mono (envFree_table hp) (fun _ _ => id) ?_) fun _ s₁ h₁ => ?_
  case refine_1 =>
    rintro x s' ⟨rfl, h⟩
    exact .panic h
  case refine_2 =>
    have h₂ := sameTable_reap ha h₁
    simp only [wp_bind_modify]
    exact wp_mono (schedYield_schedules (h₂.hasDirs (hasDirs_reap hd))) (fun _ _ => False.elim) fun _ _ => .sched h₂

-- The part of `trap` that follows the saving of the registers.
include hd ha hl in
theorem trapDispatch_traps (hu : tf.cs ≠ gdKt) :
    wp (do trapDispatch c (.env a) tf faultVa; trapReturn c) (fun _ _ => False) (Traps c a tf s) (s.saveTf a tf) := by
  have hd₁ : (s.saveTf a tf).HasDirs := hasDirs_saveTf hd
  have ha₁ : (s.saveTf a tf).cur c = some a := ha
  have hl₁ : ((s.saveTf a tf).envs a).status ≠ .free := by simpa [saveTf, setEnv] using hl
  have hret : tf.trapno ≠ tSyscall → wp (trapReturn c) (fun _ _ => False) (Traps c a tf s) (s.saveTf a tf) :=
    fun hk => wp_mono (trapReturn_schedules hd₁) (fun _ _ => False.elim) fun _ _ => .sched hk
  simp only [trapDispatch]
  split
  case isTrue hk => exact hret (by rw [hk]; decide)
  case isFalse =>
    split
    case isTrue hk => exact hret (by rw [hk]; decide)
    case isFalse =>
      split
      case isTrue hk =>
        exact wp_seq (wp_mono (pageFaultHandler_handles hd₁ ha₁ hl₁ tf faultVa (.inl rfl)) (fun _ _ => False.elim)
          fun _ _ => .pgflt hk) fun _ _ => False.elim
      case isFalse =>
        split
        case isTrue hk =>
          rw [bind_assoc]
          refine wp_seq (wp_mono (syscall_acts (k := tf.call) hd₁ ha₁ hl₁) (fun _ _ => id) fun _ _ => .exit hk)
            fun r s₁ h₁ => ?_
          have hd₂ : (s₁.answer a r).HasDirs := hasDirs_setEnv (h₁.hasDirs hd₁ hl₁) (h₁.hasDirs hd₁ hl₁ (e := a))
          exact wp_bind_modify.mpr <|
            wp_mono (trapReturn_schedules hd₂) (fun _ _ => False.elim) fun _ _ => .ret hk h₁
        case isFalse hk =>
          split
          case isTrue =>
            exact wp_seq (wp_mono (schedYield_schedules hd₁) (fun _ _ => False.elim) fun _ _ => .sched hk)
              fun _ _ => False.elim
          case isFalse =>
            rw [bind_assoc, wp_bind_of_ok (curenv_run ha₁)]
            exact wp_seq (wp_mono (envDestroy_self hd₁ ha₁ hl₁ (.refl _)) (fun _ _ => False.elim)
              fun _ _ => .destroy hk) fun _ _ => False.elim

-- A trap from user mode.
include hd ha hl in
theorem trap_traps (faultVa : Word) (hu : tf.cs &&& 3#16 = 3#16) :
    wp (trap c tf faultVa) (fun _ _ => False) (Traps c a tf (s.started c)) s := by
  have hs : SameTable s (s.started c) := .started
  have ha₁ : (s.started c).cur c = some a := by rw [hs.cur, ha]
  have hd₁ : (s.started c).HasDirs := hs.hasDirs hd
  have ha₂ : (s.setCpu c fun i => { i with status := .started }).cur c = some a := ha₁
  simp only [trap, wp_bind_modify, if_pos hu, wp_bind_get, ha₂]
  split
  case isTrue hz => exact wp_mono (zombie_reaps hd₁ ha₁ hl) (fun _ _ => False.elim) fun _ _ => .zombie hz
  case isFalse =>
    have hg : tf.cs ≠ gdKt := by
      intro h
      rw [h] at hu
      exact absurd hu (by decide)
    exact trapDispatch_traps hd₁ ha₁ hl hg

end Trap

-- An interrupt of a halted processor.
theorem trap_wakes (faultVa : Word) (hd : s.HasDirs) (hu : tf.cs = gdKt) (hk : 32#32 ≤ tf.trapno) (hk' : tf.trapno ≠ tSyscall) :
    wp (trap c tf faultVa) (fun _ _ => False)
      (fun x s' => (x = .panic ∧ s' = s.started c) ∨ Schedules c (s.started c) x s') s := by
  have hd₁ : (s.started c).HasDirs := SameTable.started.hasDirs hd
  have hret : wp (trapReturn c) (fun _ _ => False)
      (fun x s' => (x = .panic ∧ s' = s.started c) ∨ Schedules c (s.started c) x s') (s.started c) :=
    wp_mono (trapReturn_schedules hd₁) (fun _ _ => id) fun _ _ => .inr
  have hb : tf.trapno ≠ tBrkpt := by
    intro h
    rw [h] at hk
    exact absurd hk (by decide)
  have hp : tf.trapno ≠ tPgflt := by
    intro h
    rw [h] at hk
    exact absurd hk (by decide)
  simp only [trap, wp_bind_modify, trapDispatch, hu, if_neg hb, if_neg hp, if_neg hk']
  rw [if_neg (by decide)]
  split
  case isTrue => exact hret
  case isFalse =>
    split
    case isTrue =>
      exact wp_seq (wp_mono (schedYield_schedules hd₁) (fun _ _ => id) fun _ _ => .inr) fun _ _ => False.elim
    case isFalse => exact .inl ⟨rfl, rfl⟩

-- The page fault which the kernel itself has taken is handled as if the current environment had caused it.
theorem trap_refaults (faultVa : Word) (hd : s.HasDirs) (ha : s.cur c = some a) (hl : (s.envs a).status ≠ .free)
    (hu : tf.cs = gdKt) (hk : tf.trapno = tPgflt) :
    wp (trap c tf faultVa) (fun _ _ => False) (Handles c a (s.started c)) s := by
  have hs : SameTable s (s.started c) := .started
  have ha₁ : (s.started c).cur c = some a := by rw [hs.cur, ha]
  simp only [trap, wp_bind_modify, trapDispatch, hu, hk]
  rw [if_neg (by decide), if_neg (by decide), if_neg (by decide), if_pos trivial]
  exact wp_seq (pageFaultHandler_handles (hs.hasDirs hd) ha₁ hl tf faultVa (.inr rfl)) fun _ _ => False.elim

end Jos
