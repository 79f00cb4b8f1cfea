import Jos.Kernel.Theorems.UserMem

-- When page faults are delivered to the environment that has caused them.

open Function Program

namespace Jos

open Kernel

variable {M : Set Ppn} {l : List Ppn} {s s' s₀ : Kernel} {c : CpuIx} {a : EnvIx} {pd t : Ppn} {x : Exit}
  {va upper perm faultVa : Word} {tf : Trapframe} {ptr : TfPtr}

-- The trap was taken in user mode.
def Trapframe.User (tf : Trapframe) : Prop :=
  tf.cs &&& 3#16 = 3#16

instance : DecidablePred Trapframe.User :=
  fun _ => inferInstanceAs (Decidable (_ = _))

namespace Kernel

-- Every byte from `esp` up to `UXSTACKTOP` is present, accessible for the user and writable in `pd`.
def StackOk (s : Kernel) (pd : Ppn) (esp : Word) : Prop :=
  ∀ va, esp ≤ va → va < uxstacktop → (s.translate pd va ⟨true, true⟩).isSome

-- What has to be the case for the fault with the registers `tf` to be delivered to `a`.
structure Deliverable (a : EnvIx) (tf : Trapframe) (s : Kernel) : Prop where
  user   : tf.User
  upcall : (s.envs a).pgfaultUpcall ≠ 0#32
  stack  : ∃ pd, s.pgdirOf a = some pd ∧ s.StackOk pd (upcallEsp tf.esp)

-- The environment `a` goes on at its upcall, on the exception stack.
structure Redirected (c : CpuIx) (a : EnvIx) (tf : Trapframe) (s s' : Kernel) : Prop where
  cur    : s'.cur c = some a
  status : (s'.envs a).status = .running
  eip    : (s'.envs a).tf.eip = (s.envs a).pgfaultUpcall
  esp    : (s'.envs a).tf.esp = upcallEsp tf.esp

-- The environment `a` is gone, and no page other than page tables has been written.
structure Destroyed (a : EnvIx) (s s' : Kernel) : Prop where
  status : (s'.envs a).status = .free
  mem    : ∀ q, ¬s.Table q → s'.mem q = s.mem q

-- The page fault with the registers `tf` is treated as it should be.
structure FaultOk (c : CpuIx) (tf : Trapframe) (faultVa : Word) (s : Kernel) : Prop where
  only      : ∀ a s', s.cur c = some a → (trap c tf faultVa).run s = .error .user s' → Redirected c a tf s s' →
    s.Deliverable a tf
  destroyed : ∀ a, s.cur c = some a → tf.User → ¬s.Deliverable a tf →
    ∃ x s', (trap c tf faultVa).run s = .error x s' ∧ Destroyed a s s'
  kernel    : ¬tf.User → ∃ s', (trap c tf faultVa).run s = .error .panic s' ∧ s'.envs = s.envs

theorem Destroyed.of_sameMem (h₀ : SameMem s₀ s) (h : Destroyed a s s') : Destroyed a s₀ s' where
  status := h.status
  mem q hq := by
    have ht : ¬s.Table q := by
      simpa only [Table, h₀.pgdirOf, h₀.target, h₀.alloc.kernPgdir] using hq
    rw [h.mem q ht, h₀.mem]

end Kernel

-- Once the current environment is gone, the scheduler takes over. It does not panic.
theorem unset_scheduled (hd : s.HasDirs) :
    wp (do modify (·.setCpu c fun i => { i with env := none }); schedYield c : K Unit) (fun _ _ => False)
      (fun x s' => x ≠ .panic ∧ SameMem s s') s := by
  have hd' : (s.setCpu c fun i => { i with env := none }).HasDirs := hd
  simp only [wp_bind_modify]
  refine wp_mono (wp_and (schedYield_schedules hd') (keeps_schedYield _)) (fun _ _ h => h.1.elim) ?_
  rintro x s' ⟨hx, hs⟩
  exact ⟨by cases hx <;> decide, SameMem.setCpu.trans hs⟩

theorem cur_of_cpus (h : { s'.cpus c with tlb := [] } = { s.cpus c with tlb := [] }) : s'.cur c = s.cur c := by
  have := congrArg CpuInfo.env h
  exact this

section

variable (h : PageInv M ∅ l s) (ha : s.cur c = some a) (hl : (s.envs a).status ≠ .free)

include h in
theorem destroyed_freeEnv (hd : s.pgdirOf a = some pd) (hs : SameMem (s.freeEnv c a pd) s') : Destroyed a s s' where
  status := by
    rw [hs.live, h.envs_freeEnv hd, update_self]
  mem q hq := by rw [hs.mem, h.mem_freeEnv hd hq]

include h ha in
theorem cur_freeEnv (hd : s.pgdirOf a = some pd) : (s.freeEnv c a pd).cur c = some a := by
  rw [cur_of_cpus (h.cpus_freeEnv (c := c) hd c), cur_leave, ha]

-- The garbage collection in `trap`.
include h in
theorem envFree_destroyed (hd : s.pgdirOf a = some pd) :
    wp (do envFree c a; modify (·.setCpu c fun i => { i with env := none }); schedYield c : K Unit)
      (fun _ _ => False) (fun x s' => x ≠ .panic ∧ Destroyed a s s') s := by
  obtain ⟨l', h'⟩ := h.freeEnv (c := c) hd
  rw [wp_bind_of_ok (h.envFree_run hd)]
  exact wp_mono (unset_scheduled h'.dir) (fun _ _ => id) fun _ _ hx => ⟨hx.1, destroyed_freeEnv h hd hx.2⟩

include h ha hl in
theorem envDestroy_destroyed :
    wp (envDestroy c a) (fun _ _ => False) (fun x s' => x ≠ .panic ∧ Destroyed a s s') s := by
  obtain ⟨pd, hd⟩ := h.pgdirOf_live hl
  obtain ⟨l', h'⟩ := h.freeEnv (c := c) hd
  simp only [envDestroy, wp_bind_get]
  rw [if_neg fun hn => hn.2 ha, wp_bind_of_ok (h.envFree_run hd), wp_bind_get, if_pos (cur_freeEnv h ha hd)]
  exact wp_mono (unset_scheduled h'.dir) (fun _ _ => id) fun _ _ hx => ⟨hx.1, destroyed_freeEnv h hd hx.2⟩

-- The check of the range up to `upper` passes, or the environment is destroyed.
include h ha hl in
theorem userMemAssert_destroyed (hd : s.pgdirOf a = some pd) (hu : upper.toNat % 4096 = 0) (hlt : va < upper)
    (hut : upper ≤ utop) :
    wp (userMemAssert c a va (upper - va) perm)
      (fun _ s' => UpToAddr s s' ∧ s.GrantsAll pd va upper (perm ||| pteU))
      (fun x s' => x ≠ .panic ∧ ¬s.GrantsAll pd va upper (perm ||| pteU) ∧ Destroyed a s s') s := by
  have hb : ∀ i t, i.val < pdxUtop → s.table pd i = some t → t.toNat < s.npages :=
    fun i t hi ht => h.table_bound hd hi ht
  rw [userMemAssert, wp_bind_of_ok (envPgdir_run hd)]
  refine wp_seq (wp_mono (userMemCheck_wp hb hu hlt hut) (fun _ _ => id) fun _ _ => False.elim) fun r s₁ h₁ => ?_
  obtain ⟨hs, hr⟩ := h₁
  split
  case isFalse hn => exact ⟨hs, hr.mp (by simpa using hn)⟩
  case isTrue hn =>
    have hng : ¬s.GrantsAll pd va upper (perm ||| pteU) := fun hg => by
      rw [hr.mpr hg] at hn
      cases hn
    have ha₁ : s₁.cur c = some a := by
      obtain ⟨y, rfl⟩ := hs
      exact ha
    refine wp_mono (envDestroy_destroyed (hs.sameMem.pageInv h) ha₁ (mt (hs.sameMem.live a).mp hl))
      (fun _ _ => False.elim) fun x s' hx => ⟨hx.1, hng, hx.2.of_sameMem hs.sameMem⟩

theorem upcallEsp_lt {esp : Word} : upcallEsp esp < uxstacktop := by
  have hu : uxstacktop = 0xEEC00000#32 := by decide
  have hp : pgsize = 0x1000#32 := by decide
  rw [upcallEsp, hu, hp]
  split <;> bv_omega

-- The permissions which `page_fault_handler` asks for.
def stackPerm : Word := pteW ||| pteU ||| pteU

-- Without an upcall, or if the check of the exception stack fails, the environment is destroyed. Otherwise
-- it still exists in the end, even if the kernel has faulted while it wrote the frame.
variable (faultVa tf ptr) in
include h ha hl in
theorem pageFaultHandler_destroyed (hd : s.pgdirOf a = some pd) (hp : ptr = .env a ∨ ptr = .stack) :
    wp (pageFaultHandler c ptr tf faultVa) (fun _ _ => False)
      (fun x s' => x ≠ .panic ∧
        (((s.envs a).pgfaultUpcall = 0#32 ∨ ¬s.GrantsAll pd (upcallEsp tf.esp) uxstacktop stackPerm) ∧
          Destroyed a s s' ∨
        ((s.envs a).pgfaultUpcall ≠ 0#32 ∧ s.GrantsAll pd (upcallEsp tf.esp) uxstacktop stackPerm) ∧
          (s'.envs a).status ≠ .free)) s := by
  rw [pageFaultHandler, wp_bind_of_ok (curenv_run ha)]
  simp only [wp_bind_get]
  split
  case isTrue hz =>
    exact wp_seq (wp_mono (envDestroy_destroyed h ha hl) (fun _ _ => False.elim)
      fun _ _ hx => ⟨hx.1, .inl ⟨.inl hz, hx.2⟩⟩) fun _ _ => False.elim
  case isFalse hnz =>
    obtain ⟨t, ht⟩ := TfPtr.write_run (s := s) (f := fun t => { t with esp := upcallEsp tf.esp }) hp
    rw [wp_bind_of_ok ht]
    have hs : SameMem s (s.saveTf a t) := sameMem_saveTf
    have hl₁ : ((s.saveTf a t).envs a).status ≠ .free := mt (hs.live a).mp hl
    have hd₁ : (s.saveTf a t).pgdirOf a = some pd := hs.pgdirOf ▸ hd
    refine wp_seq (wp_mono (userMemAssert_destroyed (hs.pageInv h) ha hl₁ hd₁ (by decide) upcallEsp_lt (by decide))
      (fun _ _ => id) fun x s' hx => ⟨hx.1, .inl ⟨.inr hx.2.1, hx.2.2.of_sameMem hs⟩⟩) fun _ s₂ h₂ => ?_
    have hg : s.GrantsAll pd (upcallEsp tf.esp) uxstacktop stackPerm := h₂.2
    have ht₂ : SameTable (s.saveTf a t) s₂ := .of_addr h₂.1
    have hst : KeepsOr SameTable (fun x => ∃ va, x = .fault va) ((utrapframe tf faultVa).forM fun q =>
        storeWord c (upcallEsp tf.esp + q.1) q.2) := KeepsOr.forM fun _ => keepsOr_storeWord
    refine wp_seq (wp_mono (hst s₂) (fun _ _ => ht₂.trans) ?_) fun _ s₃ h₃ => ?_
    case refine_1 =>
      rintro x s' ⟨⟨va, rfl⟩, hx⟩
      refine ⟨by simp, .inr ⟨⟨hnz, hg⟩, ?_⟩⟩
      rw [(ht₂.trans hx).envs]
      exact hl₁
    case refine_2 =>
      simp only [wp_bind_get]
      obtain ⟨t', ht'⟩ := TfPtr.write_run (s := s₃) (f := fun t => { t with eip := (s₃.envs a).pgfaultUpcall }) hp
      rw [wp_bind_of_ok ht']
      have hpd : ((s₃.saveTf a t').envs a).pgdir = some pd := by
        simpa [saveTf, setEnv, h₃.envs] using pgdirOf_pgdir hd
      refine wp_of_error (envRun_run hpd) ⟨by decide, .inr ⟨⟨hnz, hg⟩, ?_⟩⟩
      simp [runEnv, setEnv]

end

section

variable (h : MemInv M s)

theorem Kernel.SameMem.grantsAll (hs : SameMem s s') : s'.GrantsAll pd va upper perm ↔ s.GrantsAll pd va upper perm := by
  simp only [GrantsAll, grants, entry, table, hs.mem]

-- The environment has no upcall, or its exception stack fails the test.
def Kernel.Refused (s : Kernel) (a : EnvIx) (pd : Ppn) (tf : Trapframe) : Prop :=
  (s.envs a).status = .dying ∨ (s.envs a).pgfaultUpcall = 0#32 ∨
    ¬s.GrantsAll pd (upcallEsp tf.esp) uxstacktop stackPerm

-- A page fault in user mode.
include h in
theorem trap_fault_user (ha : s.cur c = some a) (hd : s.pgdirOf a = some pd) (hu : tf.User) (hk : tf.trapno = tPgflt) :
    wp (trap c tf faultVa) (fun _ _ => False)
      (fun _ s' => (s.Refused a pd tf ∧ Destroyed a s s') ∨ (¬s.Refused a pd tf ∧ (s'.envs a).status ≠ .free)) s := by
  obtain ⟨l, L, h, -⟩ := h
  have hs : SameMem s (s.started c) := .setCpu
  have hl : (s.envs a).status ≠ .free := fun hf => by
    rw [pgdirOf_free hf] at hd
    cases hd
  have ha₁ : (s.setCpu c fun i => { i with status := .started }).cur c = some a := by
    rw [← ha]
    exact congrFun SameTable.started.cur c
  have hd₁ : (s.started c).pgdirOf a = some pd := hs.pgdirOf ▸ hd
  simp only [trap, wp_bind_modify, if_pos (show tf.cs &&& 3#16 = 3#16 from hu), wp_bind_get, ha₁]
  split
  case isTrue hz =>
    exact wp_mono (envFree_destroyed (hs.pageInv h) hd₁) (fun _ _ => id)
      fun _ _ hx => .inl ⟨.inl hz, hx.2.of_sameMem hs⟩
  case isFalse hz =>
    have hs₁ : SameMem s ((s.started c).saveTf a tf) := hs.trans sameMem_saveTf
    have hup : (((s.started c).saveTf a tf).envs a).pgfaultUpcall = (s.envs a).pgfaultUpcall := by
      simp [saveTf, started, setEnv, setCpu]
    have hw := pageFaultHandler_destroyed faultVa tf (.env a) (hs₁.pageInv h) ha₁
      (mt (hs₁.live a).mp hl) (hs₁.pgdirOf ▸ hd) (.inl rfl)
    rw [hup, hs₁.grantsAll] at hw
    simp only [wp_bind_modify, trapDispatch, hk]
    rw [if_neg (by decide), if_neg (by decide), if_pos trivial]
    refine wp_seq (wp_mono hw (fun _ _ => id) ?_) fun _ _ => False.elim
    rintro x s' ⟨-, ⟨hr, hx⟩ | ⟨hr, hx⟩⟩
    case inl => exact .inl ⟨.inr hr, hx.of_sameMem hs₁⟩
    case inr =>
      refine .inr ⟨?_, hx⟩
      rintro (hd | hz | hg)
      case inl => exact hz hd
      case inr.inl => exact hr.1 hz
      case inr.inr => exact hg hr.2

-- A page fault in the kernel does not make it panic.
include h in
theorem trap_fault_kernel (hl : ∀ a, s.cur c = some a → (s.envs a).status ≠ .free) (hu : ¬tf.User)
    (hk : tf.trapno = tPgflt) : wp (trap c tf faultVa) (fun _ _ => False) (fun x _ => x ≠ .panic) s := by
  obtain ⟨l, L, h, -⟩ := h
  have hs : SameMem s (s.started c) := .setCpu
  have hcur : (s.started c).cur c = s.cur c := congrFun SameTable.started.cur c
  simp only [trap, wp_bind_modify, if_neg (show ¬tf.cs &&& 3#16 = 3#16 from hu), trapDispatch, hk]
  rw [if_neg (by decide), if_neg (by decide), if_pos trivial]
  cases ha : s.cur c
  case none =>
    -- The kernel dereferences `curenv`.
    have hr : (curenv c).run (s.started c) = .error (.fault 0#32) (s.started c) := by
      simp [curenv, hcur, ha]
    have hp : wp (pageFaultHandler c .stack tf faultVa) (fun _ _ => False) (fun x _ => x ≠ .panic) (s.started c) := by
      rw [pageFaultHandler, wp_bind_of_error hr]
      simp
    exact wp_seq hp fun _ _ => False.elim
  case some a =>
    obtain ⟨pd, hd⟩ := h.pgdirOf_live (hl a ha)
    have hw := pageFaultHandler_destroyed faultVa tf .stack (hs.pageInv h) (hcur.trans ha)
      (mt (hs.live a).mp (hl a ha)) (hs.pgdirOf ▸ hd) (.inr rfl)
    exact wp_seq (wp_mono hw (fun _ _ => id) fun _ _ hx => hx.1) fun _ _ => False.elim

theorem MemInv.pgdirOf_live (h : MemInv M s) (hl : (s.envs a).status ≠ .free) : ∃ pd, s.pgdirOf a = some pd := by
  obtain ⟨l, L, hi, -⟩ := h
  exact hi.pgdirOf_live hl

theorem exits_of_wp {m : K Unit} {E : Exit → Kernel → Prop} (h : wp m (fun _ _ => False) E s) :
    ∃ x s', m.run s = .error x s' ∧ E x s' := by
  simp only [wp] at h
  split at h
  case _ => exact h.elim
  case _ x s' hr => exact ⟨x, s', hr, h⟩

-- A page fault is treated as it should be if and only if it was taken in user mode, and the test of the exception
-- stack is right about it: the environment has no upcall or is about to die, or no bit of the permissions is set in
-- the entry of some page, or all pages may be written by the user.
include h in
theorem page_fault_legitimate (hl : ∀ a, s.cur c = some a → (s.envs a).status ≠ .free) (hk : tf.trapno = tPgflt) :
    s.FaultOk c tf faultVa ↔ tf.User ∧ ∀ a pd, s.cur c = some a → s.pgdirOf a = some pd →
      s.Refused a pd tf ∨ s.StackOk pd (upcallEsp tf.esp) := by
  constructor
  case mp =>
    intro hf
    have hu : tf.User := by
      by_contra hu
      obtain ⟨s', hr, -⟩ := hf.kernel hu
      exact wp_error (trap_fault_kernel h hl hu hk) hr rfl
    refine ⟨hu, fun a pd ha hd => or_iff_not_imp_left.mpr fun hr => ?_⟩
    -- The environment survives, so that it must have been allowed to.
    by_contra hn
    have hnd : ¬s.Deliverable a tf := by
      rintro ⟨-, -, pd', hd', hst⟩
      rw [hd] at hd'
      cases hd'
      exact hn hst
    obtain ⟨x, s', hrun, hx⟩ := hf.destroyed a ha hu hnd
    obtain hw | hw := wp_error (trap_fault_user h ha hd hu hk) hrun
    case inl => exact hr hw.1
    case inr => exact hw.2 hx.status
  case mpr =>
    rintro ⟨hu, hc⟩
    refine ⟨fun a s' ha hr hx => ?_, fun a ha _ hn => ?_, fun hn => absurd hu hn⟩
    all_goals
      obtain ⟨pd, hd⟩ := h.pgdirOf_live (hl a ha)
      have hdel : ¬s.Refused a pd tf → s.Deliverable a tf := fun hr =>
        ⟨hu, fun hz => hr (.inr (.inl hz)), pd, hd, (hc a pd ha hd).resolve_left hr⟩
    case refine_1 =>
      obtain hw | hw := wp_error (trap_fault_user h ha hd hu hk) hr
      case inl =>
        have hs := hx.status
        rw [hw.2.status] at hs
        cases hs
      case inr => exact hdel hw.1
    case refine_2 =>
      obtain ⟨x, s', hrun, hw | hw⟩ := exits_of_wp (trap_fault_user h ha hd hu hk)
      case inl => exact ⟨x, s', hrun, hw.2⟩
      case inr => exact absurd (hdel hw.1) hn

end

-- The first environment faults before it has installed an upcall.
theorem page_fault_legitimate_no_upcall :
    (soleEnv 8).FaultOk 0 { trapno := tPgflt, cs := gdUt ||| 3#16, esp := ustacktop } 0#32 := by
  refine (page_fault_legitimate (soleEnv_inv (by decide) (by decide)) ?_ rfl).mpr ⟨by decide, ?_⟩
  case refine_1 =>
    intro a ha
    cases ha
    decide +kernel
  case refine_2 =>
    intro a pd ha _
    cases ha
    exact .inl (.inr (.inl (by decide +kernel)))

-- The exception stack is mapped read-only. The kernel faults when it writes the frame, and the environment is
-- not destroyed.
theorem page_fault_readonly_stack :
    ∃ S, soleSystem.run [.start 0, .trap 0 (Call.frame ⟨4, 0, uxstacktop - pgsize, 5, 0, 0⟩) 0,
        .call 0 9 0 0x800020] = some S ∧
      ¬S.kern.FaultOk 0 { trapno := tPgflt, cs := gdUt ||| 3#16, esp := ustacktop } 0#32 := by
  have hr : (soleSystem.run [.start 0, .trap 0 (Call.frame ⟨4, 0, uxstacktop - pgsize, 5, 0, 0⟩) 0,
      .call 0 9 0 0x800020]).map (fun S => (S.kern.cur 0, (S.kern.pgdirOf 0).bind fun pd =>
        S.kern.translate pd (uxstacktop - 4#32) ⟨true, true⟩,
        ((final (trap 0 { trapno := tPgflt, cs := gdUt ||| 3#16, esp := ustacktop } 0#32) S.kern).envs 0).status)) =
      some (some 0, none, .running) := by decide +kernel
  obtain ⟨S, hS, hv⟩ := Option.map_eq_some_iff.mp hr
  simp only [Prod.mk.injEq] at hv
  obtain ⟨hc, ht, hf⟩ := hv
  refine ⟨S, hS, fun hok => ?_⟩
  have hn : ¬S.kern.Deliverable 0 { trapno := tPgflt, cs := gdUt ||| 3#16, esp := ustacktop } := by
    rintro ⟨-, -, pd, hd, hst⟩
    have hb := hst (uxstacktop - 4#32) (by decide) (by decide)
    rw [hd, Option.bind_some] at ht
    rw [ht] at hb
    cases hb
  obtain ⟨x, s', hrun, hx⟩ := hok.destroyed 0 hc (by decide) hn
  have hs := hx.status
  rw [← final_of_error hrun, hf] at hs
  cases hs

end Jos
