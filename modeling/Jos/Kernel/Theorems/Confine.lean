import Jos.Kernel.Theorems.EnvCalls
import Jos.Kernel.Theorems.Blank

-- A system call reaches no further than the authority of its caller.

open Function Program

namespace Jos

open Kernel

variable {M : Set Ppn} {l : List Ppn} {s s' : Kernel} {c : CpuIx} {a b e : EnvIx} {i j : Ptx} {p q : Ppn}
  {k : Call} {x : Exit} {r : Word}

namespace Env

-- Apart from the scheduler's bookkeeping, the environments are the same.
structure SameButSched (v v' : Env) : Prop where
  fields : v' = { v with status := v'.status, runs := v'.runs, cpunum := v'.cpunum, link := v'.link }
  status : v'.status = v.status ∨ (v.status = .runnable ∨ v.status = .running) ∧
    (v'.status = .runnable ∨ v'.status = .running)

-- Apart from what the delivery of a message sets, the environments are the same.
def SameButIpc (v v' : Env) : Prop :=
  v' = { v with
    ipcRecving := v'.ipcRecving
    ipcDstva := v'.ipcDstva
    ipcValue := v'.ipcValue
    ipcFrom := v'.ipcFrom
    ipcPerm := v'.ipcPerm
    status := v'.status
    tf.regs.eax := v'.tf.regs.eax }

theorem SameButSched.refl (v : Env) : SameButSched v v :=
  ⟨rfl, .inl rfl⟩

end Env

namespace Kernel

-- The free slot `sys_exofork` takes.
def Takes (s : Kernel) (k : Call) (e : EnvIx) : Prop :=
  k.sysno = some .exofork ∧ s.envFreeList = some e ∧ s.pageFreeList ≠ none

-- The environment waits for the message which the call sends.
def Receives (s : Kernel) (a : EnvIx) (k : Call) (e : EnvIx) : Prop :=
  k.sysno = some .ipcTrySend ∧ s.findEnv a k.a₁ false = some e ∧ (s.envs e).ipcRecving = true

end Kernel

section Memory

-- `b` maps the page `q`.
def Kernel.Maps (s : Kernel) (b : EnvIx) (q : Ppn) : Prop :=
  ∃ i j, s.target (.pte b i j) = some q

-- What a call must not change about an environment beyond the authority of the caller. The mapping at
-- `env_ipc_dstva` of a receiver is excepted.
structure MemConfined (a : EnvIx) (k : Call) (b : EnvIx) (s s' : Kernel) : Prop where
  pgdir : (s'.envs b).pgdir = (s.envs b).pgdir
  mem   : ∀ {q}, s.Maps b q → s'.mem q = s.mem q
  pte   : ∀ {i j}, i.val < pdxUtop →
    ¬(s.Receives a k b ∧ i = pdx (s.envs b).ipcDstva ∧ j = ptx (s.envs b).ipcDstva) →
    s'.pteOf b i j = s.pteOf b i j

theorem MemConfined.refl : MemConfined a k b s s :=
  ⟨rfl, fun _ => rfl, fun _ _ => rfl⟩

variable (h : PageInv M ∅ l s) (hb : ¬s.Authority a b)

include h in
theorem Kernel.Maps.not_free (hq : s.Maps b q) : q ∉ l := by
  have ⟨i, j, ht⟩ := hq
  exact h.pool.not_free_of_ref ht

include h in
theorem Kernel.Maps.not_table (hq : s.Maps b q) : ¬s.Table q := by
  have ⟨i, j, ht⟩ := hq
  exact h.page_not_table ht

include h hb in
theorem Kernel.Effect.confined (hx : Effect c a k s s') (ht : ¬s.Takes k b) : MemConfined a k b s s' := by
  have hne : ∀ {e}, s.Authority a e → b ≠ e := fun ha he => hb (he ▸ ha)
  cases hx
  case skip => exact .refl
  case alloc e pd pp hk he hd hv _ hl hn =>
    have hbe := hne (findEnv_authority he)
    have hi := pdx_lt (lt_utop_of_badVa hv)
    have ⟨l', hl'⟩ := h.free_of_head hl
    subst hl'
    have hx : PageInv.Held (insert pp ∅) ∅ (s.popFree pp) pp := .flight rfl (by simp)
    refine ⟨?_, fun {q} hq => ?_, fun hi' _ => ?_⟩
    case refine_1 => rw [SameEnvs.mapPage.envs]; rfl
    case refine_2 =>
      have hf := hq.not_free h
      have ht' : ¬(s.popFree pp).Table q := show ¬s.Table q from hq.not_table h
      exact h.popFree.mem_mapPage hd hi hn ht' fun hm => hf (List.mem_cons_of_mem _ hm)
    case refine_3 =>
      rw [h.popFree.pteOf_mapPage hd hi hn hx hi', if_neg fun hc => hbe hc.1]
      rfl
  case map e₀ e pd pp hk _ he hd _ hv _ hr _ hn =>
    have hbe := hne (findEnv_authority he)
    have hi := pdx_lt (lt_utop_of_badVa hv)
    refine ⟨?_, fun hq => ?_, fun hi' _ => ?_⟩
    case refine_1 => rw [SameEnvs.mapPage.envs]
    case refine_2 => exact h.mem_mapPage hd hi hn (hq.not_table h) (hq.not_free h)
    case refine_3 => rw [h.pteOf_mapPage hd hi hn (.mapped rfl hr) hi', if_neg fun hc => hbe hc.1]
  case send e pd pp hk he hi hd _ hv _ hr _ hn =>
    have hi₀ := pdx_lt hv
    refine ⟨?_, fun hq => ?_, fun hi' hc => ?_⟩
    case refine_1 => rw [SameEnvs.mapPage.envs]
    case refine_2 => exact h.mem_mapPage hd hi₀ hn (hq.not_table h) (hq.not_free h)
    case refine_3 =>
      rw [h.pteOf_mapPage hd hi₀ hn (.mapped rfl hr) hi', if_neg]
      rintro ⟨rfl, hij⟩
      exact hc ⟨⟨hk, he, hi⟩, hij⟩
  case unmap e pd _ he hd hv =>
    have hbe := hne (findEnv_authority he)
    have hi := pdx_lt (lt_utop_of_badVa hv)
    refine ⟨?_, fun hq => ?_, fun hi' _ => ?_⟩
    case refine_1 => rw [SameEnvs.unmapPage.envs]
    case refine_2 => exact (h.shrinks_unmapPage hd hi).mem fun ho => hq.not_table h ho.table
    case refine_3 => exact (h.shrinks_unmapPage hd hi).other hbe hi'
  case fork e p hk he hl =>
    have hbe : b ≠ e := by
      rintro rfl
      exact ht ⟨hk, he, by simp [hl]⟩
    have ⟨l', hl'⟩ := h.free_of_head hl
    subst hl'
    refine ⟨?_, fun hq => ?_, fun hi' _ => ?_⟩
    case refine_1 =>
      simp only [Kernel.newEnv, setEnv, update_of_ne hbe]
      rfl
    case refine_2 =>
      refine mem_newEnv ?_
      rintro rfl
      exact hq.not_free h (by simp)
    case refine_3 => exact h.pteOf_newEnv_of_ne hbe hi'
  case free e pd ha hd =>
    have hbe := hne ha
    refine ⟨?_, fun hq => ?_, fun hi' _ => ?_⟩
    case refine_1 => rw [h.envs_freeEnv hd, update_of_ne hbe]
    case refine_2 => exact h.mem_freeEnv hd (hq.not_table h)
    case refine_3 => exact h.pteOf_freeEnv hd hbe hi'

end Memory

section Envs

theorem envs_setEnv_of_ne {f : Env → Env} (hb : b ≠ e) : (s.setEnv e f).envs b = s.envs b := by
  simp [setEnv, hb]

theorem envs_retire_of_ne (hb : b ≠ e) : (s.retire e).envs b = s.envs b := by
  simp [Kernel.retire, setEnv, hb]

theorem envs_preempt_of_ne (hb : s.cur c ≠ some b) : (s.preempt c).envs b = s.envs b := by
  simp only [preempt]
  split
  case _ => rfl
  case _ e he =>
    split
    case isTrue => exact envs_setEnv_of_ne fun hc => hb (hc ▸ he)
    case isFalse => rfl

-- The scheduler only keeps its books about environments other than the current one.
theorem Kernel.Schedules.sameButSched (hs : Schedules c s x s') (hb : s.cur c ≠ some b) :
    (s.envs b).SameButSched (s'.envs b) := by
  have hrun : ∀ {e pd}, b ≠ e → (s.envs b).SameButSched ((s.runEnv c e pd).envs b) := by
    intro e pd hne
    have he : (s.runEnv c e pd).envs b = s.envs b :=
      (envs_setEnv_of_ne hne).trans (envs_preempt_of_ne hb)
    rw [he]
    exact .refl _
  cases hs
  case pick e pd hr hd =>
    by_cases hne : b = e
    case pos =>
      subst hne
      have he : (s.runEnv c b pd).envs b =
          { s.envs b with status := .running, runs := (s.envs b).runs + 1#32, cpunum := c } := by
        simp [runEnv, setEnv, setCpu, envs_preempt_of_ne hb]
      exact ⟨by rw [he], .inr ⟨.inl hr, .inr (by rw [he])⟩⟩
    case neg => exact hrun hne
  case resume e pd hc hr hd => exact hrun fun he => hb (he ▸ hc)
  case halt => exact .refl _
  case monitor => exact .refl _

variable (hb : ¬s.Authority a b)

include hb in
theorem ne_of_authority (he : s.findEnv a k.a₁ true = some e) : b ≠ e :=
  fun h => hb (h ▸ findEnv_authority he)

include hb in
theorem Kernel.EnvAct.confined (hx : EnvAct a k s r s') (ht : ¬(k.sysno = some .exofork ∧ s.envFreeList = some b)) :
    (¬s.Receives a k b → s'.envs b = s.envs b) ∧ (s.Receives a k b → (s.envs b).SameButIpc (s'.envs b)) := by
  have hsame : s'.envs b = s.envs b → (¬s.Receives a k b → s'.envs b = s.envs b) ∧
      (s.Receives a k b → (s.envs b).SameButIpc (s'.envs b)) := by
    intro he
    refine ⟨fun _ => he, fun _ => ?_⟩
    rw [he]
    rfl
  cases hx
  case skip => exact hsame rfl
  case fork e p hk he hr =>
    have hne : b ≠ e := fun h => ht ⟨hk, h ▸ he⟩
    exact hsame (by simp [forkSlot, setEnv, hne])
  case status e st hk he hst => exact hsame (envs_setEnv_of_ne (ne_of_authority hb he))
  case upcall e hk he => exact hsame (envs_setEnv_of_ne (ne_of_authority hb he))
  case send e perm hk he hi hr =>
    by_cases hne : b = e
    case pos =>
      subst hne
      refine ⟨fun hn => absurd ⟨hk, he, hi⟩ hn, fun _ => ?_⟩
      simp [Env.SameButIpc, deliver, setEnv]
    case neg => exact hsame (envs_setEnv_of_ne hne)
  case doom e hk he hne hs => exact hsame (envs_setEnv_of_ne (ne_of_authority hb he))
  case free e hk he hne hs => exact hsame (envs_retire_of_ne (ne_of_authority hb he))

include hb in
theorem Kernel.Reaps.confined (hx : Reaps c a s x s') : ∃ o, { s.envs b with pgdir := o }.SameButSched (s'.envs b) := by
  have hne : b ≠ a := fun h => hb (.inl h)
  cases hx
  case panic h =>
    obtain ⟨o, ho, -⟩ := h.envs b
    exact ⟨o, by rw [ho]; exact .refl _⟩
  case sched s₁ h hs =>
    refine ⟨(s.envs b).pgdir, ?_⟩
    have he : s₁.envs b = s.envs b := by
      rw [h.envs]
      exact envs_retire_of_ne hne
    rw [← he]
    refine hs.sameButSched ?_
    rw [h.cur]
    simp [Kernel.cur, Kernel.reap, setCpu]

-- If the call does not return, the page directory may only have changed along with memory.
include hb in
theorem Kernel.EnvExit.confined (ha : s.cur c = some a) (hx : EnvExit c a k s x s') :
    ∃ o, { s.envs b with pgdir := o }.SameButSched (s'.envs b) ∧
      (k.sysno = some .ipcTrySend → s'.envs b = { s.envs b with pgdir := o }) := by
  have hne : b ≠ a := fun h => hb (.inl h)
  have hc : s.cur c ≠ some b := fun h => hne (Option.some.inj (h.symm.trans ha))
  cases hx
  case panic e he h =>
    obtain ⟨o, ho, -⟩ := h.envs b
    exact ⟨o, by rw [ho]; exact .refl _, fun _ => ho⟩
  case fault va hk h => exact ⟨(s.envs b).pgdir, by rw [h.envs]; exact .refl _, fun _ => by rw [h.envs]⟩
  case yield hk h => exact ⟨(s.envs b).pgdir, h.sameButSched hc, fun hs => by simp [hs] at hk⟩
  case recv hk h =>
    refine ⟨(s.envs b).pgdir, ?_, fun hs => by simp [hs] at hk⟩
    have he : (s.await a k.a₁).envs b = s.envs b := envs_setEnv_of_ne hne
    rw [← he]
    exact h.sameButSched hc
  case reap hk h =>
    have ⟨o, ho⟩ := h.confined hb
    exact ⟨o, ho, fun hs => by simp [hs] at hk⟩

end Envs

section

variable (h : PageInv M ∅ l s) (ha : s.cur c = some a) (hl : (s.envs a).status ≠ .free)

include h ha hl in
theorem syscall_memConfined (hb : ¬s.Authority a b) (ht : ¬s.Takes k b) (hr : Leaves (k.run c) s s') :
    MemConfined a k b s s' := by
  obtain ⟨_, s₁, ⟨y, rfl⟩, hx, hs⟩ := hr.after h ha hl
  have hu : UpToAddr s { s with userMemCheckAddr := y } := ⟨y, rfl⟩
  have hm := hx.confined (b := b) (hu.sameMem.pageInv h) hb ht
  refine ⟨(hs.pgdir b).trans hm.pgdir, fun hq => ?_, fun hi hc => ?_⟩
  case refine_1 => rw [hs.mem, hm.mem hq]
  case refine_2 =>
    rw [hs.pteOf, hm.pte hi hc]
    rfl

-- A slot which `sys_exofork` cannot take for want of memory.
omit h in
include ha in
theorem exofork_unchanged (hk : k.sysno = some .exofork) (he : s.envFreeList = some b) (hf : s.pageFreeList = none)
    (hr : Leaves (k.run c) s s') : s' = s := by
  have hrun : (k.run c).run s = .ok enomem s := by
    simp only [Call.run, syscall, show Sysno.ofWord k.no = some .exofork from hk]
    simp [sysExofork, curenv_run ha, envAlloc_nomem he hf]
  obtain ⟨w, hw⟩ | ⟨x, hw⟩ := hr
  case inl =>
    rw [hrun] at hw
    cases hw
    rfl
  case inr =>
    rw [hrun] at hw
    cases hw

-- The table of environments, seen from `b`.
include h ha hl in
theorem syscall_envConfined (hb : ¬s.Authority a b) (ht : ¬s.Takes k b) (hr : Leaves (k.run c) s s') :
    (¬s.Receives a k b → (s.envs b).SameButSched (s'.envs b)) ∧
    (s.Receives a k b → (s.envs b).SameButIpc (s'.envs b)) := by
  have hm := syscall_memConfined h ha hl hb ht hr
  by_cases hf : k.sysno = some .exofork ∧ s.envFreeList = some b
  case pos =>
    have hp : s.pageFreeList = none := by
      by_contra hp
      exact ht ⟨hf.1, hf.2, hp⟩
    rw [exofork_unchanged ha hf.1 hf.2 hp hr]
    exact ⟨fun _ => .refl _, fun _ => rfl⟩
  case neg =>
    have hw := syscall_acts (k := k) h.dir ha hl
    obtain ⟨w, hw'⟩ | ⟨x, hw'⟩ := hr
    case inl =>
      have ⟨s₁, hx, hs⟩ := wp_ok hw hw'
      have ⟨h₁, h₂⟩ := hx.confined hb hf
      rw [hs.envs]
      refine ⟨fun hn => ?_, h₂⟩
      rw [h₁ hn]
      exact .refl _
    case inr =>
      have ⟨o, ho, hi⟩ := (wp_error hw hw').confined hb ha
      -- The page directory is still the same.
      have hp : o = (s.envs b).pgdir := by
        have := congrArg Env.pgdir ho.fields
        rw [hm.pgdir] at this
        exact this.symm
      subst hp
      refine ⟨fun _ => ho, fun hn => ?_⟩
      rw [hi hn.1]
      rfl

-- Nothing about an environment `b` beyond the authority of the caller changes but the scheduler's
-- bookkeeping, unless it is about to take a message from the caller. In that case the fields and the
-- mapping that make up the message change.
include h ha hl in
theorem syscall_confined (hr : Leaves (k.run c) s s') (hb : ¬s.Authority a b) (ht : ¬s.Takes k b) :
    (¬s.Receives a k b → (s.envs b).SameButSched (s'.envs b) ∧
      ∀ i j, i.val < pdxUtop → s'.pteOf b i j = s.pteOf b i j) ∧
    (s.Receives a k b → (s.envs b).SameButIpc (s'.envs b) ∧
      ∀ i j, i.val < pdxUtop → ¬(i = pdx (s.envs b).ipcDstva ∧ j = ptx (s.envs b).ipcDstva) →
        s'.pteOf b i j = s.pteOf b i j) ∧
    ∀ q, s.Maps b q → s'.mem q = s.mem q := by
  have hm := syscall_memConfined h ha hl hb ht hr
  have ⟨he₁, he₂⟩ := syscall_envConfined h ha hl hb ht hr
  refine ⟨fun hn => ⟨he₁ hn, fun i j hi => ?_⟩, fun hn => ⟨he₂ hn, fun i j hi hc => ?_⟩, fun q => hm.mem⟩
  case refine_1 => exact hm.pte hi fun hc => hn hc.1
  case refine_2 => exact hm.pte hi fun hc' => hc hc'.2

-- The first environment allocates a page, which the second one does not notice.
theorem syscall_confined_alloc :
    ∃ s', (Call.run 0 ⟨4#32, 0#32, 0x1000#32, 7#32, 0#32, 0#32⟩).run (twoEnvs 8) = .ok 0#32 s' ∧
      ((twoEnvs 8).envs 1).SameButSched (s'.envs 1) ∧
      ∀ i j, i.val < pdxUtop → s'.pteOf 1 i j = (twoEnvs 8).pteOf 1 i j := by
  have hv : returns (Call.run 0 ⟨4#32, 0#32, 0x1000#32, 7#32, 0#32, 0#32⟩) (twoEnvs 8) = some 0#32 := by
    decide +kernel
  have ⟨s', hr⟩ := returns_eq_some.mp hv
  have ⟨_, _, h, _⟩ := twoEnvs_inv (n := 8) (by decide) (by decide)
  have hb : ¬(twoEnvs 8).Authority 0 1 := by decide +kernel
  have hc := syscall_confined (a := 0) (b := 1) h rfl (by decide +kernel) (.inl ⟨_, hr⟩) hb (fun ht => nomatch ht.1)
  exact ⟨s', hr, hc.1 fun hn => nomatch hn.1⟩

end

end Jos
