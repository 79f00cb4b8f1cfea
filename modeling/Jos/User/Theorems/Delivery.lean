import Jos.Kernel.Theorems.Faults
import Jos.User.Theorems.Upcall

-- What the kernel does to deliver a page fault is what the program sees.

open Function Program Bytes

namespace Jos

open Kernel

variable {M : Set Ppn} {l : List Ppn} {s s' s₀ : Kernel} {c : CpuIx} {a : EnvIx} {pd p q : Ppn} {va va' w faultVa : Word}
  {b : BitVec 8} {k k' : Nat} {m : Mem} {u : UserCpu} {acc : Access}

namespace Kernel

-- The memory `m` is what the program sees below `UTOP` in the address space of `pd`.
def Sees (s : Kernel) (pd : Ppn) (m : Mem) : Prop :=
  ∀ {va p}, va < utop → s.translate pd va ⟨true, false⟩ = some p → s.byteAt p va = m va

-- The page of the exception stack is not seen at another address.
def UxAlone (s : Kernel) (pd : Ppn) : Prop :=
  ∀ {va va' p}, OnUxstack va → s.translate pd va ⟨true, false⟩ = some p → va' < utop →
    s.translate pd va' ⟨true, false⟩ = some p → OnUxstack va'

-- While the kernel writes to the exception stack of the program, only memory changes, and none of the page tables.
structure Writes (s₀ : Kernel) (pd : Ppn) (m : Mem) (s : Kernel) : Prop where
  rest : s = { s₀ with mem := s.mem }
  mem  : ∀ q, s₀.Table q → s.mem q = s₀.mem q
  sees : s.Sees pd m

end Kernel

section Store

theorem translate_user (ht : s.translate pd va ⟨true, true⟩ = some p) : s.translate pd va acc = some p := by
  rw [Kernel.translate] at ht ⊢
  split at ht
  case isTrue h => rwa [if_pos ⟨fun _ => h.1 rfl, fun _ => h.2 rfl⟩]
  case isFalse => cases ht

variable (h : PageInv M ∅ l s₀) (hd : s₀.pgdirOf a = some pd)

include hd in
theorem translate_table (hm : ∀ q, s₀.Table q → s.mem q = s₀.mem q) (hv : va < utop) :
    s.translate pd va acc = s₀.translate pd va acc := by
  have hpd : s.mem pd = s₀.mem pd := hm pd (.inr (.inl ⟨a, hd⟩))
  have he : s.entry pd (pdx va) (ptx va) = s₀.entry pd (pdx va) (ptx va) := by
    simp only [Kernel.entry, Kernel.table, hpd]
    cases ht : entryPage (s₀.mem pd (pdx va))
    case none => rfl
    case some t =>
      have htar : s₀.target (.pde a (pdx va)) = some t := by rw [target_pde (pdx_lt hv), tableOf_eq hd, Kernel.table, ht]
      simp only [hm t (.inr (.inr ⟨a, _, htar⟩))]
  rw [Kernel.translate, Kernel.translate, hpd, he]

theorem onUxstack_lt (hx : OnUxstack va) : va < utop := by
  have hu : utop.toNat = 0xEEC00000 := by decide
  rw [BitVec.lt_def, hu]
  exact (onUxstack_iff.mp hx).2

-- Two addresses on the page of the exception stack.
theorem onUxstack_eq (hx : OnUxstack va) (hx' : OnUxstack va') (hm : va'.toNat % 4096 = va.toNat % 4096) : va' = va := by
  rw [onUxstack_iff] at hx hx'
  apply BitVec.eq_of_toNat_eq
  omega

variable (hc : (s₀.cpus c).cr3 = pd) (ha : s₀.UxAlone pd) (hw : s₀.Writes pd m s)

include h hd hc ha hw in
theorem storeByte_writes (hx : OnUxstack va) (ht : (s₀.translate pd va ⟨true, true⟩).isSome) :
    wp (storeByte c va b) (fun _ => s₀.Writes pd (update m va b)) (fun _ _ => False) s := by
  obtain ⟨p, hp⟩ := Option.isSome_iff_exists.mp ht
  have hv := onUxstack_lt hx
  have hcr : (s.cpus c).cr3 = pd := by rw [hw.rest]; exact hc
  have hs : s.translate pd va ⟨false, true⟩ = some p := by
    rw [translate_table hd hw.mem hv]
    exact translate_user hp
  have hnt : ¬s₀.Table p := by
    refine h.page_not_table (e := a) (i := pdx va) (j := ptx va) ?_
    rw [target_pte (pdx_lt hv), pteOf_eq hd]
    rw [Kernel.translate] at hp
    split at hp
    case isTrue => exact hp
    case isFalse => cases hp
  have hm : ∀ q, s₀.Table q → (s.setByteAt p va b).mem q = s₀.mem q := fun q hq =>
    (mem_setByteAt_of_ne (by rintro rfl; exact hnt hq)).trans (hw.mem q hq)
  simp only [storeByte, wp_bind_get, hcr, hs]
  refine ⟨?_, hm, fun {va' q} hv' ht' => ?_⟩
  case refine_1 =>
    rw [hw.rest]
    rfl
  case refine_2 =>
    rw [translate_table hd hm hv'] at ht'
    have hsees := hw.sees hv' (by rwa [translate_table hd hw.mem hv'])
    rw [byteAt_setByteAt, update_apply]
    by_cases he : va' = va
    case pos =>
      subst he
      rw [translate_user hp] at ht'
      cases ht'
      simp
    case neg =>
      rw [if_neg he, if_neg ?_, hsees]
      rintro ⟨rfl, hmod⟩
      exact he (onUxstack_eq hx (ha hx (translate_user hp) hv' ht') hmod)

-- The bytes of a word, stored one after the other.
theorem foldl_store : [0, 1, 2, 3].foldl (fun m k => update m (va + BitVec.ofNat 32 k) (getByte w (8 * k))) m =
    store m va w := by
  funext x
  by_cases hx : x - va < 4#32
  case pos =>
    have hk : x - va = 0#32 ∨ x - va = 1#32 ∨ x - va = 2#32 ∨ x - va = 3#32 := by bv_omega
    simp only [BitVec.sub_eq_iff_eq_add, BitVec.add_comm _ va] at hk
    rcases hk with rfl | rfl | rfl | rfl <;> rw [store_add (by decide)] <;> simp [getByte]
  case neg =>
    have hk {k : Nat} (hk : k < 4) : x ≠ va + BitVec.ofNat 32 k := by
      rintro rfl
      exact hx (by bv_omega)
    rw [store_of_not hx]
    simp only [List.foldl_cons, List.foldl_nil, update_of_ne (hk (k := 0) (by decide)),
      update_of_ne (hk (k := 1) (by decide)), update_of_ne (hk (k := 2) (by decide)), update_of_ne (hk (k := 3) (by decide))]

include h hd hc ha hw in
theorem storeWord_writes (hx : ∀ k < 4, OnUxstack (va + BitVec.ofNat 32 k))
    (ht : ∀ k < 4, (s₀.translate pd (va + BitVec.ofNat 32 k) ⟨true, true⟩).isSome) :
    wp (storeWord c va w) (fun _ => s₀.Writes pd (store m va w)) (fun _ _ => False) s := by
  have hcr : (s.cpus c).cr3 = pd := by rw [hw.rest]; exact hc
  have hs {k} (hk : k < 4) : (s.translate pd (va + BitVec.ofNat 32 k) ⟨false, true⟩).isSome := by
    obtain ⟨p, hp⟩ := Option.isSome_iff_exists.mp (ht k hk)
    rw [translate_table hd hw.mem (onUxstack_lt (hx k hk)), translate_user hp]
    rfl
  have h₀ := hs (k := 0) (by decide)
  rw [BitVec.add_zero] at h₀
  simp only [storeWord, wp_bind_get, hcr, h₀, hs (k := 3) (by decide), Bool.and_self, if_true]
  refine wp_mono (wp_forM (I := fun ks s => (∀ k ∈ ks, k < 4) ∧ ∃ m', s₀.Writes pd m' s ∧
    ks.foldl (fun m k => update m (va + BitVec.ofNat 32 k) (getByte w (8 * k))) m' = store m va w) ?_
    ⟨by decide, m, hw, foldl_store⟩) ?_ fun _ _ => id
  case refine_1 =>
    rintro k ks s₁ ⟨hk, m', hw', hm⟩
    refine wp_mono (storeByte_writes h hd hc ha hw' (hx k (hk k (by simp))) (ht k (hk k (by simp)))) ?_ fun _ _ => id
    exact fun _ s₂ h₂ => ⟨fun k' hk' => hk k' (by simp [hk']), _, h₂, hm⟩
  case refine_2 =>
    rintro _ s₁ ⟨-, m', hw', rfl⟩
    exact hw'

-- A word of the frame lies on the exception stack.
theorem frame_onUxstack {esp off : Word} (hr : Room esp) (ho : off.toNat + 4 ≤ 52) (hk : k < 4) :
    OnUxstack (upcallEsp esp + off + BitVec.ofNat 32 k) := by
  obtain ⟨h₁, h₂, -⟩ := upcallEsp_bounds hr
  rw [onUxstack_iff, BitVec.toNat_add, BitVec.toNat_add, BitVec.toNat_ofNat]
  omega

include h hd hc ha hw in
theorem utrapframe_writes {tf : Trapframe} (hr : Room tf.esp) (hst : s₀.StackOk pd (upcallEsp tf.esp)) :
    wp ((utrapframe tf faultVa).forM fun q => storeWord c (upcallEsp tf.esp + q.1) q.2)
      (fun _ => s₀.Writes pd (storeAll m (upcallEsp tf.esp) (utrapframe tf faultVa))) (fun _ _ => False) s := by
  refine wp_mono (wp_forM (I := fun l s => (∀ q ∈ l, q ∈ utrapframe tf faultVa) ∧ ∃ m', s₀.Writes pd m' s ∧
    storeAll m' (upcallEsp tf.esp) l = storeAll m (upcallEsp tf.esp) (utrapframe tf faultVa)) ?_
    ⟨fun _ => id, m, hw, rfl⟩) ?_ fun _ _ => id
  case refine_1 =>
    rintro q l s₁ ⟨hl, m', hw', hm⟩
    have hb := utrapframe_bound (hl q (by simp))
    have hx : ∀ k < 4, OnUxstack (upcallEsp tf.esp + q.1 + BitVec.ofNat 32 k) := fun k => frame_onUxstack hr hb
    refine wp_mono (storeWord_writes h hd hc ha hw' hx fun k hk => hst _ ?_ (hx k hk).2) ?_ fun _ _ => id
    case refine_1 =>
      obtain ⟨h₁, h₂, -⟩ := upcallEsp_bounds hr
      rw [BitVec.le_def, BitVec.toNat_add, BitVec.toNat_add, BitVec.toNat_ofNat]
      omega
    case refine_2 => exact fun _ s₂ h₂ => ⟨fun q' hq' => hl q' (by simp [hq']), _, h₂, hm⟩
  case refine_2 =>
    rintro _ s₁ ⟨-, m', hw', rfl⟩
    exact hw'

end Store

section Deliver

theorem translate_mem (hm : s'.mem = s.mem) : s'.translate = s.translate := by
  have he : s' = { s' with mem := s.mem } := by rw [← hm]
  rw [he]
  rfl

theorem Kernel.Sees.congr (hs : s.Sees pd m) (hm : s'.mem = s.mem) : s'.Sees pd m := by
  intro va p hv ht
  rw [translate_mem hm] at ht
  rw [byteAt, hm]
  exact hs hv ht

-- If the user may write to the stack, the check passes.
theorem grantsAll_of_stackOk {esp : Word} (h : s.StackOk pd esp) : s.GrantsAll pd esp uxstacktop stackPerm := by
  intro va hl hu
  obtain ⟨p, hp⟩ := Option.isSome_iff_exists.mp (h va hl hu)
  rw [Kernel.translate] at hp
  split at hp
  case isTrue =>
    have he := has_of_entryPage hp
    rw [grants, has, bne_iff_ne]
    intro hz
    rw [has, bne_iff_ne] at he
    refine he (BitVec.eq_of_getLsbD_eq fun i hi => ?_)
    have hi' := congrArg (·.getLsbD i) hz
    simp only [BitVec.getLsbD_and, BitVec.getLsbD_or, BitVec.getLsbD_zero, Bool.and_eq_false_iff,
      Bool.or_eq_false_iff] at hi' ⊢
    exact hi'.imp id And.right
  case isFalse => cases hp

theorem tf_preempt {e : EnvIx} : ((s.preempt c).envs e).tf = (s.envs e).tf := by
  simp only [preempt]
  split
  case _ => rfl
  case _ x _ =>
    split
    case isTrue => by_cases he : e = x <;> simp [setEnv, he]
    case isFalse => rfl

variable (h : PageInv M ∅ l s) (ha : s.cur c = some a) (hl : (s.envs a).status ≠ .free) (hd : s.pgdirOf a = some pd)
  (hc : (s.cpus c).cr3 = pd) (hup : (s.envs a).pgfaultUpcall ≠ 0#32) (hx : s.UxAlone pd) (hs : s.Sees pd m)

include h ha hl hd hc hup hx hs in
variable (faultVa) in
theorem pageFaultHandler_delivers (tf : Trapframe) (hr : Room tf.esp) (hst : s.StackOk pd (upcallEsp tf.esp)) :
    wp (pageFaultHandler c (.env a) tf faultVa) (fun _ _ => False)
      (fun x s' => x = .user ∧ s'.Sees pd (storeAll m (upcallEsp tf.esp) (utrapframe tf faultVa)) ∧
        s'.cur c = some a ∧
        (s'.envs a).tf = { (s.envs a).tf with esp := upcallEsp tf.esp, eip := (s.envs a).pgfaultUpcall }) s := by
  rw [pageFaultHandler, wp_bind_of_ok (curenv_run ha)]
  simp only [wp_bind_get]
  rw [if_neg hup]
  have h₁ : SameMem s (s.saveTf a { (s.envs a).tf with esp := upcallEsp tf.esp }) := sameMem_saveTf
  simp only [TfPtr.write, wp_bind_modify]
  refine wp_seq (wp_mono (userMemAssert_destroyed (h₁.pageInv h) ha (mt (h₁.live a).mp hl) (h₁.pgdirOf ▸ hd) (by decide)
    upcallEsp_lt (by decide)) (fun _ _ => id) fun _ _ hx => (hx.2.1 ((h₁.grantsAll).mpr (grantsAll_of_stackOk hst))).elim)
    fun _ s₂ h₂ => ?_
  obtain ⟨hu, -⟩ := h₂
  have hsame := h₁.trans hu.sameMem
  have hcpus : s₂.cpus = s.cpus := by obtain ⟨y, rfl⟩ := hu; rfl
  have henvs : s₂.envs a = { s.envs a with tf := { (s.envs a).tf with esp := upcallEsp tf.esp } } := by
    obtain ⟨y, rfl⟩ := hu
    simp [setEnv]
  have htr := translate_mem hsame.mem
  refine wp_seq (wp_mono (utrapframe_writes (hsame.pageInv h) (hsame.pgdirOf ▸ hd) (by rw [hcpus, hc]) ?_
    ⟨rfl, fun _ _ => rfl, hs.congr hsame.mem⟩ hr ?_) (fun _ _ => id) fun _ _ => False.elim) fun _ s₃ h₃ => ?_
  case refine_1 =>
    intro va va' p hv ht hv' ht'
    rw [htr] at ht ht'
    exact hx hv ht hv' ht'
  case refine_2 =>
    intro va hv hv'
    rw [htr]
    exact hst va hv hv'
  have hpd : (s₃.envs a).pgdir = some pd := by
    rw [h₃.rest, henvs]
    exact pgdirOf_pgdir hd
  have hcur₃ : s₃.cur c = some a := by
    rw [h₃.rest, cur, hcpus]
    exact ha
  have henv₃ : s₃.envs a = _ := (by rw [h₃.rest] : s₃.envs a = s₂.envs a).trans henvs
  simp only [wp_bind_get, wp_bind_modify]
  have hpd' : ((s₃.setEnv a fun v => { v with tf := { v.tf with eip := (s₃.envs a).pgfaultUpcall } }).envs a).pgdir =
      some pd := by
    simpa [setEnv] using hpd
  refine wp_of_error (envRun_run hpd') ⟨rfl, Sees.congr h₃.sees ?_, ?_, ?_⟩
  case refine_1 =>
    have hlive : (s₃.envs a).status ≠ .free := by
      rw [henv₃]
      exact hl
    refine (sameMem_runEnv ?_).mem
    simpa [setEnv] using hlive
  case refine_2 => simp [runEnv, setEnv, setCpu, cur]
  case refine_3 =>
    have ht := tf_preempt (c := c) (e := a)
      (s := s₃.setEnv a fun v => { v with tf := { v.tf with eip := (s₃.envs a).pgfaultUpcall } })
    simp only [runEnv, setEnv, setCpu, update_self] at ht ⊢
    rw [ht, henv₃]

-- A page fault of a program with an upcall, which may write to the page of its exception stack: what the program sees
-- is the state `pageFault` describes.
include h ha hl hd hc hx in
theorem trap_delivers {k : Upcall} {oesp err : Word} {tf : Trapframe} (hdy : (s.envs a).status ≠ .dying)
    (hup : (s.envs a).pgfaultUpcall = k.entry) (hk : k.entry ≠ 0#32) (hs : s.Sees pd u.mem) (hr : Room (u.regs .esp))
    (hst : s.StackOk pd (upcallEsp (u.regs .esp))) (hu : tf.User)
    (htf : tf = { u.trapframe oesp err with es := tf.es, ds := tf.ds, cs := tf.cs, ss := tf.ss }) :
    ∃ s', (trap c tf faultVa).run s = .error .user s' ∧ s'.cur c = some a ∧
      s'.Sees pd (k.pageFault oesp err faultVa u).mem ∧
      (s'.envs a).tf = { tf with
        esp := (k.pageFault oesp err faultVa u).regs .esp
        eip := (k.pageFault oesp err faultVa u).eip } := by
  have hno : tf.trapno = tPgflt := by rw [htf]; rfl
  have hesp : tf.esp = u.regs .esp := by rw [htf]; rfl
  have hut : utrapframe tf faultVa = utrapframe (u.trapframe oesp err) faultVa := by rw [htf]; rfl
  have h₁ : SameMem s ((s.started c).saveTf a tf) := sameMem_started.trans sameMem_saveTf
  have ha₁ : (s.setCpu c fun i => { i with status := .started }).cur c = some a := by
    rw [← ha]
    exact congrFun SameTable.started.cur c
  have hc₁ : (((s.started c).saveTf a tf).cpus c).cr3 = pd := by
    rw [← hc]
    simp [saveTf, setEnv, started, setCpu]
  have hup₁ : (((s.started c).saveTf a tf).envs a).pgfaultUpcall = k.entry := by
    rw [← hup]
    simp [saveTf, started, setEnv, setCpu]
  have hw := pageFaultHandler_delivers faultVa (h₁.pageInv h) ha₁ (mt (h₁.live a).mp hl)
    (h₁.pgdirOf ▸ hd) hc₁ (hup₁ ▸ hk) hx hs tf (hesp ▸ hr) (hesp ▸ hst)
  have hdy₁ : ((s.setCpu c fun i => { i with status := .started }).envs a).status ≠ .dying := hdy
  obtain ⟨x, s', hrun, rfl, hsees, hcur, ht⟩ := exits_of_wp hw
  have htrap : wp (trap c tf faultVa) (fun _ _ => False) (fun x s'' => x = .user ∧ s'' = s') s := by
    simp only [trap, wp_bind_modify, if_pos (show tf.cs &&& 3#16 = 3#16 from hu), wp_bind_get, ha₁]
    rw [if_neg hdy₁]
    simp only [wp_bind_modify, trapDispatch, hno]
    rw [if_neg (by decide), if_neg (by decide), if_pos trivial]
    exact (wp_bind_of_error hrun).mpr ⟨rfl, rfl⟩
  obtain ⟨_, _, hr', rfl, rfl⟩ := exits_of_wp htrap
  refine ⟨_, hr', hcur, ?_, ?_⟩
  case refine_1 =>
    rw [hut, hesp] at hsees
    exact hsees
  case refine_2 =>
    rw [ht, hup₁, hesp]
    have he : (k.pageFault oesp err faultVa u).regs .esp = upcallEsp (u.regs .esp) :=
      UserCpu.set_regs (u := u) (r := .esp)
    rw [he]
    simp [saveTf, setEnv, Upcall.pageFault]

end Deliver

end Jos
