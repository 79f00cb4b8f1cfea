import Jos.Kernel.Theorems.System

-- What the events do to memory, in a state that satisfies the allocator's invariant.

open Function Program Relation

namespace Jos

open Kernel

variable {M F : Set Ppn} {l : List Ppn} {L : List EnvIx} {S S' S₀ : System} {s s' s₁ : Kernel} {c c' : CpuIx}
  {e e' a : EnvIx} {p pd q : Ppn} {va w faultVa : Word} {t tf : Trapframe} {x : Exit} {y : Action} {k : Call}
  {b : BitVec 8} {P : Policy}

namespace Kernel

-- A byte is stored through a mapping of `a`.
inductive Poke (a : EnvIx) (s : Kernel) : Kernel → Prop
  | mk {p : Ppn} {va : Word} {b : BitVec 8} (hv : va < utop)
    (ht : s.target (.pte a (pdx va) (ptx va)) = some p)
    (hw : has (s.pteOf a (pdx va) (ptx va)) pteW = true) : Poke a s (s.setByteAt p va b)

-- What a trap from user mode does to memory.
inductive TrapMem (c : CpuIx) (a : EnvIx) (tf : Trapframe) (s : Kernel) : Kernel → Prop
  | call {s' : Kernel} (hk : tf.trapno = tSyscall) (h : After c a tf.call ((s.started c).saveTf a tf) s') :
    TrapMem c a tf s s'
  -- The current environment has been freed.
  | reap {s₀ s' : Kernel} {pd : Ppn} (h₀ : SameMem s s₀) (hd : s₀.pgdirOf a = some pd)
    (h : SameMem (s₀.freeEnv c a pd) s') : TrapMem c a tf s s'
  -- The kernel has written to the exception stack.
  | pokes {s₀ s₁ s' : Kernel} (h₀ : SameMem s s₀) (h : ReflTransGen (Poke a) s₀ s₁) (h₁ : SameMem s₁ s') :
    TrapMem c a tf s s'

theorem TrapMem.skip (h : SameMem s s') : TrapMem c a tf s s' :=
  .pokes h .refl (.refl s')

theorem sameMem_started : SameMem s (s.started c) :=
  .setCpu

theorem sameMem_saveTf : SameMem s (s.saveTf a tf) :=
  .setEnv rfl rfl Iff.rfl

end Kernel

section Byte

variable {va' : Word} {k k' : Nat}

theorem getLsbD_lane {i : Nat} : (0xFF#32).getLsbD i = decide (i < 8) := by
  have h : Nat.testBit 255 i = decide (i < 8) := Nat.testBit_two_pow_sub_one 8 i
  rw [BitVec.getLsbD_ofNat, h]
  grind

theorem getByte_putByte (hk : k ≤ 24) : getByte (putByte w k b) k = b := by
  ext i hi
  simp [getByte, putByte, getLsbD_lane, hi]
  grind

theorem getByte_putByte_of_ne (h : k + 8 ≤ k' ∨ k' + 8 ≤ k) : getByte (putByte w k b) k' = getByte w k' := by
  ext i hi
  simp [getByte, putByte, getLsbD_lane]
  grind

theorem lane_eq : lane va = 8 * (va.toNat % 4) := by
  have hm : (3#32).toNat = 2 ^ 2 - 1 := rfl
  rw [lane, BitVec.toNat_and, hm, Nat.and_two_pow_sub_one_eq_mod]

-- A byte changes the byte at the same place of the same page.
theorem byteAt_setByteAt : (s.setByteAt p va b).byteAt q va' =
    if q = p ∧ va'.toNat % 4096 = va.toNat % 4096 then b else s.byteAt q va' := by
  by_cases hq : q = p
  case neg => simp [byteAt, setByteAt, Kernel.setMem, hq]
  case pos =>
    subst hq
    by_cases hw : wordIx va' = wordIx va
    case pos =>
      have hv := congrArg Fin.val hw
      rw [val_wordIx, val_wordIx] at hv
      have hb : (s.setByteAt q va b).byteAt q va' =
          getByte (putByte (s.mem q (wordIx va)) (lane va) b) (lane va') := by
        simp [byteAt, setByteAt, Kernel.setMem, hw]
      rw [hb]
      by_cases hl : va'.toNat % 4 = va.toNat % 4
      case pos =>
        rw [if_pos ⟨rfl, by omega⟩, lane_eq, lane_eq, hl, getByte_putByte (by omega)]
      case neg =>
        rw [if_neg fun hc => hl (by omega), lane_eq, lane_eq, getByte_putByte_of_ne (by omega), byteAt, hw, lane_eq]
    case neg =>
      have hv : va'.toNat % 4096 ≠ va.toNat % 4096 := fun hc => hw (Fin.ext (by rw [val_wordIx, val_wordIx]; omega))
      rw [if_neg fun hc => hv hc.2]
      simp [byteAt, setByteAt, Kernel.setMem, hw]

end Byte

section Poke

variable (h : PageInv M F l s)

theorem mem_setByteAt_of_ne (hq : q ≠ p) : (s.setByteAt p va b).mem q = s.mem q := by
  simp [Kernel.setByteAt, Kernel.setMem, hq]

-- A page which is no part of a page table may be written.
theorem target_setByteAt (hp : ¬s.Table p) : (s.setByteAt p va b).target = s.target :=
  target_congr rfl rfl fun _ hq => mem_setByteAt_of_ne fun he => hp (he ▸ hq)

include h in
theorem PageInv.poke (hx : Poke a s s') : PageInv M F l s' := by
  obtain ⟨hv, ht, hw⟩ := hx
  exact h.congr ⟨rfl, rfl, rfl, rfl⟩ (target_setByteAt (h.page_not_table ht)) h.dir

include h in
theorem target_poke (hx : Poke a s s') : s'.target = s.target := by
  obtain ⟨hv, ht, hw⟩ := hx
  exact target_setByteAt (h.page_not_table ht)

theorem SameTable.poke (hx : Poke a s s') : SameTable s s' := by
  obtain ⟨hv, ht, hw⟩ := hx
  exact ⟨rfl, rfl, rfl, rfl, fun _ => rfl⟩

theorem EnvInv.poke (h : EnvInv L s) (hx : Poke a s s') : EnvInv L s' := by
  obtain ⟨hv, ht, hw⟩ := hx
  exact ⟨h.chain, h.nodup, h.mem⟩

theorem MemInv.pokes (h : MemInv M s) (hx : ReflTransGen (Poke a) s s') : MemInv M s' := by
  induction hx
  case refl => exact h
  case tail s₁ s₂ _ hx ih =>
    obtain ⟨l, L, hl, hL⟩ := ih
    exact ⟨l, L, hl.poke hx, hL.poke hx⟩

end Poke

section Handler

-- Translations of the address space in `%cr3` are the mappings of the current environment.
theorem poke_of_translate {u : Bool} (hd : s.pgdirOf a = some (s.cpus c).cr3) (hv : va < utop)
    (ht : s.translate (s.cpus c).cr3 va ⟨u, true⟩ = some p) : Poke a s (s.setByteAt p va b) := by
  simp only [Kernel.translate] at ht
  split at ht
  case isTrue hw =>
    refine .mk hv ?_ ?_
    case refine_1 => rw [target_pte (pdx_lt hv), pteOf_eq hd, ht]
    case refine_2 =>
      rw [pteOf_eq hd]
      exact (hw.2 trivial).2
  case isFalse => cases ht

-- The addresses the kernel writes to lie on the exception stack.
theorem upcallEsp_add_lt {esp off : Word} (h : off < 52#32) : upcallEsp esp + off < utop := by
  simp only [upcallEsp]
  have hu : uxstacktop = 0xEEC00000#32 := by decide
  have hp : pgsize = 0x1000#32 := by decide
  have ht : utop = 0xEEC00000#32 := by decide
  rw [hu, hp, ht]
  split <;> bv_omega

variable (hd : s.pgdirOf a = some (s.cpus c).cr3)

-- The state while the kernel writes to the exception stack.
def Poked (c : CpuIx) (a : EnvIx) (s s' : Kernel) : Prop :=
  ReflTransGen (Poke a) s s' ∧ s'.pgdirOf a = some (s'.cpus c).cr3

include hd in
theorem storeByte_poked (hv : va < utop) : wp (storeByte c va b) (fun _ => Poked c a s) (fun _ => Poked c a s) s := by
  simp only [storeByte, wp_bind_get]
  split
  case _ => exact ⟨.refl, hd⟩
  case _ p hp => exact ⟨.single (poke_of_translate hd hv hp), hd⟩

theorem Poked.trans {s₂ s₃ : Kernel} (h : Poked c a s s₂) (h' : Poked c a s₂ s₃) : Poked c a s s₃ :=
  ⟨h.1.trans h'.1, h'.2⟩

include hd in
theorem storeWord_poked (hv : ∀ k < 4, va + BitVec.ofNat 32 k < utop) :
    wp (storeWord c va w) (fun _ => Poked c a s) (fun _ => Poked c a s) s := by
  simp only [storeWord, wp_bind_get]
  split
  case isTrue =>
    refine wp_mono (wp_forM (I := fun ks s' => (∀ k ∈ ks, k < 4) ∧ Poked c a s s') ?_ ⟨by decide, .refl, hd⟩)
      (fun _ _ h => h.2) fun _ _ => id
    rintro k ks s₁ ⟨hk, h₁⟩
    refine wp_mono (storeByte_poked h₁.2 (hv k (hk k (by simp)))) ?_ ?_
    case refine_1 => exact fun _ _ h₂ => ⟨fun k' hk' => hk k' (by simp [hk']), h₁.trans h₂⟩
    case refine_2 => exact fun _ _ h₂ => h₁.trans h₂
  case isFalse => exact ⟨.refl, hd⟩

include hd in
theorem utrapframe_poked :
    wp ((utrapframe tf faultVa).forM fun (off, w) => storeWord c (upcallEsp tf.esp + off) w)
      (fun _ => Poked c a s) (fun _ => Poked c a s) s := by
  have ho : ∀ q ∈ utrapframe tf faultVa, ∀ k < 4, q.1 + BitVec.ofNat 32 k < 52#32 := by
    have hl : ∀ off ∈ (utrapframe tf faultVa).map Prod.fst, off ≤ 48#32 := by
      simp [utrapframe]
    intro q hq k hk
    have := hl q.1 (List.mem_map_of_mem hq)
    bv_omega
  refine wp_mono (wp_forM (I := fun qs s' => (∀ q ∈ qs, ∀ k < 4, q.1 + BitVec.ofNat 32 k < 52#32) ∧ Poked c a s s')
    ?_ ⟨ho, .refl, hd⟩) (fun _ _ h => h.2) fun _ _ => id
  rintro q qs s₁ ⟨hq, h₁⟩
  refine wp_mono (storeWord_poked h₁.2 fun k hk => ?_) ?_ ?_
  case refine_1 =>
    rw [BitVec.add_assoc]
    exact upcallEsp_add_lt (hq q (by simp) k hk)
  case refine_2 => exact fun _ _ h₂ => ⟨fun q' hq' => hq q' (by simp [hq']), h₁.trans h₂⟩
  case refine_3 => exact fun _ _ h₂ => h₁.trans h₂

end Handler

section Trap

variable (h : PageInv M ∅ l s) (ha : s.cur c = some a) (hl : (s.envs a).status ≠ .free)

-- The current environment is destroyed.
include h ha hl in
theorem envDestroy_reaps {s₀ : Kernel} (h₀ : SameMem s₀ s) :
    wp (envDestroy c a) (fun _ => TrapMem c a tf s₀) (fun _ => TrapMem c a tf s₀) s := by
  obtain ⟨pd, hd⟩ := h.pgdirOf_live hl
  simp only [envDestroy, wp_bind_get]
  rw [if_neg fun hc => hc.2 ha, wp_bind_of_ok (h.envFree_run hd)]
  simp only [wp_bind_get]
  split
  case isTrue =>
    simp only [wp_bind_modify]
    refine wp_mono (keeps_schedYield _) ?_ ?_ <;>
      exact fun _ _ hs => .reap h₀ hd (SameMem.setCpu.trans hs)
  case isFalse => exact .reap h₀ hd (.refl _)

include h ha hl in
theorem envDestroy_exits {s₀ : Kernel} (h₀ : SameMem s₀ s) :
    wp (envDestroy c a) (fun _ _ => False) (fun _ => TrapMem c a tf s₀) s :=
  wp_mono (wp_and (envDestroy_self h.dir ha hl (.refl s)) (envDestroy_reaps h ha hl h₀)) (fun _ _ => And.left)
    fun _ _ => And.right

include h ha hl in
theorem userMemAssert_mem {s₀ : Kernel} {len perm : Word} (h₀ : SameMem s₀ s) :
    wp (userMemAssert c a va len perm) (fun _ => UpToAddr s) (fun _ => TrapMem c a tf s₀) s := by
  obtain ⟨pd, hd⟩ := h.pgdirOf_live hl
  rw [userMemAssert, wp_bind_of_ok (envPgdir_run hd)]
  refine wp_seq (wp_mono (keeps_userMemCheck.keeps s) (fun _ _ => id) fun _ _ hu => .skip (h₀.trans hu.sameMem)) ?_
  intro r s₁ hu
  split
  case isTrue =>
    have ha₁ : s₁.cur c = some a := by
      obtain ⟨y, rfl⟩ := hu
      exact ha
    refine wp_mono (envDestroy_exits (hu.sameMem.pageInv h) ha₁ (mt (hu.sameMem.live a).mp hl)
      (h₀.trans hu.sameMem)) (fun _ _ => False.elim) fun _ _ => id
  case isFalse => exact hu

theorem envRun_mem {s₀ : Kernel} (hl : (s.envs a).status ≠ .free) (hs : ∀ {s'}, SameMem s s' → TrapMem c a tf s₀ s') :
    wp (envRun c a) (fun _ => TrapMem c a tf s₀) (fun _ => TrapMem c a tf s₀) s :=
  wp_mono (envRun_sameMem hl) (fun _ _ => hs) fun _ _ => hs

include h ha hl in
theorem pageFaultHandler_mem (tf : Trapframe) (faultVa : Word) {s₀ : Kernel} {ptr : TfPtr} (h₀ : SameMem s₀ s) (hp : ptr = .env a ∨ ptr = .stack)
    (hd : s.pgdirOf a = some (s.cpus c).cr3) :
    wp (pageFaultHandler c ptr tf faultVa) (fun _ => TrapMem c a tf s₀) (fun _ => TrapMem c a tf s₀) s := by
  rw [pageFaultHandler, wp_bind_of_ok (curenv_run ha)]
  simp only [wp_bind_get]
  split
  case isTrue => exact wp_seq (envDestroy_exits h ha hl h₀) fun _ _ => False.elim
  case isFalse =>
    obtain ⟨t₁, ht₁⟩ := TfPtr.write_run (s := s) (f := fun f => { f with esp := upcallEsp tf.esp }) hp
    rw [wp_bind_of_ok ht₁]
    have h₁ : SameMem s (s.saveTf a t₁) := sameMem_saveTf
    refine wp_seq (userMemAssert_mem (h₁.pageInv h) ha (mt (h₁.live a).mp hl) (h₀.trans h₁)) fun _ s₂ hu => ?_
    have h₂ : SameMem s s₂ := h₁.trans hu.sameMem
    have hd₂ : s₂.pgdirOf a = some (s₂.cpus c).cr3 := by
      rw [h₂.pgdirOf, hd]
      obtain ⟨y, rfl⟩ := hu
      rfl
    refine wp_seq (wp_mono (utrapframe_poked hd₂) (fun _ _ => id) ?_) fun _ s₃ h₃ => ?_
    case refine_1 => exact fun _ s' hx => .pokes (h₀.trans h₂) hx.1 (.refl s')
    case refine_2 =>
      simp only [wp_bind_get]
      obtain ⟨t₂, ht₂⟩ := TfPtr.write_run (s := s₃) (f := fun f => { f with eip := (s₃.envs a).pgfaultUpcall }) hp
      rw [wp_bind_of_ok ht₂]
      have h₄ : SameMem s₃ (s₃.saveTf a t₂) := sameMem_saveTf
      have hl₃ : (s₃.envs a).status ≠ .free := by
        intro hf
        have := h₃.2
        rw [pgdirOf_free hf] at this
        cases this
      exact envRun_mem (mt (h₄.live a).mp hl₃) fun hs => .pokes (h₀.trans h₂) h₃.1 (h₄.trans hs)

include h ha hl in
theorem pageFaultHandler_exits (tf : Trapframe) (faultVa : Word) {s₀ : Kernel} {ptr : TfPtr} (h₀ : SameMem s₀ s)
    (hp : ptr = .env a ∨ ptr = .stack) (hd : s.pgdirOf a = some (s.cpus c).cr3) :
    wp (pageFaultHandler c ptr tf faultVa) (fun _ _ => False) (fun _ => TrapMem c a tf s₀) s :=
  wp_mono (wp_and (pageFaultHandler_handles h.dir ha hl tf faultVa hp)
    (pageFaultHandler_mem h ha hl tf faultVa h₀ hp hd)) (fun _ _ => And.left) fun _ _ => And.right

theorem trapReturn_mem {s₀ : Kernel} (hs : ∀ {s'}, SameMem s s' → TrapMem c a tf s₀ s') :
    wp (trapReturn c) (fun _ => TrapMem c a tf s₀) (fun _ => TrapMem c a tf s₀) s := by
  simp only [trapReturn, wp_bind_get]
  split
  case _ => exact wp_mono (keeps_schedYield s) (fun _ _ => hs) fun _ _ => hs
  case _ e he =>
    split
    case isTrue hr => exact wp_mono (envRun_sameMem (by simp [hr])) (fun _ _ => hs) fun _ _ => hs
    case isFalse => exact wp_mono (keeps_schedYield s) (fun _ _ => hs) fun _ _ => hs

include h hl in
theorem zombie_mem {s₀ : Kernel} (h₀ : SameMem s₀ s) :
    wp (do envFree c a; modify (·.setCpu c fun i => { i with env := none }); schedYield c : K Unit)
      (fun _ => TrapMem c a tf s₀) (fun _ => TrapMem c a tf s₀) s := by
  obtain ⟨pd, hd⟩ := h.pgdirOf_live hl
  rw [wp_bind_of_ok (h.envFree_run hd)]
  simp only [wp_bind_modify]
  refine wp_mono (keeps_schedYield _) ?_ ?_ <;>
    exact fun _ _ hs => .reap h₀ hd (SameMem.setCpu.trans hs)

-- `trap_dispatch` and what follows it, for a trap from user mode.
include h ha hl in
theorem trapDispatch_mem (hu : tf.cs ≠ gdKt) (hd : s.pgdirOf a = some (s.cpus c).cr3) :
    wp (do trapDispatch c (.env a) tf faultVa; trapReturn c) (fun _ => TrapMem c a tf s)
      (fun _ => TrapMem c a tf s) ((s.started c).saveTf a tf) := by
  have h₀ : SameMem s ((s.started c).saveTf a tf) := sameMem_started.trans sameMem_saveTf
  have h₁ := h₀.pageInv h
  have hst : SameTable s (s.started c) := .started
  have ha₁ : ((s.started c).saveTf a tf).cur c = some a := by
    rw [← ha, ← hst.cur]
    rfl
  have hl₁ := mt (h₀.live a).mp hl
  have hd₁ : ((s.started c).saveTf a tf).pgdirOf a = some (((s.started c).saveTf a tf).cpus c).cr3 := by
    rw [h₀.pgdirOf, hd, ← hst.cr3]
    rfl
  have hret : wp (trapReturn c) (fun _ => TrapMem c a tf s) (fun _ => TrapMem c a tf s) ((s.started c).saveTf a tf) :=
    trapReturn_mem fun hs => .skip (h₀.trans hs)
  simp only [trapDispatch]
  split
  case isTrue => exact hret
  case isFalse =>
    split
    case isTrue => exact hret
    case isFalse =>
      split
      case isTrue =>
        exact wp_seq (pageFaultHandler_exits h₁ ha₁ hl₁ tf faultVa h₀ (.inl rfl) hd₁) fun _ _ => False.elim
      case isFalse =>
        split
        case isTrue hk =>
          rw [bind_assoc]
          refine wp_seq (wp_mono (syscall_post (k := tf.call) h₁ ha₁ hl₁) (fun _ _ => Post.after) fun _ _ => .call hk)
            fun r s₁ hs => ?_
          refine wp_bind_modify.mpr <| trapReturn_mem fun hs' => ?_
          have : SameMem s₁ (s₁.answer a r) := .setEnv rfl rfl Iff.rfl
          exact .call hk (hs.trans (this.trans hs'))
        case isFalse =>
          split
          case isTrue =>
            refine wp_seq (wp_mono (keeps_schedYield _) (fun _ _ => id) fun _ _ hs => .skip (h₀.trans hs)) ?_
            exact fun _ s₁ hs => trapReturn_mem fun hs' => .skip ((h₀.trans hs).trans hs')
          case isFalse =>
            rw [bind_assoc, wp_bind_of_ok (curenv_run ha₁)]
            exact wp_seq (envDestroy_exits h₁ ha₁ hl₁ h₀) fun _ _ => False.elim

-- A trap from user mode.
include h ha hl in
theorem trap_mem (faultVa : Word) (hu : tf.cs &&& 3#16 = 3#16) (hd : s.pgdirOf a = some (s.cpus c).cr3) :
    wp (trap c tf faultVa) (fun _ => TrapMem c a tf s) (fun _ => TrapMem c a tf s) s := by
  have hst : SameTable s (s.started c) := .started
  have ha₁ : (s.started c).cur c = some a := by rw [hst.cur, ha]
  have ha₂ : (s.setCpu c fun i => { i with status := .started }).cur c = some a := ha₁
  simp only [trap, wp_bind_modify, if_pos hu, wp_bind_get, ha₂]
  split
  case isTrue hz => exact zombie_mem (sameMem_started.pageInv h) hl sameMem_started
  case isFalse =>
    have hg : tf.cs ≠ gdKt := by
      intro hg
      rw [hg] at hu
      exact absurd hu (by decide)
    exact trapDispatch_mem h ha hl hg hd

end Trap

-- A page fault of the kernel.
theorem trap_refaults_mem (faultVa : Word) (h : PageInv M ∅ l s) (ha : s.cur c = some a) (hl : (s.envs a).status ≠ .free)
    (hu : tf.cs = gdKt) (hk : tf.trapno = tPgflt) (hd : s.pgdirOf a = some (s.cpus c).cr3) :
    wp (trap c tf faultVa) (fun _ => TrapMem c a tf s) (fun _ => TrapMem c a tf s) s := by
  have hst : SameTable s (s.started c) := .started
  have ha₁ : (s.started c).cur c = some a := by rw [hst.cur, ha]
  have h₁ : PageInv M ∅ l (s.started c) := sameMem_started.pageInv h
  have hd₁ : (s.started c).pgdirOf a = some ((s.started c).cpus c).cr3 := by rw [hst.cr3]; exact hd
  simp only [trap, wp_bind_modify, trapDispatch, hu, hk]
  rw [if_neg (by decide), if_neg (by decide), if_neg (by decide), if_pos trivial]
  exact wp_seq (pageFaultHandler_exits h₁ ha₁ hl tf faultVa sameMem_started (.inr rfl) hd₁) fun _ _ => False.elim

theorem Kernel.Schedules.sameMem (hs : Schedules c s x s') : SameMem s s' := by
  cases hs
  case pick hr _ => exact sameMem_runEnv (by simp [hr])
  case resume hr _ => exact sameMem_runEnv (by simp [hr])
  case halt => exact .setCpu
  case monitor => exact .refl s

namespace System

-- What an event does to memory.
inductive MemEvent (S : System) (y : Action) (s' : Kernel) : Prop
  | skip (h : SameMem S.kern s')
  | trap {c : CpuIx} {a : EnvIx} {tf : Trapframe} {va : Word} (hy : y = .trap c tf va)
    (ha : S.kern.cur c = some a) (h : TrapMem c a tf S.kern s')
  | refault {c : CpuIx} {a : EnvIx} {tf : Trapframe} (hy : y = .refault c tf) (hk : tf.trapno = tPgflt)
    (ha : S.kern.cur c = some a) (h : TrapMem c a tf S.kern s')
  | store {c : CpuIx} {a : EnvIx} {va : Word} {b : BitVec 8} (hy : y = .store c va b)
    (ha : S.kern.cur c = some a) (h : Poke a S.kern s')

theorem kern_enter {m : K Unit} {Q : Kernel → Prop} (h : wp m (fun _ => Q) (fun _ => Q) S.kern) :
    Q (S.enter c m).kern := by
  simp only [wp] at h
  simp only [enter]
  split at h
  case _ hr => simpa [hr] using h
  case _ hr => simpa [hr] using h

-- The page directory of the current environment is loaded.
theorem Inv.loaded (h : S.Inv P) (hc : S.mode c ≠ .stopped) (ha : S.kern.cur c = some a) :
    S.kern.pgdirOf a = some (S.kern.cpus c).cr3 := by
  simp only [Kernel.pgdirOf]
  rw [if_neg (h.apart.live hc ha)]
  exact h.apart.cr3 hc ha

theorem Inv.memEvent (h : S.Inv P) (hi : PageInv M ∅ l S.kern) (hs : S.step y = some S') :
    MemEvent S y S'.kern := by
  have hev := h.healthy.event hs
  cases y
  case start c =>
    cases hev
    case start hx => exact .skip hx.sameMem
  case wake c tf =>
    cases hev
    case wake hx =>
      obtain ⟨rfl, rfl⟩ | hx := hx
      case inl => exact .skip sameMem_started
      case inr => exact .skip (sameMem_started.trans hx.sameMem)
  case trap c tf va =>
    cases hev
    case trap a x s hu hm ha hx =>
      have hc : S.mode c ≠ .stopped := by simp [hm]
      simp only [System.step] at hs
      split at hs
      case isTrue hcs =>
        have hk := kern_enter (c := c) (trap_mem hi ha (h.apart.live hc ha) va hcs.2.1 (h.loaded hc ha))
        rw [Option.some.inj hs] at hk
        exact .trap rfl ha hk
      case isFalse => cases hs
  case refault c tf =>
    cases hev
    case refault a va x s hu hm ha hx =>
      have hc : S.mode c ≠ .stopped := by simp [hm]
      simp only [System.step, hm] at hs
      split at hs
      case isTrue hcs =>
        have hk := kern_enter (c := c) (trap_refaults_mem va hi ha (h.apart.live hc ha) hcs.1 hcs.2.1
          (h.loaded hc ha))
        rw [Option.some.inj hs] at hk
        exact .refault rfl hcs.2.1 ha hk
      case isFalse => cases hs
  case store c va b =>
    cases hev
    case store p hm hv ht =>
      have hc : S.mode c ≠ .stopped := by simp [hm]
      obtain ⟨a, ha⟩ := h.runs hc (by simp [hm]) (by simp [hm])
      exact .store rfl ha (poke_of_translate (h.loaded hc ha) hv ht)

end System

theorem Kernel.TrapMem.memInv (h : MemInv M s) (hx : TrapMem c a tf s s')
    (hp : tf.trapno = tSyscall → FlagsOnly tf.call.perm) (hb : RefsFit s') : MemInv M s' := by
  cases hx
  case call hk hx =>
    exact hx.memInv (h.sameMem (sameMem_started.trans sameMem_saveTf)) (hp hk) hb
  case reap s₀ pd h₀ hd hs =>
    obtain ⟨l, L, hl, hL⟩ := h.sameMem h₀
    obtain ⟨l', hl'⟩ := hl.freeEnv (c := c) hd
    exact MemInv.sameMem ⟨l', a :: L, hl', hL.freeEnv hl hd⟩ hs
  case pokes s₀ s₁ h₀ hx h₁ => exact ((h.sameMem h₀).pokes hx).sameMem h₁

namespace System

-- The permissions in the system calls are mere flags.
def Flags (S : System) : Action → Prop :=
  Calls (fun _ _ _ k => FlagsOnly k.perm) S

theorem MemEvent.memInv (h : MemInv M S.kern) (hx : MemEvent S y s') (hp : S.Flags y) (hb : RefsFit s') :
    MemInv M s' := by
  cases hx
  case skip hs => exact h.sameMem hs
  case trap hy ha hx =>
    subst hy
    exact hx.memInv h (hp _ ha) hb
  case refault hy hk ha hx =>
    refine hx.memInv h (fun hk' => ?_) hb
    rw [hk] at hk'
    exact absurd hk' (by decide)
  case store ha hx => exact h.pokes (.single hx)

end System

end Jos
