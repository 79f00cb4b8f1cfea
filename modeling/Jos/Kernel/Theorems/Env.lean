import Jos.Kernel.Theorems.Insert

-- Creating and freeing environments in a state that satisfies the allocator's invariant.

open Function RefCount Program

namespace Jos

open Kernel

variable {M F F' : Set Ppn} {l l' : List Ppn} {L : List EnvIx} {s s' : Kernel} {c : CpuIx}
  {e e' : EnvIx} {i i' j j' : Ptx} {pd t p q pp : Ppn} {va perm w : Word} {r : Ref} {parentId : EnvId}

-- The invariant of `env_free_list`.
structure EnvInv (L : List EnvIx) (s : Kernel) : Prop where
  chain : Linked.Chain (fun e => (s.envs e).link) s.envFreeList L
  nodup : L.Nodup
  mem   : ∀ {e}, e ∈ L ↔ (s.envs e).status = .free

theorem EnvInv.of_head (h : EnvInv L s) (he : s.envFreeList = some e) : ∃ L', L = e :: L' := by
  have hc := h.chain
  rw [he] at hc
  have ⟨L', hL, _⟩ := hc.head_some
  exact ⟨L', hL⟩

namespace Kernel

-- Makes the free page `p` a page directory with the kernel's part of the address space.
def newDir (s : Kernel) (p : Ppn) : Kernel :=
  let s' := ((s.popFree p).zeroPage p).incRef p
  { s' with mem := update s'.mem p (update (s.mem s.kernPgdir) (pdx uvpt) (page2pa p ||| pteP ||| pteU)) }

-- The state after `env_alloc` has taken the environment `e` and the page `p`.
def newEnv (s : Kernel) (e : EnvIx) (p : Ppn) (parentId : EnvId) : Kernel :=
  { (s.newDir p).setEnv e fun v => freshEnv { v with pgdir := some p } e parentId with
    envFreeList := (s.envs e).link }

end Kernel

-- Identifiers are positive, so that `sys_exofork` cannot be mistaken to have failed.
theorem nextEnvId_pos {id : EnvId} : (nextEnvId id e).slt 0#32 = false := by
  have he : (BitVec.ofNat 32 e).msb = false := by
    have := e.isLt
    rw [BitVec.msb_eq_decide]
    simp
    omega
  rw [BitVec.slt_zero_eq_msb]
  simp only [nextEnvId, BitVec.msb_or, he, Bool.or_false]
  split
  case isTrue => decide
  case isFalse hn =>
    rw [BitVec.sle_eq_not_slt] at hn
    simp only [Bool.not_eq_true, Bool.not_eq_false'] at hn
    rw [BitVec.slt_iff_toInt_lt] at hn
    rw [← BitVec.slt_zero_eq_msb, ← Bool.not_eq_true, BitVec.slt_iff_toInt_lt]
    omega

theorem nextEnvId_ne_zero {id : EnvId} : nextEnvId id e ≠ 0#32 := by
  intro h
  simp only [nextEnvId] at h
  obtain ⟨hg, -⟩ := BitVec.or_eq_zero_iff.mp h
  split at hg
  case isTrue => exact absurd hg (by decide)
  case isFalse hn =>
    rw [hg] at hn
    exact hn (by decide)

theorem slt_nextEnvId {id : EnvId} : (0#32).slt (nextEnvId id e) = true := by
  have hn : (nextEnvId id e).slt 0#32 = false := nextEnvId_pos
  have hz : nextEnvId id e ≠ 0#32 := nextEnvId_ne_zero
  rw [← Bool.not_eq_true, BitVec.slt_iff_toInt_lt] at hn
  have hi : (nextEnvId id e).toInt ≠ (0#32).toInt := fun he => hz (BitVec.eq_of_toInt_eq he)
  rw [BitVec.slt_iff_toInt_lt]
  omega

-- The low bits of an identifier are the slot.
theorem envx_nextEnvId {id : EnvId} : envx (nextEnvId id e) = e := by
  have he := e.isLt
  have hs : BitVec.ofNat 32 e &&& 0x3FF#32 = BitVec.ofNat 32 e := by
    refine BitVec.eq_of_toNat_eq ?_
    have hm : (0x3FF#32).toNat = 2 ^ 10 - 1 := rfl
    rw [BitVec.toNat_and, hm, Nat.and_two_pow_sub_one_eq_mod, BitVec.toNat_ofNat]
    omega
  have hg : nextEnvId id e &&& 0x3FF#32 = BitVec.ofNat 32 e := by
    simp only [nextEnvId]
    split
    case isTrue =>
      rw [BitVec.and_or_distrib_right, hs]
      simp [envgenshift]
    case isFalse =>
      rw [BitVec.and_or_distrib_right, hs, BitVec.and_assoc]
      simp
  refine Fin.ext ?_
  rw [envx]
  simp only [hg, BitVec.toNat_ofNat]
  omega

section

variable (h : PageInv M F (p :: l) s)

include h in
theorem PageInv.envSetupVm_run :
    (envSetupVm e).run s = .ok 0#32 ((s.newDir p).setEnv e fun v => { v with pgdir := some p }) := by
  have hne : p ≠ s.kernPgdir := by
    rintro rfl
    exact h.kern (h.pool.mem_free.mp (by simp)).1
  have hk : ∀ s' : Kernel, s'.npages = s.npages → (kaddr (page2pa p)).run s' = .ok p s' := by
    intro s' hs
    have := kaddr_run (s := s') (page2pa p) (by rw [pgnum_page2pa, hs]; exact h.free_bound)
    rwa [pgnum_page2pa] at this
  simp [envSetupVm, pageAlloc_zero h.free_head h.free_bound, hk, newDir, incRef, Kernel.zeroPage, Kernel.popFree,
    setEnv, setPage, setMem, hne.symm]

theorem envSetupVm_nomem (hl : s.pageFreeList = none) : (envSetupVm e).run s = .ok enomem s := by
  simp [envSetupVm, pageAlloc_none hl]

include h in
theorem PageInv.envAlloc_run (he : s.envFreeList = some e) :
    (envAlloc parentId).run s = .ok (.ok e) (s.newEnv e p parentId) := by
  simp [envAlloc, he, h.envSetupVm_run, newEnv, setEnv]
  rfl

theorem envAlloc_full (he : s.envFreeList = none) :
    (envAlloc parentId).run s = .ok (.error enofreeenv) s := by
  simp [envAlloc, he]

theorem envAlloc_nomem (he : s.envFreeList = some e) (hl : s.pageFreeList = none) :
    (envAlloc parentId).run s = .ok (.error enomem) s := by
  simp [envAlloc, he, envSetupVm_nomem hl, enomem]

end

section NewEnv

theorem pgdirOf_free (hf : (s.envs e).status = .free) : s.pgdirOf e = none := by
  simp [pgdirOf, hf]

theorem pgdirOf_newEnv : (s.newEnv e p parentId).pgdirOf e = some p := by
  simp [newEnv, pgdirOf, setEnv, freshEnv]

theorem pgdirOf_newEnv_of_ne (hne : e' ≠ e) : (s.newEnv e p parentId).pgdirOf e' = s.pgdirOf e' := by
  simp only [newEnv, pgdirOf, setEnv, update_of_ne hne]
  rfl

theorem mem_newEnv (hq : q ≠ p) : (s.newEnv e p parentId).mem q = s.mem q := by
  simp [newEnv, newDir, setEnv, incRef, setPage, Kernel.zeroPage, Kernel.popFree, hq]

namespace PageInv

variable (h : PageInv M F (p :: l) s) (hf : (s.envs e).status = .free)

-- The new page directory maps nothing below `UTOP`.
include h in
theorem table_newDir (hi : i.val < pdxUtop) : (s.newDir p).table p i = none := by
  have hk : s.table s.kernPgdir i = none := h.kernUser hi
  have hne : i ≠ pdx uvpt := by
    rintro rfl
    exact absurd hi (by decide)
  simpa [newDir, table, hne] using hk

include h hf in
theorem target_newEnv :
    (s.newEnv e p parentId).target = update s.target (.pgdir e) (some p) := by
  have hs : (s.newDir p).target = s.target := by
    refine target_congr rfl rfl fun q hq => ?_
    have hne : q ≠ p := fun e => h.free_not_table (by simp) (e ▸ hq)
    simp [newDir, incRef, setPage, Kernel.zeroPage, Kernel.popFree, hne]
  have hd : (s.newDir p).pgdirOf e = none := pgdirOf_free hf
  have ho : ∀ e', e' ≠ e → (s.newEnv e p parentId).pgdirOf e' = (s.newDir p).pgdirOf e' :=
    fun _ he => pgdirOf_newEnv_of_ne he
  have ht := target_pgdirOf ho rfl rfl (fun i _ => by simp [tableOf, hd]) fun i hi => by
      rw [tableOf_eq pgdirOf_newEnv]
      exact h.table_newDir hi
  rw [ht, hs, pgdirOf_newEnv]

include h hf in
theorem newEnv : PageInv M F l (s.newEnv e p parentId) := by
  have hF : p ∉ F := (h.pool.mem_free.mp (by simp)).2.2
  have hd : (s.newEnv e p parentId).HasDirs := by
    intro e'
    by_cases hc : e' = e
    case pos => simp [Kernel.newEnv, setEnv, freshEnv, hc]
    case neg =>
      simp only [Kernel.newEnv, setEnv, update_of_ne hc]
      exact h.dir
  have ht : (s.newEnv e p parentId).target = _ := h.target_newEnv hf
  have ha : SameAlloc (s.popFree p)
      { s.popFree p with
        mem := (s.newEnv e p parentId).mem
        envs := (s.newEnv e p parentId).envs
        envFreeList := (s.envs e).link } := ⟨rfl, rfl, rfl, rfl⟩
  exact h.popFree.link_flight (r := .pgdir e) hF ha ht (pgdirOf_free hf) (by simp) hd

-- The other environments do not see the new page directory.
include h in
theorem pteOf_newEnv_of_ne (hne : e' ≠ e) (hi : i.val < pdxUtop) :
    (s.newEnv e p parentId).pteOf e' i j = s.pteOf e' i j := by
  have htab : (s.newEnv e p parentId).tableOf e' i = s.tableOf e' i := by
    simp only [tableOf, pgdirOf_newEnv_of_ne hne]
    cases hd : s.pgdirOf e'
    case none => rfl
    case some pd =>
      have hp : pd ≠ p := by
        rintro rfl
        exact h.pool.not_ref_of_free (r := Ref.pgdir e') (a := pd) (by simp) hd
      simp [table, mem_newEnv hp]
  simp only [pteOf, htab]
  cases ht : s.tableOf e' i
  case none => rfl
  case some t =>
    have hp : t ≠ p := by
      rintro rfl
      rw [← target_pde hi] at ht
      exact h.pool.not_ref_of_free (by simp) ht
    simp [mem_newEnv hp]

include h hf in
theorem pteOf_newEnv (hi : i.val < pdxUtop) :
    (s.newEnv e p parentId).pteOf e' i j = s.pteOf e' i j := by
  by_cases hc : e' = e
  case pos =>
    subst hc
    rw [pteOf_no_table (s := s) (by simp [tableOf, pgdirOf_free hf]), pteOf_no_table]
    rw [tableOf_eq pgdirOf_newEnv]
    exact h.table_newDir hi
  case neg => exact h.pteOf_newEnv_of_ne hc hi

end PageInv

-- The head of the list is taken.
theorem EnvInv.pop (h : EnvInv (e :: L) s) (hf : s'.envFreeList = (s.envs e).link)
    (hs : (s'.envs e).status ≠ .free) (hl : ∀ e', e' ≠ e → (s'.envs e').link = (s.envs e').link)
    (he : ∀ e', e' ≠ e → ((s'.envs e').status = .free ↔ (s.envs e').status = .free)) : EnvInv L s' where
  chain := by
    have hn := (List.nodup_cons.mp h.nodup).1
    rw [hf]
    exact h.chain.2.congr fun e' he' => hl e' fun hc => hn (hc ▸ he')
  nodup := h.nodup.of_cons
  mem := by
    intro e'
    have hn := (List.nodup_cons.mp h.nodup).1
    by_cases hc : e' = e
    case pos => simp [hc, hn, hs]
    case neg =>
      have hm := h.mem (e := e')
      simp only [List.mem_cons, hc, false_or] at hm
      rw [hm, he e' hc]

-- A slot is put back at the head of the list.
theorem EnvInv.push (h : EnvInv L s) (hn : e ∉ L) (hf : s'.envFreeList = some e)
    (hk : (s'.envs e).link = s.envFreeList) (hs : (s'.envs e).status = .free)
    (hl : ∀ e', e' ≠ e → (s'.envs e').link = (s.envs e').link)
    (he : ∀ e', e' ≠ e → ((s'.envs e').status = .free ↔ (s.envs e').status = .free)) : EnvInv (e :: L) s' where
  chain := by
    refine ⟨hf, ?_⟩
    simp only [hk]
    exact h.chain.congr fun e' he' => hl e' fun hc => hn (hc ▸ he')
  nodup := List.nodup_cons.mpr ⟨hn, h.nodup⟩
  mem := by
    intro e'
    by_cases hc : e' = e
    case pos => simp [hc, hs]
    case neg => rw [List.mem_cons, or_iff_right hc, h.mem, he e' hc]

theorem EnvInv.newEnv (h : EnvInv (e :: L) s) : EnvInv L (s.newEnv e p parentId) := by
  have hne : ∀ e', e' ≠ e → (s.newEnv e p parentId).envs e' = s.envs e' := by
    intro e' hc
    simp only [Kernel.newEnv, setEnv, update_of_ne hc]
    rfl
  refine h.pop rfl ?_ (fun e' hc => by rw [hne e' hc]) fun e' hc => by rw [hne e' hc]
  simp [Kernel.newEnv, setEnv, freshEnv]

end NewEnv

end Jos
