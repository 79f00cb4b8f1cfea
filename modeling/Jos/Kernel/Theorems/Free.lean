import Jos.Kernel.Theorems.Env

-- `env_free` in a state that satisfies the allocator's invariant.

open Function RefCount Program

namespace Jos

open Kernel

variable {M F F' : Set Ppn} {l l' : List Ppn} {L : List EnvIx} {s s' : Kernel} {c : CpuIx}
  {e e' : EnvIx} {i i' j j' : Ptx} {pd t p q pp : Ppn} {va perm w : Word} {r : Ref}

namespace Kernel

-- The inner and the outer loop of `env_free` as functions on states.
@[irreducible]
def clearPages (s : Kernel) (c : CpuIx) (pd : Ppn) (i : Ptx) : Kernel :=
  (List.finRange 1024).foldl (fun s j => s.unmapPage c pd (pgaddr i j)) s

def clearTable (s : Kernel) (c : CpuIx) (pd : Ppn) (i : Ptx) : Kernel :=
  match s.table pd i with
  | none   => s
  | some t => ((s.clearPages c pd i).setMem pd i 0#32).dropRef t

@[irreducible]
def clearTables (s : Kernel) (c : CpuIx) (pd : Ppn) : Kernel :=
  userPdxs.foldl (fun s i => s.clearTable c pd i) s

-- Leaves the address space of `e` if it is the current one.
def leave (s : Kernel) (c : CpuIx) (e : EnvIx) : Kernel :=
  if s.cur c = some e then s.setCpu c fun i => { i with cr3 := s.kernPgdir, tlb := [] } else s

def retire (s : Kernel) (e : EnvIx) : Kernel :=
  { s.setEnv e fun v => { v with pgdir := none, status := .free, link := s.envFreeList } with
    envFreeList := some e }

def freeEnv (s : Kernel) (c : CpuIx) (e : EnvIx) (pd : Ppn) : Kernel :=
  ((((s.leave c e).clearTables c pd)).retire e).dropRef pd

-- The page directory and the page tables of `e`.
def OwnTable (s : Kernel) (e : EnvIx) (q : Ppn) : Prop :=
  s.pgdirOf e = some q ∨ ∃ i, s.target (.pde e i) = some q

theorem OwnTable.table (h : s.OwnTable e q) : s.Table q := by
  obtain hd | ⟨i, ht⟩ := h
  case inl => exact .inr <| .inl ⟨e, hd⟩
  case inr => exact .inr <| .inr ⟨e, i, ht⟩

-- The environment `e` has lost mappings and page tables, and nothing else has changed.
structure Shrinks (e : EnvIx) (s s' : Kernel) : Prop where
  same   : SameEnvs s s'
  target : ∀ {r}, s'.target r = s.target r ∨ s'.target r = none
  other  : ∀ {e' i j}, e' ≠ e → i.val < pdxUtop → s'.pteOf e' i j = s.pteOf e' i j
  mem    : ∀ {q}, ¬s.OwnTable e q → s'.mem q = s.mem q

namespace Shrinks

theorem refl : Shrinks e s s :=
  ⟨.refl, .inl rfl, fun _ _ => rfl, fun _ => rfl⟩

theorem ownTable (h : Shrinks e s s') (ht : s'.OwnTable e q) : s.OwnTable e q := by
  obtain hd | ⟨i, ht⟩ := ht
  case inl => exact .inl (h.same.pgdirOf ▸ hd)
  case inr =>
    cases h.target (r := .pde e i)
    case inl he => exact .inr ⟨i, he ▸ ht⟩
    case inr he => rw [he] at ht; cases ht

theorem trans {s₁ s₂ s₃ : Kernel} (h : Shrinks e s₁ s₂) (h' : Shrinks e s₂ s₃) : Shrinks e s₁ s₃ where
  same := h.same.trans h'.same
  target {r} := by
    cases h'.target (r := r)
    case inl he => rw [he]; exact h.target
    case inr he => exact .inr he
  other hne hi := (h'.other hne hi).trans (h.other hne hi)
  mem hq := (h'.mem fun ht => hq (h.ownTable ht)).trans (h.mem hq)

theorem none (h : Shrinks e s s') (hr : s.target r = none) : s'.target r = none := by
  cases h.target (r := r)
  case inl he => rw [he, hr]
  case inr he => exact he

end Shrinks

end Kernel

namespace PageInv

variable (h : PageInv M F l s) (hd : s.pgdirOf e = some pd)

include h hd in
theorem shrinks_unmapPage (hi : (pdx va).val < pdxUtop) : Shrinks e s (s.unmapPage c pd va) where
  same := .unmapPage
  target := by
    intro r
    rw [h.target_unmapPage hd hi, update_apply]
    split
    case isTrue => exact .inr rfl
    case isFalse => exact .inl rfl
  other hne hi' := h.pteOf_unmapPage hd hi hi' fun hc => hne hc.1
  mem hq := mem_unmapPage fun ht => hq <| by
    rw [← tableOf_eq hd, ← target_pde hi] at ht
    exact .inr ⟨_, ht⟩

-- Unmapping the pages of one table, for any list of indices.
include h hd in
theorem unmapPages (hi : i.val < pdxUtop) (js : List Ptx) :
    ∃ l', PageInv M F l' (js.foldl (fun s j => s.unmapPage c pd (pgaddr i j)) s) ∧
      Shrinks e s (js.foldl (fun s j => s.unmapPage c pd (pgaddr i j)) s) ∧
      (∀ i', (js.foldl (fun s j => s.unmapPage c pd (pgaddr i j)) s).table pd i' = s.table pd i') ∧
      ∀ j ∈ js, (js.foldl (fun s j => s.unmapPage c pd (pgaddr i j)) s).target (.pte e i j) = none := by
  induction js generalizing s l
  case nil => exact ⟨l, h, .refl, fun _ => rfl, by simp⟩
  case cons j js ih =>
    have hi₀ : (pdx (pgaddr i j)).val < pdxUtop := by rwa [pdx_pgaddr]
    have ⟨l₁, h₁, _⟩ := h.unmapPage (c := c) hd hi₀
    have hs := h.shrinks_unmapPage (c := c) hd hi₀
    have ht := h.target_unmapPage (c := c) hd hi₀
    rw [pdx_pgaddr, ptx_pgaddr] at ht
    have ⟨l₂, h₂, hs₂, htab₂, hn₂⟩ := ih h₁ (hs.same.pgdirOf ▸ hd)
    refine ⟨l₂, h₂, hs.trans hs₂, fun i' => ?_, fun j' hj' => ?_⟩
    case refine_1 => rw [List.foldl_cons, htab₂, h.table_unmapPage hd hi₀]
    case refine_2 =>
      cases List.mem_cons.mp hj'
      case inl he => exact hs₂.none (by rw [ht, he, update_self])
      case inr hm => exact hn₂ j' hm

include h hd in
theorem clearPages (hi : i.val < pdxUtop) :
    ∃ l', PageInv M F l' (s.clearPages c pd i) ∧ Shrinks e s (s.clearPages c pd i) ∧
      (∀ i', (s.clearPages c pd i).table pd i' = s.table pd i') ∧
      ∀ j, (s.clearPages c pd i).target (.pte e i j) = none := by
  have ⟨l', h', hs, ht, hn⟩ := h.unmapPages (c := c) hd hi (List.finRange 1024)
  unfold Kernel.clearPages
  exact ⟨l', h', hs, ht, fun j => hn j (List.mem_finRange j)⟩

include h hd in
theorem envFreePages_run (hi : i.val < pdxUtop) (ht : s.table pd i = some t) :
    (envFreePages c pd i t).run s = .ok () (s.clearPages c pd i) := by
  unfold envFreePages Kernel.clearPages
  refine (run_forM (I := fun s => (∃ l, PageInv M F l s) ∧ s.pgdirOf e = some pd ∧ s.table pd i = some t)
    (fun j _ s hs => ?_) ⟨⟨l, h⟩, hd, ht⟩).1
  obtain ⟨⟨l, h⟩, hd, ht⟩ := hs
  have hi₀ : (pdx (pgaddr i j)).val < pdxUtop := by rwa [pdx_pgaddr]
  have ⟨l₁, h₁, _⟩ := h.unmapPage (c := c) hd hi₀
  refine ⟨?_, ⟨l₁, h₁⟩, by rw [SameEnvs.unmapPage.pgdirOf, hd], by rw [h.table_unmapPage hd hi₀, ht]⟩
  simp only [run_bind, run_get]
  split
  case isTrue => exact h.pageRemove_run hd hi₀
  case isFalse hn => simp [Kernel.unmapPage, ht, entryPage, hn]

theorem clearTable_none (ht : s.table pd i = none) : s.clearTable c pd i = s := by
  simp [Kernel.clearTable, ht]

theorem clearTable_some (ht : s.table pd i = some t) :
    s.clearTable c pd i = ((s.clearPages c pd i).setMem pd i 0#32).dropRef t := by
  simp [Kernel.clearTable, ht]

include h hd in
-- Taking an empty page table out of its page directory.
theorem dropTable (hi : i.val < pdxUtop) (ht : s.table pd i = some t)
    (hn : ∀ j, s.target (.pte e i j) = none) :
    (∃ l', PageInv M F l' ((s.setMem pd i 0#32).dropRef t)) ∧
      Shrinks e s ((s.setMem pd i 0#32).dropRef t) ∧
      ((s.setMem pd i 0#32).dropRef t).target = update s.target (.pde e i) none := by
  have ht' : s.target (.pde e i) = some t := by rw [target_pde hi, tableOf_eq hd, ht]
  have hset : (s.setMem pd i 0#32).target = update s.target (.pde e i) none := by
    rw [h.target_setMem_pgdir hd hi hn (by simp), entryPage_zero]
  have ha : SameAlloc s (s.setMem pd i 0#32) := ⟨rfl, rfl, rfl, rfl⟩
  have hu := h.unlink ht' (h.table_mem ht') ha hset h.dir
  have htar := (target_dropRef (s := s.setMem pd i 0#32) (p := t)).trans hset
  refine ⟨⟨_, hu⟩, ⟨?_, ?_, ?_, ?_⟩, htar⟩
  case refine_1 =>
    exact .trans (t := s.setMem pd i 0#32) ⟨rfl, rfl, rfl, rfl, rfl, rfl, fun _ => rfl⟩ .dropRef
  case refine_2 =>
    intro r
    rw [htar, update_apply]
    split
    case isTrue => exact .inr rfl
    case isFalse => exact .inl rfl
  case refine_3 =>
    intro e' i' j' hne hi'
    rw [pteOf_dropRef, h.pteOf_setMem_pgdir hd hi' (by simp), if_neg fun hc => hne hc.1]
  case refine_4 =>
    intro q hq
    have hne : q ≠ pd := fun he => hq <| .inl (he ▸ hd)
    rw [mem_dropRef]
    simp [setMem, hne]

include h hd in
theorem clearTable (hi : i.val < pdxUtop) :
    (∃ l', PageInv M F l' (s.clearTable c pd i)) ∧ Shrinks e s (s.clearTable c pd i) ∧
      (s.clearTable c pd i).target (.pde e i) = none := by
  cases ht : s.table pd i
  case none =>
    rw [clearTable_none ht]
    exact ⟨⟨l, h⟩, .refl, by rw [target_pde hi, tableOf_eq hd, ht]⟩
  case some t =>
    have ⟨l₁, h₁, hs₁, htab, hn⟩ := h.clearPages (c := c) hd hi
    rw [clearTable_some ht]
    generalize s.clearPages c pd i = s₁ at h₁ hs₁ htab hn
    have ⟨h₂, hs₂, ht₂⟩ := h₁.dropTable (t := t) (hs₁.same.pgdirOf ▸ hd) hi (by rw [htab, ht]) hn
    exact ⟨h₂, hs₁.trans hs₂, by rw [ht₂, update_self]⟩

theorem envFreeTable_none (ht : s.table pd i = none) : (envFreeTable c pd i).run s = .ok () s := by
  simp [envFreeTable, not_has_of_entryPage ht]

theorem envFreeTable_some {s₁ : Kernel} (ht : s.table pd i = some t) (hb : t.toNat < s.npages)
    (hf : (envFreePages c pd i t).run s = .ok () s₁) (hn : s₁.npages = s.npages)
    (hl : (s₁.pages t).link = none) :
    (envFreeTable c pd i).run s = .ok () ((s₁.setMem pd i 0#32).dropRef t) := by
  have hp := pgnum_of_entryPage ht
  have hk := kaddr_run (s := s) (s.mem pd i) (by rwa [hp])
  have ha := pa2page_run (s := s₁.setMem pd i 0#32) (s.mem pd i) (by rw [hp]; exact hn ▸ hb)
  have hr := pageDecref_run (s := s₁.setMem pd i 0#32) (p := t) fun _ => hl
  rw [hp] at hk ha
  simp only [envFreeTable, run_bind, run_get, has_of_entryPage ht, if_true, hk, hf, run_modify, ha, hr]

include h hd in
theorem envFreeTable_run (hi : i.val < pdxUtop) :
    (envFreeTable c pd i).run s = .ok () (s.clearTable c pd i) := by
  cases ht : s.table pd i
  case none => rw [clearTable_none ht, envFreeTable_none ht]
  case some t =>
    have ⟨l₁, h₁, hs₁, htab, _⟩ := h.clearPages (c := c) hd hi
    have ht₁ : (s.clearPages c pd i).target (.pde e i) = some t := by
      rw [target_pde hi, tableOf_eq (hs₁.same.pgdirOf ▸ hd), htab, ht]
    rw [clearTable_some ht]
    exact envFreeTable_some ht (h.table_bound hd hi ht) (h.envFreePages_run hd hi ht) hs₁.same.npages
      (h₁.link_of_ref (h₁.table_mem ht₁) ht₁)

-- The outer loop, for any list of directory indices.
include h hd in
theorem clearTables_of (is : List Ptx) (hi : ∀ i ∈ is, i.val < pdxUtop) :
    (∃ l', PageInv M F l' (is.foldl (fun s i => s.clearTable c pd i) s)) ∧
      Shrinks e s (is.foldl (fun s i => s.clearTable c pd i) s) ∧
      ∀ i ∈ is, (is.foldl (fun s i => s.clearTable c pd i) s).target (.pde e i) = none := by
  induction is generalizing s l
  case nil => exact ⟨⟨l, h⟩, .refl, by simp⟩
  case cons i is ih =>
    have ⟨⟨l₁, h₁⟩, hs₁, hn₁⟩ := h.clearTable (c := c) hd (hi i (by simp))
    have ⟨h₂, hs₂, hn₂⟩ := ih h₁ (hs₁.same.pgdirOf ▸ hd) fun i' hi' => hi i' (by simp [hi'])
    refine ⟨h₂, hs₁.trans hs₂, fun i' hi' => ?_⟩
    cases List.mem_cons.mp hi'
    case inl he => exact hs₂.none (he ▸ hn₁)
    case inr hm => exact hn₂ i' hm

theorem mem_userPdxs : i ∈ userPdxs ↔ i.val < pdxUtop := by
  simp [userPdxs]

include h hd in
theorem clearTables :
    (∃ l', PageInv M F l' (s.clearTables c pd)) ∧ Shrinks e s (s.clearTables c pd) ∧
      ∀ i, i.val < pdxUtop → (s.clearTables c pd).target (.pde e i) = none := by
  have ⟨h', hs, hn⟩ := h.clearTables_of (c := c) hd userPdxs fun i hi => mem_userPdxs.mp hi
  unfold Kernel.clearTables
  exact ⟨h', hs, fun i hi => hn i (mem_userPdxs.mpr hi)⟩

include h hd in
theorem envFreeTables_run :
    (userPdxs.forM (envFreeTable c pd)).run s = .ok () (s.clearTables c pd) := by
  unfold Kernel.clearTables
  refine (run_forM (I := fun s => (∃ l, PageInv M F l s) ∧ s.pgdirOf e = some pd)
    (fun i hi s hs => ?_) ⟨⟨l, h⟩, hd⟩).1
  obtain ⟨⟨l, h⟩, hd⟩ := hs
  have ⟨h', hs', _⟩ := h.clearTable (c := c) hd (mem_userPdxs.mp hi)
  exact ⟨h.envFreeTable_run hd (mem_userPdxs.mp hi), h', hs'.same.pgdirOf ▸ hd⟩

end PageInv

section Leave

@[simp]
theorem envs_leave : (s.leave c e).envs = s.envs := by
  simp only [leave]
  split <;> rfl

@[simp]
theorem mem_leave : (s.leave c e).mem = s.mem := by
  simp only [leave]
  split <;> rfl

theorem sameAlloc_leave : SameAlloc s (s.leave c e) := by
  simp only [leave]
  split <;> exact ⟨rfl, rfl, rfl, rfl⟩

theorem pgdirOf_leave : (s.leave c e).pgdirOf = s.pgdirOf := by
  funext e'
  simp [pgdirOf]

theorem target_leave : (s.leave c e).target = s.target :=
  target_congr pgdirOf_leave sameAlloc_leave.kernPgdir fun _ _ => by simp

theorem pteOf_leave : (s.leave c e).pteOf = s.pteOf := by
  funext e' i j
  simp [pteOf, tableOf, pgdirOf_leave, table]

theorem ownTable_leave : (s.leave c e).OwnTable e q ↔ s.OwnTable e q := by
  simp [OwnTable, pgdirOf_leave, target_leave]

theorem PageInv.leave (h : PageInv M F l s) : PageInv M F l (s.leave c e) :=
  h.congr sameAlloc_leave target_leave <| by
    intro e'
    rw [envs_leave]
    exact h.dir

end Leave

namespace PageInv

variable (h : PageInv M F l s) (hd : s.pgdirOf e = some pd)

-- The state before the page directory itself is released.
include h hd in
theorem cleared : (∃ l', PageInv M F l' ((s.leave c e).clearTables c pd)) ∧
    Shrinks e (s.leave c e) ((s.leave c e).clearTables c pd) ∧
    ∀ i, i.val < pdxUtop → ((s.leave c e).clearTables c pd).tableOf e i = none := by
  have ⟨h', hs, hn⟩ := (h.leave (c := c) (e := e)).clearTables (c := c) (pgdirOf_leave ▸ hd)
  refine ⟨h', hs, fun i hi => ?_⟩
  rw [← target_pde hi, hn i hi]

theorem pgdirOf_retire_of_ne (hne : e' ≠ e) : (s.retire e).pgdirOf e' = s.pgdirOf e' := by
  simp [pgdirOf, retire, setEnv, hne]

theorem pgdirOf_retire : (s.retire e).pgdirOf e = none := by
  simp [pgdirOf, retire, setEnv]

theorem mem_retire : (s.retire e).mem = s.mem :=
  rfl

theorem cpus_retire : (s.retire e).cpus = s.cpus :=
  rfl

theorem kernPgdir_retire : (s.retire e).kernPgdir = s.kernPgdir :=
  rfl

theorem pteOf_retire (hne : e' ≠ e) : (s.retire e).pteOf e' i j = s.pteOf e' i j := by
  simp only [pteOf, tableOf, pgdirOf_retire_of_ne hne, table, mem_retire]

theorem target_retire (hn : ∀ i, i.val < pdxUtop → s.tableOf e i = none) :
    (s.retire e).target = update s.target (.pgdir e) none := by
  have ho : ∀ e', e' ≠ e → (s.retire e).pgdirOf e' = s.pgdirOf e' := fun _ => pgdirOf_retire_of_ne
  have ht := target_pgdirOf ho rfl rfl hn fun i _ => by simp [tableOf, pgdirOf_retire]
  rwa [pgdirOf_retire] at ht

include h hd in
theorem retire (hn : ∀ i, i.val < pdxUtop → s.tableOf e i = none) :
    ∃ l', PageInv M F l' ((s.retire e).dropRef pd) := by
  refine ⟨_, h.unlink (r := .pgdir e) hd (h.pgdir_mem hd) ⟨rfl, rfl, rfl, rfl⟩ (target_retire hn) ?_⟩
  intro e'
  by_cases hc : e' = e
  case pos => simp [Kernel.retire, setEnv, hc]
  case neg =>
    simp only [Kernel.retire, setEnv, update_of_ne hc]
    exact h.dir

include h hd in
theorem freeEnv : ∃ l', PageInv M F l' (s.freeEnv c e pd) := by
  have ⟨⟨l₁, h₁⟩, hs, hn⟩ := h.cleared (c := c) hd
  have hd₁ : ((s.leave c e).clearTables c pd).pgdirOf e = some pd := by
    rw [hs.same.pgdirOf, pgdirOf_leave, hd]
  exact h₁.retire hd₁ hn

include h hd in
theorem envs_freeEnv : (s.freeEnv c e pd).envs = update s.envs e
    { s.envs e with pgdir := none, status := .free, link := s.envFreeList } := by
  have ⟨_, hs, _⟩ := h.cleared (c := c) hd
  have hl : (s.leave c e).envFreeList = s.envFreeList := by
    simp only [Kernel.leave]
    split <;> rfl
  rw [Kernel.freeEnv, SameEnvs.dropRef.envs, Kernel.retire]
  simp only [setEnv, hs.same.envs, hs.same.free, envs_leave, hl]

theorem envFreeList_freeEnv : (s.freeEnv c e pd).envFreeList = some e := by
  rw [Kernel.freeEnv, SameEnvs.dropRef.free, Kernel.retire]

include h hd in
theorem pteOf_freeEnv (hne : e' ≠ e) (hi : i.val < pdxUtop) :
    (s.freeEnv c e pd).pteOf e' i j = s.pteOf e' i j := by
  have ⟨_, hs, _⟩ := h.cleared (c := c) hd
  rw [Kernel.freeEnv, pteOf_dropRef, pteOf_retire hne, hs.other hne hi, pteOf_leave]

-- Only the page directory and the page tables of the environment are written.
include h hd in
theorem mem_freeEnv_own (hq : ¬s.OwnTable e q) : (s.freeEnv c e pd).mem q = s.mem q := by
  have ⟨_, hs, _⟩ := h.cleared (c := c) hd
  rw [Kernel.freeEnv, mem_dropRef, mem_retire, hs.mem (mt ownTable_leave.mp hq), mem_leave]

include h hd in
theorem mem_freeEnv (hq : ¬s.Table q) : (s.freeEnv c e pd).mem q = s.mem q :=
  h.mem_freeEnv_own hd fun ho => hq ho.table

include h hd in
theorem cpus_freeEnv : ∀ c', { (s.freeEnv c e pd).cpus c' with tlb := [] } =
    { (s.leave c e).cpus c' with tlb := [] } := by
  intro c'
  have ⟨_, hs, _⟩ := h.cleared (c := c) hd
  rw [Kernel.freeEnv, SameEnvs.dropRef.cpus, cpus_retire, hs.same.cpus]

end PageInv

theorem EnvInv.freeEnv (h : PageInv M F l s) (hd : s.pgdirOf e = some pd) (hL : EnvInv L s) :
    EnvInv (e :: L) (s.freeEnv c e pd) := by
  have he : e ∉ L := by
    rw [hL.mem]
    intro hf
    rw [pgdirOf_free hf] at hd
    cases hd
  refine ⟨?_, List.nodup_cons.mpr ⟨he, hL.nodup⟩, ?_⟩
  case refine_1 =>
    rw [h.envs_freeEnv hd, PageInv.envFreeList_freeEnv]
    refine (hL.chain.push he).congr fun e' _ => ?_
    by_cases hc : e' = e <;> simp [hc]
  case refine_2 =>
    intro e'
    rw [h.envs_freeEnv hd, List.mem_cons]
    by_cases hc : e' = e
    case pos => simp [hc]
    case neg => simp only [hc, false_or, update_of_ne hc]; exact hL.mem

theorem pgdirOf_pgdir (hd : s.pgdirOf e = some pd) : (s.envs e).pgdir = some pd := by
  simp only [pgdirOf] at hd
  split at hd
  case isTrue => cases hd
  case isFalse => exact hd

-- The order in which `env_free` writes the fields of the environment does not matter.
theorem envFreeDir_run (hb : pd.toNat < s.npages) (hl : (s.pages pd).link = none) :
    (envFreeDir e pd).run s = .ok () ((s.retire e).dropRef pd) := by
  have ha := pa2page_run (s := s.setEnv e fun v => { v with pgdir := none }) (page2pa pd)
    (by rwa [pgnum_page2pa])
  have hr := pageDecref_run (s := s.setEnv e fun v => { v with pgdir := none }) (p := pd) fun _ => hl
  rw [pgnum_page2pa] at ha
  simp only [envFreeDir, run_bind, run_modify, ha, hr, run_get, run_set]
  by_cases h1 : (s.pages pd).ref = 1#16
  case pos => simp [dropRef, setEnv, Kernel.retire, decRef, pushFree, setPage, h1]
  case neg => simp [dropRef, setEnv, Kernel.retire, decRef, setPage, h1]

theorem PageInv.envFree_run (h : PageInv M F l s) (hd : s.pgdirOf e = some pd) :
    (envFree c e).run s = .ok () (s.freeEnv c e pd) := by
  have ⟨⟨l₁, h₁⟩, hs, _⟩ := h.cleared (c := c) hd
  have hf := (h.leave (c := c) (e := e)).envFreeTables_run (c := c) (pgdirOf_leave ▸ hd)
  have hp : ((s.leave c e).envs e).pgdir = some pd := by rw [envs_leave, pgdirOf_pgdir hd]
  have hd₁ : ((s.leave c e).clearTables c pd).pgdirOf e = some pd := by
    rw [hs.same.pgdirOf, pgdirOf_leave, hd]
  have hm := h₁.pgdir_mem hd₁
  have ht := envFreeDir_run (e := e) (h₁.bound hm) (h₁.link_of_ref (r := .pgdir e) hm hd₁)
  rw [Kernel.freeEnv]
  by_cases hc : s.cur c = some e
  case pos =>
    simp only [Kernel.leave, if_pos hc] at hp hf ht ⊢
    simp only [envFree, envPgdir, run_bind, run_get, if_pos hc, lcr3, run_modify, hp, run_pure, hf, ht]
  case neg =>
    simp only [Kernel.leave, if_neg hc] at hp hf ht ⊢
    simp only [envFree, envPgdir, run_bind, run_get, if_neg hc, hp, run_pure, hf, ht]

end Jos
