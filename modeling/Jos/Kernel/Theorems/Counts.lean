import Jos.Kernel.Theorems.Isolation
import Jos.Kernel.Theorems.Protect

-- How many references a page can get, and when `pp_ref` is still exact.

open Function RefCount Program

namespace Jos

open Kernel

variable {M F F' : Set Ppn} {l : List Ppn} {s s' : Kernel} {c : CpuIx} {a e : EnvIx} {i j : Ptx} {p q pd : Ppn}
  {k : Call} {va perm : Word} {b : BootInfo} {ok : Kernel → EnvIx → Call → Prop}

namespace Kernel

-- The entry in which the call `k` of `a` stores a page that is mapped already.
def dest (s : Kernel) (a : EnvIx) (k : Call) : Option Ref :=
  match k.sysno with
  | some .pageMap    => (s.findEnv a k.a₃ true).map fun e => .pte e (pdx k.a₄) (ptx k.a₄)
  | some .ipcTrySend =>
    (s.findEnv a k.a₁ false).map fun e => .pte e (pdx (s.envs e).ipcDstva) (ptx (s.envs e).ipcDstva)
  | _                => none

-- The call asks for one more mapping of a page than `pp_ref` can count.
def Fills (s : Kernel) (a : EnvIx) (k : Call) : Prop :=
  ∃ p r, s.source a k = some p ∧ s.dest a k = some r ∧ s.target r ≠ some p ∧ s.refs p = 2 ^ 16 - 1

end Kernel

namespace PageInv

variable (h : PageInv M F l s) (hd : s.pgdirOf e = some pd)

-- A new page table does not add references to a page that is in use.
include h hd in
theorem refs_ensureTable (hi : i.val < pdxUtop) (hp : p ∉ l) : (s.ensureTable pd i).refs p = s.refs p := by
  simp only [Kernel.ensureTable]
  split
  case h_1 ht hl =>
    obtain ⟨l', rfl⟩ := h.free_of_head hl
    have ht' : s.tableOf e i = none := by rw [tableOf_eq hd, ht]
    rw [Kernel.refs, h.target_addTable hd hi ht']
    refine refs_update_of_ne ?_ ?_
    case refine_1 => simp [target_pde hi, ht']
    case refine_2 =>
      rintro ⟨⟩
      simp at hp
  case h_2 => rfl

-- Mapping a page adds one reference, unless it is mapped there already.
include h hd in
theorem refs_mapPage (hi : (pdx va).val < pdxUtop) (hn : ¬s.NoTable pd (pdx va)) (hp : FlagsOnly perm)
    (hx : Held F F' s p) (hl : p ∉ l) :
    (s.mapPage c pd p va perm).refs p + (if s.target (.pte e (pdx va) (ptx va)) = some p then 1 else 0) =
      s.refs p + 1 := by
  have ht : (s.ensureTable pd (pdx va)).target (.pte e (pdx va) (ptx va)) = s.target (.pte e (pdx va) (ptx va)) := by
    rw [target_pte hi, target_pte hi, h.pteOf_ensureTable hd hi]
  have hu := refs_update (f := (s.ensureTable pd (pdx va)).target) (r := .pte e (pdx va) (ptx va)) (x := some p)
    (a := p)
  rw [Kernel.refs, h.target_mapPage hd hi hn hp hx, ← ht, hu, if_pos rfl, ← h.refs_ensureTable hd hi hl]
  rfl

-- Freeing an environment only takes references away.
include h hd in
theorem refs_freeEnv : (s.freeEnv c e pd).refs p ≤ s.refs p := by
  obtain ⟨-, hs, hn⟩ := h.cleared (c := c) hd
  refine refs_le fun r => ?_
  rw [Kernel.freeEnv, target_dropRef, target_retire hn, ← target_leave (s := s) (c := c) (e := e)]
  by_cases hr : r = .pgdir e
  case pos => exact .inr (by rw [hr, update_self])
  case neg =>
    rw [update_of_ne hr]
    exact hs.target

end PageInv

-- What fits before the call fits after it.
theorem Kernel.Effect.refs_lt (h : MemInv M s) (hx : Effect c a k s s') (hp : FlagsOnly k.perm)
    (hf : ¬s.Fills a k) (hs : s.source a k = some p) : s'.refs p < 2 ^ 16 := by
  have hfit := h.refsFit p
  obtain ⟨l, L, h, -⟩ := h
  have hmap : ∀ {e : EnvIx} {pd : Ppn} {va : Word}, s.dest a k = some (.pte e (pdx va) (ptx va)) →
      s.pgdirOf e = some pd → (pdx va).val < pdxUtop → ¬s.NoTable pd (pdx va) →
      ∀ {e₀ : EnvIx} {i₀ j₀ : Ptx}, s.target (.pte e₀ i₀ j₀) = some p →
      (s.mapPage c pd p va k.perm).refs p < 2 ^ 16 := by
    intro e pd va hdst hd hi hn e₀ i₀ j₀ hr
    have hrefs := h.refs_mapPage (c := c) hd hi hn hp (.mapped rfl hr) (h.pool.not_free_of_ref hr)
    split at hrefs
    case isTrue => omega
    case isFalse hne =>
      have hlt : s.refs p ≠ 2 ^ 16 - 1 := fun he => hf ⟨p, _, hs, hdst, hne, he⟩
      omega
  cases hx
  case skip => exact hfit
  case alloc e pd pp hk _ hd hv _ hl hn =>
    have hs' : s.source a k = some pp := by simp [source, hk, hl]
    cases hs.symm.trans hs'
    have hp' : FlagsOnly k.a₃ := by simpa [Call.perm, hk] using hp
    obtain ⟨l', rfl⟩ := h.free_of_head hl
    have hx : PageInv.Held (insert p ∅) ∅ (s.popFree p) p := .flight rfl (by simp)
    have hpop := h.popFree
    have hz : (s.popFree p).refs p = 0 := (hpop.pool.flight (Set.mem_insert p ∅)).2
    have hrefs := hpop.refs_mapPage (c := c) hd (pdx_lt (lt_utop_of_badVa hv)) hn hp' hx
      (hpop.pool.not_free_of_flight (Set.mem_insert p ∅))
    omega
  case map e₀ e pd pp hk he₀ he hd _ hv _ hr _ hn =>
    have hs' : s.source a k = some pp := by simp [source, hk, he₀, hr]
    cases hs.symm.trans hs'
    have hk' : k.perm = k.a₅ := by simp [Call.perm, hk]
    rw [← hk']
    exact hmap (by simp [dest, hk, he]) hd (pdx_lt (lt_utop_of_badVa hv)) hn hr
  case send e pd pp hk he _ hd _ hv _ hr _ hn =>
    have hs' : s.source a k = some pp := by simp [source, hk, hr]
    cases hs.symm.trans hs'
    have hk' : k.perm = k.a₄ := by simp [Call.perm, hk]
    rw [← hk']
    exact hmap (by simp [dest, hk, he]) hd (pdx_lt hv) hn hr
  case unmap hk _ _ _ => simp [source, hk] at hs
  case fork hk _ _ => simp [source, hk] at hs
  case free e pd _ hd => exact lt_of_le_of_lt (h.refs_freeEnv hd) hfit

-- System calls by any environments, each allowed by `ok` in the state in which it is made.
inductive CallStep (ok : Kernel → EnvIx → Call → Prop) (s : Kernel) : Kernel → Prop
  -- The scheduler makes some live environment the current one.
  | switch {c : CpuIx} {a : EnvIx} (ha : (s.envs a).status ≠ .free) :
    CallStep ok s (s.setCpu c fun i => { i with env := some a })
  | syscall {c : CpuIx} {a : EnvIx} {k : Call} {s' : Kernel} (ha : s.cur c = some a)
    (hl : (s.envs a).status ≠ .free) (hk : ok s a k) (hr : Leaves (k.run c) s s') : CallStep ok s s'

-- A call that does not map a page too often.
def Counted (s : Kernel) (a : EnvIx) (k : Call) : Prop :=
  FlagsOnly k.perm ∧ ¬s.Fills a k

theorem CallStep.memInv (hs : CallStep ok s s') (hok : ∀ s a k, ok s a k → Counted s a k) (h : MemInv M s) :
    MemInv M s' := by
  cases hs
  case switch => exact h.sameMem .setCpu
  case syscall c a k ha hl hk hr =>
    have ⟨l, L, hi, _⟩ := h
    obtain ⟨hp, hf⟩ := hok s a k hk
    obtain ⟨_, s₁, ⟨y, rfl⟩, hx, hs⟩ := hr.after hi ha hl
    have hu : UpToAddr s { s with userMemCheckAddr := y } := ⟨y, rfl⟩
    have hy := h.sameMem hu.sameMem
    exact (hx.memInv hy hp fun p hp' => hx.refs_lt hy hp hf hp').sameMem hs

theorem CallStep.run_memInv (hr : Relation.ReflTransGen (CallStep ok) s s')
    (hok : ∀ s a k, ok s a k → Counted s a k) (h : MemInv M s) : MemInv M s' := by
  induction hr
  case refl => exact h
  case tail _ hs ih => exact hs.memInv hok ih

-- The kernel creates and frees environments by itself.
abbrev SetupRun : Kernel → Kernel → Prop :=
  Relation.ReflTransGen (MemStep fun _ => False)

theorem SetupRun.memInv (hr : SetupRun s s') (h : MemInv M s) : MemInv M s' := by
  induction hr
  case refl => exact h
  case tail _ hs ih => exact hs.memInv_of ih fun _ _ hp _ => hp.elim

-- In every run in which no call asks for one more mapping of a page that has 2^16 - 1 references, all counts are
-- exact, and no page on the free list is in use.
theorem pp_ref_exact {s₀ s₁ s₂ s₃ : Kernel} (hb : b.Valid) (hm : (memInit b c).run s₀ = .ok () s₁)
    (he : envInit.run s₁ = .ok () s₂) (hs : SetupRun s₂ s₃) (hr : Relation.ReflTransGen (CallStep Counted) s₃ s)
    (hp : p ∈ b.managed) :
    (s.pages p).ref.toNat = s.refs p ∧ ∀ l, s.FreeList l → p ∈ l → ∀ r, s.target r ≠ some p := by
  obtain ⟨l, L, h, -⟩ := CallStep.run_memInv hr (fun _ _ _ => id) (hs.memInv (boot_memInv hb hm he))
  refine ⟨h.ref_eq hp, fun l' hl' hp' r => ?_⟩
  cases hl'.unique h.chain
  exact h.pool.not_ref_of_free hp'

theorem Leaves.exists {α : Type} (m : K α) (s : Kernel) : ∃ s', Leaves m s s' := by
  cases hr : m.run s
  case ok x s' => exact ⟨s', .inl ⟨x, hr⟩⟩
  case error x s' => exact ⟨s', .inr ⟨x, hr⟩⟩

-- The first environment of the booted machine allocates a page.
theorem pp_ref_exact_alloc :
    ∃ s₁ s₂ e s₃ s, (memInit pc 0).run powerOn = .ok () s₁ ∧ envInit.run s₁ = .ok () s₂ ∧
      (envAlloc 0#32).run s₂ = .ok (.ok e) s₃ ∧
      Leaves (Call.run 0 ⟨4#32, 0#32, 0x1000#32, 7#32, 0#32, 0#32⟩) (s₃.setCpu 0 fun i => { i with env := some e }) s ∧
      (s.pages 16638#20).ref.toNat = s.refs 16638#20 := by
  obtain ⟨s₁, s₂, e, s₃, h₁, h₂, hr, hl, -⟩ := pc_envAlloc
  obtain ⟨s, hs⟩ := Leaves.exists (Call.run 0 ⟨4#32, 0#32, 0x1000#32, 7#32, 0#32, 0#32⟩)
    (s₃.setCpu 0 fun i => { i with env := some e })
  have hk : Counted (s₃.setCpu 0 fun i => { i with env := some e }) e ⟨4#32, 0#32, 0x1000#32, 7#32, 0#32, 0#32⟩ := by
    refine ⟨by decide, ?_⟩
    rintro ⟨p, r, -, hd, -⟩
    cases hd
  have hsw : CallStep Counted s₃ (s₃.setCpu 0 fun i => { i with env := some e }) := .switch hl
  have hrun := (Relation.ReflTransGen.single hsw).tail (.syscall (by simp [Kernel.cur, setCpu]) hl hk hs)
  exact ⟨s₁, s₂, e, s₃, s, h₁, h₂, hr, hs, (pp_ref_exact pc_valid h₁ h₂ (.single (.envAlloc hr)) hrun pc_last).1⟩

end Jos
