import Jos.Kernel.Theorems.EnvCalls
import Jos.Kernel.Theorems.Blank

-- The identifiers of environments over whole histories of allocation and destruction.

open Function Program

namespace Jos

open Kernel

variable {s s' s₀ s₁ : Kernel} {c : CpuIx} {e e' : EnvIx} {n : Nat} {log : List (EnvIx × EnvId)}
  {o : Option (EnvIx × EnvId)} {id : EnvId} {check : Bool}

section Arithmetic

theorem toNat_and_not_low (x : Word) : (x &&& ~~~0x3FF#32).toNat = x.toNat / 1024 * 1024 := by
  have h : x &&& ~~~0x3FF#32 = x >>> 10 <<< 10 := by
    ext i hi
    have hm : (0xFFFFFC00#32).getLsbD i = decide (10 ≤ i) := by
      have : ∀ i < 32, (0xFFFFFC00#32).getLsbD i = decide (10 ≤ i) := by decide
      exact this i hi
    by_cases hi' : i < 10
    case pos =>
      have : ¬10 ≤ i := by omega
      simp [hi', hm, ← BitVec.getLsbD_eq_getElem, this]
    case neg =>
      have h₁ : 10 + (i - 10) = i := by omega
      have h₂ : 10 ≤ i := by omega
      simp [hi', hm, ← BitVec.getLsbD_eq_getElem, h₁, h₂, hi]
  rw [h]
  simp [Nat.shiftRight_eq_div_pow, Nat.shiftLeft_eq]
  have := x.isLt
  omega

-- The slot's index fits below the generation.
theorem or_slot {x : Word} {k : Nat} (e : EnvIx) (hx : x.toNat = k * 4096) :
    x ||| BitVec.ofNat 32 e = BitVec.ofNat 32 (k * 4096 + e) := by
  have hk := x.isLt
  have he := e.isLt
  have hs : k * 4096 = k <<< 12 := (Nat.shiftLeft_eq k 12).symm
  have ha : k <<< 12 + e = k <<< 12 ||| e := Nat.shiftLeft_add_eq_or_of_lt (by omega) k
  have he' : (e : Nat) % 2 ^ 32 = e := by omega
  have hm : (k * 4096 + e) % 2 ^ 32 = k * 4096 + e := Nat.mod_eq_of_lt (by omega)
  refine BitVec.eq_of_toNat_eq ?_
  simp only [BitVec.toNat_or, hx, BitVec.toNat_ofNat, he', hm]
  rw [hs, ha]

-- The generation counts from 1 up to 2 ^ 19 - 1, and then from 1 again.
theorem nextEnvId_eq {g r : Nat} (e : EnvIx) (hg : g < 2 ^ 19) (hr : r < 1024) :
    nextEnvId (BitVec.ofNat 32 (g * 4096 + r)) e =
      BitVec.ofNat 32 ((if g + 1 = 2 ^ 19 then 1 else g + 1) * 4096 + e) := by
  have hn : ((BitVec.ofNat 32 (g * 4096 + r) + 1#32 <<< envgenshift) &&& ~~~0x3FF#32).toNat = (g + 1) * 4096 := by
    have hs : (1#32 <<< envgenshift).toNat = 4096 := by decide
    rw [toNat_and_not_low, BitVec.toNat_add, hs, BitVec.toNat_ofNat]
    omega
  simp only [nextEnvId]
  split
  case isTrue hs =>
    rw [BitVec.sle_iff_toInt_le, BitVec.toInt_eq_toNat_cond, hn] at hs
    have hg' : g + 1 = 2 ^ 19 := by
      simp at hs
      split at hs <;> omega
    rw [if_pos hg', or_slot (k := 1) e (by decide)]
  case isFalse hs =>
    rw [BitVec.sle_iff_toInt_le, BitVec.toInt_eq_toNat_cond, hn] at hs
    have hg' : g + 1 ≠ 2 ^ 19 := by
      simp at hs
      split at hs <;> omega
    rw [if_neg hg', or_slot e hn]

-- The identifier which the slot `e` gets when it is allocated for the `n`-th time, counted from zero.
def idAt (e : EnvIx) (n : Nat) : EnvId :=
  BitVec.ofNat 32 ((n % (2 ^ 19 - 1) + 1) * 4096 + e)

theorem toNat_idAt : (idAt e n).toNat = (n % (2 ^ 19 - 1) + 1) * 4096 + e := by
  have h := Nat.mod_lt n (show 0 < 2 ^ 19 - 1 by decide)
  have he := e.isLt
  rw [idAt, BitVec.toNat_ofNat]
  omega

theorem nextEnvId_zero (e : EnvIx) : nextEnvId 0#32 e = idAt e 0 := by
  have h := nextEnvId_eq (g := 0) (r := 0) e (by decide) (by decide)
  simpa [idAt] using h

theorem nextEnvId_idAt : nextEnvId (idAt e n) e = idAt e (n + 1) := by
  have h := Nat.mod_lt n (show 0 < 2 ^ 19 - 1 by decide)
  rw [idAt, nextEnvId_eq e (by omega) e.isLt, idAt]
  congr 3
  split <;> omega

theorem idAt_pos : (0#32).slt (idAt e n) = true := by
  have h := Nat.mod_lt n (show 0 < 2 ^ 19 - 1 by decide)
  have he := e.isLt
  have hn := toNat_idAt (e := e) (n := n)
  rw [BitVec.slt_iff_toInt_lt, BitVec.toInt_eq_toNat_cond (idAt e n), hn]
  simp only [BitVec.toInt_zero]
  split <;> omega

theorem envx_idAt : envx (idAt e n) = e := by
  have he := e.isLt
  refine Fin.ext ?_
  simp only [envx, BitVec.toNat_and, toNat_idAt]
  have : (0x3FF#32).toNat = 2 ^ 10 - 1 := by decide
  rw [this, Nat.and_two_pow_sub_one_eq_mod]
  omega

theorem idAt_ne_zero : idAt e n ≠ 0#32 := by
  intro h
  have hn := toNat_idAt (e := e) (n := n)
  rw [h] at hn
  simp only [BitVec.toNat_ofNat, Nat.zero_mod] at hn
  omega

-- Two allocations of a slot that are not a full cycle apart differ.
theorem idAt_ne {m : Nat} (h : m < n) (hd : n - m < 2 ^ 19 - 1) : idAt e m ≠ idAt e n := by
  intro he
  have hm := toNat_idAt (e := e) (n := m)
  rw [he, toNat_idAt] at hm
  omega

end Arithmetic

-- `env_free` needs the page directory.
theorem envFree_pgdir (hr : (envFree c e).run s = .ok () s') : ∃ pd, (s.envs e).pgdir = some pd := by
  cases hd : (s.envs e).pgdir
  case some pd => exact ⟨pd, rfl⟩
  case none =>
    by_cases hc : s.cur c = some e
    all_goals simp [envFree, lcr3, envPgdir, setCpu, hc, hd] at hr

-- A call of `env_alloc` or of `env_free`, and what it has allocated.
inductive IdStep (s : Kernel) : Option (EnvIx × EnvId) → Kernel → Prop
  | alloc {parentId : EnvId} {e : EnvIx} {s' : Kernel} (h : (envAlloc parentId).run s = .ok (.ok e) s') :
    IdStep s (some (e, (s'.envs e).id)) s'
  | fail {parentId : EnvId} {w : Word} {s' : Kernel} (h : (envAlloc parentId).run s = .ok (.error w) s') :
    IdStep s none s'
  | free {c : CpuIx} {e : EnvIx} {s' : Kernel} (hl : (s.envs e).status ≠ .free)
    (h : (envFree c e).run s = .ok () s') : IdStep s none s'

-- A history, with the allocations so far, the latest one first.
inductive IdRun (s₀ : Kernel) : List (EnvIx × EnvId) → Kernel → Prop
  | refl : IdRun s₀ [] s₀
  | tail {log : List (EnvIx × EnvId)} {o : Option (EnvIx × EnvId)} {s s' : Kernel} (h : IdRun s₀ log s)
    (hs : IdStep s o s') : IdRun s₀ (o.toList ++ log) s'

-- The identifiers the slot has been given, the latest one first.
def issued (e : EnvIx) (log : List (EnvIx × EnvId)) : List EnvId :=
  (log.filter (·.1 = e)).map (·.2)

theorem issued_self : issued e ((e, id) :: log) = id :: issued e log := by
  simp [issued]

theorem issued_of_ne (hne : e' ≠ e) : issued e ((e', id) :: log) = issued e log := by
  simp [issued, hne]

-- The slot `e` has been allocated `n` times.
structure IdInv.Slot (log : List (EnvIx × EnvId)) (e : EnvIx) (v : Env) (n : Nat) : Prop where
  issued : issued e log = ((List.range n).map (idAt e)).reverse
  id     : v.id = if n = 0 then 0#32 else idAt e (n - 1)
  live   : v.status ≠ .free → n ≠ 0

structure IdInv (log : List (EnvIx × EnvId)) (s : Kernel) : Prop where
  envs  : ∃ L, EnvInv L s
  slots : ∀ e, ∃ n, IdInv.Slot log e (s.envs e) n

theorem IdInv.Slot.alloc {v v' : Env} (h : Slot log e v n) (hi : v'.id = nextEnvId v.id e) :
    Slot ((e, v'.id) :: log) e v' (n + 1) := by
  have hn : v'.id = idAt e n := by
    rw [hi, h.id]
    by_cases hz : n = 0
    case pos => rw [if_pos hz, nextEnvId_zero, hz]
    case neg =>
      rw [if_neg hz, nextEnvId_idAt]
      congr 1
      omega
  refine ⟨?_, by simpa using hn, by simp⟩
  rw [issued_self, h.issued, List.range_succ, hn]
  simp

theorem IdInv.Slot.congr {v v' : Env} (h : Slot log e v n) (hi : v'.id = v.id)
    (hs : v'.status ≠ .free → v.status ≠ .free) : Slot log e v' n :=
  ⟨h.issued, hi.trans h.id, fun hl => h.live (hs hl)⟩

theorem IdInv.sameTable (h : IdInv log s) (hs : SameTable s s') : IdInv log s' := by
  obtain ⟨⟨L, hL⟩, h⟩ := h
  refine ⟨⟨L, ?_, hL.nodup, ?_⟩, fun e => ?_⟩
  case refine_1 =>
    rw [hs.envs, hs.free]
    exact hL.chain
  case refine_2 =>
    rw [hs.envs]
    exact hL.mem
  case refine_3 =>
    rw [hs.envs]
    exact h e

theorem IdInv.step (h : IdInv log s) (hs : IdStep s o s') : IdInv (o.toList ++ log) s' := by
  cases hs
  case fail parentId w hr =>
    obtain ⟨_, hx, hs⟩ | ⟨e, p, _, hx, _⟩ := wp_ok envAlloc_table hr
    case inl => exact h.sameTable hs
    case inr => cases hx
  case alloc parentId e hr =>
    obtain ⟨_, hx, _⟩ | ⟨e', p, he, hx, hs⟩ := wp_ok envAlloc_table hr
    case inl => cases hx
    case inr =>
      cases hx
      obtain ⟨⟨L, hL⟩, h⟩ := h
      obtain ⟨L', hL'⟩ := hL.of_head he
      subst hL'
      have hself : s'.envs e = freshEnv { s.envs e with pgdir := some p } e parentId := by simp [hs.envs, setEnv]
      have hne : ∀ e', e' ≠ e → s'.envs e' = s.envs e' := fun e' hc => by simp [hs.envs, setEnv, hc]
      refine ⟨⟨L', hL.pop hs.free ?_ (fun e' hc => by rw [hne e' hc]) fun e' hc => by rw [hne e' hc]⟩, fun e' => ?_⟩
      case refine_1 => simp [hself, freshEnv]
      case refine_2 =>
        obtain ⟨n, hn⟩ := h e'
        by_cases hc : e' = e
        case pos =>
          subst hc
          exact ⟨n + 1, hn.alloc (by simp [hself, freshEnv])⟩
        case neg =>
          rw [hne e' hc]
          exact ⟨n, (issued_of_ne (Ne.symm hc)).trans hn.issued, hn.id, hn.live⟩
  case free c e hl hr =>
    obtain ⟨pd, hd⟩ := envFree_pgdir hr
    have hs := wp_ok (envFree_table hd) hr
    have hself : s'.envs e = { s.envs e with pgdir := none, status := .free, link := (s.leave c e).envFreeList } := by
      simp [hs.envs, Kernel.retire, setEnv, envs_leave]
    have hne : ∀ e', e' ≠ e → s'.envs e' = s.envs e' := fun e' hc => by
      simp [hs.envs, Kernel.retire, setEnv, hc, envs_leave]
    have hk : (s.leave c e).envFreeList = s.envFreeList := by
      simp only [leave]
      split <;> rfl
    obtain ⟨⟨L, hL⟩, h⟩ := h
    refine ⟨⟨e :: L, hL.push (mt hL.mem.mp hl) hs.free ?_ ?_ (fun e' hc => by rw [hne e' hc])
      fun e' hc => by rw [hne e' hc]⟩, fun e' => ?_⟩
    case refine_1 => rw [hself, hk]
    case refine_2 => rw [hself]
    case refine_3 =>
      obtain ⟨n, hn⟩ := h e'
      refine ⟨n, hn.congr ?_ ?_⟩
      all_goals by_cases hc : e' = e
      all_goals simp [hc, hself, hne]

theorem IdInv.run (h : IdInv [] s₀) (hr : IdRun s₀ log s) : IdInv log s := by
  induction hr
  case refl => exact h
  case tail hs ih => exact ih.step hs

theorem envInit_ids (hi : envInit.run s₁ = .ok () s₀) : IdInv [] s₀ := by
  rw [envInit_run] at hi
  have hm : ∀ e, e ∈ (List.finRange 1024).reverse := fun e => List.mem_reverse.mpr (List.mem_finRange e)
  have hn : (List.finRange 1024).reverse.Nodup := List.nodup_reverse.mpr (List.nodup_finRange _)
  generalize (List.finRange 1024).reverse = l at hi hm hn
  obtain ⟨hc, hf, -⟩ := pushEnvs (s := { s₁ with envFreeList := none }) (L := []) rfl hn (by simp)
  have hs : l.foldl pushEnv { s₁ with envFreeList := none } = s₀ := by
    injection hi
  rw [hs] at hc hf
  rw [List.append_nil] at hc
  refine ⟨⟨l.reverse, hc, List.nodup_reverse.mpr hn, ?_⟩, fun e => ⟨0, rfl, ?_, ?_⟩⟩
  case refine_1 =>
    intro e
    simp [hm e, (hf e (.inl (hm e))).1]
  case refine_2 => exact (hf e (.inl (hm e))).2
  case refine_3 => exact fun h => absurd (hf e (.inl (hm e))).1 h

-- Where an identifier stands in the history of its slot.
theorem IdInv.Slot.split {v : Env} {newer older : List EnvId} (h : Slot log e v n)
    (hs : Jos.issued e log = newer ++ id :: older) :
    newer.length + older.length + 1 = n ∧ id = idAt e older.length ∧
      older = ((List.range older.length).map (idAt e)).reverse := by
  have hr : (List.range n).map (idAt e) = older.reverse ++ (id :: newer.reverse) := by
    have := congrArg List.reverse (h.issued.symm.trans hs)
    simpa using this
  have hl := congrArg List.length hr
  simp only [List.length_map, List.length_range, List.length_append, List.length_reverse, List.length_cons] at hl
  refine ⟨by omega, ?_, ?_⟩
  case refine_1 =>
    have hk := congrArg (·[older.length]?) hr
    have hlt : older.length < n := by omega
    simpa [hlt] using hk.symm
  case refine_2 =>
    have hk := congrArg (List.take older.length) hr
    have hmin : min older.length n = older.length := by omega
    rw [← List.map_take, List.take_range, hmin, List.take_left' (by simp)] at hk
    rw [hk, List.reverse_reverse]

-- After `env_init`, over every history of `env_alloc` and `env_free`: the free list has the free slots, each once;
-- identifiers of allocated environments are positive, name their slot and are unique; the identifier an
-- allocation gives is none of the previous 2 ^ 19 - 2 identifiers of its slot; and an identifier whose environment
-- has been destroyed is not found until its slot has been allocated 2 ^ 19 - 1 times again.
theorem env_ids_unique (hi : envInit.run s₁ = .ok () s₀) (hr : IdRun s₀ log s) :
    (∃ L, Linked.Chain (fun e => (s.envs e).link) s.envFreeList L ∧ L.Nodup ∧
      ∀ {e}, e ∈ L ↔ (s.envs e).status = .free) ∧
    (∀ {e}, (s.envs e).status ≠ .free → (0#32).slt (s.envs e).id = true ∧ envx (s.envs e).id = e) ∧
    (∀ {e e'}, (s.envs e).status ≠ .free → (s.envs e').status ≠ .free → (s.envs e).id = (s.envs e').id → e = e') ∧
    (∀ {e newer id older}, issued e log = newer ++ id :: older → id ∉ older.take (2 ^ 19 - 2)) ∧
    (∀ {e newer id older c check}, issued e log = newer ++ id :: older →
      (newer = [] → (s.envs e).status = .free) → newer.length < 2 ^ 19 - 1 →
      (envid2env c id check).run s = .ok none s) := by
  have h := (envInit_ids hi).run hr
  have hlive : ∀ {e}, (s.envs e).status ≠ .free → ∃ n, (s.envs e).id = idAt e n := by
    intro e hl
    obtain ⟨n, hn⟩ := h.slots e
    exact ⟨n - 1, hn.id.trans (if_neg (hn.live hl))⟩
  refine ⟨?_, fun hl => ?_, fun hl hl' he => ?_, fun {e newer id older} hs hm => ?_,
    fun {e newer id older c check} hs hf hn => ?_⟩
  case refine_1 =>
    obtain ⟨L, hL⟩ := h.envs
    exact ⟨L, hL.chain, hL.nodup, hL.mem⟩
  case refine_2 =>
    obtain ⟨n, hn⟩ := hlive hl
    rw [hn]
    exact ⟨idAt_pos, envx_idAt⟩
  case refine_3 =>
    obtain ⟨n, hn⟩ := hlive hl
    obtain ⟨m, hm⟩ := hlive hl'
    rw [hn, hm] at he
    have hx := congrArg envx he
    rwa [envx_idAt, envx_idAt] at hx
  case refine_4 =>
    obtain ⟨n, hn⟩ := h.slots e
    obtain ⟨-, rfl, ho⟩ := hn.split hs
    obtain ⟨i, hi, he⟩ := List.mem_take_iff_getElem.mp hm
    have hlt : i < older.length := by omega
    have hg : older[i] = idAt e (older.length - 1 - i) := by
      have := List.getElem_of_eq ho hlt
      simpa using this
    rw [hg] at he
    exact idAt_ne (by omega) (by omega) he
  case refine_5 =>
    obtain ⟨n, hn'⟩ := h.slots e
    obtain ⟨hlen, rfl, -⟩ := hn'.split hs
    have hx : (s.envs e).status = .free ∨ (s.envs e).id ≠ idAt e older.length := by
      by_cases hz : newer = []
      case pos => exact .inl (hf hz)
      case neg =>
        right
        have := List.length_pos_iff.mpr hz
        rw [hn'.id, if_neg (by omega)]
        exact (idAt_ne (by omega) (by omega)).symm
    simp only [envid2env, if_neg idAt_ne_zero, envx_idAt]
    simp [hx]

-- The first allocation.
theorem env_ids_unique_first :
    ∃ s₀ s', envInit.run (freshKernel 4) = .ok () s₀ ∧ (envAlloc 0#32).run s₀ = .ok (.ok 0) s' ∧
      (s'.envs 0).status ≠ .free ∧ (0#32).slt (s'.envs 0).id = true ∧ envx (s'.envs 0).id = 0 := by
  obtain ⟨s₀, hi⟩ : ∃ s₀, envInit.run (freshKernel 4) = .ok () s₀ := ⟨_, envInit_run⟩
  have hs₀ : final envInit (freshKernel 4) = s₀ := final_of_ok hi
  have hd : ∀ s, final envInit (freshKernel 4) = s →
      ∃ s', (envAlloc 0#32).run s = .ok (.ok 0) s' ∧ (s'.envs 0).status = .runnable := by
    rintro _ rfl
    have hf : (final envInit (freshKernel 4)).envFreeList = some 0 := by decide +kernel
    have hr : returns (envSetupVm 0) (final envInit (freshKernel 4)) = some 0#32 := by decide +kernel
    obtain ⟨s₁, h₁⟩ := returns_eq_some.mp hr
    refine ⟨_, by simp only [envAlloc, run_bind, run_get, hf, h₁]; rfl, ?_⟩
    simp [setEnv, freshEnv]
  obtain ⟨s', hr, hs⟩ := hd s₀ hs₀
  have hl : (s'.envs 0).status ≠ .free := by simp [hs]
  exact ⟨s₀, s', hi, hr, hl, (env_ids_unique hi (.tail .refl (.alloc hr))).2.1 hl⟩

end Jos
