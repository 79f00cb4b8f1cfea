import Mathlib.Data.Set.Basic
import Mathlib.Logic.Function.Basic

-- Copy on write, without any program in it. Keys are mapped to frames, and frames hold contents. Several keys may share
-- a frame as long as none of them writes to it; seen through the keys, everyone has a copy of their own.

open Function Classical

namespace Cow

structure Entry (F : Type*) where
  frame : F
  write : Bool

structure Space (K F V : Type*) where
  map : K → Option (Entry F)
  mem : F → V

-- What happens to the contents, seen through the keys.
inductive Act (K V : Type*)
  | skip
  | write (k : K) (g : V → V)
  -- `k'` becomes a copy of `k`.
  | copy (k k' : K)
  | fresh (k : K) (v : V)
  | drop (P : Set K)

variable {K F V : Type*} [DecidableEq K]

-- The store in which each key has its own contents.
noncomputable def Act.apply (m : K → Option V) : Act K V → K → Option V
  | skip      => m
  | write k g => update m k ((m k).map g)
  | copy k k' => update m k' (m k)
  | fresh k v => update m k (some v)
  | drop P    => fun k => if k ∈ P then none else m k

namespace Space

def view (s : Space K F V) (k : K) : Option V :=
  (s.map k).map fun e => s.mem e.frame

-- Nobody shares a frame that can be written to.
structure Sole (s : Space K F V) : Prop where
  unique : ∀ {k k' e e'}, s.map k = some e → s.map k' = some e' → e'.frame = e.frame → e.write = true → k' = k

-- The frame is not in use.
def Unused (s : Space K F V) (f : F) : Prop :=
  ∀ {k e}, s.map k = some e → e.frame ≠ f

-- The frames in use have kept their contents.
def Keeps (s s' : Space K F V) : Prop :=
  ∀ k e, s.map k = some e → s'.mem e.frame = s.mem e.frame

-- One key is mapped anew.
structure Remaps (k : K) (x : Option (Entry F)) (s s' : Space K F V) : Prop where
  map  : s'.map = update s.map k x
  keep : s.Keeps s'

end Space

open Space

inductive Step (s s' : Space K F V) : Act K V → Prop
  | skip (hm : s'.map = s.map) (hk : s.Keeps s') : Step s s' .skip
  | write {k : K} {e : Entry F} {g : V → V} (hk : s.map k = some e) (hw : e.write = true) (hm : s'.map = s.map)
    (hg : s'.mem e.frame = g (s.mem e.frame))
    (ho : ∀ k' e', s.map k' = some e' → e'.frame ≠ e.frame → s'.mem e'.frame = s.mem e'.frame) : Step s s' (.write k g)
  -- The key gets a frame of its own, with the same contents.
  | resolve {k : K} {e d : Entry F} (hk : s.map k = some e) (hf : s.Unused d.frame)
    (hm : s'.map = update s.map k (some d)) (hv : s'.mem d.frame = s.mem e.frame)
    (ho : ∀ k' e', k' ≠ k → s.map k' = some e' → s'.mem e'.frame = s.mem e'.frame) : Step s s' .skip
  -- Both keys are mapped to the frame of `k`, and neither may write.
  | share {k k' : K} {e d : Entry F} {s₁ : Space K F V} (hk : s.map k = some e) (hf : d.frame = e.frame)
    (hw : d.write = false) (h₁ : Remaps k' (some d) s s₁) (h₂ : Remaps k (some d) s₁ s') : Step s s' (.copy k k')
  | fresh {k : K} {e : Entry F} (hf : s.Unused e.frame) (hr : Remaps k (some e) s s') :
    Step s s' (.fresh k (s'.mem e.frame))
  | drop {P : Set K} (hm : s'.map = fun k => if k ∈ P then none else s.map k) (hk : s.Keeps s') : Step s s' (.drop P)

variable {s s₁ s' : Space K F V} {k k' : K} {e : Entry F} {x : Option (Entry F)} {a : Act K V}

section Remaps

theorem Space.Remaps.map_self (h : Remaps k x s s') : s'.map k = x := by
  rw [h.map, update_self]

theorem Space.Remaps.map_of_ne (h : Remaps k x s s') (hn : k' ≠ k) : s'.map k' = s.map k' := by
  rw [h.map, update_of_ne hn]

omit [DecidableEq K] in
theorem Space.Keeps.view (h : s.Keeps s') (hm : s'.map k = s.map k) : s'.view k = s.view k := by
  simp only [Space.view, hm]
  cases hk : s.map k
  case none => rfl
  case some e => exact congrArg some (h k e hk)

theorem Space.Remaps.view (h : Remaps k x s s') : s'.view = update s.view k (x.map fun e => s'.mem e.frame) := by
  funext k'
  by_cases hn : k' = k
  case pos => rw [hn, update_self, Space.view, h.map_self]
  case neg => rw [update_of_ne hn, h.keep.view (h.map_of_ne hn)]

-- A key may be mapped to a frame which nobody else writes to, and nobody else uses if it can be written to.
theorem Space.Sole.update (h : s.Sole) (hm : s'.map = update s.map k (some e))
    (ho : ∀ k' e', k' ≠ k → s.map k' = some e' → e'.frame = e.frame → e'.write = false ∧ e.write = false) : s'.Sole := by
  refine ⟨fun {k₁ k₂ e₁ e₂} h₁ h₂ hf hw => ?_⟩
  rw [hm] at h₁ h₂
  by_cases hk₁ : k₁ = k
  case pos =>
    subst hk₁
    rw [update_self] at h₁
    cases h₁
    by_contra hne
    rw [update_of_ne hne] at h₂
    cases hw.symm.trans (ho k₂ e₂ hne h₂ hf).2
  case neg =>
    rw [update_of_ne hk₁] at h₁
    by_cases hk₂ : k₂ = k
    case pos =>
      subst hk₂
      rw [update_self] at h₂
      cases h₂
      cases hw.symm.trans (ho k₁ e₁ hk₁ h₁ hf.symm).1
    case neg =>
      rw [update_of_ne hk₂] at h₂
      exact h.unique h₁ h₂ hf hw

end Remaps

section Step

-- A frame can be written to by one key only, before and after each step.
theorem Space.Sole.step (h : s.Sole) (hs : Step s s' a) : s'.Sole := by
  cases hs
  case skip hm _ => exact ⟨hm ▸ h.unique⟩
  case write hm _ _ => exact ⟨hm ▸ h.unique⟩
  case resolve hk hf hm _ _ => exact h.update hm fun _ _ _ hk' he => absurd he (hf hk')
  case fresh hf hr => exact h.update hr.map fun _ _ _ hk' he => absurd he (hf hk')
  case drop P hm _ =>
    refine ⟨fun {k₁ k₂ e₁ e₂} h₁ h₂ hf hw => ?_⟩
    rw [hm] at h₁ h₂
    simp only [Option.ite_none_left_eq_some] at h₁ h₂
    exact h.unique h₁.2 h₂.2 hf hw
  case share k k' e e' s₁ hk hf hw h₁ h₂ =>
    -- In between, `k` may still write to the frame which `k'` shares; the other order would do as well.
    have h₀ : Sole (Space.mk (Function.update s.map k (some e')) s.mem) := by
      refine h.update rfl fun k₀ e₀ hn hk₀ hf₀ => ⟨?_, hw⟩
      cases hw₀ : e₀.write
      case false => rfl
      case true => exact absurd (h.unique hk₀ hk (hf₀.trans hf).symm hw₀).symm hn
    have hm : s'.map = Function.update (Function.update s.map k (some e')) k' (some e') := by
      rw [h₂.map, h₁.map]
      by_cases hn : k = k'
      case pos => rw [hn]
      case neg => exact update_comm (Ne.symm hn) _ _ _
    refine h₀.update hm fun k₀ e₀ hn hk₀ hf₀ => ⟨?_, hw⟩
    change Function.update s.map k (some e') k₀ = some e₀ at hk₀
    by_cases hk₀' : k₀ = k
    case pos =>
      subst hk₀'
      rw [update_self] at hk₀
      cases hk₀
      exact hw
    case neg =>
      rw [update_of_ne hk₀'] at hk₀
      cases hw₀ : e₀.write
      case false => rfl
      case true => exact absurd (h.unique hk₀ hk (hf₀.trans hf).symm hw₀).symm hk₀'

-- Sharing frames, the space shows what the store with one copy for each key holds.
theorem Space.Sole.view_step (h : s.Sole) (hs : Step s s' a) : s'.view = a.apply s.view := by
  cases hs
  case skip hm hk => exact funext fun k => hk.view (congrFun hm k)
  case write k g e hk hw hm hg ho =>
    funext k'
    by_cases hn : k' = k
    case pos =>
      subst hn
      simp [Act.apply, Space.view, hm, hk, hg]
    case neg =>
      rw [Act.apply, update_of_ne hn]
      simp only [Space.view, hm]
      cases hk' : s.map k'
      case none => rfl
      case some e' => exact congrArg some (ho k' e' hk' fun hf => hn (h.unique hk hk' hf hw))
  case resolve k e e' hk hf hm hv ho =>
    funext k'
    by_cases hn : k' = k
    case pos => simp [Act.apply, Space.view, hn, hm, hk, hv]
    case neg =>
      simp only [Act.apply, Space.view, hm, update_of_ne hn]
      cases hk' : s.map k'
      case none => rfl
      case some e₁ => exact congrArg some (ho k' e₁ hn hk')
  case share k k' e e' s₁ hk hf hw h₁ h₂ =>
    have he : s₁.mem e.frame = s.mem e.frame := h₁.keep k e hk
    have hv : s.view k = some (s.mem e.frame) := by rw [Space.view, hk, Option.map_some]
    have he' : s'.mem e.frame = s₁.mem e.frame := hf ▸ h₂.keep k' e' h₁.map_self
    rw [h₂.view, h₁.view, Act.apply, Option.map_some, Option.map_some, hf, he', he, hv, update_eq_self_iff]
    by_cases hn : k = k'
    case pos => rw [hn, update_self]
    case neg => rw [update_of_ne hn, hv]
  case fresh k e hf hr => rw [hr.view, Act.apply, Option.map_some]
  case drop P hm hk =>
    funext k
    by_cases hp : k ∈ P
    case pos => simp [Act.apply, Space.view, hm, hp]
    case neg => simpa [Act.apply, hp] using hk.view (congrFun hm k |>.trans (if_neg hp))

end Step

end Cow
