import Jos.Kernel.Theorems.Turns

-- Round-robin scheduling on one processor.

open Function Program Relation

namespace Jos

open Kernel

variable {S S' S₁ S₂ S₃ : System} {c : CpuIx} {a e f g : EnvIx} {o : Option EnvIx} {y : Action}

namespace System

-- An event of the processor `c`.
def StepOn (c : CpuIx) (S S' : System) : Prop :=
  ∃ y, y.cpu = c ∧ S.step y = some S'

-- `sched_yield` picks the slot `e` during an event of the processor `c`. By `schedYield_switches` it does not pick the
-- current environment while another one is runnable, so that this is when the current environment becomes `e`.
structure Selects (c : CpuIx) (e : EnvIx) (S S' : System) : Prop where
  step   : StepOn c S S'
  before : S.kern.cur c ≠ some e
  after  : S'.kern.cur c = some e

-- An event of the processor `c` which does not free its environment.
structure Turn (c : CpuIx) (S S' : System) : Prop where
  step  : StepOn c S S'
  alive : ∀ a, S.kern.cur c = some a → (S'.kern.envs a).status ≠ .free

-- The processor `c` is past the slot `e` and has not come to the slot `f` yet.
def Behind (c : CpuIx) (e f : EnvIx) (S : System) : Prop :=
  ∃ a, S.kern.cur c = some a ∧ ahead e a < ahead e f

theorem enter_leaving {m : K Unit} (hm : InTurn c o m) (hc : S.kern.cur c = o) :
    Leaving c o (S.enter c m).kern := by
  have hw := hm S.kern hc
  simp only [wp] at hw
  split at hw
  case _ s' hr =>
    have hk : (S.enter c m).kern = s' := by simp [enter, hr]
    exact hk ▸ .of_cur hw
  case _ x s' hr =>
    have hk : (S.enter c m).kern = s' := by simp [enter, hr]
    exact hk ▸ hw

-- An event either enters the kernel, or it is a store of the program.
theorem StepOn.leaving (h : StepOn c S S') :
    Leaving c (S.kern.cur c) S'.kern ∨ S'.kern.cur c = S.kern.cur c := by
  obtain ⟨y, rfl, h⟩ := h
  cases y
  all_goals simp only [step, Action.cpu] at h ⊢
  case start c =>
    split at h
    case isFalse => cases h
    case isTrue =>
      cases h
      exact .inl (enter_leaving inTurn_schedYield rfl)
  case trap c tf va =>
    split at h
    case isFalse => cases h
    case isTrue =>
      cases h
      exact .inl (enter_leaving inTurn_trap rfl)
  case wake c tf =>
    split at h
    case isFalse => cases h
    case isTrue =>
      cases h
      exact .inl (enter_leaving inTurn_trap rfl)
  case refault c tf =>
    split at h
    case _ =>
      split at h
      case isFalse => cases h
      case isTrue =>
        cases h
        exact .inl (enter_leaving inTurn_trap rfl)
    case _ => cases h
  case store c va b =>
    split at h
    case isFalse => cases h
    case isTrue =>
      obtain ⟨p, -, rfl⟩ := Option.map_eq_some_iff.mp h
      exact .inr rfl

theorem Selects.behind (h : Selects c e S S') (hf : f ≠ e) : S'.Behind c e f :=
  ⟨e, h.after, by rw [ahead_self]; exact ahead_pos hf⟩

-- As long as `f` stays runnable, the processor goes on from slot to slot towards `f`, and does not come back to `e`.
theorem Behind.turn (h : S.Behind c e f) (ht : Turn c S S') (hf : (S'.kern.envs f).status = .runnable) :
    S'.Behind c e f ∧ ¬Selects c e S S' := by
  obtain ⟨a, ha, hlt⟩ := h
  have hfree := ht.alive a ha
  obtain hx | hc := ht.step.leaving
  case inr => exact ⟨⟨a, hc.trans ha, hlt⟩, fun hsel => hsel.before (hc.symm.trans hsel.after)⟩
  case inl =>
    have hfair := hx a ha
    have hfa : f ≠ a := by
      rintro rfl
      omega
    cases hg : S'.kern.cur c
    case none => exact absurd hf (hfair.none hg hfree f hfa)
    case some g =>
      by_cases hga : g = a
      case pos =>
        refine ⟨⟨a, hga ▸ hg, hlt⟩, fun hsel => ?_⟩
        exact hsel.before (ha.trans (hga ▸ hg.symm.trans hsel.after))
      case neg =>
        -- The slots between `a` and `g` are not runnable, so that `f` is not among them.
        obtain ⟨hng, hnone⟩ := hfair.pick g hg hga hfree
        have hfg : f ≠ g := fun hfg => hng (hfg ▸ hf)
        have hle : ¬ahead a f < ahead a g := fun hlt' => hnone f (ahead_pos hfa) hlt' hf
        have hpass := ahead_between hlt hfg hga hle
        refine ⟨⟨g, hg, hpass.2⟩, fun hsel => ?_⟩
        have hge : g = e := Option.some.inj (hg.symm.trans hsel.after)
        rw [hge, ahead_self] at hpass
        omega

end System

-- On one processor, no slot is picked twice while another environment stays runnable, in any stretch of a run in
-- which the current environment is never freed.
theorem not_overtaken_twice (he : System.Selects c e S S₁) (hne : f ≠ e)
    (hr : ReflTransGen (fun S S' => System.Turn c S S' ∧ (S'.kern.envs f).status = .runnable) S₁ S₂)
    (ht : System.Turn c S₂ S₃) (hf : (S₃.kern.envs f).status = .runnable) : ¬System.Selects c e S₂ S₃ := by
  have hb : S₂.Behind c e f := by
    clear ht
    induction hr
    case refl => exact he.behind hne
    case tail _ hst ih => exact (ih.turn hst.1 hst.2).1
  exact (hb.turn ht hf).2

-- Two more environments are created, and all three have had their turn.
def threeRun : List Action :=
  [.start 0, .call 0 7 0 0, .call 0 7 0 0, .call 0 8 0x1001 2, .call 0 8 0x1002 2, .call 0 10 0 0, .call 0 10 0 0]

theorem not_overtaken_twice_yield :
    ∃ S S₁ S₂ S₃, soleSystem.run threeRun = some S ∧ S.step (.call 0 10 0 0) = some S₁ ∧
      S₁.step (.call 0 10 0 0) = some S₂ ∧ S₂.step (.call 0 2 0 0) = some S₃ ∧ System.Selects 0 0 S S₁ ∧
      ¬System.Selects 0 0 S₂ S₃ := by
  have hv : (do
      let S ← soleSystem.run threeRun
      let S₁ ← S.step (.call 0 10 0 0)
      let S₂ ← S₁.step (.call 0 10 0 0)
      let S₃ ← S₂.step (.call 0 2 0 0)
      return ([S.kern.cur 0, S₁.kern.cur 0, S₂.kern.cur 0],
        [(S₂.kern.envs 0).status, (S₂.kern.envs 2).status, (S₃.kern.envs 1).status, (S₃.kern.envs 2).status])) =
      some ([some 2, some 0, some 1], [.runnable, .runnable, .running, .runnable]) := by decide +kernel
  simp only [Option.bind_eq_bind, Option.bind_eq_some_iff, Option.pure_def, Option.some.injEq, Prod.mk.injEq,
    List.cons.injEq, and_true] at hv
  obtain ⟨S, hS, S₁, h₁, S₂, h₂, S₃, h₃, ⟨hc, hc₁, hc₂⟩, ha₂, hf₂, ha₃, hf₃⟩ := hv
  have he : System.Selects 0 0 S S₁ := ⟨⟨_, rfl, h₁⟩, by simp [hc], hc₁⟩
  have ht₂ : System.Turn 0 S₁ S₂ := ⟨⟨_, rfl, h₂⟩, fun a ha => by rw [hc₁] at ha; cases ha; simp [ha₂]⟩
  have ht₃ : System.Turn 0 S₂ S₃ := ⟨⟨_, rfl, h₃⟩, fun a ha => by rw [hc₂] at ha; cases ha; simp [ha₃]⟩
  exact ⟨S, S₁, S₂, S₃, hS, h₁, h₂, h₃, he, not_overtaken_twice he (by decide) (.single ⟨ht₂, hf₂⟩) ht₃ hf₃⟩

-- The first environment yields to the second one, which exits. The search starts at the first slot again, and the
-- third environment has been runnable all the time.
theorem overtaken_twice :
    ∃ S S₁ S₂ S₃, soleSystem.run threeRun = some S ∧ S.step (.call 0 10 0 0) = some S₁ ∧
      S₁.step (.call 0 10 0 0) = some S₂ ∧ S₂.step (.call 0 3 0 0) = some S₃ ∧ System.Selects 0 0 S S₁ ∧
      System.Selects 0 0 S₂ S₃ ∧ (S₁.kern.envs 2).status = .runnable ∧ (S₂.kern.envs 2).status = .runnable ∧
      (S₃.kern.envs 2).status = .runnable := by
  have hv : (do
      let S ← soleSystem.run threeRun
      let S₁ ← S.step (.call 0 10 0 0)
      let S₂ ← S₁.step (.call 0 10 0 0)
      let S₃ ← S₂.step (.call 0 3 0 0)
      return ([S.kern.cur 0, S₁.kern.cur 0, S₂.kern.cur 0, S₃.kern.cur 0],
        [(S₁.kern.envs 2).status, (S₂.kern.envs 2).status, (S₃.kern.envs 2).status])) =
      some ([some 2, some 0, some 1, some 0], [.runnable, .runnable, .runnable]) := by decide +kernel
  simp only [Option.bind_eq_bind, Option.bind_eq_some_iff, Option.pure_def, Option.some.injEq, Prod.mk.injEq,
    List.cons.injEq, and_true] at hv
  obtain ⟨S, hS, S₁, h₁, S₂, h₂, S₃, h₃, ⟨hc, hc₁, hc₂, hc₃⟩, hf₁, hf₂, hf₃⟩ := hv
  exact ⟨S, S₁, S₂, S₃, hS, h₁, h₂, h₃, ⟨⟨_, rfl, h₁⟩, by simp [hc], hc₁⟩, ⟨⟨_, rfl, h₃⟩, by simp [hc₂], hc₃⟩, hf₁,
    hf₂, hf₃⟩

end Jos
