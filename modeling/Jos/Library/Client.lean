import Mathlib.Order.Defs.Unbundled

-- Programs that ask questions of a system and continue with the answers. While they wait, the system may move on by
-- itself.

namespace Client

inductive Prog (Q : Type) (R : Q → Type) (α : Type)
  | done (a : α)
  -- The program gives up.
  | stop
  | ask (q : Q) (k : R q → Prog Q R α)

variable {Q : Type} {R : Q → Type} {α β σ : Type}

namespace Prog

def bind : Prog Q R α → (α → Prog Q R β) → Prog Q R β
  | done a, f  => f a
  | stop, _    => stop
  | ask q k, f => ask q fun r => (k r).bind f

instance : Monad (Prog Q R) where
  pure := done
  bind := bind

instance : LawfulMonad (Prog Q R) :=
  .mk' _
    (fun p => by
      change p.bind done = p
      induction p
      case done => rfl
      case stop => rfl
      case ask q k ih => exact congrArg (ask q) (funext ih))
    (fun _ _ => rfl)
    (fun p f g => by
      change (p.bind f).bind g = p.bind fun a => (f a).bind g
      induction p
      case done => rfl
      case stop => rfl
      case ask q k ih => exact congrArg (ask q) (funext ih))

end Prog

open Prog

-- How the system answers, and how it moves on.
structure Server (Q : Type) (R : Q → Type) (σ : Type) where
  Answers : (q : Q) → σ → R q → σ → Prop
  Moves   : σ → σ → Prop

-- The program ends with `o`, which is `none` if it gives up. The answers it has been given are recorded.
inductive Runs (v : Server Q R σ) : Prog Q R α → σ → List (Sigma R) → Option α → σ → Prop
  | done {a : α} {s s' : σ} (hm : v.Moves s s') : Runs v (.done a) s [] (some a) s'
  | stop {s s' : σ} (hm : v.Moves s s') : Runs v .stop s [] none s'
  | ask {q : Q} {k : R q → Prog Q R α} {s s₁ s₂ s' : σ} {r : R q} {tr : List (Sigma R)} {o : Option α}
    (hm : v.Moves s s₁) (ha : v.Answers q s₁ r s₂) (hk : Runs v (k r) s₂ tr o s') :
    Runs v (.ask q k) s (⟨q, r⟩ :: tr) o s'

variable {v : Server Q R σ} {p : Prog Q R α} {f : α → Prog Q R β} {s s₁ s' : σ} {tr tr₁ tr₂ : List (Sigma R)} {a : α}
  {o : Option β}

namespace Runs

-- Time may pass before the program goes on.
theorem moves [IsTrans σ v.Moves] {o : Option α} (hm : v.Moves s s₁) (h : Runs v p s₁ tr o s') : Runs v p s tr o s' := by
  cases h
  case done hm' => exact .done (trans_of v.Moves hm hm')
  case stop hm' => exact .stop (trans_of v.Moves hm hm')
  case ask ha hm' hk => exact .ask (trans_of v.Moves hm hm') ha hk

theorem bind [IsTrans σ v.Moves] (h : Runs v p s tr₁ (some a) s₁) (hf : Runs v (f a) s₁ tr₂ o s') :
    Runs v (p >>= f) s (tr₁ ++ tr₂) o s' := by
  generalize hx : some a = x at h
  induction h
  case done a' s s₁ hm =>
    cases hx
    exact hf.moves hm
  case stop => cases hx
  case ask hm ha _ ih => exact .ask hm ha (ih hf hx)

theorem bind_stop (h : Runs v p s tr none s') : Runs v (p >>= f) s tr none s' := by
  generalize hx : (none : Option α) = x at h
  induction h
  case done => cases hx
  case stop hm => exact .stop hm
  case ask hm ha _ ih => exact .ask hm ha (ih hx)

-- A sequence is run by running its first part, unless that part gives up.
theorem bind_cases [Std.Refl v.Moves] (h : Runs v (p >>= f) s tr o s') :
    (∃ a s₁ tr₁ tr₂, Runs v p s tr₁ (some a) s₁ ∧ Runs v (f a) s₁ tr₂ o s' ∧ tr = tr₁ ++ tr₂) ∨
      (o = none ∧ Runs v p s tr none s') := by
  induction p generalizing s tr
  case done a => exact .inl ⟨a, s, [], tr, .done (Std.Refl.refl s), h, rfl⟩
  case stop =>
    cases h
    case stop hm => exact .inr ⟨rfl, .stop hm⟩
  case ask q k ih =>
    cases h
    case ask s₁ s₂ tr r ha hm hk =>
      obtain ⟨a, s₃, tr₁, tr₂, h₁, h₂, rfl⟩ | ⟨rfl, h₁⟩ := ih r hk
      case inl => exact .inl ⟨a, s₃, ⟨q, r⟩ :: tr₁, tr₂, .ask hm ha h₁, h₂, rfl⟩
      case inr => exact .inr ⟨rfl, .ask hm ha h₁⟩

end Runs

-- All questions of the program satisfy `P`.
inductive Prog.Asks (P : Q → Prop) : Prog Q R α → Prop
  | done (a : α) : Asks P (.done a)
  | stop : Asks P .stop
  | ask {q : Q} {k : R q → Prog Q R α} (hq : P q) (hk : ∀ r, Asks P (k r)) : Asks P (.ask q k)

section Asks

variable {P : Q → Prop}

theorem asks_bind (h : p.Asks P) (hf : ∀ a, (f a).Asks P) : (p >>= f).Asks P := by
  induction h
  case done a => exact hf a
  case stop => exact .stop
  case ask q k hq _ ih => exact .ask hq ih

theorem asks_forM {l : List β} {g : β → Prog Q R PUnit} (h : ∀ b, (g b).Asks P) : (l.forM g).Asks P := by
  induction l
  case nil => exact .done _
  case cons b l ih => exact asks_bind (h b) fun _ => ih

theorem Runs.asks {o : Option α} (h : Runs v p s tr o s') (hp : p.Asks P) {x : Sigma R} (hx : x ∈ tr) : P x.1 := by
  induction h
  case done => cases hx
  case stop => cases hx
  case ask _ _ _ ih =>
    cases hp
    case ask hq hk =>
      cases List.mem_cons.mp hx
      case inl he => exact he ▸ hq
      case inr hx => exact ih (hk _) hx

end Asks

-- The program can end with `o`.
def Ends (v : Server Q R σ) (p : Prog Q R α) (s : σ) (o : Option α) (s' : σ) : Prop :=
  ∃ tr, Runs v p s tr o s'

section Ends

variable [Std.Refl v.Moves] [IsTrans σ v.Moves]

theorem ends_bind : Ends v (p >>= f) s o s' ↔
    (∃ a s₁, Ends v p s (some a) s₁ ∧ Ends v (f a) s₁ o s') ∨ (o = none ∧ Ends v p s none s') := by
  constructor
  case mp =>
    rintro ⟨tr, h⟩
    obtain ⟨a, s₁, tr₁, tr₂, h₁, h₂, -⟩ | ⟨rfl, h'⟩ := h.bind_cases
    case inl => exact .inl ⟨a, s₁, ⟨tr₁, h₁⟩, ⟨tr₂, h₂⟩⟩
    case inr => exact .inr ⟨rfl, tr, h'⟩
  case mpr =>
    rintro (⟨a, s₁, ⟨tr₁, h₁⟩, ⟨tr₂, h₂⟩⟩ | ⟨rfl, tr, h⟩)
    case inl => exact ⟨tr₁ ++ tr₂, h₁.bind h₂⟩
    case inr => exact ⟨tr, h.bind_stop⟩

-- What a program does next does not depend on when it does it.
theorem ends_moves {o : Option α} : (∃ s₁, v.Moves s s₁ ∧ Ends v p s₁ o s') ↔ Ends v p s o s' := by
  constructor
  case mp =>
    rintro ⟨s₁, hm, tr, h⟩
    exact ⟨tr, h.moves hm⟩
  case mpr => exact fun h => ⟨s, Std.Refl.refl s, h⟩

omit [Std.Refl v.Moves] [IsTrans σ v.Moves] in
theorem ends_ask {q : Q} {k : R q → Prog Q R β} : Ends v (.ask q k) s o s' ↔
    ∃ s₁ r s₂, v.Moves s s₁ ∧ v.Answers q s₁ r s₂ ∧ Ends v (k r) s₂ o s' := by
  constructor
  case mp =>
    rintro ⟨tr, h⟩
    cases h
    case ask s₁ s₂ tr r ha hm hk => exact ⟨s₁, r, s₂, hm, ha, tr, hk⟩
  case mpr =>
    rintro ⟨s₁, r, s₂, hm, ha, tr, hk⟩
    exact ⟨_, .ask hm ha hk⟩

theorem ends_bind_left {q : Prog Q R α} (h : ∀ o s₁, Ends v p s o s₁ ↔ Ends v q s o s₁) :
    Ends v (p >>= f) s o s' ↔ Ends v (q >>= f) s o s' := by
  simp only [ends_bind, h]

-- Two sequences end alike if their continuations do, after what the first part can do.
theorem ends_bind_congr {f g : α → Prog Q R β} (h : ∀ a s₁, Ends v p s (some a) s₁ →
    ∀ o s', Ends v (f a) s₁ o s' ↔ Ends v (g a) s₁ o s') : Ends v (p >>= f) s o s' ↔ Ends v (p >>= g) s o s' := by
  rw [ends_bind, ends_bind]
  refine or_congr (exists_congr fun a => exists_congr fun s₁ => and_congr_right fun h₁ => h a s₁ h₁ o s') Iff.rfl

omit [Std.Refl v.Moves] [IsTrans σ v.Moves] in
theorem not_ends_stop {b : β} : ¬Ends v (.stop : Prog Q R β) s (some b) s' := by
  rintro ⟨tr, h⟩
  cases h

-- A program which may give up at an answer has not, if it returns.
omit [Std.Refl v.Moves] [IsTrans σ v.Moves] in
theorem ends_check {q : Q} {x : R q → Bool} {g : R q → α} {b : β}
    (h : Ends v (.ask q (fun r => if x r then .stop else .done (g r)) >>= f) s (some b) s') :
    ∃ s₁ r s₂, v.Moves s s₁ ∧ v.Answers q s₁ r s₂ ∧ Ends v (f (g r)) s₂ (some b) s' := by
  change Ends v (.ask q fun r => (if x r then .stop else .done (g r)) >>= f) s _ s' at h
  obtain ⟨s₁, r, s₂, hm, ha, h⟩ := ends_ask.mp h
  refine ⟨s₁, r, s₂, hm, ha, ?_⟩
  split at h
  case isTrue => exact absurd h not_ends_stop
  case isFalse => exact h

end Ends

end Client
