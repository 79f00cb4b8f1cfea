import Mathlib.Logic.Basic
import Mathlib.Order.Defs.Unbundled

-- Reasoning about programs that pass a state and may leave through an exception which keeps the
-- state (`EStateM`). `wp m Q E` is the weakest precondition under which `m` either returns in a
-- state satisfying `Q` or leaves through an exception in a state satisfying `E`.

namespace Program

variable {ε σ α β : Type}

def wp (m : EStateM ε σ α) (Q : α → σ → Prop) (E : ε → σ → Prop) (s : σ) : Prop :=
  match m.run s with
  | .ok a s'    => Q a s'
  | .error e s' => E e s'

variable {m : EStateM ε σ α} {f : α → EStateM ε σ β} {Q Q' : α → σ → Prop} {E E' : ε → σ → Prop}
  {R : β → σ → Prop} {s s' : σ} {a : α} {e : ε}

@[simp]
theorem run_bind : (m >>= f).run s =
    match m.run s with
    | .ok a s'    => (f a).run s'
    | .error e s' => .error e s' := by
  simp only [bind, EStateM.bind, EStateM.run]
  cases m s <;> rfl

@[simp]
theorem run_map {g : α → β} : (g <$> m).run s =
    match m.run s with
    | .ok a s'    => .ok (g a) s'
    | .error e s' => .error e s' := by
  simp only [Functor.map, EStateM.map, EStateM.run]
  cases m s <;> rfl

@[simp]
theorem run_pure : (pure a : EStateM ε σ α).run s = .ok a s :=
  rfl

@[simp]
theorem run_get : (get : EStateM ε σ σ).run s = .ok s s :=
  rfl

@[simp]
theorem run_set : (set s' : EStateM ε σ PUnit).run s = .ok ⟨⟩ s' :=
  rfl

@[simp]
theorem run_modify {g : σ → σ} : (modify g : EStateM ε σ PUnit).run s = .ok ⟨⟩ (g s) :=
  rfl

@[simp]
theorem run_throw : (throw e : EStateM ε σ α).run s = .error e s :=
  rfl

theorem wp_of_ok (h : m.run s = .ok a s') (hq : Q a s') : wp m Q E s := by
  simpa [wp, h] using hq

theorem wp_of_error (h : m.run s = .error e s') (he : E e s') : wp m Q E s := by
  simpa [wp, h] using he

theorem wp_of_run (h : ∃ a s', m.run s = .ok a s' ∧ Q a s') : wp m Q E s := by
  have ⟨_, _, hr, hq⟩ := h
  exact wp_of_ok hr hq

-- What `m` does if it cannot fail.
theorem run_of_wp (h : wp m Q (fun _ _ => False) s) : ∃ a s', m.run s = .ok a s' ∧ Q a s' := by
  simp only [wp] at h
  split at h
  case _ a s' hr => exact ⟨a, s', hr, h⟩
  case _ => exact h.elim

theorem wp_ok (h : wp m Q E s) (hr : m.run s = .ok a s') : Q a s' := by
  simpa [wp, hr] using h

theorem wp_error (h : wp m Q E s) (hr : m.run s = .error e s') : E e s' := by
  simpa [wp, hr] using h

theorem wp_mono (h : wp m Q E s) (hq : ∀ a s', Q a s' → Q' a s') (he : ∀ e s', E e s' → E' e s') :
    wp m Q' E' s := by
  simp only [wp] at h ⊢
  split at h
  case _ => exact hq _ _ h
  case _ => exact he _ _ h

theorem wp_and (h : wp m Q E s) (h' : wp m Q' E' s) :
    wp m (fun a s' => Q a s' ∧ Q' a s') (fun e s' => E e s' ∧ E' e s') s := by
  simp only [wp] at h h' ⊢
  split at h <;> simp_all

theorem wp_bind : wp (m >>= f) R E s ↔ wp m (fun a s' => wp (f a) R E s') E s := by
  simp only [wp, run_bind]
  cases m.run s <;> rfl

theorem wp_bind_of_ok (h : m.run s = .ok a s') : wp (m >>= f) R E s ↔ wp (f a) R E s' := by
  simp only [wp, run_bind, h]

theorem wp_bind_of_error (h : m.run s = .error e s') : wp (m >>= f) R E s ↔ E e s' := by
  simp only [wp, run_bind, h]

theorem wp_trivial : wp m (fun _ _ => True) (fun _ _ => True) s := by
  simp only [wp]
  split <;> trivial

@[simp]
theorem wp_map {g : α → β} : wp (g <$> m) R E s ↔ wp m (fun a => R (g a)) E s := by
  simp only [wp, run_map]
  cases m.run s <;> rfl

-- The value `m` returns, if it does.
def returns (m : EStateM ε σ α) (s : σ) : Option α :=
  match m.run s with
  | .ok a _    => some a
  | .error _ _ => none

-- The state in which `m` ends.
def final (m : EStateM ε σ α) (s : σ) : σ :=
  match m.run s with
  | .ok _ s'    => s'
  | .error _ s' => s'

theorem final_of_ok (h : m.run s = .ok a s') : final m s = s' := by
  simp [final, h]

theorem final_of_error (h : m.run s = .error e s') : final m s = s' := by
  simp [final, h]

theorem returns_eq_some : returns m s = some a ↔ ∃ s', m.run s = .ok a s' := by
  simp only [returns]
  cases m.run s <;> simp

-- The rule of sequencing.
theorem wp_seq (h : wp m Q E s) (hf : ∀ a s', Q a s' → wp (f a) R E s') : wp (m >>= f) R E s :=
  wp_bind.mpr <| wp_mono h hf fun _ _ => id

@[simp]
theorem wp_pure : wp (pure a : EStateM ε σ α) Q E s ↔ Q a s :=
  Iff.rfl

@[simp]
theorem wp_throw : wp (throw e : EStateM ε σ α) Q E s ↔ E e s :=
  Iff.rfl

@[simp]
theorem wp_get {Q : σ → σ → Prop} : wp (get : EStateM ε σ σ) Q E s ↔ Q s s :=
  Iff.rfl

@[simp]
theorem wp_set {Q : PUnit → σ → Prop} : wp (set s' : EStateM ε σ PUnit) Q E s ↔ Q ⟨⟩ s' :=
  Iff.rfl

@[simp]
theorem wp_modify {g : σ → σ} {Q : PUnit → σ → Prop} :
    wp (modify g : EStateM ε σ PUnit) Q E s ↔ Q ⟨⟩ (g s) :=
  Iff.rfl

@[simp]
theorem wp_bind_pure : wp (pure a >>= f) R E s ↔ wp (f a) R E s :=
  wp_bind

@[simp]
theorem wp_bind_throw : wp ((throw e : EStateM ε σ α) >>= f) R E s ↔ E e s :=
  wp_bind

@[simp]
theorem wp_bind_get {f : σ → EStateM ε σ β} : wp (get >>= f) R E s ↔ wp (f s) R E s :=
  wp_bind

@[simp]
theorem wp_bind_set {f : PUnit → EStateM ε σ β} : wp (set s' >>= f) R E s ↔ wp (f ⟨⟩) R E s' :=
  wp_bind

@[simp]
theorem wp_bind_modify {g : σ → σ} {f : PUnit → EStateM ε σ β} :
    wp (modify g >>= f) R E s ↔ wp (f ⟨⟩) R E (g s) :=
  wp_bind

-- A loop over a list keeps an invariant indexed by the iterations still to be done.
theorem wp_forM {l : List α} {f : α → EStateM ε σ PUnit} {I : List α → σ → Prop}
    (h : ∀ a l s, I (a :: l) s → wp (f a) (fun _ => I l) E s) (hi : I l s) :
    wp (l.forM f) (fun _ => I []) E s := by
  induction l generalizing s
  case nil => exact hi
  case cons a l ih => exact wp_seq (h a l s hi) fun _ _ h => ih h

-- A loop whose body acts as the function `g` on the states satisfying `I` acts as a fold.
theorem run_forM {l : List α} {f : α → EStateM ε σ PUnit} {g : σ → α → σ} {I : σ → Prop}
    (h : ∀ a ∈ l, ∀ s, I s → (f a).run s = .ok ⟨⟩ (g s a) ∧ I (g s a)) (hi : I s) :
    (l.forM f).run s = .ok ⟨⟩ (l.foldl g s) ∧ I (l.foldl g s) := by
  induction l generalizing s
  case nil => exact ⟨rfl, hi⟩
  case cons a l ih =>
    have ⟨hr, hi'⟩ := h a (by simp) s hi
    have hc : ((a :: l).forM f).run s = (l.forM f).run (g s a) := by
      change (f a >>= fun _ => l.forM f).run s = _
      simp only [run_bind, hr]
    rw [hc, List.foldl_cons]
    exact ih (fun b hb => h b (by simp [hb])) hi'

-- `m` only ever moves the state along `T`, however it ends.
def Keeps (T : σ → σ → Prop) (m : EStateM ε σ α) : Prop :=
  ∀ s, wp m (fun _ => T s) (fun _ => T s) s

namespace Keeps

variable {T : σ → σ → Prop}

theorem pure [Std.Refl T] : Keeps T (pure a : EStateM ε σ α) :=
  fun s => Std.Refl.refl s

theorem throw [Std.Refl T] : Keeps T (throw e : EStateM ε σ α) :=
  fun s => Std.Refl.refl s

theorem get [Std.Refl T] : Keeps T (get : EStateM ε σ σ) :=
  fun s => Std.Refl.refl s

theorem modify {g : σ → σ} (h : ∀ s, T s (g s)) : Keeps T (modify g : EStateM ε σ PUnit) :=
  h

theorem bind [IsTrans σ T] (h : Keeps T m) (hf : ∀ a, Keeps T (f a)) : Keeps T (m >>= f) :=
  fun s => wp_bind.mpr <| by
    have hs := h s
    simp only [wp] at hs ⊢
    split at hs
    case _ a s' _ =>
      have hs' := hf a s'
      simp only [wp] at hs'
      split at hs' <;> exact trans_of T hs hs'
    case _ => exact hs

theorem forM [Std.Refl T] [IsTrans σ T] {l : List α} {f : α → EStateM ε σ PUnit}
    (h : ∀ a, Keeps T (f a)) : Keeps T (l.forM f) := by
  induction l
  case nil => exact Keeps.pure
  case cons a l ih => exact (h a).bind fun _ => ih

theorem ok (h : Keeps T m) (hr : m.run s = .ok a s') : T s s' := by
  simpa [wp, hr] using h s

theorem error (h : Keeps T m) (hr : m.run s = .error e s') : T s s' := by
  simpa [wp, hr] using h s

end Keeps

-- Besides, `m` leaves only through the exceptions in `X`.
def KeepsOr (T : σ → σ → Prop) (X : ε → Prop) (m : EStateM ε σ α) : Prop :=
  ∀ s, wp m (fun _ => T s) (fun e s' => X e ∧ T s s') s

namespace KeepsOr

variable {T : σ → σ → Prop} {X : ε → Prop}

theorem pure [Std.Refl T] : KeepsOr T X (pure a : EStateM ε σ α) :=
  fun s => Std.Refl.refl s

theorem throw [Std.Refl T] (h : X e) : KeepsOr T X (throw e : EStateM ε σ α) :=
  fun s => ⟨h, Std.Refl.refl s⟩

theorem get [Std.Refl T] : KeepsOr T X (get : EStateM ε σ σ) :=
  fun s => Std.Refl.refl s

theorem modify {g : σ → σ} (h : ∀ s, T s (g s)) : KeepsOr T X (modify g : EStateM ε σ PUnit) :=
  h

theorem map {g : α → β} (h : KeepsOr T X m) : KeepsOr T X (g <$> m) :=
  fun s => wp_map.mpr (h s)

theorem bind [IsTrans σ T] (h : KeepsOr T X m) (hf : ∀ a, KeepsOr T X (f a)) : KeepsOr T X (m >>= f) := by
  intro s
  refine wp_seq (h s) fun a s₁ h₁ => ?_
  refine wp_mono (hf a s₁) ?_ ?_
  case refine_1 => exact fun _ s₂ h₂ => trans_of T h₁ h₂
  case refine_2 => exact fun _ s₂ h₂ => ⟨h₂.1, trans_of T h₁ h₂.2⟩

theorem forM [Std.Refl T] [IsTrans σ T] {l : List α} {f : α → EStateM ε σ PUnit}
    (h : ∀ a, KeepsOr T X (f a)) : KeepsOr T X (l.forM f) := by
  induction l
  case nil => exact KeepsOr.pure
  case cons a l ih => exact (h a).bind fun _ => ih

theorem mono {T' : σ → σ → Prop} (h : KeepsOr T X m) (ht : ∀ s s', T s s' → T' s s') : KeepsOr T' X m :=
  fun s => wp_mono (h s) (fun _ => ht s) fun _ _ h => ⟨h.1, ht s _ h.2⟩

theorem run_cases (h : KeepsOr T X m) (s : σ) :
    (∃ a s', m.run s = .ok a s' ∧ T s s') ∨ ∃ e s', m.run s = .error e s' ∧ X e ∧ T s s' := by
  have hs := h s
  cases hr : m.run s
  case ok a s' => exact .inl ⟨a, s', rfl, by simpa [wp, hr] using hs⟩
  case error e s' => exact .inr ⟨e, s', rfl, by simpa [wp, hr] using hs⟩

theorem keeps (h : KeepsOr T X m) : Keeps T m :=
  fun s => wp_mono (h s) (fun _ _ => id) fun _ _ h => h.2

end KeepsOr

end Program
