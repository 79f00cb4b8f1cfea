import Mathlib.Data.List.Basic
import Mathlib.Logic.Function.Basic

-- Singly linked lists threaded through the nodes themselves: `next a` is the link stored in node
-- `a`, and `none` is the null pointer.

open Function

namespace Linked

variable {α : Type*} {next : α → Option α} {head : Option α} {a b : α} {l l' : List α}

-- The nodes met when following the links from `head` up to the null pointer.
def Chain (next : α → Option α) (head : Option α) : List α → Prop
  | []     => head = none
  | a :: l => head = some a ∧ Chain next (next a) l

@[simp]
theorem chain_nil : Chain next head [] ↔ head = none :=
  Iff.rfl

@[simp]
theorem chain_cons : Chain next head (a :: l) ↔ head = some a ∧ Chain next (next a) l :=
  Iff.rfl

theorem Chain.head_some (h : Chain next (some a) l) : ∃ l', l = a :: l' ∧ Chain next (next a) l' := by
  cases l
  case nil => exact absurd h (by simp)
  case cons b l =>
    have ⟨he, ht⟩ := h
    cases he
    exact ⟨l, rfl, ht⟩

theorem Chain.head_none (h : Chain next none l) : l = [] := by
  cases l
  case nil => rfl
  case cons => exact absurd h.1 (by simp)

-- A list that follows the links is determined by where it starts.
theorem Chain.unique (h : Chain next head l) (h' : Chain next head l') : l = l' := by
  induction l generalizing head l'
  case nil => exact (Chain.head_none (h ▸ h')).symm
  case cons a l ih =>
    have ⟨he, ht⟩ := h
    have ⟨l'', hl, ht'⟩ := Chain.head_some (he ▸ h')
    rw [hl, ih ht ht']

-- The list from one of its nodes on.
theorem Chain.suffix (h : Chain next head (l ++ a :: l')) : Chain next (some a) (a :: l') := by
  induction l generalizing head
  case nil => exact ⟨rfl, h.2⟩
  case cons b l ih => exact ih h.2

-- Links lead to the null pointer only if they do not run in a circle.
theorem Chain.nodup (h : Chain next head l) : l.Nodup := by
  induction l generalizing head
  case nil => exact List.nodup_nil
  case cons a l ih =>
    refine List.nodup_cons.mpr ⟨fun ha => ?_, ih h.2⟩
    obtain ⟨l₁, l₂, hl⟩ := List.append_of_mem ha
    have hs : Chain next (some a) (a :: l₂) := Chain.suffix (hl ▸ h.2)
    have ht : Chain next (some a) (a :: l) := ⟨rfl, h.2⟩
    have he := congrArg List.length (hs.unique ht)
    rw [hl] at he
    simp only [List.length_cons, List.length_append] at he
    omega

-- The last node is the one whose link is the null pointer.
theorem Chain.next_eq_none (h : Chain next head l) (ha : a ∈ l) : next a = none ↔ ∃ l', l = l' ++ [a] := by
  obtain ⟨l₁, l₂, rfl⟩ := List.append_of_mem ha
  have hs := h.suffix
  constructor
  case mp =>
    intro hn
    have he : l₂ = [] := Chain.head_none (hn ▸ hs.2)
    exact ⟨l₁, by rw [he]⟩
  case mpr =>
    rintro ⟨l', hl'⟩
    have hc : Chain next head (l' ++ [a]) := hl' ▸ h
    exact hc.suffix.2

-- Links of nodes off the list do not matter.
theorem Chain.congr {next' : α → Option α} (h : Chain next head l)
    (hn : ∀ a ∈ l, next' a = next a) : Chain next' head l := by
  induction l generalizing head
  case nil => exact h
  case cons a l ih =>
    refine ⟨h.1, ?_⟩
    rw [hn a (by simp)]
    exact ih h.2 fun b hb => hn b (by simp [hb])

section Slots

variable {σ : Type*} {slot : α → σ} {rd : σ → Option α} {x y z : σ} {v : Option α}

-- The pointers are stored in slots: in variables, and in the links of the nodes. From the slot `x` one comes through the
-- nodes of `l` to the slot `y`.
def Walk (slot : α → σ) (rd : σ → Option α) : σ → List α → σ → Prop
  | x, [], y     => x = y
  | x, a :: l, y => rd x = some a ∧ Walk slot rd (slot a) l y

namespace Walk

theorem snoc (h : Walk slot rd x l y) (ha : rd y = some a) : Walk slot rd x (l ++ [a]) (slot a) := by
  induction l generalizing x
  case nil =>
    cases h
    exact ⟨ha, rfl⟩
  case cons b l ih => exact ⟨h.1, ih h.2⟩

theorem last (h : Walk slot rd x l y) : y = x ∨ ∃ a ∈ l, y = slot a := by
  induction l generalizing x
  case nil => exact .inl h.symm
  case cons b l ih =>
    right
    rcases ih h.2 with he | ⟨a, ha, he⟩
    case inl => exact ⟨b, by simp, he⟩
    case inr => exact ⟨a, by simp [ha], he⟩

-- Follows the links of the second list after those of the first.
theorem chain (h : Walk slot rd x l y) (hc : Chain (rd ∘ slot) (rd y) l') : Chain (rd ∘ slot) (rd x) (l ++ l') := by
  induction l generalizing x
  case nil =>
    cases h
    exact hc
  case cons b l ih => exact ⟨h.1, ih h.2⟩

variable [DecidableEq σ]

-- A pointer that is stored in a slot which is not on the way.
theorem update (h : Walk slot rd x l y) (hx : x ≠ z) (hl : ∀ a ∈ l, slot a ≠ z) :
    Walk slot (Function.update rd z v) x l y := by
  induction l generalizing x
  case nil => exact h
  case cons b l ih =>
    refine ⟨?_, ih h.2 (hl b (by simp)) fun a ha => hl a (by simp [ha])⟩
    rw [update_of_ne hx]
    exact h.1

-- A pointer that is stored in the slot at the end.
theorem update_last (h : Walk slot rd x l y) (hi : Injective slot) (hn : l.Nodup) (hx : ∀ a ∈ l, slot a ≠ x) :
    Walk slot (Function.update rd y v) x l y := by
  induction l generalizing x
  case nil => exact h
  case cons b l ih =>
    have ⟨hb, hn⟩ := List.nodup_cons.mp hn
    have hne : x ≠ y := by
      rintro rfl
      rcases last h.2 with he | ⟨a, ha, he⟩
      case inl => exact hx b (by simp) he.symm
      case inr => exact hx a (by simp [ha]) he.symm
    refine ⟨?_, ih h.2 hn fun a ha he => hb (hi he ▸ ha)⟩
    rw [update_of_ne hne]
    exact h.1

end Walk

end Slots

variable [DecidableEq α]

instance Chain.decidable : (head : Option α) → (l : List α) → Decidable (Chain next head l)
  | head, []     => inferInstanceAs (Decidable (head = none))
  | head, a :: l =>
    have := Chain.decidable (next a) l
    inferInstanceAs (Decidable (head = some a ∧ Chain next (next a) l))

theorem Chain.update (h : Chain next head l) (ha : a ∉ l) (x : Option α) :
    Chain (Function.update next a x) head l := by
  refine h.congr fun b hb => ?_
  have hne : b ≠ a := fun e => ha (e ▸ hb)
  exact update_of_ne hne _ _

theorem Chain.push (h : Chain next head l) (ha : a ∉ l) :
    Chain (Function.update next a head) (some a) (a :: l) :=
  ⟨rfl, by rw [update_self]; exact h.update ha _⟩

-- The link of `a` does not matter on the way to `a`.
theorem Chain.reaches {l₁ l₂ : List α} {x : Option α} (h : Chain next head (l₁ ++ a :: l₂)) (hn : a ∉ l₁)
    (h' : Chain (Function.update next a x) head l') : a ∈ l' := by
  induction l₁ generalizing head l'
  case nil =>
    obtain ⟨l₃, rfl, -⟩ := Chain.head_some (h.1 ▸ h')
    simp
  case cons b l₁ ih =>
    simp only [List.mem_cons, not_or] at hn
    obtain ⟨l₃, rfl, h₃⟩ := Chain.head_some (h.1 ▸ h')
    rw [update_of_ne (Ne.symm hn.1)] at h₃
    exact List.mem_cons_of_mem _ (ih h.2 hn.2 h₃)

-- A node that is pushed although it is on the list closes a circle.
theorem Chain.not_push_mem (h : Chain next head l) (ha : a ∈ l) :
    ¬Chain (Function.update next a head) (some a) l' := by
  intro hc
  obtain ⟨l₁, l₂, rfl, hn⟩ := List.eq_append_cons_of_mem ha
  obtain ⟨l'', rfl, hc'⟩ := hc.head_some
  rw [update_self] at hc'
  exact (List.nodup_cons.mp hc.nodup).1 (h.reaches hn hc')

theorem Chain.pop (h : Chain next (some a) (a :: l)) (hn : (a :: l).Nodup) (x : Option α) :
    Chain (Function.update next a x) (next a) l :=
  h.2.update (List.nodup_cons.mp hn).1 _

end Linked
