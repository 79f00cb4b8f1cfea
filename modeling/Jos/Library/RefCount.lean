import Mathlib.Data.Fintype.Card
import Mathlib.Data.Finset.Card
import Mathlib.Data.Set.Insert
import Mathlib.Tactic.Ring
import Mathlib.Logic.Function.Basic

-- Reference counting, without any program in it. A family of slots `ι` holds references to objects
-- `α`; every object has a counter, and the objects nobody refers to are kept on a list of free
-- objects. An object that has been taken off the list but is not stored in any slot yet is in
-- flight.

open Function

namespace RefCount

variable {ι α : Type*} [Fintype ι] [DecidableEq ι] [DecidableEq α]

-- The number of slots that refer to `a`.
def refs (f : ι → Option α) (a : α) : ℕ :=
  (Finset.univ.filter fun r => f r = some a).card

variable {f : ι → Option α} {a b : α} {r : ι} {x : Option α}

omit [DecidableEq ι] in
theorem refs_eq_zero_iff : refs f a = 0 ↔ ∀ r, f r ≠ some a := by
  simp [refs, Finset.filter_eq_empty_iff]

omit [DecidableEq ι] in
theorem refs_pos_iff : 0 < refs f a ↔ ∃ r, f r = some a := by
  simp [refs, Finset.card_pos, Finset.Nonempty]

omit [DecidableEq ι] in
theorem refs_pos (h : f r = some a) : 0 < refs f a :=
  refs_pos_iff.mpr ⟨r, h⟩

-- An object with a single referring slot is referred to exactly once.
omit [DecidableEq ι] in
theorem refs_eq_one (h : f r = some a) (hu : ∀ r', f r' = some a → r' = r) : refs f a = 1 := by
  refine Finset.card_eq_one.mpr ⟨r, ?_⟩
  ext r'
  simp only [Finset.mem_filter, Finset.mem_univ, true_and, Finset.mem_singleton]
  exact ⟨hu r', fun e => e ▸ h⟩

-- Slots that are only cleared do not add references.
omit [DecidableEq ι] in
theorem refs_le {g : ι → Option α} (h : ∀ r, g r = f r ∨ g r = none) : refs g a ≤ refs f a := by
  refine Finset.card_le_card fun r hr => ?_
  simp only [Finset.mem_filter, Finset.mem_univ, true_and] at hr ⊢
  obtain he | he := h r
  case inl => rw [← he, hr]
  case inr =>
    rw [hr] at he
    cases he

-- Overwriting one slot moves the counts of its old and of its new object, and no others.
theorem refs_update :
    refs (update f r x) a + (if f r = some a then 1 else 0) =
    refs f a + (if x = some a then 1 else 0) := by
  have hs (g : ι → Option α) :
      refs g a = (Finset.univ.erase r |>.filter fun i => g i = some a).card +
        (if g r = some a then 1 else 0) := by
    rw [refs, ← Finset.insert_erase (Finset.mem_univ r), Finset.filter_insert]
    split
    case isTrue => rw [Finset.card_insert_of_notMem (by simp), Finset.erase_insert (by simp)]
    case isFalse => rw [Finset.erase_insert (by simp), Nat.add_zero]
  have he : (Finset.univ.erase r |>.filter fun i => update f r x i = some a) =
      (Finset.univ.erase r |>.filter fun i => f i = some a) := by
    apply Finset.filter_congr
    intro i hi
    rw [update_of_ne (Finset.ne_of_mem_erase hi)]
  rw [hs (update f r x), hs f, he, update_self]
  ring

theorem refs_update_of_ne (hf : f r ≠ some a) (hx : x ≠ some a) : refs (update f r x) a = refs f a := by
  have h := refs_update (f := f) (r := r) (x := x) (a := a)
  simpa [hf, hx] using h

theorem refs_link (hf : f r = none) : refs (update f r (some a)) a = refs f a + 1 := by
  have h := refs_update (f := f) (r := r) (x := some a) (a := a)
  simpa [hf] using h

theorem refs_link_of_ne (hf : f r = none) (hb : b ≠ a) : refs (update f r (some a)) b = refs f b :=
  refs_update_of_ne (by simp [hf]) (by simp [hb.symm])

theorem refs_unlink (hf : f r = some a) : refs (update f r none) a + 1 = refs f a := by
  have h := refs_update (f := f) (r := r) (x := none) (a := a)
  simpa [hf] using h

theorem refs_unlink_of_ne (hf : f r = some a) (hb : b ≠ a) : refs (update f r none) b = refs f b :=
  refs_update_of_ne (by simp [hf, hb.symm]) (by simp)

-- The invariant of the counted pool `M`: the counters are exact, and the free list holds, once
-- each, the pool's objects that are neither referred to nor in flight.
structure Pool (M F : Set α) (f : ι → Option α) (cnt : α → ℕ) (free : List α) : Prop where
  nodup    : free.Nodup
  mem_free : ∀ {a}, a ∈ free ↔ a ∈ M ∧ refs f a = 0 ∧ a ∉ F
  count    : ∀ {a}, a ∈ M → cnt a = refs f a
  flight   : ∀ {a}, a ∈ F → a ∈ M ∧ refs f a = 0

namespace Pool

variable {M F : Set α} {cnt cnt' : α → ℕ} {free : List α}

omit [DecidableEq ι] in
theorem not_free_of_ref (h : Pool M F f cnt free) (hr : f r = some a) : a ∉ free :=
  fun hm => refs_eq_zero_iff.mp (h.mem_free.mp hm).2.1 r hr

omit [DecidableEq ι] in
theorem not_free_of_flight (h : Pool M F f cnt free) (ha : a ∈ F) : a ∉ free :=
  fun hm => (h.mem_free.mp hm).2.2 ha

omit [DecidableEq ι] in
theorem not_ref_of_free (h : Pool M F f cnt free) (ha : a ∈ free) : f r ≠ some a :=
  refs_eq_zero_iff.mp (h.mem_free.mp ha).2.1 r

omit [DecidableEq ι] in
theorem not_ref_of_flight (h : Pool M F f cnt free) (ha : a ∈ F) : f r ≠ some a :=
  refs_eq_zero_iff.mp (h.flight ha).2 r

omit [DecidableEq ι] in
theorem count_free (h : Pool M F f cnt free) (ha : a ∈ free) : cnt a = 0 := by
  have ⟨hm, hz, _⟩ := h.mem_free.mp ha
  rw [h.count hm, hz]

-- Each object of the pool is on the list exactly once if it is unreferenced, and not at all
-- otherwise, as soon as nothing is in flight.
omit [DecidableEq ι] in
theorem count_eq (h : Pool M ∅ f cnt free) (ha : a ∈ M) :
    free.count a = if refs f a = 0 then 1 else 0 := by
  split
  case isTrue hz => exact List.count_eq_one_of_mem h.nodup (h.mem_free.mpr ⟨ha, hz, by simp⟩)
  case isFalse hz => exact List.count_eq_zero_of_not_mem fun hm => hz (h.mem_free.mp hm).2.1

omit [DecidableEq ι] in
theorem alloc (h : Pool M F f cnt (a :: free)) : Pool M (insert a F) f cnt free where
  nodup := h.nodup.of_cons
  mem_free := by
    intro b
    have hb := h.mem_free (a := b)
    have hn := (List.nodup_cons.mp h.nodup).1
    simp only [List.mem_cons, Set.mem_insert_iff, not_or] at hb ⊢
    constructor
    case mp =>
      intro hm
      have ⟨hM, hz, hF⟩ := hb.mp (.inr hm)
      exact ⟨hM, hz, fun e => hn (e ▸ hm), hF⟩
    case mpr =>
      intro ⟨hM, hz, hne, hF⟩
      exact (hb.mpr ⟨hM, hz, hF⟩).resolve_left hne
  count := h.count
  flight := by
    rintro b (rfl | hb)
    case inl => exact (h.mem_free.mp (by simp)).imp_right And.left
    case inr => exact h.flight hb

omit [DecidableEq ι] in
theorem release (h : Pool M (insert a F) f cnt free) (ha : a ∉ F) : Pool M F f cnt (a :: free) where
  nodup := List.nodup_cons.mpr ⟨h.not_free_of_flight (by simp), h.nodup⟩
  mem_free := by
    intro b
    have hb := h.mem_free (a := b)
    simp only [List.mem_cons, Set.mem_insert_iff, not_or] at hb ⊢
    constructor
    case mp =>
      rintro (rfl | hm)
      case inl =>
        have ⟨hM, hz⟩ := h.flight (Set.mem_insert b F)
        exact ⟨hM, hz, ha⟩
      case inr =>
        have ⟨hM, hz, _, hF⟩ := hb.mp hm
        exact ⟨hM, hz, hF⟩
    case mpr =>
      intro ⟨hM, hz, hF⟩
      by_cases he : b = a
      case pos => exact .inl he
      case neg => exact .inr <| hb.mpr ⟨hM, hz, he, hF⟩
  count := h.count
  flight hb := h.flight (Set.mem_insert_of_mem _ hb)

-- Storing an object that is in flight into an empty slot.
theorem link_flight (h : Pool M (insert a F) f cnt free) (ha : a ∉ F) (hr : f r = none)
    (hc : cnt' a = cnt a + 1) (hc' : ∀ b, b ≠ a → cnt' b = cnt b) :
    Pool M F (update f r (some a)) cnt' free where
  nodup := h.nodup
  mem_free := by
    intro b
    by_cases hb : b = a
    case pos =>
      subst hb
      simp [h.not_free_of_flight (Set.mem_insert b F), refs_link hr]
    case neg =>
      rw [h.mem_free, refs_link_of_ne hr hb]
      simp [hb]
  count := by
    intro b hb
    by_cases he : b = a
    case pos => rw [he, hc, refs_link hr, h.count (he ▸ hb)]
    case neg => rw [hc' b he, refs_link_of_ne hr he, h.count hb]
  flight := by
    intro b hb
    have hne : b ≠ a := fun e => ha (e ▸ hb)
    rw [refs_link_of_ne hr hne]
    exact h.flight (Set.mem_insert_of_mem _ hb)

-- Storing one more reference to an object that is referred to already.
theorem link_shared {r' : ι} (h : Pool M F f cnt free) (hr' : f r' = some a) (hr : f r = none)
    (hc : cnt' a = cnt a + 1) (hc' : ∀ b, b ≠ a → cnt' b = cnt b) :
    Pool M F (update f r (some a)) cnt' free where
  nodup := h.nodup
  mem_free := by
    intro b
    by_cases hb : b = a
    case pos =>
      subst hb
      simp [h.not_free_of_ref hr', refs_link hr]
    case neg => rw [h.mem_free, refs_link_of_ne hr hb]
  count := by
    intro b hb
    by_cases he : b = a
    case pos => rw [he, hc, refs_link hr, h.count (he ▸ hb)]
    case neg => rw [hc' b he, refs_link_of_ne hr he, h.count hb]
  flight := by
    intro b hb
    have hne : b ≠ a := fun e => h.not_ref_of_flight hb (e ▸ hr')
    rw [refs_link_of_ne hr hne]
    exact h.flight hb

-- Clearing a slot whose object is referred to from elsewhere as well.
theorem unlink_shared (h : Pool M F f cnt free) (hr : f r = some a) (hc : cnt a = cnt' a + 1)
    (hs : cnt' a ≠ 0) (hc' : ∀ b, b ≠ a → cnt' b = cnt b) (ha : a ∈ M) :
    Pool M F (update f r none) cnt' free where
  nodup := h.nodup
  mem_free := by
    intro b
    by_cases hb : b = a
    case pos =>
      subst hb
      have hn := refs_unlink hr
      have hk := h.count ha
      simp only [h.not_free_of_ref hr, false_iff, not_and]
      omega
    case neg => rw [h.mem_free, refs_unlink_of_ne hr hb]
  count := by
    intro b hb
    by_cases he : b = a
    case pos =>
      have hn := refs_unlink hr
      have hk := h.count ha
      subst he
      omega
    case neg => rw [hc' b he, refs_unlink_of_ne hr he, h.count hb]
  flight := by
    intro b hb
    have hne : b ≠ a := fun e => h.not_ref_of_flight hb (e ▸ hr)
    rw [refs_unlink_of_ne hr hne]
    exact h.flight hb

-- Clearing the last slot that refers to an object: the object goes back to the list.
theorem unlink_last (h : Pool M F f cnt free) (hr : f r = some a) (hc : cnt a = 1)
    (hc₀ : cnt' a = 0) (hc' : ∀ b, b ≠ a → cnt' b = cnt b) (ha : a ∈ M) :
    Pool M F (update f r none) cnt' (a :: free) where
  nodup := List.nodup_cons.mpr ⟨h.not_free_of_ref hr, h.nodup⟩
  mem_free := by
    intro b
    have hn := refs_unlink hr
    have hk := h.count ha
    by_cases hb : b = a
    case pos =>
      subst hb
      have hF : b ∉ F := fun hf => h.not_ref_of_flight hf hr
      simp only [List.mem_cons, true_or, true_iff]
      exact ⟨ha, by omega, hF⟩
    case neg =>
      rw [List.mem_cons, h.mem_free, refs_unlink_of_ne hr hb]
      simp [hb]
  count := by
    intro b hb
    by_cases he : b = a
    case pos =>
      have hn := refs_unlink hr
      have hk := h.count ha
      subst he
      omega
    case neg => rw [hc' b he, refs_unlink_of_ne hr he, h.count hb]
  flight := by
    intro b hb
    have hne : b ≠ a := fun e => h.not_ref_of_flight hb (e ▸ hr)
    rw [refs_unlink_of_ne hr hne]
    exact h.flight hb

end Pool

end RefCount
