import Mathlib.Algebra.GroupWithZero.Nat
import Mathlib.Data.List.Basic
import Mathlib.Logic.Function.Basic

-- A ring of `N` cells with a position for writing and one for reading. Nothing prevents the writer from overtaking the
-- reader.

open Function

structure RingBuffer (N : Nat) (α : Type*) where
  buf  : Fin N → α
  rpos : Fin N
  wpos : Fin N

namespace RingBuffer

variable {N : Nat} [NeZero N] {α : Type*} {k : RingBuffer N α} {l l' : List α} {a : α} {n n' : Nat}

def put (k : RingBuffer N α) (a : α) : RingBuffer N α :=
  { k with buf := update k.buf k.wpos a, wpos := k.wpos + 1 }

def get (k : RingBuffer N α) : Option (α × RingBuffer N α) :=
  if k.rpos = k.wpos then none else some (k.buf k.rpos, { k with rpos := k.rpos + 1 })

def putAll (k : RingBuffer N α) (l : List α) : RingBuffer N α :=
  l.foldl put k

-- Of the sequence `l` that has been written, the part from `n` on is in the ring.
structure Holds (k : RingBuffer N α) (l : List α) (n : Nat) : Prop where
  rpos : k.rpos.val = n % N
  wpos : k.wpos.val = l.length % N
  le   : n ≤ l.length
  lt   : l.length < n + N
  buf  : ∀ {i} (hi : i < l.length), n ≤ i → k.buf (Fin.ofNat N i) = l[i]

theorem val_add_one {i : Fin N} (h : i.val = n % N) : (i + 1).val = (n + 1) % N := by
  have h₁ : (1 : Fin N).val = 1 % N := rfl
  rw [Fin.val_add, h, h₁, ← Nat.add_mod]

theorem ofNat_eq {i : Fin N} (h : i.val = n % N) : Fin.ofNat N n = i :=
  Fin.ext h.symm

omit [NeZero N] in
-- Numbers which differ by less than `N` have different remainders.
theorem eq_of_mod_eq (h : n % N = n' % N) (hle : n ≤ n') (hlt : n' < n + N) : n = n' := by
  have hd := Nat.sub_mod_eq_zero_of_mod_eq h.symm
  rw [Nat.mod_eq_of_lt (by omega)] at hd
  omega

namespace Holds

-- Only what is written in a cell changes there; if no cell is left, all that has not been read is lost.
theorem put (h : k.Holds l n) : ∃ n', (k.put a).Holds (l ++ [a]) n' ∧ n ≤ n' ∧ (l.length + 1 < n + N → n' = n) := by
  have hlen : (l ++ [a]).length = l.length + 1 := by simp
  have hw : (k.put a).wpos.val = (l ++ [a]).length % N := by
    rw [hlen]
    exact val_add_one h.wpos
  have hle := h.le
  have hlt := h.lt
  by_cases hfull : l.length + 1 < n + N
  case pos =>
    refine ⟨n, ⟨h.rpos, hw, by omega, by omega, fun {i} hi hni => ?_⟩, Nat.le_refl n, fun _ => rfl⟩
    rw [hlen] at hi
    by_cases hil : i < l.length
    case pos =>
      have hne : Fin.ofNat N i ≠ k.wpos := by
        intro he
        have hm : i % N = l.length % N := (congrArg Fin.val he).trans h.wpos
        have := eq_of_mod_eq hm (by omega) (by omega)
        omega
      rw [List.getElem_append_left hil, ← h.buf hil hni]
      exact update_of_ne hne _ _
    case neg =>
      obtain rfl : i = l.length := by omega
      rw [List.getElem_append_right (Nat.le_refl _)]
      simp only [RingBuffer.put, ofNat_eq h.wpos, update_self, Nat.sub_self, List.getElem_singleton]
  case neg =>
    have hr : (k.put a).rpos.val = (n + N) % N := by
      rw [Nat.add_mod_right]
      exact h.rpos
    exact ⟨n + N, ⟨hr, hw, by omega, by omega, fun hi hni => by omega⟩, by omega, by omega⟩

variable (l') in
theorem putAll (h : k.Holds l n) :
    ∃ n', (k.putAll l').Holds (l ++ l') n' ∧ n ≤ n' ∧ ((l ++ l').length < n + N → n' = n) := by
  induction l' generalizing k l n
  case nil => exact ⟨n, by rwa [List.append_nil], Nat.le_refl n, fun _ => rfl⟩
  case cons a l' ih =>
    obtain ⟨n₁, h₁, hle₁, heq₁⟩ := h.put (a := a)
    obtain ⟨n₂, h₂, hle₂, heq₂⟩ := ih h₁
    rw [List.append_assoc, List.singleton_append] at h₂ heq₂
    refine ⟨n₂, h₂, Nat.le_trans hle₁ hle₂, fun hlt => ?_⟩
    have hl : (l ++ a :: l').length = l.length + 1 + l'.length := by
      rw [List.length_append, List.length_cons]
      omega
    obtain rfl := heq₁ (by omega)
    exact heq₂ hlt

theorem get_eq_none (h : k.Holds l n) : k.get = none ↔ n = l.length := by
  rw [RingBuffer.get, ite_eq_left_iff]
  simp only [reduceCtorEq, imp_false, not_not]
  constructor
  case mp =>
    intro he
    have hm : n % N = l.length % N := by rw [← h.rpos, ← h.wpos, he]
    exact eq_of_mod_eq hm h.le h.lt
  case mpr =>
    intro he
    exact Fin.ext (by rw [h.rpos, h.wpos, he])

-- The reader takes what has been written at its position.
theorem get (h : k.Holds l n) (hn : n < l.length) :
    ∃ k', k.get = some (l[n], k') ∧ k'.Holds l (n + 1) := by
  have hne : k.rpos ≠ k.wpos := by
    intro he
    have hm : n % N = l.length % N := by rw [← h.rpos, ← h.wpos, he]
    have := eq_of_mod_eq hm h.le h.lt
    omega
  refine ⟨{ k with rpos := k.rpos + 1 }, ?_, val_add_one h.rpos, h.wpos, hn, by have := h.lt; omega,
    fun hi hni => h.buf hi (by omega)⟩
  rw [RingBuffer.get, if_neg hne, ← h.buf hn (Nat.le_refl n), ofNat_eq h.rpos]

end Holds

end RingBuffer
