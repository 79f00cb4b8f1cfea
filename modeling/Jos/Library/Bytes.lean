import Mathlib.Data.List.Pairwise
import Mathlib.Tactic.IntervalCases

-- A memory of bytes with addresses of 32 bits, read and written in little-endian words at any address.

namespace Bytes

abbrev Addr := BitVec 32
abbrev Mem := Addr → BitVec 8

def load (m : Mem) (a : Addr) : BitVec 32 :=
  m (a + 3#32) ++ m (a + 2#32) ++ m (a + 1#32) ++ m a

def store (m : Mem) (a : Addr) (w : BitVec 32) : Mem :=
  fun x => if x - a < 4#32 then w.extractLsb' (8 * (x - a).toNat) 8 else m x

-- Stores the words of a list at their offsets from `b`.
def storeAll (m : Mem) (b : Addr) (l : List (Addr × BitVec 32)) : Mem :=
  l.foldl (fun m p => store m (b + p.1) p.2) m

-- The words at the two addresses have no byte in common.
def Apart (a b : Addr) : Prop :=
  4#32 ≤ a - b ∧ 4#32 ≤ b - a

instance : DecidableRel Apart :=
  fun _ _ => inferInstanceAs (Decidable (_ ∧ _))

variable {m m' : Mem} {a b x off : Addr} {w : BitVec 32} {l : List (Addr × BitVec 32)}

theorem store_of_not (h : ¬x - a < 4#32) : store m a w x = m x :=
  if_neg h

theorem store_add {k : BitVec 32} (hk : k < 4#32) : store m a w (a + k) = w.extractLsb' (8 * k.toNat) 8 := by
  have he : a + k - a = k := by rw [BitVec.add_comm, BitVec.add_sub_cancel]
  rw [store, he, if_pos hk]

theorem load_congr (h : ∀ x, x - a < 4#32 → m x = m' x) : load m a = load m' a := by
  have hk {k : Addr} (hk : k < 4#32) : m (a + k) = m' (a + k) :=
    h _ (by rwa [BitVec.add_comm, BitVec.add_sub_cancel])
  have hz := hk (k := 0#32) (by decide)
  rw [BitVec.add_zero] at hz
  rw [load, load, hz, hk (k := 1#32) (by decide), hk (k := 2#32) (by decide), hk (k := 3#32) (by decide)]

theorem load_store : load (store m a w) a = w := by
  have h₀ := store_add (m := m) (a := a) (w := w) (k := 0#32) (by decide)
  rw [BitVec.add_zero] at h₀
  rw [load, h₀, store_add (by decide), store_add (by decide), store_add (by decide)]
  ext i hi
  have hi' : i < 32 := hi
  rw [← BitVec.getLsbD_eq_getElem, ← BitVec.getLsbD_eq_getElem]
  simp only [BitVec.getLsbD_append, BitVec.getLsbD_extractLsb', BitVec.toNat_ofNat]
  split_ifs
  all_goals
    rw [decide_eq_true (by omega), Bool.true_and]
    congr 1
    omega

theorem Apart.symm (h : Apart a b) : Apart b a :=
  ⟨h.2, h.1⟩

theorem Apart.not_mem (h : Apart a b) (hx : x - a < 4#32) : ¬x - b < 4#32 := by
  obtain ⟨h₁, h₂⟩ := h
  simp only [BitVec.lt_def, BitVec.le_def, BitVec.toNat_sub, BitVec.toNat_ofNat] at *
  omega

theorem apart_add : Apart (a + b) (a + x) ↔ Apart b x := by
  have h {y z : Addr} : a + y - (a + z) = y - z := by
    apply BitVec.eq_of_toNat_eq
    simp only [BitVec.toNat_sub, BitVec.toNat_add]
    omega
  rw [Apart, Apart, h, h]

theorem load_store_of_apart (h : Apart a b) : load (store m b w) a = load m a :=
  load_congr fun _ hx => store_of_not (h.not_mem hx)

theorem storeAll_of_not (h : ∀ p ∈ l, ¬x - (b + p.1) < 4#32) : storeAll m b l x = m x := by
  induction l generalizing m
  case nil => rfl
  case cons p l ih =>
    rw [storeAll, List.foldl_cons]
    exact (ih fun q hq => h q (by simp [hq])).trans (store_of_not (h p (by simp)))

-- What has been stored at one of the offsets is read there.
theorem load_storeAll (hp : (l.map Prod.fst).Pairwise Apart) (hm : (off, w) ∈ l) :
    load (storeAll m b l) (b + off) = w := by
  induction l generalizing m
  case nil => cases hm
  case cons p l ih =>
    obtain ⟨hp₁, hp₂⟩ := List.pairwise_cons.mp hp
    rw [storeAll, List.foldl_cons]
    cases List.mem_cons.mp hm
    case inr hm => exact ih hp₂ hm
    case inl he =>
      subst he
      have hl : load (storeAll (store m (b + off) w) b l) (b + off) = load (store m (b + off) w) (b + off) := by
        refine load_congr fun x hx => storeAll_of_not fun q hq => ?_
        exact (apart_add.mpr (hp₁ q.1 (List.mem_map_of_mem hq))).not_mem hx
      exact hl.trans load_store

end Bytes
