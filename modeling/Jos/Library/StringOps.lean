import Jos.Library.Bytes
import Mathlib.Logic.Function.Basic

-- The string instructions of the x86 with a `rep` prefix, on a memory of bytes.

open Function

namespace Bytes

-- The bytes at the offsets from `lo` up to `hi` behind `d` are those of `f`.
def overlay (m : Mem) (d : Addr) (f : Nat → BitVec 8) (lo hi : Nat) : Mem := fun a =>
  if lo ≤ (a - d).toNat ∧ (a - d).toNat < hi then f (a - d).toNat else m a

variable {m : Mem} {d s a : Addr} {f g : Nat → BitVec 8} {lo mid hi n k : Nat} {w : BitVec 32}

section Overlay

theorem overlay_empty : overlay m d f lo lo = m :=
  funext fun _ => if_neg (by omega)

theorem overlay_congr (h : ∀ i, lo ≤ i → i < hi → f i = g i) : overlay m d f lo hi = overlay m d g lo hi := by
  funext a
  simp only [overlay]
  split
  case isTrue ha => exact h _ ha.1 ha.2
  case isFalse => rfl

-- Two parts which meet.
theorem overlay_up (h₁ : lo ≤ mid) (h₂ : mid ≤ hi) : overlay (overlay m d f lo mid) d f mid hi = overlay m d f lo hi := by
  funext a
  simp only [overlay]
  split_ifs
  all_goals first | rfl | omega

theorem overlay_down (h₁ : lo ≤ mid) (h₂ : mid ≤ hi) : overlay (overlay m d f mid hi) d f lo mid = overlay m d f lo hi := by
  funext a
  simp only [overlay]
  split_ifs
  all_goals first | rfl | omega

theorem overlay_of_lt (h : n ≤ 2 ^ 32) (hk : k < n) (h₁ : lo ≤ k) (h₂ : k < hi) :
    overlay m d f lo hi (d + BitVec.ofNat 32 k) = f k := by
  have he : (d + BitVec.ofNat 32 k - d).toNat = k := by
    rw [BitVec.add_comm, BitVec.add_sub_cancel, BitVec.toNat_ofNat, Nat.mod_eq_of_lt (by omega)]
  simp only [overlay, he, if_pos (And.intro h₁ h₂)]

theorem overlay_of_not (h : ¬(lo ≤ (a - d).toNat ∧ (a - d).toNat < hi)) : overlay m d f lo hi a = m a :=
  if_neg h

theorem toNat_sub_add (h : lo < 2 ^ 32) :
    (a - (d + BitVec.ofNat 32 lo)).toNat = if lo ≤ (a - d).toNat then (a - d).toNat - lo else 2 ^ 32 + (a - d).toNat - lo := by
  have ha := a.isLt
  have hd := d.isLt
  simp only [BitVec.toNat_sub, BitVec.toNat_add, BitVec.toNat_ofNat]
  split <;> omega

-- One byte, and the four bytes of a word.
theorem update_eq_overlay (h : lo < 2 ^ 32) : update m (d + BitVec.ofNat 32 lo) (f lo) = overlay m d f lo (lo + 1) := by
  funext a
  have ht := toNat_sub_add (a := a) (d := d) h
  by_cases he : a = d + BitVec.ofNat 32 lo
  case pos =>
    subst he
    rw [update_self, overlay_of_lt (Nat.le_refl _) h (Nat.le_refl _) (Nat.lt_succ_self _)]
  case neg =>
    rw [update_of_ne he, overlay_of_not]
    intro ⟨h₁, h₂⟩
    apply he
    rw [if_pos h₁] at ht
    have hz : a - (d + BitVec.ofNat 32 lo) = 0#32 := BitVec.eq_of_toNat_eq <| ht.trans (by rw [BitVec.toNat_zero]; omega)
    rw [← BitVec.sub_add_cancel a (d + BitVec.ofNat 32 lo), hz, BitVec.zero_add]

theorem store_eq_overlay (h : lo + 4 ≤ 2 ^ 32) (hw : ∀ k < 4, w.extractLsb' (8 * k) 8 = f (lo + k)) :
    store m (d + BitVec.ofNat 32 lo) w = overlay m d f lo (lo + 4) := by
  funext a
  have ht := @toNat_sub_add d a lo (by omega)
  by_cases hin : lo ≤ (a - d).toNat ∧ (a - d).toNat < lo + 4
  case pos =>
    rw [if_pos hin.1] at ht
    have hlt : a - (d + BitVec.ofNat 32 lo) < 4#32 := by
      rw [BitVec.lt_def, ht]
      simp only [BitVec.toNat_ofNat]
      omega
    have hlo : lo + ((a - d).toNat - lo) = (a - d).toNat := by omega
    rw [store, if_pos hlt, ht, hw _ (by omega), hlo, overlay, if_pos hin]
  case neg =>
    have hd := (a - d).isLt
    rw [overlay_of_not hin, store_of_not]
    rw [BitVec.lt_def, ht]
    simp only [BitVec.toNat_ofNat]
    split <;> omega

theorem extract_load (hk : k < 4) : (load m a).extractLsb' (8 * k) 8 = m (a + BitVec.ofNat 32 k) := by
  apply BitVec.eq_of_getLsbD_eq
  intro i hi
  rw [BitVec.getLsbD_extractLsb', decide_eq_true hi, Bool.true_and, load]
  simp only [BitVec.getLsbD_append]
  cases k
  case zero =>
    have hz : a + BitVec.ofNat 32 0 = a := BitVec.add_zero a
    rw [hz, if_pos (by omega), Nat.mul_zero, Nat.zero_add]
  case succ k =>
    have hk : k < 3 := by omega
    interval_cases k
    all_goals
      split_ifs
      all_goals first | omega | congr 1; omega

end Overlay

-- The memory and the direction flag.
structure Machine where
  mem : Mem
  df  : Bool

namespace Machine

variable (x : Machine)

def cld : Machine :=
  { x with df := false }

def std : Machine :=
  { x with df := true }

-- A pointer after one step with `w` bytes.
def next (w p : Addr) : Addr :=
  if x.df then p - w else p + w

-- `op` with `%edi` and `%esi`, for as many times as `%ecx` says. What `%esi` holds does not matter to `stos`.
def repeated (op : Addr → Addr → Mem → Mem) (w : Addr) : Nat → Addr → Addr → Machine → Machine
  | 0, _, _, x => x
  | n + 1, edi, esi, x => repeated op w n (x.next w edi) (x.next w esi) { x with mem := op edi esi x.mem }

def movsb (edi esi : Addr) (m : Mem) : Mem :=
  update m edi (m esi)

def movsl (edi esi : Addr) (m : Mem) : Mem :=
  store m edi (load m esi)

def stosb (eax : Addr) (edi _ : Addr) (m : Mem) : Mem :=
  update m edi (eax.setWidth 8)

def stosl (eax : Addr) (edi _ : Addr) (m : Mem) : Mem :=
  store m edi eax

end Machine

open Machine

section Rep

variable {op : Addr → Addr → Mem → Mem} {b j N : Nat}

theorem add_ofNat_add {p : Addr} : p + BitVec.ofNat 32 k + BitVec.ofNat 32 b = p + BitVec.ofNat 32 (k + b) := by
  rw [BitVec.add_assoc, ← BitVec.ofNat_add]

-- Upwards, where each step fills the next `b` bytes with those of `f`.
theorem repeated_up (hop : ∀ lo, lo + b ≤ N → op (d + BitVec.ofNat 32 lo) (s + BitVec.ofNat 32 lo) (overlay m d f 0 lo) =
      overlay m d f 0 (lo + b)) (hN : j + b * k ≤ N) :
    repeated op (BitVec.ofNat 32 b) k (d + BitVec.ofNat 32 j) (s + BitVec.ofNat 32 j) ⟨overlay m d f 0 j, false⟩ =
      ⟨overlay m d f 0 (j + b * k), false⟩ := by
  induction k generalizing j
  case zero => rfl
  case succ k hi =>
    have he : j + b * (k + 1) = j + b + b * k := by rw [Nat.mul_succ]; omega
    rw [repeated, hop j (by omega)]
    simp only [next, Bool.false_eq_true, if_false, add_ofNat_add]
    rw [he]
    exact hi (by omega)

-- Downwards from the end of `N` bytes.
theorem repeated_down (hop : ∀ lo, lo + b ≤ N → op (d + BitVec.ofNat 32 lo) (s + BitVec.ofNat 32 lo) (overlay m d f (lo + b) N) =
      overlay m d f lo N) (hN : b * k ≤ N) :
    repeated op (BitVec.ofNat 32 b) k (d + BitVec.ofNat 32 (b * k) - BitVec.ofNat 32 b)
        (s + BitVec.ofNat 32 (b * k) - BitVec.ofNat 32 b) ⟨overlay m d f (b * k) N, true⟩ =
      ⟨overlay m d f 0 N, true⟩ := by
  induction k
  case zero => rfl
  case succ k hi =>
    have he {p : Addr} : p + BitVec.ofNat 32 (b * (k + 1)) - BitVec.ofNat 32 b = p + BitVec.ofNat 32 (b * k) := by
      rw [Nat.mul_succ, ← add_ofNat_add, BitVec.add_sub_cancel]
    rw [Nat.mul_succ] at hN
    rw [he, he, repeated, Nat.mul_succ, hop (b * k) hN]
    simp only [next, if_true]
    exact hi (by omega)

-- One step copies `b` bytes, if they are those of `f` in the memory before it.
def Copies (op : Addr → Addr → Mem → Mem) (b : Nat) : Prop :=
  ∀ {m d s lo} {f : Nat → BitVec 8}, lo + b ≤ 2 ^ 32 → (∀ k < b, m (s + BitVec.ofNat 32 (lo + k)) = f (lo + k)) →
    op (d + BitVec.ofNat 32 lo) (s + BitVec.ofNat 32 lo) m = overlay m d f lo (lo + b)

theorem copies_movsb : Copies movsb 1 := by
  intro m d s lo f hlo hf
  have h₀ : m (s + BitVec.ofNat 32 lo) = f lo := hf 0 Nat.zero_lt_one
  rw [movsb, h₀, update_eq_overlay (by omega)]

theorem copies_movsl : Copies movsl 4 := by
  intro m d s lo f hlo hf
  rw [movsl, store_eq_overlay hlo]
  intro k hk
  rw [extract_load hk, add_ofNat_add, hf k hk]

-- What is read has not been written.
theorem overlay_source (h : ∀ i, lo ≤ i → i < hi → a ≠ d + BitVec.ofNat 32 i) : overlay m d f lo hi a = m a := by
  apply overlay_of_not
  intro ⟨h₁, h₂⟩
  apply h _ h₁ h₂
  rw [BitVec.ofNat_toNat, BitVec.setWidth_eq, BitVec.add_comm, BitVec.sub_add_cancel]

theorem Copies.repeated_up (hop : Copies op b) (hN : b * k ≤ 2 ^ 32)
    (hs : ∀ i j, i < j → j < b * k → s + BitVec.ofNat 32 j ≠ d + BitVec.ofNat 32 i) :
    repeated op (BitVec.ofNat 32 b) k d s ⟨m, false⟩ =
      ⟨overlay m d (fun i => m (s + BitVec.ofNat 32 i)) 0 (b * k), false⟩ := by
  generalize hf : (fun i => m (s + BitVec.ofNat 32 i)) = f
  have hstep (lo : Nat) (hlo : lo + b ≤ b * k) :
      op (d + BitVec.ofNat 32 lo) (s + BitVec.ofNat 32 lo) (overlay m d f 0 lo) = overlay m d f 0 (lo + b) := by
    rw [hop (f := f) (by omega), overlay_up (Nat.zero_le _) (Nat.le_add_right _ _)]
    intro k hk
    rw [overlay_source fun i _ hi => hs i (lo + k) (by omega) (by omega), ← hf]
  have h := Bytes.repeated_up hstep (j := 0) (Nat.le_of_eq (Nat.zero_add _))
  rwa [overlay_empty, Nat.zero_add, BitVec.add_zero, BitVec.add_zero] at h

theorem Copies.repeated_down (hop : Copies op b) (hN : b * k ≤ 2 ^ 32)
    (hs : ∀ i j, i < j → j < b * k → s + BitVec.ofNat 32 i ≠ d + BitVec.ofNat 32 j) :
    repeated op (BitVec.ofNat 32 b) k (d + BitVec.ofNat 32 (b * k) - BitVec.ofNat 32 b)
        (s + BitVec.ofNat 32 (b * k) - BitVec.ofNat 32 b) ⟨m, true⟩ =
      ⟨overlay m d (fun i => m (s + BitVec.ofNat 32 i)) 0 (b * k), true⟩ := by
  generalize hf : (fun i => m (s + BitVec.ofNat 32 i)) = f
  have hstep (lo : Nat) (hlo : lo + b ≤ b * k) :
      op (d + BitVec.ofNat 32 lo) (s + BitVec.ofNat 32 lo) (overlay m d f (lo + b) (b * k)) = overlay m d f lo (b * k) := by
    rw [hop (f := f) (by omega), overlay_down (Nat.le_add_right _ _) hlo]
    intro k hk
    rw [overlay_source fun i h₁ h₂ => hs (lo + k) i (by omega) (by omega), ← hf]
  have h := Bytes.repeated_down hstep (Nat.le_refl _)
  rwa [overlay_empty] at h

-- The steps which store the same bytes whatever `%esi` is.
theorem rep_fill (hop : ∀ {m lo}, lo + b ≤ b * k →
      op (d + BitVec.ofNat 32 lo) (s + BitVec.ofNat 32 lo) m = overlay m d f lo (lo + b)) :
    repeated op (BitVec.ofNat 32 b) k d s ⟨m, false⟩ = ⟨overlay m d f 0 (b * k), false⟩ := by
  have hstep (lo : Nat) (hlo : lo + b ≤ b * k) :
      op (d + BitVec.ofNat 32 lo) (s + BitVec.ofNat 32 lo) (overlay m d f 0 lo) = overlay m d f 0 (lo + b) := by
    rw [hop hlo, overlay_up (Nat.zero_le _) (Nat.le_add_right _ _)]
  have h := Bytes.repeated_up hstep (j := 0) (Nat.le_of_eq (Nat.zero_add _))
  rwa [overlay_empty, Nat.zero_add, BitVec.add_zero, BitVec.add_zero] at h

theorem stosb_eq (h : lo < 2 ^ 32) :
    stosb w (d + BitVec.ofNat 32 lo) s m = overlay m d (fun _ => w.setWidth 8) lo (lo + 1) :=
  update_eq_overlay (f := fun _ => w.setWidth 8) h

theorem stosl_eq {c : BitVec 8} (h : lo + 4 ≤ 2 ^ 32) (hw : ∀ k < 4, w.extractLsb' (8 * k) 8 = c) :
    stosl w (d + BitVec.ofNat 32 lo) s m = overlay m d (fun _ => c) lo (lo + 4) :=
  store_eq_overlay h hw

end Rep

end Bytes
