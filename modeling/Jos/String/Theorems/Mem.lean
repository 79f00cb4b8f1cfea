import Jos.String.Mem

-- Moving and setting memory with words or downwards gives what the bytes moved or set one by one give.

open Function Bytes Machine

namespace Jos

variable {m m' : Mem} {x : Machine} {dst src n v c d s : Addr} {k : Nat}

-- The memory in which the bytes behind `src` have been moved to `dst`.
def moved (m : Mem) (dst src n : Addr) : Mem :=
  overlay m dst (fun i => m (src + BitVec.ofNat 32 i)) 0 n.toNat

-- The memory in which the bytes from `v` on have been set.
def filled (m : Mem) (v c n : Addr) : Mem :=
  overlay m v (fun _ => c.setWidth 8) 0 n.toNat

section Words

theorem toNat_words (h : n % 4#32 = 0#32) : 4 * (n / 4#32).toNat = n.toNat := by
  have hm : n.toNat % 4 = 0 := by simpa [BitVec.toNat_umod] using congrArg BitVec.toNat h
  have h₄ : (4#32).toNat = 4 := rfl
  rw [BitVec.toNat_udiv, h₄]
  omega

theorem toNat_add_index {p : Addr} {i : Nat} (h : p.toNat + n.toNat ≤ 2 ^ 32) (hi : i < n.toNat) :
    (p + BitVec.ofNat 32 i).toNat = p.toNat + i := by
  simp only [BitVec.toNat_add, BitVec.toNat_ofNat]
  omega

end Words

section Move

-- Downwards no byte is overwritten before it is read if the destination is above the source.
theorem apart_down (hd : dst.toNat + n.toNat ≤ 2 ^ 32) (hs : src.toNat + n.toNat ≤ 2 ^ 32) (h : src < dst) (i j : Nat)
    (hij : i < j) (hj : j < n.toNat) : src + BitVec.ofNat 32 i ≠ dst + BitVec.ofNat 32 j := by
  intro he
  have ht := congrArg BitVec.toNat he
  rw [toNat_add_index hs (by omega), toNat_add_index hd hj] at ht
  have h : src.toNat < dst.toNat := h
  omega

-- Upwards this is so if the source does not reach into the destination from below.
theorem apart_up (hd : dst.toNat + n.toNat ≤ 2 ^ 32) (hs : src.toNat + n.toNat ≤ 2 ^ 32)
    (h : ¬(src < dst ∧ src + n > dst)) (i j : Nat) (hij : i < j) (hj : j < n.toNat) :
    src + BitVec.ofNat 32 j ≠ dst + BitVec.ofNat 32 i := by
  intro he
  have ht := congrArg BitVec.toNat he
  rw [toNat_add_index hs hj, toNat_add_index hd (by omega)] at ht
  apply h
  have hlt : src.toNat < dst.toNat := by omega
  refine ⟨hlt, ?_⟩
  rw [gt_iff_lt, BitVec.lt_def, BitVec.toNat_add]
  omega

theorem Asm.memmove_eq (hd : dst.toNat + n.toNat ≤ 2 ^ 32) (hs : src.toNat + n.toNat ≤ 2 ^ 32) :
    Asm.memmove dst src n x = (dst, ⟨moved x.mem dst src n, false⟩) := by
  have hn := n.isLt
  have hb : BitVec.ofNat 32 (1 * n.toNat) = n := by rw [Nat.one_mul, BitVec.ofNat_toNat, BitVec.setWidth_eq]
  rw [Asm.memmove]
  dsimp only
  split
  case isTrue h =>
    have ha := apart_down hd hs h.1
    split
    case isTrue hw =>
      have hk := toNat_words hw.2.2
      have hw' : BitVec.ofNat 32 (4 * (n / 4#32).toNat) = n := by rw [hk, BitVec.ofNat_toNat, BitVec.setWidth_eq]
      have hr := copies_movsl.repeated_down (m := x.mem) (k := (n / 4#32).toNat) (by omega) (hk ▸ ha)
      rw [hw', hk] at hr
      rw [Machine.std, hr]
      rfl
    case isFalse =>
      have hr := copies_movsb.repeated_down (m := x.mem) (k := n.toNat) (by omega) (by rwa [Nat.one_mul])
      rw [hb, Nat.one_mul] at hr
      rw [Machine.std, hr]
      rfl
  case isFalse h =>
    have ha := apart_up hd hs h
    split
    case isTrue hw =>
      have hk := toNat_words hw.2.2
      have hr := copies_movsl.repeated_up (m := x.mem) (k := (n / 4#32).toNat) (by omega) (hk ▸ ha)
      rw [hk] at hr
      rw [Machine.cld, hr]
      rfl
    case isFalse =>
      have hr := copies_movsb.repeated_up (m := x.mem) (k := n.toNat) (by omega) (by rwa [Nat.one_mul])
      rw [Nat.one_mul] at hr
      rw [Machine.cld, hr]
      rfl

theorem Plain.moveDown_eq : Plain.moveDown k d s m = (repeated movsb 1#32 k (d - 1#32) (s - 1#32) ⟨m, true⟩).mem := by
  induction k generalizing d s m
  case zero => rfl
  case succ k hi => exact hi

theorem Plain.moveUp_eq : Plain.moveUp k d s m = (repeated movsb 1#32 k d s ⟨m, false⟩).mem := by
  induction k generalizing d s m
  case zero => rfl
  case succ k hi => exact hi

theorem Plain.memmove_eq (hd : dst.toNat + n.toNat ≤ 2 ^ 32) (hs : src.toNat + n.toNat ≤ 2 ^ 32) :
    Plain.memmove dst src n m = (dst, moved m dst src n) := by
  have hn := n.isLt
  have hb : BitVec.ofNat 32 (1 * n.toNat) = n := by rw [Nat.one_mul, BitVec.ofNat_toNat, BitVec.setWidth_eq]
  rw [Plain.memmove]
  split
  case isTrue h =>
    have ha := apart_down hd hs h.1
    have hr := copies_movsb.repeated_down (m := m) (k := n.toNat) (by omega) (by rwa [Nat.one_mul])
    rw [hb, Nat.one_mul] at hr
    rw [Plain.moveDown_eq, hr]
    rfl
  case isFalse h =>
    have ha := apart_up hd hs h
    have hr := copies_movsb.repeated_up (m := m) (k := n.toNat) (by omega) (by rwa [Nat.one_mul])
    rw [Nat.one_mul] at hr
    rw [Plain.moveUp_eq, hr]
    rfl

end Move

section Set

theorem and_low_byte : c &&& 0xFF#32 = (c.setWidth 8).setWidth 32 := by
  have hm : ∀ i < 32, (0xFF#32).getLsbD i = decide (i < 8) := by decide
  apply BitVec.eq_of_getLsbD_eq
  intro i hi
  rw [BitVec.getLsbD_and, hm i hi, BitVec.getLsbD_setWidth, BitVec.getLsbD_setWidth, decide_eq_true hi, Bool.true_and,
    Bool.and_comm]

-- The byte is in each part of the word.
theorem extract_spread (hk : k < 4) :
    (((c &&& 0xFF#32) <<< 24 ||| (c &&& 0xFF#32) <<< 16 ||| (c &&& 0xFF#32) <<< 8 ||| (c &&& 0xFF#32)).extractLsb' (8 * k) 8) =
      c.setWidth 8 := by
  have hb : ∀ b : BitVec 8, ∀ k < 4, (((b.setWidth 32 : Addr) <<< 24 ||| (b.setWidth 32 : Addr) <<< 16 |||
      (b.setWidth 32 : Addr) <<< 8 ||| (b.setWidth 32 : Addr)).extractLsb' (8 * k) 8) = b := by
    decide +kernel
  rw [and_low_byte]
  exact hb _ k hk

theorem repeated_stosb : repeated (stosb c) 1#32 n.toNat v s ⟨m, false⟩ = ⟨filled m v c n, false⟩ := by
  have hn := n.isLt
  have hstep {m : Mem} {lo : Nat} (hlo : lo + 1 ≤ 1 * n.toNat) :
      stosb c (v + BitVec.ofNat 32 lo) (s + BitVec.ofNat 32 lo) m = overlay m v (fun _ => c.setWidth 8) lo (lo + 1) :=
    stosb_eq (by omega)
  have hr := rep_fill (m := m) hstep
  rwa [Nat.one_mul] at hr

theorem rep_stosl (h : n % 4#32 = 0#32) :
    repeated (stosl ((c &&& 0xFF#32) <<< 24 ||| (c &&& 0xFF#32) <<< 16 ||| (c &&& 0xFF#32) <<< 8 ||| (c &&& 0xFF#32))) 4#32
      (n / 4#32).toNat v s ⟨m, false⟩ = ⟨filled m v c n, false⟩ := by
  have hn := n.isLt
  have hk := toNat_words h
  generalize hc : (c &&& 0xFF#32) <<< 24 ||| (c &&& 0xFF#32) <<< 16 ||| (c &&& 0xFF#32) <<< 8 ||| (c &&& 0xFF#32) = w
  have hstep {m : Mem} {lo : Nat} (hlo : lo + 4 ≤ 4 * (n / 4#32).toNat) :
      stosl w (v + BitVec.ofNat 32 lo) (s + BitVec.ofNat 32 lo) m = overlay m v (fun _ => c.setWidth 8) lo (lo + 4) :=
    stosl_eq (by omega) fun k hk => hc ▸ extract_spread hk
  have hr := rep_fill (m := m) hstep
  rwa [hk] at hr

theorem Asm.memset_eq : (Asm.memset v c n x).2.mem = filled x.mem v c n := by
  rw [Asm.memset]
  split
  case isTrue hz =>
    rw [hz]
    exact overlay_empty.symm
  case isFalse =>
  split
  case isTrue hw => exact congrArg Machine.mem <| rep_stosl hw.2
  case isFalse => exact congrArg Machine.mem repeated_stosb

theorem Plain.memsetLoop_eq : Plain.memsetLoop c k v m = (repeated (stosb c) 1#32 k v s ⟨m, false⟩).mem := by
  induction k generalizing v s m
  case zero => rfl
  case succ k hi => exact hi

theorem Plain.memset_eq (hn : n.toNat < 2 ^ 31) : Plain.memset v c n m = (v, filled m v c n) := by
  have hi : n.toInt.toNat = n.toNat := by
    rw [BitVec.toInt_eq_toNat_of_lt (by omega), Int.toNat_natCast]
  rw [Plain.memset, hi, Plain.memsetLoop_eq (s := 0#32), repeated_stosb]

end Set

-- Exactly the bytes behind `dst` are those which have been behind `src`.
structure Moved (m m' : Mem) (dst src n : Addr) : Prop where
  byte  : ∀ i < n.toNat, m' (dst + BitVec.ofNat 32 i) = m (src + BitVec.ofNat 32 i)
  frame : ∀ a, (∀ i < n.toNat, a ≠ dst + BitVec.ofNat 32 i) → m' a = m a

-- Exactly the bytes from `v` on are the lowest byte of `c`.
structure IsSet (m m' : Mem) (v c n : Addr) : Prop where
  byte  : ∀ i < n.toNat, m' (v + BitVec.ofNat 32 i) = c.setWidth 8
  frame : ∀ a, (∀ i < n.toNat, a ≠ v + BitVec.ofNat 32 i) → m' a = m a

theorem moved_moved : Moved m (moved m dst src n) dst src n where
  byte i hi  := overlay_of_lt (Nat.le_of_lt n.isLt) hi (Nat.zero_le i) hi
  frame _ ha := overlay_source fun i _ hi => ha i hi

theorem isSet_filled : IsSet m (filled m v c n) v c n where
  byte i hi  := overlay_of_lt (Nat.le_of_lt n.isLt) hi (Nat.zero_le i) hi
  frame _ ha := overlay_source fun i _ hi => ha i hi

-- The versions with the string instructions move and set the bytes, as the plain ones do.
theorem memmove_memset_exact (x : Machine) (dst src n v c k : Addr) (hd : dst.toNat + n.toNat ≤ 2 ^ 32)
    (hs : src.toNat + n.toNat ≤ 2 ^ 32) :
    Moved x.mem (Asm.memmove dst src n x).2.mem dst src n ∧
      (Asm.memmove dst src n x).2.mem = (Plain.memmove dst src n x.mem).2 ∧
      IsSet x.mem (Asm.memset v c k x).2.mem v c k ∧
      (k.toNat < 2 ^ 31 → (Asm.memset v c k x).2.mem = (Plain.memset v c k x.mem).2) := by
  rw [Asm.memmove_eq hd hs, Plain.memmove_eq hd hs, Asm.memset_eq]
  refine ⟨moved_moved, rfl, isSet_filled, fun hk => ?_⟩
  rw [Plain.memset_eq hk]

-- A memory whose bytes are the lowest ones of their addresses.
def ramp : Machine where
  mem a := a.setWidth 8
  df    := true

theorem memmove_memset_exact_overlap :
    Moved ramp.mem (Asm.memmove 0x1004#32 0x1000#32 16#32 ramp).2.mem 0x1004#32 0x1000#32 16#32 ∧
      (Asm.memset 0x2001#32 0x197#32 128#32 ramp).2.mem = (Plain.memset 0x2001#32 0x197#32 128#32 ramp.mem).2 := by
  have h := memmove_memset_exact ramp 0x1004#32 0x1000#32 16#32 0x2001#32 0x197#32 128#32 (by decide) (by decide)
  exact ⟨h.1, h.2.2.2 (by decide)⟩

end Jos
