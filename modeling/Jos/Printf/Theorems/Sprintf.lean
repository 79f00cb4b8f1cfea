import Jos.Printf.Sprintf
import Mathlib.Data.List.GetD

-- `vsnprintf` does not write behind its buffer, and returns how long the output would be.

open Function Bytes

namespace Jos

variable {m m' : Mem} {buf n x ch : Word} {k : Nat} {fmt : List Byte} {ap : List Arg} {out pre : Output}
  {b : SprintBuf × Mem}

-- Of the characters `s`, as many are at `buf` as fit into `n` bytes together with the NUL, and nothing else has been
-- written.
structure Printed (m m' : Mem) (buf : Word) (n : Nat) (s : List Byte) : Prop where
  chars : ∀ i, i < min (n - 1) s.length → m' (buf + BitVec.ofNat 32 i) = s.getD i 0#8
  nul   : m' (buf + BitVec.ofNat 32 (min (n - 1) s.length)) = 0#8
  frame : ∀ x, min (n - 1) s.length < (x - buf).toNat → m' x = m x

-- The state of the buffer after the characters `pre`.
structure Filled (m : Mem) (buf : Word) (n : Nat) (pre : Output) (b : SprintBuf × Mem) : Prop where
  next : b.1.buf = buf + BitVec.ofNat 32 (min (n - 1) pre.length)
  last : b.1.ebuf = buf + BitVec.ofNat 32 (n - 1)
  cnt  : b.1.cnt = BitVec.ofNat 32 pre.length
  mem  : ∀ x, b.2 x = if (x - buf).toNat < min (n - 1) pre.length then
    (pre.getD (x - buf).toNat 0#32).setWidth 8 else m x

section Filled

variable {N : Nat} (hfit : buf.toNat + N ≤ 2 ^ 32) (hN : 0 < N)

include hfit in
theorem toNat_add_ofNat (hk : k < N) : (buf + BitVec.ofNat 32 k).toNat = buf.toNat + k := by
  have := buf.isLt
  rw [BitVec.toNat_add, BitVec.toNat_ofNat]
  omega

include hfit in
theorem eq_add_ofNat (hk : k < N) : x = buf + BitVec.ofNat 32 k ↔ (x - buf).toNat = k := by
  have := buf.isLt
  have hk' : (BitVec.ofNat 32 k).toNat = k := by
    rw [BitVec.toNat_ofNat]
    omega
  rw [BitVec.add_comm, ← BitVec.sub_eq_iff_eq_add, ← BitVec.toNat_inj, hk']

include hfit hN in
variable (ch) in
theorem Filled.sprintputch (h : Filled m buf N pre b) : Filled m buf N (pre ++ [ch]) (sprintputch b ch) := by
  have hc : b.1.cnt + 1#32 = BitVec.ofNat 32 (pre ++ [ch]).length := by
    rw [h.cnt, List.length_append, BitVec.ofNat_add]
    rfl
  have hlen : (pre ++ [ch]).length = pre.length + 1 := by simp
  have hlt : b.1.buf < b.1.ebuf ↔ pre.length < N - 1 := by
    rw [h.next, h.last, BitVec.lt_def, toNat_add_ofNat hfit (by omega), toNat_add_ofNat hfit (by omega)]
    omega
  by_cases hl : pre.length < N - 1
  case pos =>
    have hs : Jos.sprintputch b ch = ({ b.1 with buf := b.1.buf + 1#32, cnt := b.1.cnt + 1#32 },
        update b.2 b.1.buf (ch.setWidth 8)) := if_pos (hlt.mpr hl)
    rw [hs]
    refine ⟨?_, h.last, hc, fun x => ?_⟩
    case refine_1 =>
      calc b.1.buf + 1#32
        _ = buf + (BitVec.ofNat 32 pre.length + 1#32) := by rw [h.next, Nat.min_eq_right hl.le, BitVec.add_assoc]
        _ = buf + BitVec.ofNat 32 (min (N - 1) (pre ++ [ch]).length) := by
          rw [hlen, Nat.min_eq_right (show pre.length + 1 ≤ N - 1 by omega), BitVec.ofNat_add]
    case refine_2 =>
      simp only [update_apply, h.mem, h.next, Nat.min_eq_right hl.le, eq_add_ofNat hfit (show pre.length < N by omega),
        hlen, Nat.min_eq_right (show pre.length + 1 ≤ N - 1 by omega)]
      by_cases hx : (x - buf).toNat = pre.length
      case pos => simp [hx, List.getD_eq_getElem?_getD]
      case neg =>
        rw [if_neg hx]
        by_cases hlt : (x - buf).toNat < pre.length
        case pos =>
          rw [if_pos hlt, if_pos (by omega), List.getD_append _ _ _ _ hlt]
        case neg => rw [if_neg hlt, if_neg (by omega)]
  case neg =>
    have hs : Jos.sprintputch b ch = ({ b.1 with cnt := b.1.cnt + 1#32 }, b.2) := if_neg fun hc => hl (hlt.mp hc)
    rw [hs]
    refine ⟨?_, h.last, hc, fun x => ?_⟩
    case refine_1 => rw [hlen, h.next, Nat.min_eq_left (by omega), Nat.min_eq_left (by omega)]
    case refine_2 =>
      rw [h.mem, hlen, Nat.min_eq_left (by omega), Nat.min_eq_left (by omega)]
      split_ifs with hx
      case pos =>
        rw [List.getD_append _ _ _ _ (by omega)]
      case neg => rfl

include hfit hN in
theorem Filled.foldl (h : Filled m buf N pre b) : Filled m buf N (pre ++ out) (out.foldl Jos.sprintputch b) := by
  induction out generalizing pre b
  case nil => simpa using h
  case cons ch out ih =>
    have := ih (h.sprintputch ch hfit hN)
    rwa [List.append_assoc] at this

end Filled

theorem filled_nil (hn : 1 ≤ n.toNat) : Filled m buf n.toNat [] ({ buf, ebuf := buf + n - 1#32 }, m) := by
  have hs : BitVec.ofNat 32 (n.toNat - 1) = n - 1#32 := by
    have h1 : (1#32).toNat = 1 := rfl
    have hlt := n.isLt
    apply BitVec.eq_of_toNat_eq
    rw [BitVec.toNat_ofNat, BitVec.toNat_sub, h1]
    omega
  exact ⟨by simp, by rw [hs, BitVec.sub_eq_add_neg, BitVec.sub_eq_add_neg, BitVec.add_assoc], rfl, fun x => by simp⟩

-- The NUL is stored behind the characters.
theorem Filled.printed {N : Nat} (h : Filled m buf N out b) (hfit : buf.toNat + N ≤ 2 ^ 32) (hN : 0 < N) :
    Printed m (update b.2 b.1.buf 0#8) buf N (out.map (·.setWidth 8)) := by
  have hk : min (N - 1) out.length < N := by omega
  refine ⟨fun i hi => ?_, ?_, fun x hx => ?_⟩
  case refine_1 =>
    rw [List.length_map] at hi
    have hx := (eq_add_ofNat hfit (show i < N by omega)).mp rfl
    have hne : buf + BitVec.ofNat 32 i ≠ b.1.buf := by
      rw [h.next, ne_eq, eq_add_ofNat hfit hk, hx]
      omega
    have hd : ((0#32 : Word).setWidth 8) = 0#8 := rfl
    rw [update_of_ne hne, h.mem, hx, if_pos hi, ← hd, List.getD_map]
  case refine_2 => rw [List.length_map, ← h.next, update_self]
  case refine_3 =>
    rw [List.length_map] at hx
    have hne : x ≠ b.1.buf := by
      rw [h.next, ne_eq, eq_add_ofNat hfit hk]
      omega
    rw [update_of_ne hne, h.mem, if_neg (by omega)]

-- The number of characters in the output is returned, even if not all of them fit into the buffer.
theorem vsnprintf_bounded (h : vprintfmt fmt ap = .ok out) (hl : out.length < 2 ^ 31) :
    (buf ≠ 0#32 → 1 ≤ n.toInt → buf.toNat + n.toNat ≤ 2 ^ 32 →
      ∃ cnt m', vsnprintf m buf n fmt ap = .ok (cnt, m') ∧ cnt.toInt = out.length ∧
        Printed m m' buf n.toNat (out.map (·.setWidth 8))) ∧
    (buf = 0#32 ∨ n.toInt < 1 → vsnprintf m buf n fmt ap = .ok (-eInval, m)) := by
  have h1 : (1#32).toInt = 1 := rfl
  constructor
  case left =>
    intro hb hn hfit
    have hg : ¬(buf = 0#32 || n.slt 1#32) = true := by
      simpa [BitVec.slt_iff_toInt_lt, h1] using ⟨hb, hn⟩
    have hN : 1 ≤ n.toNat := by
      rw [BitVec.toInt_eq_toNat_cond] at hn
      split at hn <;> omega
    have hf : Filled m buf n.toNat out (out.foldl sprintputch ({ buf, ebuf := buf + n - 1#32 }, m)) :=
      (filled_nil hN).foldl hfit hN
    refine ⟨(out.foldl sprintputch ({ buf, ebuf := buf + n - 1#32 }, m)).1.cnt, _, ?_, ?_, hf.printed hfit hN⟩
    case refine_1 =>
      rw [vsnprintf, if_neg hg, h]
      rfl
    case refine_2 =>
      rw [hf.cnt, BitVec.toInt_eq_toNat_cond, BitVec.toNat_ofNat]
      split <;> omega
  case right =>
    intro hc
    have hg : (buf = 0#32 || n.slt 1#32) = true := by
      simpa [BitVec.slt_iff_toInt_lt, h1] using hc
    rw [vsnprintf, if_pos hg]
    rfl

theorem vsnprintf_bounded_hello :
    ∃ cnt m', vsnprintf (fun _ => 255#8) 0x1000#32 3#32 (bytes "hello") [] = .ok (cnt, m') ∧ cnt.toInt = 5 ∧
      Printed (fun _ => 255#8) m' 0x1000#32 3 (bytes "hello") := by
  have h : vprintfmt (bytes "hello") [] = .ok ((bytes "hello").map (·.setWidth 32)) := rfl
  exact (vsnprintf_bounded h (by decide)).1 (by decide) (by decide) (by decide)

end Jos
