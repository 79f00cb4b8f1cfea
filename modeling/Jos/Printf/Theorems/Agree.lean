import Jos.Printf.Console
import Jos.Printf.Theorems.Strings
import Mathlib.Data.List.TakeWhile

-- What the two versions of `cprintf` show and return.

open Function

namespace Jos

variable {fmt : List Byte} {ap : List Arg} {out out' pre : Output} {s : List Byte} {ch w : Word} {n : Nat}
  {buf : Fin 256 → Byte} {b : Byte}

theorem shown_append : shown (out ++ out') = shown out ++ shown out' :=
  List.map_append

theorem shown_map : shown (s.map Byte.toInt32) = s := by
  rw [shown, List.map_map]
  exact List.map_id'' (fun _ => toInt32_setWidth) s

namespace Kernel

theorem foldl_putch {cnt : Word} : out.foldl putch (pre, cnt) = (pre ++ out, cnt) := by
  induction out generalizing pre
  case nil => simp
  case cons ch out ih => simp [putch, ih]

-- The kernel prints all characters, and returns zero.
theorem vcprintf_eq (h : vprintfmt fmt ap = .ok out) : vcprintf fmt ap = .ok (out, 0#32) := by
  simp only [vcprintf, h]
  exact congrArg Except.ok foldl_putch

end Kernel

namespace User

theorem vprintfmt_cputs (hn : n < 2 ^ 31) (hs : s.length < 2 ^ 31) :
    vprintfmt (bytes "%.*s") [.word (BitVec.ofNat 32 n), .str s] =
      .ok (((s.take n).takeWhile (· ≠ 0#8)).map Byte.toInt32) := by
  have h : vprintfmt (bytes "%.*s") [.word (BitVec.ofNat 32 n), .str s] =
      .ok (printString { width := 0#32, precision := BitVec.ofNat 32 n } s ++ []) := by
    rfl
  have hl : ((s.take n).takeWhile (· ≠ 0#8)).length ≤ s.length :=
    (List.takeWhile_sublist _).length_le.trans (List.length_take_le' _ _)
  have hp {m} (hm : m ≤ s.length) : pad (0#32 - BitVec.ofNat 32 m) (Byte.ofChar ' ') = [] := by
    have hi : (0#32 - BitVec.ofNat 32 m).toInt.toNat = 0 := by
      rw [BitVec.toInt_eq_toNat_cond, BitVec.toNat_sub]
      simp only [BitVec.toNat_ofNat]
      split <;> omega
    rw [pad, hi, List.replicate_zero]
  have hw : (0#32).slt 0#32 = false := rfl
  rw [h, printString]
  simp only [hw, Bool.false_and, if_false, strLoop_take hn, List.length_map, Bool.false_eq_true, hp hl,
    List.nil_append, List.append_nil]

theorem nul_takeWhile : 0#8 ∉ s.takeWhile (· ≠ 0#8) := by
  intro hm
  simpa using List.mem_takeWhile_imp hm

-- What a call of `sys_cputs` adds to the console.
theorem sysCputs_run (hn : n < 2 ^ 31) (hs : s.length < 2 ^ 31) :
    sysCputs s n = .ok (((s.take n).takeWhile (· ≠ 0#8)).map Byte.toInt32) := by
  simp only [sysCputs, Kernel.vcprintf_eq (vprintfmt_cputs hn hs)]
  rfl

-- The state after the characters `pre`.
structure Buffered (pre : Output) (b : PrintBuf) (out : Output) : Prop where
  idx   : b.idx < 255
  cnt   : b.cnt = BitVec.ofNat 32 pre.length
  nul   : 0#8 ∉ shown out
  exact : 0#8 ∉ shown pre → shown out ++ (List.ofFn b.buf).take b.idx = shown pre

theorem ofFn_update {k : Nat} {f : Fin k → Byte} {i : Fin k} :
    List.ofFn (update f i b) = (List.ofFn f).set i b := by
  refine List.ext_getElem (by simp) fun j hj hj' => ?_
  rw [List.getElem_ofFn, List.getElem_set, List.getElem_ofFn, update_apply]
  have he : (⟨j, by simpa using hj⟩ : Fin k) = i ↔ i.val = j := by
    rw [Fin.ext_iff, eq_comm]
  simp only [he]

theorem take_update {k : Nat} {f : Fin k → Byte} {i : Fin k} :
    (List.ofFn (update f i b)).take (i + 1) = (List.ofFn f).take i ++ [b] := by
  rw [ofFn_update, List.take_add_one, List.take_set_of_le le_rfl]
  simp

variable (ch) in
theorem Buffered.putch {b : PrintBuf} (h : Buffered pre b out) :
    ∃ b' out', putch (b, out) ch = .ok (b', out') ∧ Buffered (pre ++ [ch]) b' out' := by
  have hi := h.idx
  have htake : (List.ofFn (update b.buf (Fin.ofNat 256 b.idx) (ch.setWidth 8))).take (b.idx + 1) =
      (List.ofFn b.buf).take b.idx ++ [ch.setWidth 8] := by
    have hv : (Fin.ofNat 256 b.idx).val = b.idx := Nat.mod_eq_of_lt (by omega)
    have := take_update (f := b.buf) (i := Fin.ofNat 256 b.idx) (b := ch.setWidth 8)
    rwa [hv] at this
  have hc : b.cnt + 1#32 = BitVec.ofNat 32 (pre ++ [ch]).length := by
    rw [h.cnt, List.length_append, BitVec.ofNat_add]
    rfl
  have hpre (hn : 0#8 ∉ shown (pre ++ [ch])) : 0#8 ∉ shown pre ∧ 0#8 ≠ ch.setWidth 8 := by
    simpa [shown_append, shown] using hn
  by_cases hf : b.idx + 1 = 256 - 1
  case pos =>
    have hp : User.putch (b, out) ch = .ok (⟨0, b.cnt + 1#32, update b.buf (Fin.ofNat 256 b.idx) (ch.setWidth 8)⟩,
        out ++ (((List.ofFn b.buf).take b.idx ++ [ch.setWidth 8]).takeWhile (· ≠ 0#8)).map Byte.toInt32) := by
      have hs := sysCputs_run (s := List.ofFn (update b.buf (Fin.ofNat 256 b.idx) (ch.setWidth 8))) (n := b.idx + 1)
        (by omega) (by rw [List.length_ofFn]; decide)
      rw [htake] at hs
      simp only [User.putch, hs, if_pos hf]
      rfl
    refine ⟨_, _, hp, Nat.zero_lt_succ _, hc, ?_, fun hn => ?_⟩
    case refine_1 =>
      rw [shown_append, shown_map, List.mem_append]
      rintro (hm | hm)
      case inl => exact h.nul hm
      case inr => exact nul_takeWhile hm
    case refine_2 =>
      obtain ⟨hn₁, hn₂⟩ := hpre hn
      have hb : 0#8 ∉ (List.ofFn b.buf).take b.idx ++ [ch.setWidth 8] := by
        rw [List.mem_append, List.mem_singleton, not_or]
        refine ⟨fun hm => hn₁ ?_, hn₂⟩
        rw [← h.exact hn₁]
        exact List.mem_append_right _ hm
      rw [shown_append, shown_map, takeWhile_of_nul hb, List.take_zero, List.append_nil, ← List.append_assoc,
        h.exact hn₁, shown_append]
      rfl
  case neg =>
    have hp : User.putch (b, out) ch =
        .ok (⟨b.idx + 1, b.cnt + 1#32, update b.buf (Fin.ofNat 256 b.idx) (ch.setWidth 8)⟩, out) := by
      simp only [User.putch, if_neg hf]
      rfl
    refine ⟨_, _, hp, by simp only; omega, hc, h.nul, fun hn => ?_⟩
    simp only [htake, ← List.append_assoc, h.exact (hpre hn).1, shown_append]
    rfl

theorem Buffered.foldlM {b : PrintBuf} {O : Output} (h : Buffered pre b out) :
    ∃ b' out', O.foldlM User.putch (b, out) = .ok (b', out') ∧ Buffered (pre ++ O) b' out' := by
  induction O generalizing pre b out
  case nil => exact ⟨b, out, rfl, by simpa using h⟩
  case cons ch O ih =>
    obtain ⟨b₁, out₁, h₁, h'⟩ := h.putch ch
    obtain ⟨b₂, out₂, h₂, h''⟩ := ih h'
    refine ⟨b₂, out₂, ?_, by simpa using h''⟩
    rw [List.foldlM_cons, h₁]
    exact h₂

variable (buf) in
-- A user program gets all characters onto the console if none of them is NUL, and the number of characters is
-- returned.
theorem vcprintf_shown (h : vprintfmt fmt ap = .ok out) :
    ∃ cons, vcprintf buf fmt ap = .ok (cons, BitVec.ofNat 32 out.length) ∧
      (shown cons = shown out ↔ 0#8 ∉ shown out) := by
  have h₀ : Buffered [] { buf } [] := ⟨Nat.zero_lt_succ _, rfl, List.not_mem_nil, fun _ => rfl⟩
  obtain ⟨b, out', hr, hb⟩ := h₀.foldlM (O := out)
  rw [List.nil_append] at hb
  have hi := hb.idx
  have hs := sysCputs_run (s := List.ofFn b.buf) (n := b.idx) (by omega) (by rw [List.length_ofFn]; decide)
  refine ⟨out' ++ (((List.ofFn b.buf).take b.idx).takeWhile (· ≠ 0#8)).map Byte.toInt32, ?_, ?_, fun hn => ?_⟩
  case refine_1 =>
    simp only [vcprintf, h, hb.cnt.symm]
    change (List.foldlM putch ({ buf }, []) out >>= _) = _
    rw [hr]
    change (do let last ← sysCputs (List.ofFn b.buf) b.idx; pure (out' ++ last, b.cnt) : P (Output × Word)) = _
    rw [hs]
    rfl
  case refine_2 =>
    intro he
    rw [← he, shown_append, shown_map, List.mem_append, not_or]
    exact ⟨hb.nul, nul_takeWhile⟩
  case refine_3 =>
    have hx := hb.exact hn
    have hm : 0#8 ∉ (List.ofFn b.buf).take b.idx := fun hm => hn (hx ▸ List.mem_append_right _ hm)
    rw [shown_append, shown_map, takeWhile_of_nul hm, hx]

end User

-- The two versions of `cprintf` put the characters `out` on the console, and return their number.
structure Agree (buf : Fin 256 → Byte) (fmt : List Byte) (ap : List Arg) (out : Output) : Prop where
  kernel : ∃ cons cnt, Kernel.vcprintf fmt ap = .ok (cons, cnt) ∧ shown cons = shown out ∧ cnt.toInt = out.length
  user   : ∃ cons cnt, User.vcprintf buf fmt ap = .ok (cons, cnt) ∧ shown cons = shown out ∧ cnt.toInt = out.length

-- Since the kernel does not count, there must be nothing to be counted.
theorem agree_iff (h : vprintfmt fmt ap = .ok out) : Agree buf fmt ap out ↔ out = [] := by
  constructor
  case mp =>
    rintro ⟨⟨cons, cnt, hk, -, hc⟩, -⟩
    have he := (Kernel.vcprintf_eq h).symm.trans hk
    cases he
    have hz : (0#32).toInt = 0 := rfl
    rw [hz] at hc
    exact List.length_eq_zero_iff.mp (by omega)
  case mpr =>
    rintro rfl
    obtain ⟨cons, hu, hs⟩ := User.vcprintf_shown buf h
    exact ⟨⟨[], 0#32, Kernel.vcprintf_eq h, rfl, rfl⟩, ⟨cons, _, hu, hs.mpr (by simp [shown]), rfl⟩⟩

theorem agree_empty : Agree (fun _ => 0#8) [] [] [] :=
  (agree_iff rfl).mpr rfl

-- The kernel returns zero for "hi".
theorem not_agree_hi : vprintfmt (bytes "hi") [] = .ok [104#32, 105#32] ∧
    ¬Agree (fun _ => 0#8) (bytes "hi") [] [104#32, 105#32] := by
  refine ⟨rfl, ?_⟩
  rintro ⟨⟨cons, cnt, hk, -, hc⟩, -⟩
  have he : Kernel.vcprintf (bytes "hi") [] = .ok ([104#32, 105#32], 0#32) := rfl
  rw [he] at hk
  cases hk
  exact absurd hc (by decide)

end Jos
