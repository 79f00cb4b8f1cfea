import Jos.Kernel.Readline
import Jos.Printf.Theorems.Agree
import Mathlib.Data.List.Infix

-- What `readline` returns is the line that its input edits, but for a delete at the start of a line.

open Function

namespace Jos

variable {echoing : Bool} {prompt : Option (List Byte)} {cs p q r : List Byte} {c : Byte} {e : Word} {rest : List Word}
  {k k' : Readline} {l l' : List Byte} {buf : Nat → Byte}

-- What is typed, where a character is removed by a backspace or a delete.
def edit (l : List Byte) (c : Byte) : List Byte :=
  if c = 0x08#8 ∨ c = 0x7F#8 then
    l.dropLast
  else if 0x20#8 ≤ c ∧ l.length < buflen - 1 then
    l ++ [c]
  else
    l

-- The number of characters `readline` holds after one more of them.
def hold (n : Nat) (c : Byte) : Nat :=
  if (c = 0x08#8 ∨ c = 0x7F#8) ∧ n > 0 then
    n - 1
  else if 0x20#8 ≤ c ∧ n < buflen - 1 then
    n + 1
  else
    n

def held (cs : List Byte) : Nat :=
  cs.foldl hold 0

-- The characters that `readline` holds.
def keep (l : List Byte) (c : Byte) : List Byte :=
  if (c = 0x08#8 ∨ c = 0x7F#8) ∧ l.length > 0 then
    l.dropLast
  else if 0x20#8 ≤ c ∧ l.length < buflen - 1 then
    l ++ [c]
  else
    l

namespace Readline

-- The line is in the buffer.
structure Line (k : Readline) (l : List Byte) : Prop where
  i    : k.i = l.length
  lt   : l.length < buflen
  char : ∀ j (hj : j < l.length), k.buf j = l[j]

-- The string in the buffer is the line, with a NUL behind it.
structure Holds (k : Readline) (l : List Byte) : Prop where
  char : ∀ j (hj : j < l.length), k.buf j = l[j]
  nul  : k.buf l.length = 0#8

theorem cputchar_i : (k.cputchar echoing e).i = k.i := by
  rw [cputchar]
  split <;> rfl

theorem cputchar_buf : (k.cputchar echoing e).buf = k.buf := by
  rw [cputchar]
  split <;> rfl

theorem Line.cputchar (h : k.Line l) (echoing : Bool) (e : Word) : (k.cputchar echoing e).Line l where
  i      := cputchar_i.trans h.i
  lt     := h.lt
  char j := by
    rw [cputchar_buf]
    exact h.char j

theorem Line.dropLast (h : k.Line l) : Line { k with i := k.i - 1 } l.dropLast where
  i := by rw [List.length_dropLast, ← h.i]
  lt := by
    have hl := h.lt
    rw [List.length_dropLast]
    omega
  char j hj := by
    rw [List.length_dropLast] at hj
    rw [List.getElem_dropLast]
    exact h.char j (by omega)

theorem Line.store (h : k.Line l) : k.store c = .ok { k with buf := update k.buf k.i c } :=
  if_pos <| h.i ▸ h.lt

theorem Line.append (h : k.Line l) (hl : l.length < buflen - 1) :
    Line { k with buf := update k.buf k.i c, i := k.i + 1 } (l ++ [c]) where
  i  := by simp [h.i]
  lt := by
    rw [List.length_append, List.length_singleton]
    omega
  char j hj := by
    rw [List.length_append, List.length_singleton] at hj
    change update k.buf k.i c j = _
    by_cases he : j = l.length
    case pos =>
      subst he
      rw [h.i, update_self, List.getElem_concat_length rfl]
    case neg =>
      have hj : j < l.length := by omega
      rw [h.i, update_of_ne he, List.getElem_append_left hj]
      exact h.char j hj

theorem Line.holds (h : k.Line l) : Holds { k with buf := update k.buf k.i 0#8 } l where
  char j hj := by
    change update k.buf k.i 0#8 j = _
    rw [h.i, update_of_ne (Nat.ne_of_lt hj)]
    exact h.char j hj
  nul := by
    change update k.buf k.i 0#8 l.length = _
    rw [h.i, update_self]

end Readline

theorem slt_zero : ((c.setWidth 32 : Word).slt 0#32) = false := by
  revert c
  decide +kernel

theorem sle_space : (0x20#32).sle (c.setWidth 32) ↔ 0x20#8 ≤ c := by
  revert c
  decide +kernel

theorem removes_iff : ((c.setWidth 32 : Word) = 0x08#32 ∨ (c.setWidth 32 : Word) = 0x7F#32) ↔ c = 0x08#8 ∨ c = 0x7F#8 := by
  revert c
  decide +kernel

theorem ends_iff : ((c.setWidth 32 : Word) = 0x0A#32 ∨ (c.setWidth 32 : Word) = 0x0D#32) ↔ c = 0x0A#8 ∨ c = 0x0D#8 := by
  revert c
  decide +kernel

-- A character which does not end the line.
theorem readlineLoop_char (h : k.Line l) (hc : ¬(c = 0x0A#8 ∨ c = 0x0D#8)) (echoing : Bool) (rest : List Word) :
    ∃ k', k'.Line (keep l c) ∧ readlineLoop echoing (c.setWidth 32 :: rest) k = readlineLoop echoing rest k' := by
  simp only [keep, readlineLoop, slt_zero, Bool.false_eq_true, removes_iff, sle_space, ends_iff, hc, h.i, if_false]
  split
  case isTrue =>
    have hd := (h.cputchar echoing 0x08#32).dropLast
    rw [Readline.cputchar_i, h.i] at hd
    exact ⟨_, hd, rfl⟩
  case isFalse =>
  split
  case isTrue hl =>
    have hd := h.cputchar echoing (c.setWidth 32)
    refine ⟨_, hd.append hl.2, ?_⟩
    rw [hd.store, BitVec.setWidth_setWidth_of_le _ (by decide), BitVec.setWidth_eq]
    rfl
  case isFalse => exact ⟨k, h, rfl⟩

theorem readlineLoop_end (h : k.Line l) (he : e = 0x0A#32 ∨ e = 0x0D#32) (echoing : Bool) (rest : List Word) :
    ∃ k', k'.Holds l ∧ readlineLoop echoing (e :: rest) k = .ok (true, k') := by
  have hd := h.cputchar echoing 0x0A#32
  refine ⟨_, hd.holds, ?_⟩
  rw [readlineLoop]
  rcases he with rfl | rfl
  all_goals
    rw [if_neg (by decide), if_neg fun hn => absurd hn.1 (by decide), if_neg fun hn => absurd hn.1 (by decide),
      if_pos (by decide), hd.store]
    rfl

-- Up to the end of the line.
theorem readlineLoop_keeps (h : k.Line l) (hcs : ∀ c ∈ cs, ¬(c = 0x0A#8 ∨ c = 0x0D#8)) (he : e = 0x0A#32 ∨ e = 0x0D#32)
    (echoing : Bool) (rest : List Word) :
    ∃ k', k'.Holds (cs.foldl keep l) ∧
      readlineLoop echoing (cs.map (BitVec.setWidth 32) ++ e :: rest) k = .ok (true, k') := by
  induction cs generalizing k l
  case nil => exact readlineLoop_end h he echoing rest
  case cons c cs hi =>
    have ⟨k₁, hk₁, h₁⟩ := readlineLoop_char h (hcs c List.mem_cons_self) echoing (cs.map (BitVec.setWidth 32) ++ e :: rest)
    have ⟨k₂, hk₂, h₂⟩ := hi hk₁ fun c hc => hcs c <| List.mem_cons_of_mem _ hc
    exact ⟨k₂, hk₂, h₁.trans h₂⟩

theorem readline_keeps (hcs : ∀ c ∈ cs, ¬(c = 0x0A#8 ∨ c = 0x0D#8)) (he : e = 0x0A#32 ∨ e = 0x0D#32) :
    ∃ k, k.Holds (cs.foldl keep []) ∧
      readline echoing prompt (cs.map (BitVec.setWidth 32) ++ e :: rest) buf = .ok (true, k) := by
  have hl (out : Output) : Readline.Line { buf, i := 0, out } [] :=
    ⟨rfl, by decide, fun _ hj => absurd hj (Nat.not_lt_zero _)⟩
  cases prompt
  case none => exact readlineLoop_keeps (hl []) hcs he echoing rest
  case some p =>
    have hat : At (bytes "%s") 0 (bytes "%s") := at_zero
    have hs : Supplied ((pieces (bytes "%s")).flatMap Piece.asks) [.str p] := trivial
    have ⟨outs, ho, _⟩ := vprintfmtLoop_pieces hat (by decide) (Nat.lt_succ_self _) (.inl printsErrors_printfmt) hs
    have hp : Readline.cprintf { buf, i := 0, out := [] } (bytes "%s") [.str p] =
        .ok { buf, i := 0, out := outs.flatten } := by
      rw [Readline.cprintf, Kernel.vcprintf_eq ho]
      rfl
    have ⟨k, hk, hr⟩ := readlineLoop_keeps (hl outs.flatten) hcs he echoing rest
    refine ⟨k, hk, ?_⟩
    rw [readline, hp]
    exact hr

section Lines

theorem held_concat : held (cs ++ [c]) = hold (held cs) c :=
  List.foldl_concat ..

theorem foldl_edit_concat : (cs ++ [c]).foldl edit [] = edit (cs.foldl edit []) c :=
  List.foldl_concat ..

theorem foldl_keep_concat : (cs ++ [c]).foldl keep [] = keep (cs.foldl keep []) c :=
  List.foldl_concat ..

theorem length_keep : (keep l c).length = hold l.length c := by
  rw [keep, hold]
  split
  case isTrue => exact List.length_dropLast
  case isFalse =>
  split
  case isTrue => exact List.length_append
  case isFalse => rfl

theorem length_foldl_keep : (cs.foldl keep []).length = held cs := by
  induction cs using List.reverseRecOn
  case nil => rfl
  case append_singleton cs c hi => rw [foldl_keep_concat, held_concat, length_keep, hi]

-- A delete is never part of the line.
theorem not_mem_edit (h : 0x7F#8 ∉ l) : 0x7F#8 ∉ edit l c := by
  rw [edit]
  split
  case isTrue => exact fun hm => h <| List.mem_of_mem_dropLast hm
  case isFalse hc =>
  split
  case isTrue =>
    rw [List.mem_append, List.mem_singleton]
    rintro (hm | rfl)
    case inl => exact h hm
    case inr => exact hc <| .inr rfl
  case isFalse => exact h

-- `readline` starts its line with a delete, which takes the place of a character if the line is full.
structure Spoilt (l l' : List Byte) : Prop where
  head : l.head? = some 0x7F#8
  le   : l'.length ≤ l.length
  lt   : l.length ≤ l'.length + 1

theorem Spoilt.length_pos (h : Spoilt l l') : 0 < l.length :=
  List.length_pos_iff.mpr fun hn => by simpa [hn] using h.head

theorem head_dropLast (h : 1 < l.length) : l.dropLast.head? = l.head? := by
  rw [List.dropLast_eq_take, List.head?_take, if_neg (by omega)]

theorem head_append (h : 0 < l.length) : (l ++ l').head? = l.head? := by
  rw [List.head?_append_of_ne_nil _ <| List.length_pos_iff.mp h]

-- If the delete is removed, then there is no character left in either line.
theorem Spoilt.step (h : Spoilt l l') : keep l c = edit l' c ∨ Spoilt (keep l c) (edit l' c) := by
  have hl := h.length_pos
  have hle := h.le
  have hlt := h.lt
  rw [keep, edit]
  by_cases hc : c = 0x08#8 ∨ c = 0x7F#8
  case pos =>
    rw [if_pos ⟨hc, hl⟩, if_pos hc]
    by_cases h₁ : l.length = 1
    case pos =>
      left
      rw [List.eq_nil_of_length_eq_zero (l := l.dropLast) (by rw [List.length_dropLast]; omega),
        List.eq_nil_of_length_eq_zero (l := l'.dropLast) (by rw [List.length_dropLast]; omega)]
    case neg =>
      right
      constructor
      case head => rw [head_dropLast (by omega), h.head]
      all_goals
        rw [List.length_dropLast, List.length_dropLast]
        omega
  case neg =>
    right
    rw [if_neg fun hn => hc hn.1, if_neg hc]
    by_cases hs : 0x20#8 ≤ c
    case neg => rwa [if_neg fun hn => hs hn.1, if_neg fun hn => hs hn.1]
    case pos =>
      by_cases hf : l.length < buflen - 1
      case pos =>
        rw [if_pos ⟨hs, hf⟩, if_pos ⟨hs, by omega⟩]
        constructor
        case head => rw [head_append hl, h.head]
        all_goals
          simp only [List.length_append, List.length_singleton]
          omega
      case neg =>
        rw [if_neg fun hn => hf hn.2]
        split
        case isFalse => exact h
        case isTrue hn =>
          constructor
          case head => exact h.head
          all_goals
            simp only [List.length_append, List.length_singleton]
            omega

theorem keep_step : keep l c = edit l c ∨ Spoilt (keep l c) (edit l c) := by
  rw [keep, edit]
  by_cases hc : c = 0x08#8 ∨ c = 0x7F#8
  case neg =>
    left
    rw [if_neg fun hn => hc hn.1, if_neg hc]
  case pos =>
    by_cases hl : l.length > 0
    case pos =>
      left
      rw [if_pos ⟨hc, hl⟩, if_pos hc]
    case neg =>
      obtain rfl := List.eq_nil_of_length_eq_zero (Nat.eq_zero_of_not_pos hl)
      rcases hc with rfl | rfl
      case inl => exact .inl rfl
      case inr => exact .inr ⟨rfl, by decide, by decide⟩

-- The two lines are the same, or the one of `readline` starts with a delete.
theorem foldl_keep_or : cs.foldl keep [] = cs.foldl edit [] ∨ Spoilt (cs.foldl keep []) (cs.foldl edit []) := by
  induction cs using List.reverseRecOn
  case nil => exact .inl rfl
  case append_singleton cs c hi =>
    rw [foldl_keep_concat, foldl_edit_concat]
    cases hi
    case inl h =>
      rw [h]
      exact keep_step
    case inr h => exact h.step

theorem not_mem_foldl_edit : 0x7F#8 ∉ cs.foldl edit [] := by
  induction cs using List.reverseRecOn
  case nil => exact List.not_mem_nil
  case append_singleton cs c hi =>
    rw [foldl_edit_concat]
    exact not_mem_edit hi

-- The first character stays until all are removed.
theorem head_keep (h : 0 < l.length) (hk : 0 < (keep l c).length) : (keep l c).head? = l.head? := by
  rw [keep] at hk ⊢
  split
  case isTrue hc =>
    rw [if_pos hc, List.length_dropLast] at hk
    exact head_dropLast (by omega)
  case isFalse =>
  split
  case isTrue => exact head_append h
  case isFalse => rfl

theorem keep_nil (h : (keep [] c).head? = some 0x7F#8) : c = 0x7F#8 := by
  rw [keep, if_neg fun hn => absurd hn.2 (Nat.lt_irrefl _)] at h
  split at h
  case isTrue => exact Option.some_inj.mp h
  case isFalse => cases h

-- Each delete which arrives when nothing is held is removed later on.
def Removed (cs : List Byte) : Prop :=
  ∀ p q, cs = p ++ 0x7F#8 :: q → held p = 0 → ∃ r, r <+: q ∧ held (p ++ 0x7F#8 :: r) = 0

theorem head_of_not_removed (hp : held p = 0) (h : ∀ r, r <+: q → held (p ++ 0x7F#8 :: r) ≠ 0) :
    ((p ++ 0x7F#8 :: q).foldl keep []).head? = some 0x7F#8 := by
  induction q using List.reverseRecOn
  case nil =>
    have hn : p.foldl keep [] = [] := List.eq_nil_of_length_eq_zero <| length_foldl_keep.trans hp
    rw [foldl_keep_concat, hn]
    rfl
  case append_singleton q c hi =>
    have hi := hi fun r hr => h r <| hr.trans <| List.prefix_append q [c]
    have he : p ++ 0x7F#8 :: (q ++ [c]) = (p ++ 0x7F#8 :: q) ++ [c] := by simp
    have h₁ := h q <| List.prefix_append q [c]
    have h₂ := h (q ++ [c]) <| List.prefix_refl _
    rw [← length_foldl_keep] at h₁ h₂
    rw [he, foldl_keep_concat] at h₂ ⊢
    rw [head_keep (Nat.pos_of_ne_zero h₁) (Nat.pos_of_ne_zero h₂), hi]

theorem not_removed_of_head (h : (cs.foldl keep []).head? = some 0x7F#8) :
    ∃ p q, cs = p ++ 0x7F#8 :: q ∧ held p = 0 ∧ ∀ r, r <+: q → held (p ++ 0x7F#8 :: r) ≠ 0 := by
  induction cs using List.reverseRecOn
  case nil => cases h
  case append_singleton cs c hi =>
    rw [foldl_keep_concat] at h
    have hpos : 0 < held (cs ++ [c]) := by
      rw [← length_foldl_keep, foldl_keep_concat]
      exact List.length_pos_iff.mpr fun hn => by simp [hn] at h
    by_cases hz : held cs = 0
    case pos =>
      rw [List.eq_nil_of_length_eq_zero (length_foldl_keep.trans hz)] at h
      obtain rfl := keep_nil h
      refine ⟨cs, [], rfl, hz, fun r hr => ?_⟩
      rw [List.prefix_nil.mp hr]
      exact Nat.ne_of_gt hpos
    case neg =>
      have hk : 0 < (keep (cs.foldl keep []) c).length := by
        rwa [← foldl_keep_concat, length_foldl_keep]
      rw [head_keep (Nat.pos_of_ne_zero (by rwa [length_foldl_keep])) hk] at h
      have ⟨p, q, he, hp, hr⟩ := hi h
      subst he
      refine ⟨p, q ++ [c], by simp, hp, fun r hrq => ?_⟩
      cases List.prefix_concat_iff.mp hrq
      case inl hrq =>
        subst hrq
        have he : p ++ 0x7F#8 :: (q ++ [c]) = (p ++ 0x7F#8 :: q) ++ [c] := by simp
        rw [he]
        exact Nat.ne_of_gt hpos
      case inr hrq => exact hr r hrq

theorem head_iff_not_removed : (cs.foldl keep []).head? = some 0x7F#8 ↔ ¬Removed cs := by
  constructor
  case mp =>
    intro h hr
    have ⟨p, q, he, hp, hn⟩ := not_removed_of_head h
    have ⟨r, hrq, hz⟩ := hr p q he hp
    exact hn r hrq hz
  case mpr =>
    intro h
    simp only [Removed, not_forall, not_exists, not_and] at h
    have ⟨p, q, he, hp, hn⟩ := h
    rw [he]
    exact head_of_not_removed hp hn

end Lines

-- The buffer starts with a delete, which no edited line does.
theorem Readline.Holds.edit_iff (h : k.Holds (cs.foldl keep [])) : k.Holds (cs.foldl edit []) ↔ Removed cs := by
  constructor
  case mp =>
    intro he
    by_contra hr
    have hh := head_iff_not_removed.mpr hr
    have hpos : 0 < (cs.foldl keep []).length := List.length_pos_iff.mpr fun hn => by simp [hn] at hh
    have hb : k.buf 0 = 0x7F#8 := by
      rw [List.head?_eq_getElem?, List.getElem?_eq_getElem hpos, Option.some_inj] at hh
      rw [h.char 0 hpos, hh]
    by_cases hl : 0 < (cs.foldl edit []).length
    case pos =>
      rw [he.char 0 hl] at hb
      exact not_mem_foldl_edit <| hb ▸ List.getElem_mem hl
    case neg =>
      have hn := he.nul
      rw [Nat.eq_zero_of_not_pos hl, hb] at hn
      exact absurd hn (by decide)
  case mpr =>
    intro hr
    cases foldl_keep_or
    case inl he => rwa [← he]
    case inr ha => exact absurd hr <| head_iff_not_removed.mp ha.head

-- What `readline` returns is the edited line if and only if no delete stays which arrived on an empty line. The stores
-- are within the buffer in any case.
theorem readline_edits_iff (echoing : Bool) (prompt : Option (List Byte)) (cs : List Byte) (e : Word) (rest : List Word)
    (buf : Nat → Byte) (hcs : ∀ c ∈ cs, ¬(c = 0x0A#8 ∨ c = 0x0D#8)) (he : e = 0x0A#32 ∨ e = 0x0D#32) :
    ∃ k, readline echoing prompt (cs.map (BitVec.setWidth 32) ++ e :: rest) buf = .ok (true, k) ∧
      (k.Holds (cs.foldl edit []) ↔ Removed cs) :=
  have ⟨k, hk, hr⟩ := readline_keeps hcs he
  ⟨k, hr, hk.edit_iff⟩

theorem readline_edits_iff_typed :
    ∃ k, readline true none [0x61#32, 0x62#32, 0x08#32, 0x0D#32] (fun _ => 0#8) = .ok (true, k) ∧
      (k.Holds [0x61#8] ↔ Removed [0x61#8, 0x62#8, 0x08#8]) :=
  readline_edits_iff true none [0x61#8, 0x62#8, 0x08#8] 0x0D#32 [] (fun _ => 0#8) (by decide) (.inr rfl)

-- A delete on the empty line is stored like any other character, while a backspace is ignored.
theorem readline_keeps_delete :
    ∃ k, readline true none [0x7F#32, 0x0A#32] (fun _ => 0#8) = .ok (true, k) ∧ k.buf 0 = 0x7F#8 ∧
      ¬k.Holds ([0x7F#8].foldl edit []) :=
  ⟨_, rfl, rfl, fun h => absurd h.nul (by decide)⟩

end Jos
