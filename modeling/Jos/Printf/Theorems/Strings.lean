import Jos.Printf.Theorems.Fields

-- Strings with a width and a precision.

namespace Jos

-- The precision, and how it is written.
abbrev Precision := Option (Field × Word)

namespace Precision

def text : Precision → List Byte
  | none => []
  | some (field, p) => Byte.ofChar '.' :: field.text p

def args : Precision → List Arg
  | none => []
  | some (field, p) => field.args p

-- The number of characters that are to be printed.
def chars (s : List Byte) : Precision → Nat
  | none => s.length
  | some (_, p) => min p.toNat s.length

end Precision

-- The string `s` as it is meant to be printed.
def justified (minus : Bool) (w k : Nat) (s : List Byte) : List Byte :=
  if minus then
    s.take k ++ List.replicate (w - k) (Byte.ofChar ' ')
  else
    List.replicate (w - k) (Byte.ofChar ' ') ++ s.take k

def minusText (minus : Bool) : List Byte :=
  if minus then [Byte.ofChar '-'] else []

-- The escape sequence with the width `w` prints the string `s` as it is meant to be.
def Justifies (minus : Bool) (field : Field) (w : Word) (prec : Precision) (s : List Byte) : Prop :=
  ∃ out, vprintfmt (Byte.ofChar '%' :: (minusText minus ++ field.text w ++ prec.text) ++ [Byte.ofChar 's'])
      (field.args w ++ prec.args ++ [.str s]) = .ok out ∧
    out = (justified minus w.toNat (prec.chars s) s).map Byte.toInt32 ∧
    out.length = max w.toNat (prec.chars s)

-- The counter of the width is decremented for each of the `k` characters, and once more by `k` unless the padding is on
-- the right. It must not become positive again.
def Counts (minus : Bool) (w k : Nat) : Prop :=
  w ≤ k → k - w ≤ 2 ^ 31 ∧ (minus = false → (2 * k - w) % 2 ^ 32 ≤ 2 ^ 31)

variable {s : List Byte} {padc : Byte} {minus : Bool} {field : Field} {w width precision p : Word} {prec : Precision}
  {n k : Nat} {alt : Bool}

section StrLoop

theorem toInt_ofNat (hn : n < 2 ^ 31) : (BitVec.ofNat 32 n).toInt = n := by
  rw [BitVec.toInt_eq_toNat_cond, BitVec.toNat_ofNat]
  split <;> omega

theorem ofNat_sub_one : BitVec.ofNat 32 (n + 1) - 1#32 = BitVec.ofNat 32 n := by
  rw [BitVec.ofNat_add, BitVec.add_sub_cancel]

theorem takeWhile_of_nul (h : 0#8 ∉ s) : s.takeWhile (· ≠ 0#8) = s := by
  refine List.takeWhile_eq_self_iff.mpr fun x hx => ?_
  have hne : x ≠ 0#8 := fun he => h (he ▸ hx)
  simpa using hne

-- With a precision, the characters up to the first NUL are printed, but not more than the precision allows.
theorem strLoop_take (hn : n < 2 ^ 31) :
    strLoop false s (BitVec.ofNat 32 n) = ((s.take n).takeWhile (· ≠ 0#8)).map Byte.toInt32 := by
  have hz : (0#32).toInt = 0 := rfl
  have hs : (BitVec.ofNat 32 n).slt 0#32 = false := by
    rw [← Bool.not_eq_true, BitVec.slt_iff_toInt_lt, toInt_ofNat hn, hz]
    omega
  induction s generalizing n
  case nil => simp [strLoop]
  case cons ch s ih =>
    cases n
    case zero => simp [strLoop]
    case succ n =>
      have hs' : (BitVec.ofNat 32 n).slt 0#32 = false := by
        rw [← Bool.not_eq_true, BitVec.slt_iff_toInt_lt, toInt_ofNat (by omega), hz]
        omega
      have hp : (0#32).sle (BitVec.ofNat 32 n) = true := by
        rw [BitVec.sle_iff_toInt_le, hz, toInt_ofNat (by omega)]
        omega
      by_cases hc : ch = 0#8
      case pos => simp [strLoop, hc]
      case neg => simp [strLoop, hc, hs, ofNat_sub_one, hp, ih (show n < 2 ^ 31 by omega) hs']

-- Without a precision, all characters are printed.
theorem strLoop_all (hs : precision.slt 0#32 = true) (h : 0#8 ∉ s) :
    strLoop false s precision = s.map Byte.toInt32 := by
  induction s
  case nil => rfl
  case cons ch s ih =>
    rw [List.mem_cons, not_or] at h
    simp [strLoop, Ne.symm h.1, hs, ih h.2]

end StrLoop

-- What the loops of `%s` make of the precision: `k` is the number of characters.
structure Takes (precision : Word) (s : List Byte) (k : Nat) : Prop where
  loop : strLoop false s precision = (s.take k).map Byte.toInt32
  len  : strnlen s precision = k
  le   : k ≤ s.length

theorem takes_none (hz : 0#8 ∉ s) (hs : s.length < 2 ^ 32) : Takes (-1#32) s s.length where
  loop := by rw [strLoop_all rfl hz, List.take_length]
  len  := by
    have h1 : (-1#32).toNat = 2 ^ 32 - 1 := rfl
    rw [strnlen, takeWhile_of_nul hz, List.length_take, h1]
    omega
  le   := le_rfl

theorem takes_some (hz : 0#8 ∉ s) (hp : 0 ≤ p.toInt) : Takes p s (min p.toNat s.length) where
  loop := by
    have hlt : p.toNat < 2 ^ 31 := by
      rw [BitVec.toInt_eq_toNat_cond] at hp
      split at hp <;> omega
    have hl := strLoop_take (s := s) hlt
    rw [BitVec.ofNat_toNat, BitVec.setWidth_eq] at hl
    rw [hl, takeWhile_of_nul fun hm => hz (List.mem_of_mem_take hm), List.take_eq_take_min]
  len  := by rw [strnlen, takeWhile_of_nul hz, List.length_take]
  le   := Nat.min_le_right _ _

section PrintString

variable (hk : Takes precision s k)

include hk in
theorem length_loop : (strLoop false s precision).length = k := by
  rw [hk.loop, List.length_map, List.length_take, Nat.min_eq_left hk.le]

include hk in
theorem printString_minus :
    printString { padc := Byte.ofChar '-', width := w, precision } s =
      (s.take k).map Byte.toInt32 ++ pad (w - BitVec.ofNat 32 k) (Byte.ofChar ' ') := by
  have hr : ((0#32).slt w && decide (Byte.ofChar '-' ≠ Byte.ofChar '-')) = false := by simp
  rw [printString]
  simp only [hr, Bool.false_and, if_false, Bool.false_eq_true, length_loop hk, List.nil_append]
  rw [hk.loop]

include hk in
theorem printString_right (hw : (0#32).slt w = true) (hc : padc ≠ Byte.ofChar '-') :
    printString { padc, width := w, precision } s =
      pad (w - BitVec.ofNat 32 k) padc ++ (s.take k).map Byte.toInt32 ++
        pad ((if (0#32).slt (w - BitVec.ofNat 32 k) then 0#32 else w - BitVec.ofNat 32 k) - BitVec.ofNat 32 k)
          (Byte.ofChar ' ') := by
  have hr : ((0#32).slt w && decide (padc ≠ Byte.ofChar '-')) = true := by simp [hw, hc]
  rw [printString]
  simp only [hr, Bool.true_and, if_true, length_loop hk, hk.len]
  rw [hk.loop]

end PrintString

section Counter

variable (hw : 0 < w.toInt) (hk : k < 2 ^ 32)

theorem length_pad : (pad w padc).length = w.toInt.toNat := by
  rw [pad, List.length_replicate]

theorem toInt_toNat_eq_zero : w.toInt.toNat = 0 ↔ w.toNat = 0 ∨ 2 ^ 31 ≤ w.toNat := by
  have hlt := w.isLt
  rw [BitVec.toInt_eq_toNat_cond]
  split <;> omega

include hw in
theorem toNat_lt_of_pos : 0 < w.toNat ∧ w.toNat < 2 ^ 31 := by
  rw [BitVec.toInt_eq_toNat_cond] at hw
  split at hw <;> omega

include hk in
theorem toNat_sub_ofNat : (w - BitVec.ofNat 32 k).toNat = (2 ^ 32 - k + w.toNat) % 2 ^ 32 := by
  rw [BitVec.toNat_sub, BitVec.toNat_ofNat, Nat.mod_eq_of_lt hk]

include hw in
-- The characters leave room in the field.
theorem pad_of_lt (h : k < w.toNat) :
    (0#32).slt (w - BitVec.ofNat 32 k) = true ∧ pad (w - BitVec.ofNat 32 k) padc =
      List.replicate (w.toNat - k) padc.toInt32 := by
  have hb := toNat_lt_of_pos hw
  have hz : (0#32).toInt = 0 := rfl
  refine ⟨?_, pad_sub hw.le (by omega)⟩
  rw [BitVec.slt_iff_toInt_lt, hz, BitVec.toInt_eq_toNat_cond, toNat_sub_ofNat (by omega)]
  split <;> omega

include hw hk in
theorem pad_eq_nil_iff (h : w.toNat ≤ k) : pad (w - BitVec.ofNat 32 k) padc = [] ↔ k - w.toNat ≤ 2 ^ 31 := by
  have hb := toNat_lt_of_pos hw
  rw [← List.length_eq_zero_iff, length_pad, toInt_toNat_eq_zero, toNat_sub_ofNat hk]
  omega

include hw hk in
theorem pad_sub_sub_eq_nil_iff (h : w.toNat ≤ k) :
    pad (w - BitVec.ofNat 32 k - BitVec.ofNat 32 k) padc = [] ↔ (2 * k - w.toNat) % 2 ^ 32 ≤ 2 ^ 31 := by
  have hb := toNat_lt_of_pos hw
  rw [← List.length_eq_zero_iff, length_pad, toInt_toNat_eq_zero, toNat_sub_ofNat hk, toNat_sub_ofNat hk]
  omega

theorem slt_of_pad_eq_nil (h : pad w padc = []) : (0#32).slt w = false := by
  have hz : (0#32).toInt = 0 := rfl
  rw [← List.length_eq_zero_iff, length_pad] at h
  rw [← Bool.not_eq_true, BitVec.slt_iff_toInt_lt, hz]
  omega

end Counter

section Justified

variable (hw : 0 < w.toInt) (hs : s.length < 2 ^ 32) (hk : Takes precision s k)

include hk in
theorem length_justified : (justified minus w.toNat k s).length = max w.toNat k := by
  have hle := hk.le
  cases minus <;> simp [justified] <;> omega

include hw hs hk in
theorem printString_minus_iff :
    printString { padc := Byte.ofChar '-', width := w, precision } s =
      (justified true w.toNat k s).map Byte.toInt32 ↔ Counts true w.toNat k := by
  have hk32 : k < 2 ^ 32 := hk.le.trans_lt hs
  rw [printString_minus hk, justified, if_pos rfl, List.map_append, List.map_replicate, List.append_cancel_left_eq]
  by_cases h : k < w.toNat
  case pos => exact iff_of_true (pad_of_lt hw h).2 fun hc => absurd hc (by omega)
  case neg =>
    rw [show w.toNat - k = 0 by omega, List.replicate_zero, pad_eq_nil_iff hw hk32 (by omega)]
    exact ⟨fun hc _ => ⟨hc, by simp⟩, fun hc => (hc (by omega)).1⟩

include hw hs hk in
theorem printString_right_iff :
    printString { width := w, precision } s = (justified false w.toNat k s).map Byte.toInt32 ↔
      Counts false w.toNat k := by
  have hk32 : k < 2 ^ 32 := hk.le.trans_lt hs
  have hslt : (0#32).slt w = true := BitVec.slt_iff_toInt_lt.mpr hw
  have hj : justified false w.toNat k s = List.replicate (w.toNat - k) (Byte.ofChar ' ') ++ s.take k := rfl
  rw [printString_right hk hslt (by decide), hj, List.map_append, List.map_replicate]
  by_cases h : k < w.toNat
  case pos =>
    have hb := toNat_lt_of_pos hw
    have hz : pad (0#32 - BitVec.ofNat 32 k) (Byte.ofChar ' ') = [] := by
      rw [← List.length_eq_zero_iff, length_pad, toInt_toNat_eq_zero, toNat_sub_ofNat hk32]
      have hz : (0#32).toNat = 0 := rfl
      omega
    obtain ⟨hlt, hp⟩ := @pad_of_lt (Byte.ofChar ' ') w k hw h
    rw [hp, if_pos hlt, hz, List.append_nil]
    exact iff_of_true rfl fun hc => absurd hc (by omega)
  case neg =>
    rw [show w.toNat - k = 0 by omega, List.replicate_zero, List.nil_append]
    by_cases hp : pad (w - BitVec.ofNat 32 k) (Byte.ofChar ' ') = []
    case pos =>
      rw [hp, slt_of_pad_eq_nil hp, if_neg (by simp), List.nil_append, List.append_right_eq_self,
        pad_sub_sub_eq_nil_iff hw hk32 (by omega)]
      rw [pad_eq_nil_iff hw hk32 (by omega)] at hp
      exact ⟨fun hc _ => ⟨hp, fun _ => hc⟩, fun hc => (hc (by omega)).2 rfl⟩
    case neg =>
      refine iff_of_false (fun he => hp ?_) fun hc => hp ((pad_eq_nil_iff hw hk32 (by omega)).mpr (hc (by omega)).1)
      have hl := congrArg List.length he
      rw [List.length_append, List.length_append] at hl
      exact List.length_eq_zero_iff.mp (by omega)

include hw hs in
-- The flag `0` only goes unnoticed if there is nothing to pad.
theorem printString_zero_iff (hz : 0#8 ∉ s) :
    printString { padc := Byte.ofChar '0', width := w } s =
      (List.replicate w.toNat (Byte.ofChar ' ')).map Byte.toInt32 ↔ s = List.replicate w.toNat (Byte.ofChar ' ') := by
  have hb := toNat_lt_of_pos hw
  rw [printString_right (takes_none hz hs) (BitVec.slt_iff_toInt_lt.mpr hw) (by decide), List.take_length]
  constructor
  case mp =>
    intro he
    by_cases h : s.length < w.toNat
    case pos =>
      obtain ⟨j, hj⟩ : ∃ j, w.toNat - s.length = j + 1 := ⟨w.toNat - s.length - 1, by omega⟩
      obtain ⟨j', hj'⟩ : ∃ j', w.toNat = j' + 1 := ⟨w.toNat - 1, by omega⟩
      rw [(pad_of_lt hw h).2, hj, hj', List.replicate_succ, List.replicate_succ] at he
      exact absurd (List.cons.inj he).1 (by decide)
    case neg =>
      have hl := congrArg List.length he
      simp only [List.length_append, List.length_map, List.length_replicate] at hl
      rw [List.length_eq_zero_iff.mp (show (pad _ _).length = 0 by omega),
        List.length_eq_zero_iff.mp (show (pad _ (Byte.ofChar ' ')).length = 0 by omega), List.nil_append,
        List.append_nil] at he
      exact map_toInt32_inj.mp he
  case mpr =>
    intro he
    have hlen : s.length = w.toNat := by rw [he, List.length_replicate]
    have hp : pad (w - BitVec.ofNat 32 s.length) (Byte.ofChar '0') = [] :=
      (pad_eq_nil_iff hw hs (by omega)).mpr (by omega)
    have hp' : pad (w - BitVec.ofNat 32 s.length - BitVec.ofNat 32 s.length) (Byte.ofChar ' ') = [] :=
      (pad_sub_sub_eq_nil_iff hw hs (by omega)).mpr (by omega)
    rw [hp, slt_of_pad_eq_nil hp, if_neg (by simp), hp', List.nil_append, List.append_nil, ← he]

end Justified

section Reading

-- The precision that is in effect when the string is printed.
def Precision.register : Precision → Word
  | none => -1#32
  | some (_, p) => p

variable (hw : 0 < w.toInt)

include hw in
theorem slt_zero_of_pos : w.slt 0#32 = false := by
  have hz : (0#32).toInt = 0 := rfl
  rw [← Bool.not_eq_true, BitVec.slt_iff_toInt_lt, hz]
  omega

include hw in
theorem processPrecision_of_pos :
    ({ padc, width := w } : Escape).processPrecision p = { padc, width := w, precision := p } := by
  simp only [Escape.processPrecision, slt_zero_of_pos hw, Bool.false_eq_true, if_false]

include hw in
theorem reads_dot {l : List Byte} {ap : List Arg} {e : Escape} {ap' : List Arg}
    (h : Reads l { padc, width := w } ap e ap') : Reads (Byte.ofChar '.' :: l) { padc, width := w } ap e ap' := by
  refine Reads.dot ?_
  simpa only [slt_zero_of_pos hw, Bool.false_eq_true, if_false] using h

include hw in
theorem reads_prec (hz : prec ≠ some (.numeral, 0#32)) :
    Reads prec.text { padc, width := w } (prec.args ++ [.str s]) { padc, width := w, precision := prec.register }
      [.str s] := by
  cases prec
  case none => exact .nil
  case some q =>
    obtain ⟨field, p⟩ := q
    have hn : Reads [] (({ padc, width := w } : Escape).processPrecision p) [.str s]
        { padc, width := w, precision := p } [.str s] := by
      rw [processPrecision_of_pos hw]
      exact .nil
    refine reads_dot hw ?_
    cases field
    case star => exact .star hn
    case numeral =>
      have hpos : 0 < p.toNat := by
        refine Nat.pos_of_ne_zero fun hc => hz ?_
        rw [BitVec.toNat_inj.mp (show p.toNat = (0#32).toNat from hc)]
      have hf := Reads.field (f := .numeral) hpos rfl hn
      rwa [List.append_nil] at hf

include hw in
theorem reads_zero :
    Reads (Byte.ofChar '.' :: numeral 10 0) { padc, width := w } [.str s]
      { padc := Byte.ofChar '0', width := w } [.str s] :=
  reads_dot hw (.zero .nil)

include hw in
theorem reads_string {e : Escape}
    (h : Reads prec.text { padc := if minus then Byte.ofChar '-' else Byte.ofChar ' ', width := w }
      (prec.args ++ [.str s]) e [.str s]) :
    Reads (minusText minus ++ field.text w ++ prec.text) {} (field.args w ++ prec.args ++ [.str s]) e [.str s] := by
  have hpos := (toNat_lt_of_pos hw).1
  have hd : isDigit (prec.text.headD 0#8) = false := by
    cases prec <;> rfl
  rw [List.append_assoc, List.append_assoc]
  cases minus
  case false => exact Reads.field hpos hd h
  case true => exact .minus (Reads.field hpos hd h)

theorem vprintfmt_string {e : Escape} {l : List Byte} {ap : List Arg} (h : Reads l {} ap e [.str s]) :
    vprintfmt (Byte.ofChar '%' :: l ++ [Byte.ofChar 's']) ap = .ok (printString e s) :=
  vprintfmt_escape h (by decide) (rfl : convert printfmt e (Byte.ofChar 's') [.str s] = .ok (some (printString e s, [])))

end Reading

theorem takes_register (hp : ∀ q ∈ prec, 0 ≤ q.2.toInt) (hz : 0#8 ∉ s) (hs : s.length < 2 ^ 32) :
    Takes prec.register s (prec.chars s) := by
  cases prec
  case none => exact takes_none hz hs
  case some q => exact takes_some hz (hp q rfl)

theorem justified_zero : justified minus n 0 s = List.replicate n (Byte.ofChar ' ') := by
  cases minus <;> simp [justified]

theorem justifies_iff_of_eq {e : Escape} (hc : prec.chars s ≤ s.length)
    (h : vprintfmt (Byte.ofChar '%' :: (minusText minus ++ field.text w ++ prec.text) ++ [Byte.ofChar 's'])
      (field.args w ++ prec.args ++ [.str s]) = .ok (printString e s)) :
    Justifies minus field w prec s ↔ printString e s = (justified minus w.toNat (prec.chars s) s).map Byte.toInt32 := by
  constructor
  case mp =>
    rintro ⟨out, ho, he, -⟩
    rw [← he]
    exact Except.ok.inj (h.symm.trans ho)
  case mpr =>
    intro he
    refine ⟨_, h, he, ?_⟩
    rw [he, List.length_map]
    cases minus <;> simp [justified] <;> omega

-- A precision of zero that is written as a numeral is taken for the flag `0`. Otherwise the width and the precision
-- are honoured, unless the counter wraps around.
theorem justifies_iff (hw : 0 < w.toInt) (hp : ∀ q ∈ prec, 0 ≤ q.2.toInt) (hz : 0#8 ∉ s) (hs : s.length < 2 ^ 32) :
    Justifies minus field w prec s ↔
      if prec = some (.numeral, 0#32) then s = List.replicate w.toNat (Byte.ofChar ' ')
      else Counts minus w.toNat (prec.chars s) := by
  have hc : prec.chars s ≤ s.length := by
    cases prec
    case none => exact le_rfl
    case some => exact Nat.min_le_right _ _
  split_ifs with hpz
  case pos =>
    subst hpz
    have hk : Precision.chars s (some (.numeral, 0#32)) = 0 := Nat.zero_min _
    rw [justifies_iff_of_eq hc (vprintfmt_string (reads_string hw (reads_zero hw))), hk, justified_zero]
    exact printString_zero_iff hw hs hz
  case neg =>
    have hk := takes_register hp hz hs
    rw [justifies_iff_of_eq hc (vprintfmt_string (reads_string hw (reads_prec hw hpz)))]
    cases minus
    case false => exact printString_right_iff hw hs hk
    case true => exact printString_minus_iff hw hs hk

theorem justifies_iff_star : Justifies true .star 5#32 (some (.numeral, 2#32)) (bytes "abc") := by
  have hp : ∀ q ∈ (some (.numeral, 2#32) : Precision), 0 ≤ q.2.toInt := by decide
  refine (justifies_iff (by decide) hp (by decide) (by decide)).mpr ?_
  rw [if_neg (by decide)]
  intro h
  exact absurd h (by decide)

-- The format "%5.0s" prints all of "ab", behind zeros.
theorem not_justifies_zero : ¬Justifies false .numeral 5#32 (some (.numeral, 0#32)) (bytes "ab") := by
  rintro ⟨out, ho, he, -⟩
  have hr : vprintfmt (Byte.ofChar '%' :: bytes "5.0" ++ [Byte.ofChar 's']) [.str (bytes "ab")] =
      .ok ((bytes "000ab").map Byte.toInt32) := by
    rfl
  have hn := he.symm.trans (Except.ok.inj (ho.symm.trans hr))
  exact absurd (map_toInt32_inj.mp hn) (by decide)

end Jos
