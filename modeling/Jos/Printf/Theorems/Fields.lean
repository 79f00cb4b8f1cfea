import Jos.Printf.Theorems.Format
import Mathlib.Tactic.IntervalCases

-- How the flags, the width and the precision of an escape sequence are read.

namespace Jos

-- The usual representation of a number.
def numeral (base n : Nat) : List Byte :=
  (Nat.toDigits base n).map Byte.ofChar

-- The part `l` of an escape sequence turns the state `e` and the arguments `ap` into `e'` and `ap'`.
inductive Reads : List Byte → Escape → List Arg → Escape → List Arg → Prop
  | nil : Reads [] e ap e ap
  | minus : Reads l { e with padc := Byte.ofChar '-' } ap e' ap' → Reads (Byte.ofChar '-' :: l) e ap e' ap'
  | zero : Reads l { e with padc := Byte.ofChar '0' } ap e' ap' → Reads (Byte.ofChar '0' :: l) e ap e' ap'
  | numeral : 0 < k → isDigit (l.headD 0#8) = false → Reads l (e.processPrecision (BitVec.ofNat 32 k)) ap e' ap' →
    Reads (numeral 10 k ++ l) e ap e' ap'
  | star : Reads l (e.processPrecision w) ap e' ap' → Reads (Byte.ofChar '*' :: l) e (.word w :: ap) e' ap'
  | dot : Reads l (if e.width.slt 0#32 then { e with width := 0#32 } else e) ap e' ap' →
    Reads (Byte.ofChar '.' :: l) e ap e' ap'
  | long : Reads l { e with lflag := e.lflag + 1 } ap e' ap' → Reads (Byte.ofChar 'l' :: l) e ap e' ap'

-- The ways to write a width or a precision.
inductive Field
  | numeral
  | star
  deriving DecidableEq

namespace Field

def text (w : Word) : Field → List Byte
  | numeral => Jos.numeral 10 w.toNat
  | star => [Byte.ofChar '*']

def args (w : Word) : Field → List Arg
  | numeral => []
  | star => [.word w]

end Field

variable {fmt rest l : List Byte} {ch padc : Byte} {base i k n d : Nat} {e e' : Escape} {ap ap' ap'' : List Arg}
  {w width : Word} {c : Char} {cs : List Char} {out : Output}

section Numeral

theorem toNat_of_isDigit (h : c.isDigit) : 48 ≤ c.toNat ∧ c.toNat ≤ 57 := by
  rw [Char.isDigit, Bool.and_eq_true, decide_eq_true_eq, decide_eq_true_eq] at h
  exact h

theorem isDigit_ofChar (h : c.isDigit) : isDigit (Byte.ofChar c) := by
  obtain ⟨h₁, h₂⟩ := toNat_of_isDigit h
  rw [Byte.ofChar]
  interval_cases c.toNat <;> decide

theorem toInt32_ofChar_sub (h : c.isDigit) :
    (Byte.ofChar c).toInt32 - (Byte.ofChar '0').toInt32 = BitVec.ofNat 32 (c.toNat - '0'.toNat) := by
  obtain ⟨h₁, h₂⟩ := toNat_of_isDigit h
  rw [Byte.ofChar]
  interval_cases c.toNat <;> decide

theorem digits_fst (hc : ∀ c ∈ cs, c.isDigit) (hr : isDigit (rest.headD 0#8) = false) :
    (digits (cs.map Byte.ofChar ++ rest) (BitVec.ofNat 32 n)).1 = BitVec.ofNat 32 (Nat.ofDigitChars 10 cs n) := by
  induction cs generalizing n
  case nil =>
    cases rest
    case nil => rfl
    case cons ch rest =>
      rw [List.headD_cons] at hr
      simp [digits, hr]
  case cons c cs ih =>
    have hd := hc c (by simp)
    have hv : BitVec.ofNat 32 n * 10#32 + (Byte.ofChar c).toInt32 - (Byte.ofChar '0').toInt32 =
        BitVec.ofNat 32 (10 * n + (c.toNat - '0'.toNat)) := by
      rw [BitVec.sub_eq_add_neg, BitVec.add_assoc, ← BitVec.sub_eq_add_neg, toInt32_ofChar_sub hd, Nat.mul_comm,
        BitVec.ofNat_add, BitVec.ofNat_mul]
    rw [List.map_cons, List.cons_append, digits, if_pos (isDigit_ofChar hd), hv, Nat.ofDigitChars_cons]
    exact ih fun c hc' => hc c (by simp [hc'])

theorem toDigits_head_ne (hn : 0 < n) : (Nat.toDigits 10 n).head? ≠ some '0' := by
  induction n using Nat.strong_induction_on
  case h n ih =>
    by_cases hlt : n < 10
    case pos =>
      rw [Nat.toDigits_of_lt_base hlt]
      interval_cases n <;> decide
    case neg =>
      rw [Nat.toDigits_of_base_le (by decide) (by omega), List.head?_append_of_ne_nil _ Nat.toDigits_ne_nil]
      exact ih (n / 10) (by omega) (by omega)

theorem ofChar_ne_zero (h : c.isDigit) (hc : c ≠ '0') : Byte.ofChar c ≠ Byte.ofChar '0' := by
  obtain ⟨h₁, h₂⟩ := toNat_of_isDigit h
  have h₃ : c.toNat ≠ 48 := fun he => hc (Char.ext (UInt32.toNat_inj.mp he))
  rw [Byte.ofChar]
  interval_cases c.toNat <;> first | decide | exact absurd rfl h₃

-- A numeral is read as a width or a precision, unless it is zero.
theorem reswitch_numeral (h : At fmt i (numeral 10 k ++ rest)) (hk : 0 < k) (hr : isDigit (rest.headD 0#8) = false) :
    reswitch fmt (n + 1) i e ap =
      reswitch fmt n (i + (numeral 10 k).length) (e.processPrecision (BitVec.ofNat 32 k)) ap := by
  have hv := Nat.ofDigitChars_ten_toDigits (n := k)
  have hz := toDigits_head_ne hk
  have hd : ∀ c ∈ Nat.toDigits 10 k, c.isDigit := fun c hc => Nat.isDigit_of_mem_toDigits (by decide) (by decide) hc
  rw [numeral] at h ⊢
  cases hcs : Nat.toDigits 10 k
  case nil => exact absurd hcs Nat.toDigits_ne_nil
  case cons c cs =>
    rw [hcs] at h hv hz hd
    rw [Nat.ofDigitChars_cons, Nat.mul_zero, Nat.zero_add] at hv
    rw [List.map_cons, List.cons_append] at h
    have hc := hd c (by simp)
    have hne : c ≠ '0' := fun he => hz (he ▸ rfl)
    have hcs' : ∀ d ∈ cs.map Byte.ofChar, isDigit d := by
      intro d hm
      obtain ⟨c', hc', rfl⟩ := List.mem_map.mp hm
      exact isDigit_ofChar (hd c' (by simp [hc']))
    have ht : ((cs.map Byte.ofChar) ++ rest).takeWhile isDigit = cs.map Byte.ofChar := by
      rw [takeWhile_digits hr, List.takeWhile_eq_self_iff.mpr hcs']
    rw [reswitch_digits h (isDigit_ofChar hc) (ofChar_ne_zero hc hne), ht, toInt32_ofChar_sub hc,
      digits_fst (fun c' hc' => hd c' (by simp [hc'])) hr, hv, List.length_map, List.length_map, List.length_cons]
    congr 1
    omega

end Numeral

theorem numeral_ne_nil : numeral base n ≠ [] :=
  mt List.map_eq_nil_iff.mp Nat.toDigits_ne_nil

theorem Reads.reswitch (h : Reads l e ap e' ap') (hat : At fmt i (l ++ rest)) (hr : ¬isFlag (rest.headD 0#8))
    (hn : l.length < n) : reswitch fmt n i e ap = .ok (e', rest.headD 0#8, i + l.length + 1, ap') := by
  induction h generalizing i n
  all_goals obtain ⟨n, rfl⟩ : ∃ n', n = n' + 1 := ⟨n - 1, by omega⟩
  case nil => exact reswitch_last hat hr
  case numeral k l _ _ _ _ hk hd _ ih =>
    have hd' : isDigit ((l ++ rest).headD 0#8) = false := by
      cases l
      case nil => exact isDigit_headD_of hr
      case cons => exact hd
    have hpos : 0 < (Jos.numeral 10 k).length := List.length_pos_of_ne_nil numeral_ne_nil
    rw [List.length_append] at hn
    rw [List.append_assoc] at hat
    rw [reswitch_numeral hat hk hd', ih hat.skip (by omega), List.length_append, Nat.add_assoc i]
  case minus ih =>
    rw [reswitch_minus hat, ih hat.next (by simpa using hn), List.length_cons, Nat.add_right_comm i 1]
    rfl
  case zero ih =>
    rw [reswitch_zero hat, ih hat.next (by simpa using hn), List.length_cons, Nat.add_right_comm i 1]
    rfl
  case star ih =>
    rw [reswitch_star hat, ih hat.next (by simpa using hn), List.length_cons, Nat.add_right_comm i 1]
    rfl
  case dot ih =>
    rw [reswitch_dot hat, ih hat.next (by simpa using hn), List.length_cons, Nat.add_right_comm i 1]
    rfl
  case long ih =>
    rw [reswitch_long hat, ih hat.next (by simpa using hn), List.length_cons, Nat.add_right_comm i 1]
    rfl

theorem Reads.field {f : Field} (hw : 0 < w.toNat) (hd : isDigit (l.headD 0#8) = false)
    (h : Reads l (e.processPrecision w) ap e' ap') : Reads (f.text w ++ l) e (f.args w ++ ap) e' ap' := by
  cases f
  case numeral =>
    refine Reads.numeral hw hd ?_
    rwa [BitVec.ofNat_toNat, BitVec.setWidth_eq]
  case star => exact Reads.star h

-- The output for a format that consists of one escape sequence.
theorem vprintfmt_escape (h : Reads l {} ap e ap') (hc : ¬isFlag ch)
    (ho : convert printfmt e ch ap' = .ok (some (out, ap''))) :
    vprintfmt (Byte.ofChar '%' :: l ++ [ch]) ap = .ok out := by
  have hat : At (Byte.ofChar '%' :: l ++ [ch]) 0 (Byte.ofChar '%' :: (l ++ [ch])) := at_zero
  have hr := h.reswitch hat.next hc (n := (Byte.ofChar '%' :: l ++ [ch]).length + 1) (by simp; omega)
  have hend : At (Byte.ofChar '%' :: l ++ [ch]) (0 + 1 + l.length + 1) [] := hat.next.skip.next
  have hk := vprintfmtLoop_known (n := (Byte.ofChar '%' :: l ++ [ch]).length) hat hr ho (vprintfmtLoop_end hend)
  rwa [List.append_nil] at hk

section Output

theorem toInt32_setWidth : ch.toInt32.setWidth 8 = ch := by
  revert ch
  decide

theorem map_toInt32_inj {l' : List Byte} : l.map Byte.toInt32 = l'.map Byte.toInt32 ↔ l = l' :=
  List.map_inj_right fun a b hab => by rw [← @toInt32_setWidth a, hab, toInt32_setWidth]

theorem pad_sub (hw : 0 ≤ width.toInt) (hd : d < 2 ^ 31) :
    pad (width - BitVec.ofNat 32 d) padc = List.replicate (width.toNat - d) padc.toInt32 := by
  have hlt := width.isLt
  have hi : (width - BitVec.ofNat 32 d).toInt.toNat = width.toNat - d := by
    rw [BitVec.toInt_eq_toNat_cond] at hw ⊢
    rw [BitVec.toNat_sub, BitVec.toNat_ofNat]
    split at hw <;> split <;> omega
  rw [pad, hi]

theorem length_numeral_pos : 0 < (numeral base n).length :=
  List.length_pos_of_ne_nil numeral_ne_nil

theorem digit_eq (h : d < 16) : digit d = (Byte.ofChar d.digitChar).toInt32 := by
  interval_cases d <;> decide

-- The digits follow the padding, which does not depend on their order.
theorem printnumLoop_eq (hb : 2 ≤ base) (hb' : base ≤ 16) (hk : k < base ^ (n + 1)) :
    printnumLoop (n + 1) k base width padc =
      pad (width - BitVec.ofNat 32 (numeral base k).length) padc ++ (numeral base k).map Byte.toInt32 := by
  induction n generalizing k width
  case zero =>
    have hlt : k < base := by simpa using hk
    rw [printnumLoop, if_neg (by omega), Nat.mod_eq_of_lt hlt, numeral, Nat.toDigits_of_lt_base hlt,
      digit_eq (by omega)]
    rfl
  case succ n ih =>
    rw [printnumLoop]
    by_cases hlt : k < base
    case pos =>
      rw [if_neg (by omega), Nat.mod_eq_of_lt hlt, numeral, Nat.toDigits_of_lt_base hlt, digit_eq (by omega)]
      rfl
    case neg =>
      have hdiv : k / base < base ^ (n + 1) := by
        rw [Nat.div_lt_iff_lt_mul (by omega), ← Nat.pow_succ]
        exact hk
      have hnum : numeral base k = numeral base (k / base) ++ [Byte.ofChar (k % base).digitChar] := by
        rw [numeral, Nat.toDigits_of_base_le (by omega) (by omega), List.map_append]
        rfl
      have hmod := Nat.mod_lt k (show 0 < base by omega)
      have hsub {x : Word} : width - 1#32 - x = width - (x + 1#32) := by bv_omega
      rw [if_pos (by omega), ih hdiv, digit_eq (by omega), hnum, List.length_append, List.length_singleton,
        List.map_append, List.append_assoc, BitVec.ofNat_add, hsub]
      rfl

theorem printnum_eq {num : BitVec 64} (hb : 2 ≤ base) (hb' : base ≤ 16) :
    printnum num base width padc =
      pad (width - BitVec.ofNat 32 (numeral base num.toNat).length) padc ++
        (numeral base num.toNat).map Byte.toInt32 := by
  refine printnumLoop_eq hb hb' ?_
  calc num.toNat
    _ < 2 ^ 64 := num.isLt
    _ ≤ base ^ 64 := Nat.pow_le_pow_left hb 64

end Output

end Jos
