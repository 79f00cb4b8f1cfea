import Jos.Printf.Theorems.Fields

-- Numbers with a width.

namespace Jos

inductive Flag
  | none
  | zero
  | minus
  deriving DecidableEq

-- The lengths of the integers that can be printed.
inductive Length
  | int
  | long
  | longLong

-- The conversions for integers.
inductive Conv
  | d
  | u
  | o
  | x

namespace Length

def letters : Length → List Byte
  | int => []
  | long => bytes "l"
  | longLong => bytes "ll"

def lflag : Length → Nat
  | int => 0
  | long => 1
  | longLong => 2

abbrev bits : Length → Nat
  | int => 32
  | long => 32
  | longLong => 64

-- How a number of this length is pushed.
def args : (len : Length) → BitVec len.bits → List Arg
  | int, n => [.word n]
  | long, n => [.word n]
  | longLong, n => [.word (n.extractLsb' 0 32), .word (n.extractLsb' 32 32)]

end Length

namespace Conv

def ch : Conv → Byte
  | d => Byte.ofChar 'd'
  | u => Byte.ofChar 'u'
  | o => Byte.ofChar 'o'
  | x => Byte.ofChar 'x'

def base : Conv → Nat
  | d => 10
  | u => 10
  | o => 8
  | x => 16

def value {k : Nat} (n : BitVec k) : Conv → Int
  | d => n.toInt
  | u => n.toNat
  | o => n.toNat
  | x => n.toNat

end Conv

def sign (v : Int) : List Byte :=
  if v < 0 then [Byte.ofChar '-'] else []

def rep (base : Nat) (v : Int) : List Byte :=
  sign v ++ numeral base v.natAbs

namespace Flag

def text : Flag → List Byte
  | none => []
  | zero => [Byte.ofChar '0']
  | minus => [Byte.ofChar '-']

def padc : Flag → Byte
  | none => Byte.ofChar ' '
  | zero => Byte.ofChar '0'
  | minus => Byte.ofChar '-'

-- The number `v` in a field of the given width, as it is meant to be.
def padded (w base : Nat) (v : Int) : Flag → List Byte
  | none => List.replicate (w - (rep base v).length) (Byte.ofChar ' ') ++ rep base v
  | zero => sign v ++ List.replicate (w - (rep base v).length) (Byte.ofChar '0') ++ numeral base v.natAbs
  | minus => rep base v ++ List.replicate (w - (rep base v).length) (Byte.ofChar ' ')

-- The number as it is printed.
def emitted (w base : Nat) (v : Int) (f : Flag) : List Byte :=
  sign v ++ List.replicate (w - (numeral base v.natAbs).length) f.padc ++ numeral base v.natAbs

end Flag

-- The escape sequence with the width `w` and its arguments print the number `n` as it is meant to be.
def Honours (f : Flag) (field : Field) (w : Word) (len : Length) (conv : Conv) (n : BitVec len.bits) : Prop :=
  ∃ out, vprintfmt (Byte.ofChar '%' :: (f.text ++ field.text w ++ len.letters) ++ [conv.ch])
      (field.args w ++ len.args n) = .ok out ∧
    out = (f.padded w.toNat conv.base (conv.value n)).map Byte.toInt32 ∧
    out.length = max w.toNat (rep conv.base (conv.value n)).length

variable {f : Flag} {field : Field} {w : Word} {len : Length} {conv : Conv} {n : BitVec len.bits} {v : Int}
  {base k : Nat} {num : BitVec 64}

section Arguments

theorem append_extract {a : BitVec 64} : a.extractLsb' 32 32 ++ a.extractLsb' 0 32 = a := by
  ext i hi
  rw [← BitVec.getLsbD_eq_getElem, ← BitVec.getLsbD_eq_getElem, BitVec.getLsbD_append]
  simp only [BitVec.getLsbD_extractLsb']
  split_ifs with h
  case pos => simp [h]
  case neg =>
    have h' : i - 32 < 32 := by omega
    simp [h', show 32 + (i - 32) = i by omega]

theorem getint_args : getint len.lflag (len.args n) = .ok (n.signExtend 64, []) := by
  cases len
  case int => rfl
  case long => rfl
  case longLong =>
    rw [BitVec.signExtend_eq]
    exact congrArg (fun a => Except.ok (a, [])) append_extract

theorem getuint_args : getuint len.lflag (len.args n) = .ok (n.setWidth 64, []) := by
  cases len
  case int => rfl
  case long => rfl
  case longLong =>
    rw [BitVec.setWidth_eq]
    exact congrArg (fun a => Except.ok (a, [])) append_extract

variable (len) in
theorem bits_le : len.bits ≤ 64 := by
  cases len <;> decide

theorem reads_number (hw : 0 < w.toNat) :
    Reads (f.text ++ field.text w ++ len.letters) {} (field.args w ++ len.args n)
      { padc := f.padc, width := w, lflag := len.lflag } (len.args n) := by
  have hp {padc : Byte} : ({ padc } : Escape).processPrecision w = { padc, width := w } := rfl
  have hd : isDigit (len.letters.headD 0#8) = false := by cases len <;> rfl
  have hl {padc : Byte} : Reads len.letters { padc, width := w } (len.args n)
      { padc, width := w, lflag := len.lflag } (len.args n) := by
    cases len
    case int => exact .nil
    case long => exact .long .nil
    case longLong => exact .long (.long .nil)
  have hf {padc : Byte} : Reads (field.text w ++ len.letters) { padc } (field.args w ++ len.args n)
      { padc, width := w, lflag := len.lflag } (len.args n) :=
    Reads.field hw hd (hp ▸ hl)
  cases f
  case none => exact hf
  case zero => exact .zero hf
  case minus => exact .minus hf

end Arguments

section Emitted

variable {ap ap' : List Arg} {e : Escape} {pf : List Byte → List Arg → P Output}

theorem two_le_base : 2 ≤ conv.base := by
  cases conv <;> decide

theorem base_le : conv.base ≤ 16 := by
  cases conv <;> decide

theorem printnum_emitted (hw : 0 ≤ w.toInt) (hn : num.toNat = v.natAbs) :
    (sign v).map Byte.toInt32 ++ printnum num conv.base w f.padc =
      (f.emitted w.toNat conv.base v).map Byte.toInt32 := by
  have hlen : (numeral conv.base v.natAbs).length < 2 ^ 31 := by
    have hle : (Nat.toDigits conv.base v.natAbs).length ≤ 64 := by
      refine (Nat.length_toDigits_le_iff (Nat.lt_of_lt_of_le Nat.one_lt_two two_le_base) (by decide)).mpr ?_
      calc v.natAbs
        _ < 2 ^ 64 := hn ▸ num.isLt
        _ ≤ conv.base ^ 64 := Nat.pow_le_pow_left two_le_base 64
    rw [numeral, List.length_map]
    omega
  rw [printnum_eq two_le_base base_le, hn, pad_sub hw hlen, Flag.emitted, List.map_append, List.map_append,
    List.map_replicate, List.append_assoc]

theorem toNat_neg_of_lt (h : num.toInt < 0) : (-num).toNat = num.toInt.natAbs := by
  have hlt := num.isLt
  rw [BitVec.toInt_eq_toNat_cond] at h ⊢
  rw [BitVec.toNat_neg]
  split at h <;> split <;> omega

theorem toNat_of_nonneg (h : ¬num.toInt < 0) : num.toNat = num.toInt.natAbs := by
  rw [BitVec.toInt_eq_toNat_cond] at h ⊢
  split at h <;> split <;> omega

theorem convert_signed (hw : 0 ≤ w.toInt) (hg : getint len.lflag ap = .ok (num, ap')) :
    convert pf { padc := f.padc, width := w, lflag := len.lflag } (Byte.ofChar 'd') ap =
      .ok (some ((f.emitted w.toNat 10 num.toInt).map Byte.toInt32, ap')) := by
  have hs : num.slt 0#64 = true ↔ num.toInt < 0 := BitVec.slt_iff_toInt_lt
  have hb : Conv.d.base = 10 := rfl
  change (getint len.lflag ap >>= _) = _
  rw [hg, ← hb]
  change (if _ then _ else _) = _
  split_ifs with h
  case pos =>
    rw [← printnum_emitted hw (toNat_neg_of_lt (hs.mp h)), sign, if_pos (hs.mp h)]
    rfl
  case neg =>
    rw [← printnum_emitted hw (toNat_of_nonneg (mt hs.mpr h)), sign, if_neg (mt hs.mpr h)]
    rfl

theorem convert_unsigned (hw : 0 ≤ w.toInt) (hg : getuint len.lflag ap = .ok (num, ap')) (hd : conv ≠ .d) :
    convert pf { padc := f.padc, width := w, lflag := len.lflag } conv.ch ap =
      .ok (some ((f.emitted w.toNat conv.base num.toNat).map Byte.toInt32, ap')) := by
  have hs : sign num.toNat = [] := if_neg (by omega)
  have he : printnum num conv.base w f.padc = (f.emitted w.toNat conv.base num.toNat).map Byte.toInt32 := by
    rw [← printnum_emitted hw (Int.natAbs_natCast _).symm, hs, List.map_nil, List.nil_append]
  rw [← he]
  cases conv
  case d => exact absurd rfl hd
  all_goals
    change (getuint len.lflag ap >>= _) = _
    rw [hg]
    rfl

theorem vprintfmt_number (hw : 0 < w.toInt) :
    vprintfmt (Byte.ofChar '%' :: (f.text ++ field.text w ++ len.letters) ++ [conv.ch]) (field.args w ++ len.args n) =
      .ok ((f.emitted w.toNat conv.base (conv.value n)).map Byte.toInt32) := by
  have hpos : 0 < w.toNat := by
    rw [BitVec.toInt_eq_toNat_cond] at hw
    split at hw <;> omega
  have hc : ¬isFlag conv.ch := by cases conv <;> decide
  have ho : convert printfmt { padc := f.padc, width := w, lflag := len.lflag } conv.ch (len.args n) =
      .ok (some ((f.emitted w.toNat conv.base (conv.value n)).map Byte.toInt32, [])) := by
    by_cases hd : conv = .d
    case pos =>
      subst hd
      rw [Conv.value, ← BitVec.toInt_signExtend_of_le (bits_le len)]
      exact convert_signed hw.le getint_args
    case neg =>
      have hv : conv.value n = (n.setWidth 64).toNat := by
        rw [BitVec.toNat_setWidth_of_le (bits_le len)]
        cases conv
        case d => exact absurd rfl hd
        all_goals rfl
      rw [hv]
      exact convert_unsigned hw.le getuint_args hd
  exact vprintfmt_escape (reads_number hpos) hc ho

end Emitted

section Padded

theorem length_sign : (sign v).length = if v < 0 then 1 else 0 := by
  rw [sign]
  split_ifs <;> rfl

theorem length_padded : (f.padded k base v).length = max k (rep base v).length := by
  cases f <;> simp [Flag.padded, rep] <;> omega

theorem length_emitted :
    (f.emitted k base v).length = (sign v).length + max k (numeral base v.natAbs).length := by
  simp [Flag.emitted]
  omega

theorem minus_not_mem_numeral (hb : 2 ≤ base) (hb' : base ≤ 16) : Byte.ofChar '-' ∉ numeral base k := by
  induction k using Nat.strong_induction_on
  case h k ih =>
    have hd : ∀ d < 16, Byte.ofChar '-' ∉ [Byte.ofChar (Nat.digitChar d)] := by decide
    rw [numeral, Nat.toDigits_eq_if (by omega)]
    split_ifs with hlt
    case pos => exact hd k (by omega)
    case neg =>
      have hmod := Nat.mod_lt k (show 0 < base by omega)
      rw [List.map_append, List.mem_append, not_or]
      exact ⟨ih (k / base) (Nat.div_lt_self (by omega) (by omega)), hd _ (by omega)⟩

-- Since the padding stands between the sign and the digits, it only is where it belongs if there is no sign.
theorem emitted_eq_iff (hb : 2 ≤ base) (hb' : base ≤ 16) :
    f.emitted k base v = f.padded k base v ↔
      k ≤ (numeral base v.natAbs).length ∨ 0 ≤ v ∧ f ≠ .minus := by
  by_cases hk : k ≤ (numeral base v.natAbs).length
  case pos =>
    have hd : k - (numeral base v.natAbs).length = 0 := by omega
    have hr : k - ((sign v).length + (numeral base v.natAbs).length) = 0 := by omega
    refine iff_of_true ?_ (.inl hk)
    cases f <;> simp [Flag.emitted, Flag.padded, hd, hr, rep]
  case neg =>
    rw [or_iff_right hk]
    by_cases hv : v < 0
    case pos =>
      refine iff_of_false (fun he => ?_) fun hc => absurd hc.1 (by omega)
      have hl := congrArg List.length he
      rw [length_emitted, length_padded, rep, List.length_append, length_sign, if_pos hv] at hl
      omega
    case neg =>
      have hs : sign v = [] := if_neg hv
      rw [and_iff_right (by omega : 0 ≤ v)]
      cases f
      case none => simp [Flag.emitted, Flag.padded, rep, hs, Flag.padc]
      case zero => simp [Flag.emitted, Flag.padded, rep, hs, Flag.padc]
      case minus =>
        refine iff_of_false (fun he => ?_) fun hc => hc rfl
        obtain ⟨j, hj⟩ : ∃ j, k - (numeral base v.natAbs).length = j + 1 :=
          ⟨k - (numeral base v.natAbs).length - 1, by omega⟩
        obtain ⟨c, cs, hc⟩ : ∃ c cs, numeral base v.natAbs = c :: cs := List.exists_cons_of_ne_nil numeral_ne_nil
        have hm : Byte.ofChar '-' ≠ c := by
          rintro rfl
          refine minus_not_mem_numeral (k := v.natAbs) hb hb' ?_
          rw [hc]
          exact List.mem_cons_self
        rw [hc] at hj
        simp only [Flag.emitted, Flag.padded, rep, hs, hc, hj, Flag.padc, List.nil_append, List.replicate_succ,
          List.cons_append] at he
        exact hm (List.cons.inj he).1

end Padded

-- The width and the flags are honoured if there is nothing to pad, or neither a sign nor the flag `-`.
theorem honours_iff (hw : 0 < w.toInt) :
    Honours f field w len conv n ↔
      w.toNat ≤ (numeral conv.base (conv.value n).natAbs).length ∨ 0 ≤ conv.value n ∧ f ≠ .minus := by
  have hr := @vprintfmt_number f field w len conv n hw
  rw [← emitted_eq_iff two_le_base base_le]
  constructor
  case mp =>
    rintro ⟨out, ho, he, -⟩
    exact map_toInt32_inj.mp (Except.ok.inj (hr.symm.trans (ho.trans (congrArg _ he))))
  case mpr =>
    intro he
    refine ⟨_, hr, by rw [he], ?_⟩
    rw [List.length_map, he, length_padded]

theorem honours_iff_padded : Honours .zero .star 5#32 .int .x 0x2a#32 :=
  (honours_iff (by decide)).mpr (.inr ⟨by decide, by decide⟩)

-- The format "%5d" puts the sign of -12 in front of the spaces.
theorem not_honours_negative : ¬Honours .none .numeral 5#32 .int .d (-12#32) := by
  rintro ⟨out, ho, he, -⟩
  have hr : vprintfmt (Byte.ofChar '%' :: bytes "5" ++ [Byte.ofChar 'd']) [.word (-12#32)] =
      .ok ((bytes "-   12").map Byte.toInt32) := by
    rfl
  have hn := he.symm.trans (Except.ok.inj (ho.symm.trans hr))
  exact absurd (map_toInt32_inj.mp hn) (by decide)

end Jos
