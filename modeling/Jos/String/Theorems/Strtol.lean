import Jos.Printf.Theorems.Agree
import Jos.Printf.Theorems.Numbers
import Jos.String.Strtol

-- Reading a number gives back what has been printed.

namespace Jos

variable {s pre rest : List Byte} {ch : Byte} {b n d : Nat} {w val base : Word} {num : BitVec 64} {padc : Byte}

section Digits

theorem digitValue_digitChar (hd : d < 16) : digitValue (Byte.ofChar d.digitChar) = some (BitVec.ofNat 32 d) := by
  interval_cases d <;> decide

theorem sle_ofNat (hb : b ≤ 16) (hd : d < b) : (BitVec.ofNat 32 b).sle (BitVec.ofNat 32 d) = false := by
  rw [BitVec.sle_eq_decide, decide_eq_false_iff_not, toInt_ofNat (by omega), toInt_ofNat (by omega)]
  omega

theorem strtolLoop_digit (hb : b ≤ 16) (hd : d < b) :
    strtolLoop (BitVec.ofNat 32 b) (Byte.ofChar d.digitChar :: rest) (BitVec.ofNat 32 n) =
      strtolLoop (BitVec.ofNat 32 b) rest (BitVec.ofNat 32 (n * b + d)) := by
  rw [strtolLoop, digitValue_digitChar (Nat.lt_of_lt_of_le hd hb)]
  simp only [sle_ofNat hb hd, Bool.false_eq_true, if_false]
  rw [BitVec.ofNat_add, BitVec.ofNat_mul]

-- The digits of a number are read up to what follows them.
theorem strtolLoop_numeral (hb : 2 ≤ b) (hb' : b ≤ 16) :
    strtolLoop (BitVec.ofNat 32 b) (numeral b n ++ rest) 0#32 = strtolLoop (BitVec.ofNat 32 b) rest (BitVec.ofNat 32 n) := by
  induction n using Nat.strongRecOn generalizing rest
  case ind n hi =>
    by_cases hlt : n < b
    case pos =>
      rw [numeral, Nat.toDigits_of_lt_base hlt]
      change strtolLoop (BitVec.ofNat 32 b) (Byte.ofChar n.digitChar :: rest) (BitVec.ofNat 32 0) = _
      rw [strtolLoop_digit hb' hlt, Nat.zero_mul, Nat.zero_add]
    case neg =>
      have hnum : numeral b n = numeral b (n / b) ++ [Byte.ofChar (n % b).digitChar] := by
        rw [numeral, Nat.toDigits_of_base_le (by omega) (by omega), List.map_append]
        rfl
      have hdiv : n / b < n := Nat.div_lt_self (by omega) (by omega)
      rw [hnum, List.append_assoc, hi _ hdiv, List.singleton_append, strtolLoop_digit hb' (Nat.mod_lt _ (by omega)),
        Nat.div_add_mod']

theorem strtolLoop_whole (hb : 2 ≤ b) (hb' : b ≤ 16) :
    strtolLoop (BitVec.ofNat 32 b) (numeral b n) 0#32 = (BitVec.ofNat 32 n, []) := by
  rw [← List.append_nil (numeral b n), strtolLoop_numeral hb hb']
  rfl

end Digits

section Prefix

-- What is neither a blank nor a sign nor the `x` of a prefix.
def isPlain (ch : Byte) : Bool :=
  !isBlank ch && ch ≠ Byte.ofChar '+' && ch ≠ Byte.ofChar '-' && ch ≠ Byte.ofChar 'x'

theorem isPlain_numeral (hb : 2 ≤ b) (hb' : b ≤ 16) (h : ch ∈ numeral b n) : isPlain ch := by
  induction n using Nat.strongRecOn
  case ind n hi =>
    have hd : ∀ d < 16, isPlain (Byte.ofChar (Nat.digitChar d)) := by decide
    rw [numeral, Nat.toDigits_eq_if (by omega)] at h
    split at h
    case isTrue =>
      rw [List.mem_singleton.mp h]
      exact hd n (by omega)
    case isFalse =>
      have hmod := Nat.mod_lt n (show 0 < b by omega)
      rw [List.map_append, List.mem_append] at h
      cases h
      case inl h => exact hi (n / b) (Nat.div_lt_self (by omega) (by omega)) h
      case inr h =>
        rw [List.mem_singleton.mp h]
        exact hd _ (by omega)

theorem dropWhile_blanks (hp : ∀ c ∈ pre, isBlank c) (hs : isBlank ch = false) :
    (pre ++ ch :: s).dropWhile isBlank = ch :: s := by
  rw [List.dropWhile_append_of_pos hp, List.dropWhile_cons_of_neg (by simp [hs])]

theorem headD_ne_x (hs : ∀ c ∈ s, isPlain c) : s.headD 0#8 ≠ Byte.ofChar 'x' := by
  cases s
  case nil => exact (by decide)
  case cons c s =>
    have hc := hs c List.mem_cons_self
    simp only [isPlain, Bool.and_eq_true, decide_eq_true_eq] at hc
    exact hc.2

-- A number with digits only.
theorem strtol_plain (hp : ∀ c ∈ pre, isBlank c) (hs : ∀ c ∈ ch :: s, isPlain c) (hb : base ≠ 0#32) :
    strtol (pre ++ ch :: s) base = strtolLoop base (ch :: s) 0#32 := by
  have hx := headD_ne_x fun c hc => hs c <| List.mem_cons_of_mem _ hc
  have hc : isPlain ch := hs ch List.mem_cons_self
  simp only [isPlain, Bool.and_eq_true, decide_eq_true_eq, Bool.not_eq_true'] at hc
  obtain ⟨⟨⟨hc₁, hc₂⟩, hc₃⟩, _⟩ := hc
  rw [strtol, dropWhile_blanks hp hc₁]
  simp only [List.headD_cons, hc₂, hc₃, hx, hb, if_false, List.tail_cons, and_false, false_and]
  rfl

theorem strtol_minus (hp : ∀ c ∈ pre, isBlank c) (hs : ∀ c ∈ s, isPlain c) (hb : base ≠ 0#32) :
    strtol (pre ++ Byte.ofChar '-' :: s) base = ((-(strtolLoop base s 0#32).1), (strtolLoop base s 0#32).2) := by
  have hx := headD_ne_x fun c hc => hs c <| List.mem_of_mem_tail hc
  have hm : Byte.ofChar '-' ≠ Byte.ofChar '+' := by decide
  rw [strtol, dropWhile_blanks hp (by decide)]
  simp only [List.headD_cons, hm, hx, hb, if_false, if_true, List.tail_cons, and_false, false_and]

-- The prefix of a pointer.
theorem strtol_hex (hp : ∀ c ∈ pre, isBlank c) (hb : base = 0#32 ∨ base = 16#32) :
    strtol (pre ++ Byte.ofChar '0' :: Byte.ofChar 'x' :: s) base = strtolLoop 16#32 s 0#32 := by
  have h₁ : Byte.ofChar '0' ≠ Byte.ofChar '+' := by decide
  have h₂ : Byte.ofChar '0' ≠ Byte.ofChar '-' := by decide
  rw [strtol, dropWhile_blanks hp (by decide)]
  simp only [List.headD_cons, h₁, h₂, hb, if_false, if_true, List.tail_cons, and_self]
  rfl

theorem strtol_numeral (hp : ∀ c ∈ pre, isBlank c) (hb : 2 ≤ b) (hb' : b ≤ 16) :
    strtol (pre ++ numeral b n) (BitVec.ofNat 32 b) = (BitVec.ofNat 32 n, []) := by
  have hne : BitVec.ofNat 32 b ≠ 0#32 := by
    interval_cases b <;> decide
  have hs : ∀ c ∈ numeral b n, isPlain c := fun _ hc => isPlain_numeral hb hb' hc
  have hw := strtolLoop_whole (n := n) hb hb'
  cases hl : numeral b n
  case nil => exact absurd hl numeral_ne_nil
  case cons ch s =>
    rw [hl] at hs hw
    rw [strtol_plain hp hs hne, hw]

theorem strtol_neg (hp : ∀ c ∈ pre, isBlank c) (hb : 2 ≤ b) (hb' : b ≤ 16) :
    strtol (pre ++ Byte.ofChar '-' :: numeral b n) (BitVec.ofNat 32 b) = (-BitVec.ofNat 32 n, []) := by
  have hne : BitVec.ofNat 32 b ≠ 0#32 := by
    interval_cases b <;> decide
  rw [strtol_minus hp (fun c hc => isPlain_numeral hb hb' hc) hne, strtolLoop_whole hb hb']

end Prefix

section Output

theorem length_numeral_le (hb : 2 ≤ b) (hn : n < 2 ^ 64) : (numeral b n).length ≤ 64 := by
  rw [numeral, List.length_map, Nat.length_toDigits_le_iff hb (by decide)]
  exact Nat.lt_of_lt_of_le hn <| Nat.pow_le_pow_left hb 64

-- Without a width nothing is padded.
theorem printnum_numeral (hb : 2 ≤ b) (hb' : b ≤ 16) :
    printnum num b (-1#32) padc = (numeral b num.toNat).map Byte.toInt32 := by
  have hl := length_numeral_le hb num.isLt
  have hm : (-1#32).toNat = 2 ^ 32 - 1 := rfl
  have hz : (-1#32 - BitVec.ofNat 32 (numeral b num.toNat).length).toInt.toNat = 0 := by
    rw [BitVec.toInt_eq_toNat_cond, BitVec.toNat_sub, hm, BitVec.toNat_ofNat]
    split <;> omega
  rw [printnum_eq hb hb', pad, hz]
  rfl

-- The output of an escape sequence without flags.
theorem vprintfmt_bare {out : Output} (hc : ¬isFlag ch) (ho : convert printfmt {} ch [.word w] = .ok (some (out, []))) :
    vprintfmt [Byte.ofChar '%', ch] [.word w] = .ok out :=
  vprintfmt_escape .nil hc ho

theorem vprintfmt_unsigned (hc : (ch, b) ∈ [(Byte.ofChar 'u', 10), (Byte.ofChar 'o', 8), (Byte.ofChar 'x', 16)]) :
    vprintfmt [Byte.ofChar '%', ch] [.word w] = .ok ((numeral b w.toNat).map Byte.toInt32) := by
  have hw : (w.setWidth 64).toNat = w.toNat := BitVec.toNat_setWidth_of_le (by decide)
  have hn {b : Nat} (hb : 2 ≤ b) (hb' : b ≤ 16) :
      printnum (w.setWidth 64) b (-1#32) (Byte.ofChar ' ') = (numeral b w.toNat).map Byte.toInt32 :=
    hw ▸ printnum_numeral hb hb'
  simp only [List.mem_cons, List.not_mem_nil, or_false, Prod.mk.injEq] at hc
  rcases hc with ⟨rfl, rfl⟩ | ⟨rfl, rfl⟩ | ⟨rfl, rfl⟩
  all_goals
    rw [← hn (by decide) (by decide)]
    exact vprintfmt_bare (by decide) rfl

theorem vprintfmt_pointer :
    vprintfmt (bytes "%p") [.word w] =
      .ok ((Byte.ofChar '0' :: Byte.ofChar 'x' :: numeral 16 w.toNat).map Byte.toInt32) := by
  have hw : (w.setWidth 64).toNat = w.toNat := BitVec.toNat_setWidth_of_le (by decide)
  have hn : printnum (w.setWidth 64) 16 (-1#32) (Byte.ofChar ' ') = (numeral 16 w.toNat).map Byte.toInt32 :=
    hw ▸ printnum_numeral (by decide) (by decide)
  rw [List.map_cons, List.map_cons, ← hn]
  exact vprintfmt_bare (by decide) rfl

theorem vprintfmt_decimal :
    vprintfmt (bytes "%d") [.word w] = .ok ((sign w.toInt ++ numeral 10 w.toInt.natAbs).map Byte.toInt32) := by
  have hi : (w.signExtend 64).toInt = w.toInt := BitVec.toInt_signExtend_of_le (by decide)
  have hs : (w.signExtend 64).slt 0#64 = true ↔ w.toInt < 0 := by
    rw [BitVec.slt_iff_toInt_lt, hi]
    rfl
  have hc : convert printfmt {} (Byte.ofChar 'd') [.word w] =
      .ok (some ((sign w.toInt ++ numeral 10 w.toInt.natAbs).map Byte.toInt32, [])) := by
    have hg : getint 0 [.word w] = .ok (w.signExtend 64, []) := rfl
    change (getint 0 [.word w] >>= _) = _
    rw [sign, ← hi, hg]
    change (if _ then _ else _) = _
    split
    case isTrue h =>
      have hlt : (w.signExtend 64).toInt < 0 := hi ▸ hs.mp h
      rw [if_pos hlt, ← toNat_neg_of_lt hlt, List.map_append, ← printnum_numeral (by decide) (by decide)]
      rfl
    case isFalse h =>
      have hge : ¬(w.signExtend 64).toInt < 0 := hi ▸ mt hs.mpr h
      rw [if_neg hge, ← toNat_of_nonneg hge, List.nil_append, ← printnum_numeral (by decide) (by decide)]
      rfl
  exact vprintfmt_bare (by decide) hc

end Output

-- Reading what the format prints for the word gives back the word, and the whole string is read.
def ReadsBack (pre fmt : List Byte) (w base : Word) : Prop :=
  ∃ out, vprintfmt fmt [.word w] = .ok out ∧ strtol (pre ++ shown out) base = (w, [])

theorem readsBack_decimal (hp : ∀ c ∈ pre, isBlank c) : ReadsBack pre (bytes "%d") w 10#32 := by
  refine ⟨_, vprintfmt_decimal, ?_⟩
  rw [shown_map, sign]
  split
  case isTrue h =>
    have hw : -BitVec.ofNat 32 w.toInt.natAbs = w := by
      apply BitVec.eq_of_toNat_eq
      rw [BitVec.toInt_eq_toNat_cond] at h ⊢
      rw [BitVec.toNat_neg, BitVec.toNat_ofNat]
      split at h <;> split <;> omega
    exact (strtol_neg hp (by decide) (by decide)).trans <| Prod.ext hw rfl
  case isFalse h =>
    have hw : BitVec.ofNat 32 w.toInt.natAbs = w := by
      apply BitVec.eq_of_toNat_eq
      rw [BitVec.toInt_eq_toNat_cond] at h ⊢
      rw [BitVec.toNat_ofNat]
      split at h <;> split <;> omega
    exact (strtol_numeral hp (by decide) (by decide)).trans <| Prod.ext hw rfl

theorem readsBack_unsigned (hp : ∀ c ∈ pre, isBlank c)
    (hc : (ch, b) ∈ [(Byte.ofChar 'u', 10), (Byte.ofChar 'o', 8), (Byte.ofChar 'x', 16)]) :
    ReadsBack pre [Byte.ofChar '%', ch] w (BitVec.ofNat 32 b) := by
  have hb : 2 ≤ b ∧ b ≤ 16 := by
    simp only [List.mem_cons, List.not_mem_nil, or_false, Prod.mk.injEq] at hc
    omega
  refine ⟨_, vprintfmt_unsigned hc, ?_⟩
  rw [shown_map, strtol_numeral hp hb.1 hb.2, BitVec.ofNat_toNat, BitVec.setWidth_eq]

theorem readsBack_pointer (hp : ∀ c ∈ pre, isBlank c) (hb : base = 0#32 ∨ base = 16#32) :
    ReadsBack pre (bytes "%p") w base := by
  refine ⟨_, vprintfmt_pointer, ?_⟩
  have hw := strtolLoop_whole (b := 16) (n := w.toNat) (by decide) (by decide)
  rw [BitVec.ofNat_toNat, BitVec.setWidth_eq] at hw
  rw [shown_map]
  exact (strtol_hex hp hb).trans hw

-- `strtol` inverts the formats for numbers, also behind spaces and tabs.
theorem strtol_inverts (w : Word) (pre : List Byte) (hp : ∀ c ∈ pre, c = Byte.ofChar ' ' ∨ c = Byte.ofChar '\t') :
    ReadsBack pre (bytes "%d") w 10#32 ∧ ReadsBack pre (bytes "%u") w 10#32 ∧ ReadsBack pre (bytes "%o") w 8#32 ∧
      ReadsBack pre (bytes "%x") w 16#32 ∧ ReadsBack pre (bytes "%p") w 0#32 ∧ ReadsBack pre (bytes "%p") w 16#32 := by
  have hp : ∀ c ∈ pre, isBlank c := by simpa [isBlank] using hp
  exact ⟨readsBack_decimal hp, readsBack_unsigned hp (by decide), readsBack_unsigned hp (by decide),
    readsBack_unsigned hp (by decide), readsBack_pointer hp (.inl rfl), readsBack_pointer hp (.inr rfl)⟩

theorem strtol_inverts_least :
    ReadsBack (bytes " \t") (bytes "%d") 0x80000000#32 10#32 ∧ ReadsBack (bytes " \t") (bytes "%x") 0x80000000#32 16#32 :=
  have h := strtol_inverts 0x80000000#32 (bytes " \t") (by decide)
  ⟨h.1, h.2.2.2.1⟩

end Jos
