import Jos.Printf.Format
import Mathlib.Data.List.Forall2
import Mathlib.Data.List.Induction
import Mathlib.Data.List.TakeWhile
import Mathlib.Tactic.SplitIfs

-- How `vprintfmt` moves through its format.

namespace Jos

variable {fmt rest flags l : List Byte} {ch : Byte} {i k n : Nat} {e : Escape} {ap ap' : List Arg} {ks ks' : List Kind}
  {w : Word} {out : Output} {o : Option (List Byte)} {pf : List Byte → List Arg → P Output} {p : Piece}

section Pieces

theorem piecesFrom_flags (hf : ∀ c ∈ l, isFlag c) :
    piecesFrom (some flags) (l ++ rest) = piecesFrom (some (flags ++ l)) rest := by
  induction l generalizing flags
  case nil => simp
  case cons c l ih =>
    rw [List.cons_append, piecesFrom, if_pos (hf c (by simp)), ih fun c hc => hf c (by simp [hc]), List.append_assoc]
    rfl

theorem text_piecesFrom : (piecesFrom o fmt).flatMap Piece.text =
    (match o with | none => [] | some flags => Byte.ofChar '%' :: flags) ++ fmt := by
  induction fmt generalizing o
  case nil => cases o <;> simp [piecesFrom, Piece.text]
  case cons ch fmt ih =>
    cases o
    case none =>
      rw [piecesFrom]
      split_ifs with h
      case pos => rw [ih, h]; rfl
      case neg => rw [List.flatMap_cons, ih]; rfl
    case some flags =>
      rw [piecesFrom]
      split_ifs with h
      case pos => rw [ih]; simp
      case neg => rw [List.flatMap_cons, ih]; simp [Piece.text]

-- A format is the concatenation of its pieces.
theorem text_pieces : (pieces fmt).flatMap Piece.text = fmt :=
  text_piecesFrom

theorem wellFormed_piecesFrom (ho : ∀ flags ∈ o, ∀ c ∈ flags, isFlag c) (hp : p ∈ piecesFrom o fmt) :
    p.WellFormed := by
  induction fmt generalizing o
  case nil =>
    cases o
    case none => cases hp
    case some flags =>
      rw [piecesFrom, List.mem_singleton] at hp
      subst hp
      exact ⟨ho flags rfl, by simp⟩
  case cons ch fmt ih =>
    cases o
    case none =>
      rw [piecesFrom] at hp
      split_ifs at hp with h
      case pos => exact ih (by simp) hp
      case neg =>
        cases List.mem_cons.mp hp
        case inl he => exact he ▸ h
        case inr hp => exact ih (by simp) hp
    case some flags =>
      rw [piecesFrom] at hp
      split_ifs at hp with h
      case pos =>
        refine ih (fun l hl c hc => ?_) hp
        obtain rfl := Option.some.inj hl
        cases List.mem_append.mp hc
        case inl hc => exact ho flags rfl c hc
        case inr hc => exact List.mem_singleton.mp hc ▸ h
      case neg =>
        cases List.mem_cons.mp hp
        case inl he => exact he ▸ ⟨ho flags rfl, by simpa using h⟩
        case inr hp => exact ih (by simp) hp

theorem wellFormed_pieces (hp : p ∈ pieces fmt) : p.WellFormed :=
  wellFormed_piecesFrom (by simp) hp

end Pieces

section Supplied

theorem Supplied.word (h : Supplied (.word :: ks) ap) : ∃ w ap', ap = .word w :: ap' ∧ Supplied ks ap' := by
  cases ap
  case nil => exact h.elim
  case cons a ap =>
    cases a
    case word w => exact ⟨w, ap, rfl, h⟩
    case str => exact h.elim

theorem Supplied.str (h : Supplied (.str :: ks) ap) : ∃ s ap', vaString ap = .ok (s, ap') ∧ Supplied ks ap' := by
  cases ap
  case nil => exact h.elim
  case cons a ap =>
    cases a
    case word w =>
      obtain ⟨rfl, h⟩ := h
      exact ⟨_, ap, rfl, h⟩
    case str s => exact ⟨s, ap, rfl, h⟩

theorem Supplied.longLong (h : Supplied (.word :: .word :: ks) ap) :
    ∃ num ap', vaLongLong ap = .ok (num, ap') ∧ Supplied ks ap' := by
  obtain ⟨lo, ap₁, rfl, h₁⟩ := h.word
  obtain ⟨hi, ap₂, rfl, h₂⟩ := h₁.word
  exact ⟨_, ap₂, rfl, h₂⟩

end Supplied

-- What is left of the format at the position `i`.
structure At (fmt : List Byte) (i : Nat) (rest : List Byte) : Prop where
  le   : i ≤ fmt.length
  drop : fmt.drop i = rest

theorem at_zero : At fmt 0 fmt :=
  ⟨Nat.zero_le _, rfl⟩

theorem At.length (h : At fmt i rest) : i + rest.length = fmt.length := by
  have := h.le
  rw [← h.drop, List.length_drop]
  omega

theorem At.skip (h : At fmt i (l ++ rest)) : At fmt (i + l.length) rest := by
  refine ⟨?_, ?_⟩
  case refine_1 =>
    have := h.length
    rw [List.length_append] at this
    omega
  case refine_2 => rw [← List.drop_drop, h.drop, List.drop_left]

theorem At.next (h : At fmt i (ch :: rest)) : At fmt (i + 1) rest :=
  At.skip (l := [ch]) h

-- At the end of the format the NUL is read.
theorem At.readFmt (h : At fmt i rest) : readFmt fmt i = .ok (rest.headD 0#8) := by
  have hl := h.length
  cases rest
  case nil =>
    rw [Jos.readFmt, if_neg (by simp at hl; omega), if_pos (by simpa using hl)]
    rfl
  case cons ch rest =>
    have hlt : i < fmt.length := by simp at hl; omega
    have hc : fmt[i]? = some ch := by
      rw [← List.head?_drop, h.drop]
      rfl
    rw [Jos.readFmt, if_pos hlt, List.getD_eq_getElem?_getD, hc]
    rfl

section Reswitch

variable {p : Word}

theorem digits_snd : (digits l p).2 = (l.takeWhile isDigit).length := by
  induction l generalizing p
  case nil => rfl
  case cons ch l ih =>
    rw [digits, List.takeWhile_cons]
    split_ifs with h
    case pos => simp [ih]
    case neg => rfl

theorem eq_of_mem_marks (h : ch ∈ bytes "-*.#l") : ch = Byte.ofChar '-' ∨ ch = Byte.ofChar '*' ∨
    ch = Byte.ofChar '.' ∨ ch = Byte.ofChar '#' ∨ ch = Byte.ofChar 'l' := by
  simpa [bytes] using h

theorem reswitch_minus (h : At fmt i (Byte.ofChar '-' :: rest)) :
    reswitch fmt (n + 1) i e ap = reswitch fmt n (i + 1) { e with padc := Byte.ofChar '-' } ap := by
  rw [reswitch, h.readFmt]
  rfl

theorem reswitch_zero (h : At fmt i (Byte.ofChar '0' :: rest)) :
    reswitch fmt (n + 1) i e ap = reswitch fmt n (i + 1) { e with padc := Byte.ofChar '0' } ap := by
  rw [reswitch, h.readFmt]
  rfl

theorem reswitch_star (h : At fmt i (Byte.ofChar '*' :: rest)) :
    reswitch fmt (n + 1) i e (.word w :: ap) = reswitch fmt n (i + 1) (e.processPrecision w) ap := by
  rw [reswitch, h.readFmt]
  rfl

theorem reswitch_dot (h : At fmt i (Byte.ofChar '.' :: rest)) :
    reswitch fmt (n + 1) i e ap =
      reswitch fmt n (i + 1) (if e.width.slt 0#32 then { e with width := 0#32 } else e) ap := by
  rw [reswitch, h.readFmt]
  rfl

theorem reswitch_alt (h : At fmt i (Byte.ofChar '#' :: rest)) :
    reswitch fmt (n + 1) i e ap = reswitch fmt n (i + 1) { e with altflag := true } ap := by
  rw [reswitch, h.readFmt]
  rfl

theorem reswitch_long (h : At fmt i (Byte.ofChar 'l' :: rest)) :
    reswitch fmt (n + 1) i e ap = reswitch fmt n (i + 1) { e with lflag := e.lflag + 1 } ap := by
  rw [reswitch, h.readFmt]
  rfl

theorem reswitch_digits (h : At fmt i (ch :: rest)) (hd : isDigit ch) (hz : ch ≠ Byte.ofChar '0') :
    reswitch fmt (n + 1) i e ap =
      reswitch fmt n (i + 1 + (rest.takeWhile isDigit).length)
        (e.processPrecision (digits rest (ch.toInt32 - (Byte.ofChar '0').toInt32)).1) ap := by
  have hm : ch ≠ Byte.ofChar '-' := by
    rintro rfl
    exact absurd hd (by decide)
  rw [reswitch, h.readFmt, h.next.drop, ← digits_snd (p := ch.toInt32 - (Byte.ofChar '0').toInt32)]
  simp only [bind, Except.bind, List.headD_cons, hm, hz, hd, if_true, if_false]

theorem reswitch_last (h : At fmt i rest) (hc : ¬isFlag (rest.headD 0#8)) :
    reswitch fmt (n + 1) i e ap = .ok (e, rest.headD 0#8, i + 1, ap) := by
  generalize hch : rest.headD 0#8 = ch at hc
  have hd : ¬isDigit ch := fun hd => hc (by simp [isFlag, hd])
  have hb {c : Byte} (hb : isFlag c) : ch ≠ c := by
    rintro rfl
    exact hc hb
  rw [reswitch, h.readFmt, hch]
  simp only [bind, Except.bind, if_neg (hb (c := Byte.ofChar '-') (by decide)),
    if_neg (hb (c := Byte.ofChar '0') (by decide)), if_neg hd, if_neg (hb (c := Byte.ofChar '*') (by decide)),
    if_neg (hb (c := Byte.ofChar '.') (by decide)), if_neg (hb (c := Byte.ofChar '#') (by decide)),
    if_neg (hb (c := Byte.ofChar 'l') (by decide))]
  rfl

theorem stars_cons_of_ne (h : ch ≠ Byte.ofChar '*') : stars (ch :: flags) = stars flags := by
  rw [stars, List.count_cons_of_ne h]
  rfl

theorem count_dropWhile (h : isDigit ch = false) : (l.dropWhile isDigit).count ch = l.count ch := by
  have hz : (l.takeWhile isDigit).count ch = 0 := by
    refine List.count_eq_zero.mpr fun hm => ?_
    rw [List.mem_takeWhile_imp hm] at h
    cases h
  conv_rhs => rw [← List.takeWhile_append_dropWhile (p := isDigit) (l := l), List.count_append, hz, Nat.zero_add]

theorem stars_dropWhile : stars (l.dropWhile isDigit) = stars l := by
  rw [stars, count_dropWhile (by decide), stars]

theorem isDigit_headD_of (hr : ¬isFlag (rest.headD 0#8)) : isDigit (rest.headD 0#8) = false := by
  rw [isFlag, Bool.or_eq_true, not_or] at hr
  exact Bool.eq_false_iff.mpr hr.1

theorem takeWhile_digits (hr : isDigit (rest.headD 0#8) = false) :
    (l ++ rest).takeWhile isDigit = l.takeWhile isDigit := by
  induction l
  case nil =>
    cases rest
    case nil => rfl
    case cons ch rest =>
      rw [List.headD_cons] at hr
      simp [hr]
  case cons ch l ih => simp only [List.cons_append, List.takeWhile_cons, ih]

-- All flags are read. There is an argument for each `*`, and `l` is counted.
theorem reswitch_flags (h : At fmt i (flags ++ rest)) (hf : ∀ c ∈ flags, isFlag c) (hr : ¬isFlag (rest.headD 0#8))
    (hn : flags.length < n) (ha : Supplied (stars flags ++ ks) ap) :
    ∃ e' ap', reswitch fmt n i e ap = .ok (e', rest.headD 0#8, i + flags.length + 1, ap') ∧
      e'.lflag = e.lflag + flags.count (Byte.ofChar 'l') ∧ Supplied ks ap' := by
  induction hm : flags.length using Nat.strong_induction_on generalizing flags i n e ap
  case h m ih =>
    obtain ⟨n, rfl⟩ : ∃ n', n = n' + 1 := ⟨n - 1, by omega⟩
    cases flags
    case nil => exact ⟨e, ap, by simpa [← hm] using reswitch_last h hr, by simp, ha⟩
    case cons ch flags =>
      rw [List.cons_append] at h
      -- What is left of the flags is shorter, because of `ch`.
      have hstep (pre : List Byte) {post : List Byte} {e₁ : Escape} {ap₁ : List Arg} (he : pre ++ post = flags)
          (hs : reswitch fmt (n + 1) i e ap = reswitch fmt n (i + 1 + pre.length) e₁ ap₁)
          (hl : e₁.lflag + post.count (Byte.ofChar 'l') = e.lflag + (ch :: flags).count (Byte.ofChar 'l'))
          (ha₁ : Supplied (stars post ++ ks) ap₁) :
          ∃ e' ap', reswitch fmt (n + 1) i e ap = .ok (e', rest.headD 0#8, i + m + 1, ap') ∧
            e'.lflag = e.lflag + (ch :: flags).count (Byte.ofChar 'l') ∧ Supplied ks ap' := by
        have hlen : pre.length + post.length + 1 = m := by
          rw [← hm, List.length_cons, ← he, List.length_append]
        have hat : At fmt (i + 1 + pre.length) (post ++ rest) := by
          refine At.skip ?_
          rw [← List.append_assoc, he]
          exact h.next
        have hf' : ∀ c ∈ post, isFlag c := fun c hc => hf c (by simp [← he, hc])
        obtain ⟨e', ap', hr', hl', ha'⟩ := ih post.length (by omega) (n := n) (e := e₁) hat hf'
          (by rw [hm] at hn; omega) ha₁ rfl
        refine ⟨e', ap', ?_, hl'.trans hl, ha'⟩
        rw [hs, hr', ← hlen]
        congr 5
        omega
      have hone {e₁ : Escape} (hs : reswitch fmt (n + 1) i e ap = reswitch fmt n (i + 1) e₁ ap)
          (hl : e₁.lflag = e.lflag) (hc : ch ≠ Byte.ofChar 'l') (hc' : ch ≠ Byte.ofChar '*') :=
        hstep [] rfl hs (by rw [hl, List.count_cons_of_ne hc]) (by rwa [stars_cons_of_ne hc'] at ha)
      by_cases hd : isDigit ch
      case pos =>
        by_cases hz : ch = Byte.ofChar '0'
        case pos =>
          subst hz
          exact hone (reswitch_zero h) rfl (by decide) (by decide)
        case neg =>
          have hne {c : Byte} (hc : isDigit c = false) : ch ≠ c := by
            rintro rfl
            rw [hd] at hc
            cases hc
          have hs : reswitch fmt (n + 1) i e ap = _ := reswitch_digits h hd hz
          rw [takeWhile_digits (isDigit_headD_of hr)] at hs
          refine hstep _ List.takeWhile_append_dropWhile hs ?_ ?_
          case refine_1 =>
            rw [count_dropWhile (by decide), List.count_cons_of_ne (hne (by decide)), Escape.processPrecision]
            split <;> rfl
          case refine_2 => rwa [stars_dropWhile, ← stars_cons_of_ne (hne (by decide))]
      case neg =>
        have hmem : ch ∈ bytes "-*.#l" := by simpa [isFlag, hd] using hf ch (by simp)
        obtain rfl | rfl | rfl | rfl | rfl := eq_of_mem_marks hmem
        case inl => exact hone (reswitch_minus h) rfl (by decide) (by decide)
        case inr.inl =>
          rw [stars, List.count_cons_self] at ha
          obtain ⟨w, ap₁, rfl, ha₁⟩ := ha.word
          refine hstep [] rfl (reswitch_star h) ?_ ha₁
          rw [List.count_cons_of_ne (by decide), Escape.processPrecision]
          split <;> rfl
        case inr.inr.inl =>
          refine hone (reswitch_dot h) ?_ (by decide) (by decide)
          split <;> rfl
        case inr.inr.inr.inl => exact hone (reswitch_alt h) rfl (by decide) (by decide)
        case inr.inr.inr.inr =>
          refine hstep [] rfl (reswitch_long h) ?_ (by rwa [stars_cons_of_ne (by decide)] at ha)
          rw [List.count_cons_self]
          simp only
          omega

end Reswitch

section Loop

-- The messages of `%e` can be printed.
structure PrintsErrors (printfmt : List Byte → List Arg → P Output) : Prop where
  number  : ∀ w, ∃ out, printfmt (bytes "error %d") [.word w] = .ok out
  message : ∀ s, ∃ out, printfmt (bytes "%s") [.str s] = .ok out

theorem convert_none (h : ch ∉ conversions) : convert pf e ch ap = .ok none := by
  have hne {c : Byte} (hc : c ∈ conversions) : ch ≠ c := fun he => h (he ▸ hc)
  rw [convert, if_neg (hne (by decide)), if_neg (hne (by decide)), if_neg (hne (by decide)),
    if_neg (hne (by decide)), if_neg (hne (by decide)), if_neg (hne (by decide)), if_neg (hne (by decide)),
    if_neg (hne (by decide)), if_neg (hne (by decide))]
  rfl

theorem getuint_supplied {lflag : Nat}
    (h : Supplied ((if lflag ≥ 2 then [.word, .word] else [.word]) ++ ks) ap) :
    ∃ num ap', getuint lflag ap = .ok (num, ap') ∧ Supplied ks ap' := by
  rw [getuint]
  split_ifs at h ⊢ with hl
  case pos => exact h.longLong
  case neg =>
    obtain ⟨w, ap', rfl, h⟩ := h.word
    exact ⟨_, ap', rfl, h⟩

theorem getint_supplied {lflag : Nat}
    (h : Supplied ((if lflag ≥ 2 then [.word, .word] else [.word]) ++ ks) ap) :
    ∃ num ap', getint lflag ap = .ok (num, ap') ∧ Supplied ks ap' := by
  rw [getint]
  split_ifs at h ⊢ with hl
  case pos => exact h.longLong
  case neg =>
    obtain ⟨w, ap', rfl, h⟩ := h.word
    exact ⟨_, ap', rfl, h⟩

theorem convert_e (h : PrintsErrors pf) :
    ∃ out, convert pf e (Byte.ofChar 'e') (.word w :: ap) = .ok (some (out, ap)) := by
  have hn {err : Word} : ∃ out, (pf (bytes "error %d") [.word err] >>= fun out => pure (some (out, ap))) =
      .ok (some (out, ap)) := by
    obtain ⟨out, ho⟩ := h.number err
    exact ⟨out, by rw [ho]; rfl⟩
  rw [convert, if_neg (by decide), if_pos rfl]
  simp only [vaWord, pure_bind]
  generalize (if w.slt 0#32 then -w else w) = err
  split_ifs
  case pos => exact hn
  case neg =>
    split
    case h_1 => exact hn
    case h_2 p _ =>
      obtain ⟨out, ho⟩ := h.message (bytes p)
      exact ⟨out, by rw [ho]; rfl⟩

theorem convert_some (hp : ch = Byte.ofChar 'e' → PrintsErrors pf) (hc : ch ∈ conversions)
    (ha : Supplied (conversionAsks e.lflag ch ++ ks) ap) :
    ∃ out ap', convert pf e ch ap = .ok (some (out, ap')) ∧ Supplied ks ap' := by
  have hmem : ch = Byte.ofChar 'c' ∨ ch = Byte.ofChar 'e' ∨ ch = Byte.ofChar 's' ∨ ch = Byte.ofChar 'd' ∨
      ch = Byte.ofChar 'u' ∨ ch = Byte.ofChar 'o' ∨ ch = Byte.ofChar 'p' ∨ ch = Byte.ofChar 'x' ∨
      ch = Byte.ofChar '%' := by
    simpa [conversions, bytes] using hc
  have hword (h : Supplied (.word :: ks) ap) := h.word
  obtain rfl | rfl | rfl | rfl | rfl | rfl | rfl | rfl | rfl := hmem
  case inl =>
    obtain ⟨w, ap', rfl, ha'⟩ := hword ha
    exact ⟨_, ap', rfl, ha'⟩
  case inr.inl =>
    obtain ⟨w, ap', rfl, ha'⟩ := hword ha
    obtain ⟨out, ho⟩ : ∃ out, convert pf e (Byte.ofChar 'e') (.word w :: ap') = .ok (some (out, ap')) :=
      convert_e (hp rfl)
    exact ⟨out, ap', ho, ha'⟩
  case inr.inr.inl =>
    obtain ⟨s, ap', hs, ha'⟩ := Supplied.str ha
    refine ⟨printString e s, ap', ?_, ha'⟩
    change (vaString ap >>= _) = _
    rw [hs]
    rfl
  case inr.inr.inr.inl =>
    obtain ⟨num, ap', hn, ha'⟩ := getint_supplied ha
    refine ⟨if num.slt 0#64 then (Byte.ofChar '-').toInt32 :: printnum (-num) 10 e.width e.padc
      else printnum num 10 e.width e.padc, ap', ?_, ha'⟩
    change (getint e.lflag ap >>= _) = _
    rw [hn]
    change (if _ then _ else _) = _
    split_ifs <;> rfl
  case inr.inr.inr.inr.inl =>
    obtain ⟨num, ap', hn, ha'⟩ := getuint_supplied ha
    refine ⟨printnum num 10 e.width e.padc, ap', ?_, ha'⟩
    change (getuint e.lflag ap >>= _) = _
    rw [hn]
    rfl
  case inr.inr.inr.inr.inr.inl =>
    obtain ⟨num, ap', hn, ha'⟩ := getuint_supplied ha
    refine ⟨printnum num 8 e.width e.padc, ap', ?_, ha'⟩
    change (getuint e.lflag ap >>= _) = _
    rw [hn]
    rfl
  case inr.inr.inr.inr.inr.inr.inl =>
    obtain ⟨w, ap', rfl, ha'⟩ := hword ha
    exact ⟨_, ap', rfl, ha'⟩
  case inr.inr.inr.inr.inr.inr.inr.inl =>
    obtain ⟨num, ap', hn, ha'⟩ := getuint_supplied ha
    refine ⟨printnum num 16 e.width e.padc, ap', ?_, ha'⟩
    change (getuint e.lflag ap >>= _) = _
    rw [hn]
    rfl
  case inr.inr.inr.inr.inr.inr.inr.inr => exact ⟨_, ap, rfl, ha⟩

-- Characters that are not part of an escape sequence are copied.
theorem vprintfmtLoop_copy (h : At fmt i (l ++ rest)) (hl : ∀ c ∈ l, c ≠ Byte.ofChar '%' ∧ c ≠ 0#8)
    (hr : vprintfmtLoop pf fmt n (i + l.length) ap = .ok out) :
    vprintfmtLoop pf fmt (n + l.length) i ap = .ok (l.map (·.setWidth 32) ++ out) := by
  induction l generalizing i
  case nil => exact hr
  case cons c l ih =>
    rw [List.cons_append] at h
    obtain ⟨hp, hz⟩ := hl c (by simp)
    rw [List.length_cons, Nat.add_comm l.length, ← Nat.add_assoc] at hr
    have hrec := ih h.next (fun d hd => hl d (by simp [hd])) hr
    rw [List.length_cons, ← Nat.add_assoc, vprintfmtLoop, h.readFmt]
    simp only [bind, Except.bind, List.headD_cons, ne_eq, hp, hz, not_false_eq_true, if_true, if_false, hrec]
    rfl

theorem vprintfmtLoop_end (h : At fmt i []) : vprintfmtLoop pf fmt (n + 1) i ap = .ok [] := by
  rw [vprintfmtLoop, h.readFmt]
  rfl

-- Going backwards from the end of an escape sequence, the first `%` is where it begins.
theorem backToPercent_eq (h : At fmt i (Byte.ofChar '%' :: l ++ rest)) (hl : ∀ c ∈ l, c ≠ Byte.ofChar '%') :
    backToPercent fmt (i + 1 + l.length) = .ok (i + 1) := by
  induction l using List.reverseRecOn generalizing rest
  case nil =>
    rw [List.length_nil, Nat.add_zero, backToPercent, h.readFmt]
    rfl
  case append_singleton l c ih =>
    have h' : At fmt i (Byte.ofChar '%' :: l ++ (c :: rest)) := by simpa using h
    have hc : At fmt (i + 1 + l.length) (c :: rest) := by
      have := h'.skip
      rwa [List.length_cons, Nat.add_comm l.length, ← Nat.add_assoc] at this
    rw [List.length_append, List.length_singleton, ← Nat.add_assoc, backToPercent, hc.readFmt]
    simp only [bind, Except.bind, List.headD_cons, hl c (by simp), if_false]
    exact ih h' fun d hd => hl d (by simp [hd])

variable {c : Byte} {i' : Nat}

theorem vprintfmtLoop_known (h : At fmt i (Byte.ofChar '%' :: rest)) {out' : Output} {ap'' : List Arg}
    (hr : reswitch fmt (fmt.length + 1) (i + 1) {} ap = .ok (e, c, i', ap'))
    (hc : convert pf e c ap' = .ok (some (out', ap''))) (hl : vprintfmtLoop pf fmt n i' ap'' = .ok out) :
    vprintfmtLoop pf fmt (n + 1) i ap = .ok (out' ++ out) := by
  rw [vprintfmtLoop, h.readFmt]
  simp only [bind, Except.bind, List.headD_cons, ne_eq, not_true_eq_false, if_false, hr, hc, hl]
  rfl

theorem vprintfmtLoop_unknown (h : At fmt i (Byte.ofChar '%' :: flags ++ rest)) (hf : ∀ c ∈ flags, isFlag c)
    (hr : reswitch fmt (fmt.length + 1) (i + 1) {} ap = .ok (e, c, i + 1 + flags.length + 1, ap'))
    (hc : c ∉ conversions) (hl : vprintfmtLoop pf fmt n (i + 1) ap' = .ok out) :
    vprintfmtLoop pf fmt (n + 1) i ap = .ok ((Byte.ofChar '%').setWidth 32 :: out) := by
  have hb := backToPercent_eq h fun c hc he => absurd (hf c hc) (by rw [he]; decide)
  rw [vprintfmtLoop, h.readFmt]
  simp only [bind, Except.bind, List.cons_append, List.headD_cons, ne_eq, not_true_eq_false, if_false, hr,
    convert_none hc, Nat.add_sub_cancel, hb, hl]
  rfl

-- All characters of the sequence are printed: `%` by the default case, and those behind it when they are read again.
theorem vprintfmtLoop_verbatim (h : At fmt i (Byte.ofChar '%' :: flags ++ rest)) (hf : ∀ c ∈ flags, isFlag c)
    (hr : reswitch fmt (fmt.length + 1) (i + 1) {} ap = .ok (e, c, i + 1 + flags.length + 1, ap'))
    (hc : c ∉ conversions) {t : List Byte} (ht : At fmt (i + 1) (l ++ t))
    (hl : ∀ c ∈ l, c ≠ Byte.ofChar '%' ∧ c ≠ 0#8) (ho : vprintfmtLoop pf fmt n (i + 1 + l.length) ap' = .ok out) :
    vprintfmtLoop pf fmt (n + l.length + 1) i ap = .ok ((Byte.ofChar '%' :: l).map (·.setWidth 32) ++ out) :=
  vprintfmtLoop_unknown h hf hr hc (vprintfmtLoop_copy ht hl ho)

theorem piecesFrom_escape (hf : ∀ c ∈ flags, isFlag c) (hr : ¬isFlag (rest.headD 0#8)) :
    pieces (Byte.ofChar '%' :: flags ++ rest) = .escape flags rest.head? :: pieces rest.tail := by
  rw [pieces, List.cons_append, piecesFrom, if_pos rfl, piecesFrom_flags hf, List.nil_append]
  cases rest
  case nil => rfl
  case cons c rest => exact if_neg hr

theorem exists_flags (l : List Byte) :
    ∃ flags tail, l = flags ++ tail ∧ (∀ c ∈ flags, isFlag c) ∧ ¬isFlag (tail.headD 0#8) := by
  refine ⟨l.takeWhile isFlag, l.dropWhile isFlag, List.takeWhile_append_dropWhile.symm,
    fun c hc => List.mem_takeWhile_imp hc, ?_⟩
  cases ht : l.dropWhile isFlag
  case nil => decide
  case cons c tail =>
    have hh := List.head_dropWhile_not isFlag (l := l) (by rw [ht]; simp)
    simpa [ht] using hh

theorem conversionAsks_of_not_mem (h : ch ∉ conversions) : conversionAsks n ch = [] := by
  have hne {l : List Byte} (hl : ∀ c ∈ l, c ∈ conversions) : ch ∉ l := fun hc => h (hl ch hc)
  have hs : ch ≠ Byte.ofChar 's' := fun he => h (he ▸ by decide)
  rw [conversionAsks, if_neg (hne (by decide)), if_neg (hne (by decide)), if_neg hs]

-- Each piece is printed on its own. With `%e` among them, its messages must have been dealt with before.
theorem vprintfmtLoop_pieces (h : At fmt i rest) (hz : 0#8 ∉ rest) (hn : rest.length < n)
    (he : PrintsErrors pf ∨ ∀ flags, .escape flags (some (Byte.ofChar 'e')) ∉ pieces rest)
    (ha : Supplied ((pieces rest).flatMap Piece.asks) ap) :
    ∃ outs, vprintfmtLoop pf fmt n i ap = .ok outs.flatten ∧ List.Forall₂ Piece.Shows (pieces rest) outs := by
  induction hm : rest.length using Nat.strong_induction_on generalizing rest i n ap
  case h m ih =>
    obtain ⟨n, rfl⟩ : ∃ n', n = n' + 1 := ⟨n - 1, by omega⟩
    cases rest
    case nil => exact ⟨[], vprintfmtLoop_end h, .nil⟩
    case cons ch rest =>
      by_cases hch : ch = Byte.ofChar '%'
      case neg =>
        have hp : pieces (ch :: rest) = .char ch :: pieces rest := if_neg hch
        rw [hp] at ha he ⊢
        rw [List.length_cons] at hm hn
        rw [List.mem_cons, not_or] at hz
        obtain ⟨outs, hr, hs⟩ := ih rest.length (by omega) (n := n) h.next hz.2 (by omega)
          (he.imp_right fun he flags hc => he flags (List.mem_cons_of_mem _ hc)) ha rfl
        refine ⟨[ch.setWidth 32] :: outs, ?_, .cons (fun _ => rfl) hs⟩
        exact vprintfmtLoop_copy (l := [ch]) h (by simpa using ⟨hch, Ne.symm hz.1⟩) hr
      case pos =>
        subst hch
        obtain ⟨flags, tail, rfl, hf, hr⟩ := exists_flags rest
        have hfl : ∀ c ∈ flags, c ≠ Byte.ofChar '%' ∧ c ≠ 0#8 := by
          intro c hc
          have := hf c hc
          refine ⟨?_, ?_⟩
          all_goals
            rintro rfl
            exact absurd this (by decide)
        have hlen := h.length
        simp only [List.length_cons, List.length_append] at hm hn hlen
        have hp := piecesFrom_escape hf hr
        rw [List.cons_append] at hp
        rw [hp, List.flatMap_cons] at ha
        rw [hp] at he ⊢
        cases tail
        case nil =>
          obtain ⟨e', ap', hr', -, -⟩ := reswitch_flags (e := {}) h.next hf hr (n := fmt.length + 1) (by omega) ha
          obtain ⟨n, rfl⟩ : ∃ n', n = n' + 1 + flags.length := ⟨n - 1 - flags.length, by simp at hn; omega⟩
          have hend : At fmt (i + 1 + flags.length) [] := h.next.skip
          refine ⟨[(Byte.ofChar '%' :: flags).map (·.setWidth 32)], ?_, .cons (fun _ => ?_) .nil⟩
          case refine_1 =>
            exact vprintfmtLoop_verbatim h hf hr' (by decide) h.next hfl (vprintfmtLoop_end hend)
          case refine_2 => simp [Piece.text]
        case cons c t =>
          have hend : At fmt (i + 1 + flags.length + 1) t := h.next.skip.next
          rw [List.length_cons] at hm hlen
          have hz' : 0#8 ∉ t := fun hc => hz (by simp [hc])
          have he' := he.imp_right fun he flags hc => he flags (List.mem_cons_of_mem _ hc)
          change Supplied (stars flags ++ conversionAsks (flags.count (Byte.ofChar 'l')) c ++ _) ap at ha
          rw [List.append_assoc] at ha
          obtain ⟨e', ap', hr', hlf, ha'⟩ :=
            reswitch_flags (e := {}) h.next hf hr (n := fmt.length + 1) (by omega) ha
          by_cases hc : c ∈ conversions
          case pos =>
            rw [show flags.count (Byte.ofChar 'l') = e'.lflag by rw [hlf, Nat.zero_add]] at ha'
            have hpe : c = Byte.ofChar 'e' → PrintsErrors pf := by
              rintro rfl
              exact he.resolve_right fun he => he flags List.mem_cons_self
            obtain ⟨out, ap'', ho, ha''⟩ := convert_some hpe hc ha'
            obtain ⟨outs, hl, hs⟩ := ih t.length (by omega) (n := n) hend hz' (by simp at hn; omega) he' ha'' rfl
            refine ⟨out :: outs, vprintfmtLoop_known h hr' ho hl, .cons (fun hlit => ?_) hs⟩
            exact absurd hc (hlit c rfl)
          case neg =>
            rw [conversionAsks_of_not_mem hc, List.nil_append] at ha'
            have hcl : ∀ d ∈ flags ++ [c], d ≠ Byte.ofChar '%' ∧ d ≠ 0#8 := by
              intro d hd
              cases List.mem_append.mp hd
              case inl hd => exact hfl d hd
              case inr hd =>
                obtain rfl := List.mem_singleton.mp hd
                exact ⟨fun he => hc (he ▸ by decide), fun he => hz (by simp [he])⟩
            have hcopy : At fmt (i + 1) (flags ++ [c] ++ t) := by simpa using h.next
            obtain ⟨n, rfl⟩ : ∃ n', n = n' + (flags ++ [c]).length :=
              ⟨n - (flags ++ [c]).length, by simp at hn ⊢; omega⟩
            rw [List.length_append, List.length_singleton] at hn
            obtain ⟨outs, hl, hs⟩ := ih t.length (by omega) (n := n) hcopy.skip hz' (by simp at hn; omega) he' ha' rfl
            refine ⟨(Byte.ofChar '%' :: (flags ++ [c])).map (·.setWidth 32) :: outs, ?_, .cons (fun _ => ?_) hs⟩
            case refine_1 => exact vprintfmtLoop_verbatim h hf hr' hc hcopy hcl hl
            case refine_2 => simp [Piece.text]

end Loop

theorem printfmt_ok (hz : 0#8 ∉ fmt) (he : ∀ flags, .escape flags (some (Byte.ofChar 'e')) ∉ pieces fmt)
    (ha : Supplied ((pieces fmt).flatMap Piece.asks) ap) : ∃ out, printfmt fmt ap = .ok out := by
  obtain ⟨outs, ho, -⟩ := vprintfmtLoop_pieces at_zero hz (Nat.lt_succ_self _) (.inr he) ha
  exact ⟨outs.flatten, ho⟩

theorem printsErrors_printfmt : PrintsErrors printfmt where
  number w := by
    have he (flags : List Byte) : .escape flags (some (Byte.ofChar 'e')) ∉ pieces (bytes "error %d") := by
      have hp : pieces (bytes "error %d") = (bytes "error ").map .char ++ [.escape [] (some (Byte.ofChar 'd'))] := by
        decide
      have hne : Byte.ofChar 'e' ≠ Byte.ofChar 'd' := by decide
      rw [hp]
      simp [hne]
    exact printfmt_ok (by decide) he trivial
  message s := by
    have he (flags : List Byte) : .escape flags (some (Byte.ofChar 'e')) ∉ pieces (bytes "%s") := by
      have hp : pieces (bytes "%s") = [.escape [] (some (Byte.ofChar 's'))] := rfl
      have hne : Byte.ofChar 'e' ≠ Byte.ofChar 's' := by decide
      rw [hp]
      simp [hne]
    exact printfmt_ok (by decide) he trivial

-- Given the arguments that the format asks for, `vprintfmt` comes to an end without a read outside of the format. What
-- is not a known escape sequence is printed as it stands.
theorem vprintfmt_pieces (hz : 0#8 ∉ fmt) (ha : Supplied ((pieces fmt).flatMap Piece.asks) ap) :
    (pieces fmt).flatMap Piece.text = fmt ∧ (∀ p ∈ pieces fmt, p.WellFormed) ∧
      ∃ outs, vprintfmt fmt ap = .ok outs.flatten ∧ List.Forall₂ Piece.Shows (pieces fmt) outs :=
  ⟨text_pieces, fun _ => wellFormed_pieces,
    vprintfmtLoop_pieces at_zero hz (Nat.lt_succ_self _) (.inl printsErrors_printfmt) ha⟩

theorem vprintfmt_pieces_truncated :
    ∃ outs, vprintfmt (bytes "a%5q%*-") [.word 7#32] = .ok outs.flatten ∧
      List.Forall₂ Piece.Shows (pieces (bytes "a%5q%*-")) outs := by
  have hz : 0#8 ∉ bytes "a%5q%*-" := by decide
  have ha : Supplied ((pieces (bytes "a%5q%*-")).flatMap Piece.asks) [.word 7#32] := trivial
  exact (vprintfmt_pieces hz ha).2.2

example : (vprintfmt (bytes "a%5q%*-") [.word 7#32]).toOption.map (·.map (·.setWidth 8)) = some (bytes "a%5q%*-") := by
  decide

end Jos
