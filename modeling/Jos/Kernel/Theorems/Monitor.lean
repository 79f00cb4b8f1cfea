import Jos.Kernel.Monitor
import Mathlib.Data.List.TakeWhile

-- The arguments of a command are the words of its line.

open Function

namespace Jos

variable {c ch : Byte} {l pre rest s w : List Byte} {ws : List (List Byte)} {k k' : Runcmd} {n : Nat}

def isSpace (ch : Byte) : Bool :=
  whitespace.contains ch

-- The maximal runs of characters which are not whitespace.
def words (s : List Byte) : List (List Byte) :=
  (s.splitOnP isSpace).filter (· ≠ [])

-- A string with its NUL.
def StringAt (text : List Byte) (p : Nat) (w : List Byte) : Prop :=
  0#8 ∉ w ∧ w ++ [0#8] <+: text.drop p

-- What gobbling leaves of a character.
def gobbled (ch : Byte) : Byte :=
  if isSpace ch then 0#8 else ch

section Words

theorem strchr_whitespace : (strchr whitespace ch).isSome = isSpace ch := by
  revert ch
  decide +kernel

theorem words_nil : words [] = [] :=
  rfl

theorem words_space (h : isSpace ch) : words (ch :: s) = words s := by
  rw [words, List.splitOnP_cons_eq_if_modifyHead, if_pos h]
  rfl

-- A run which goes up to the end.
theorem words_run (hl : ∀ c ∈ l, isSpace c = false) (hn : l ≠ []) : words l = [l] := by
  rw [words, List.splitOnP_eq_singleton hl, List.filter_cons_of_pos (by simpa using hn), List.filter_nil]

theorem words_run_space (hl : ∀ c ∈ l, isSpace c = false) (hn : l ≠ []) (h : isSpace ch) :
    words (l ++ ch :: s) = l :: words s := by
  rw [words, List.splitOnP_append_cons_of_forall_mem hl ch h, List.filter_cons_of_pos (by simpa using hn)]
  rfl

theorem words_dropWhile : words (s.dropWhile isSpace) = words s := by
  induction s
  case nil => rfl
  case cons ch s hi =>
    cases h : isSpace ch
    case false => rw [List.dropWhile_cons_of_neg (by simp [h])]
    case true => rw [List.dropWhile_cons_of_pos h, hi, words_space h]

-- The first word, if the line starts with it.
theorem words_cons (h : isSpace ch = false) :
    words (ch :: s) = ((ch :: s).takeWhile (!isSpace ·)) :: words ((ch :: s).dropWhile (!isSpace ·)) := by
  have hl : ∀ c ∈ (ch :: s).takeWhile (!isSpace ·), isSpace c = false := fun c hc => by
    simpa using List.mem_takeWhile_imp hc
  have hn : (ch :: s).takeWhile (!isSpace ·) ≠ [] := by
    rw [List.takeWhile_cons_of_pos (by simp [h])]
    exact List.cons_ne_nil _ _
  conv => lhs; rw [← List.takeWhile_append_dropWhile (p := (!isSpace ·)) (l := ch :: s)]
  cases hd : (ch :: s).dropWhile (!isSpace ·)
  case nil => rw [List.append_nil, words_run hl hn, words_nil]
  case cons c r =>
    have hc : isSpace c := by
      have := List.head?_dropWhile_not (!isSpace ·) (ch :: s)
      rw [hd] at this
      simpa using this
    rw [words_run_space hl hn hc, words_space hc]

end Words

namespace Runcmd

variable {argc : Nat} {argv : Nat → Option Nat}

-- The line is `pre ++ rest`, and the pointer is behind `pre`, whose whitespace has been gobbled.
structure At (k : Runcmd) (pre rest : List Byte) (argc : Nat) (argv : Nat → Option Nat) : Prop where
  buf  : k.buf = pre.length
  text : k.text = pre.map gobbled ++ (rest ++ [0#8])
  argc : k.argc = argc
  argv : k.argv = argv

namespace At

theorem lt (h : k.At pre rest argc argv) : k.buf < k.text.length := by
  rw [h.buf, h.text]
  simp

theorem read (h : k.At pre rest argc argv) : k.read = .ok (rest.headD 0#8) := by
  have hg : k.text[k.buf]? = some (rest.headD 0#8) := by
    rw [h.buf, h.text, List.getElem?_append_right (by simp)]
    cases rest <;> simp
  rw [Runcmd.read, dif_pos h.lt, ← Option.some_inj.mp <| (List.getElem?_eq_getElem h.lt).symm.trans hg]
  rfl

theorem clear (h : k.At pre (ch :: rest) argc argv) (hc : isSpace ch) :
    ∃ k', k.clear = .ok k' ∧ At { k' with buf := k'.buf + 1 } (pre ++ [ch]) rest argc argv := by
  refine ⟨_, if_pos h.lt, ?_⟩
  constructor
  case buf => simp [h.buf]
  case text =>
    have hg : gobbled ch = 0#8 := if_pos hc
    change k.text.set k.buf 0#8 = _
    rw [h.buf, h.text, List.set_append_right _ _ (by simp)]
    simp [hg]
  case argc => exact h.argc
  case argv => exact h.argv

-- The character stays as it is.
theorem next (h : k.At pre (ch :: rest) argc argv) (hc : isSpace ch = false) :
    At { k with buf := k.buf + 1 } (pre ++ [ch]) rest argc argv where
  buf  := by simp [h.buf]
  text := by
    have hg : gobbled ch = ch := if_neg (by simp [hc])
    rw [h.text]
    simp [hg]
  argc := h.argc
  argv := h.argv

theorem gobble (h : k.At pre rest argc argv) (hz : 0#8 ∉ rest) (hn : rest.length < n) :
    ∃ k', Runcmd.gobble n k = .ok k' ∧ k'.At (pre ++ rest.takeWhile isSpace) (rest.dropWhile isSpace) argc argv := by
  induction n generalizing k pre rest
  case zero => exact absurd hn (Nat.not_lt_zero _)
  case succ n hi =>
    rw [Runcmd.gobble, h.read]
    cases rest
    case nil => exact ⟨k, rfl, by rwa [List.takeWhile_nil, List.append_nil, List.dropWhile_nil]⟩
    case cons ch rest =>
      have hne : ch ≠ 0#8 := fun he => hz <| he ▸ List.mem_cons_self
      simp only [bind, Except.bind, List.headD_cons, strchr_whitespace]
      cases hc : isSpace ch
      case false =>
        rw [if_neg (by simp), List.takeWhile_cons_of_neg (by simp [hc]), List.dropWhile_cons_of_neg (by simp [hc]),
          List.append_nil]
        exact ⟨k, rfl, h⟩
      case true =>
        have ⟨k₁, h₁, hk₁⟩ := h.clear hc
        have ⟨k₂, h₂, hk₂⟩ := hi hk₁ (fun hm => hz <| List.mem_cons_of_mem _ hm) (Nat.lt_of_succ_lt_succ hn)
        rw [if_pos ⟨hne, rfl⟩, h₁, List.takeWhile_cons_of_pos hc, List.dropWhile_cons_of_pos hc]
        rw [List.append_assoc, List.singleton_append] at hk₂
        exact ⟨k₂, h₂, hk₂⟩

theorem scan (h : k.At pre rest argc argv) (hz : 0#8 ∉ rest) (hn : rest.length < n) :
    ∃ k', Runcmd.scan n k = .ok k' ∧
      k'.At (pre ++ rest.takeWhile (!isSpace ·)) (rest.dropWhile (!isSpace ·)) argc argv := by
  induction n generalizing k pre rest
  case zero => exact absurd hn (Nat.not_lt_zero _)
  case succ n hi =>
    rw [Runcmd.scan, h.read]
    cases rest
    case nil => exact ⟨k, rfl, by rwa [List.takeWhile_nil, List.append_nil, List.dropWhile_nil]⟩
    case cons ch rest =>
      have hne : ch ≠ 0#8 := fun he => hz <| he ▸ List.mem_cons_self
      simp only [bind, Except.bind, List.headD_cons, ← Option.not_isSome, strchr_whitespace]
      cases hc : isSpace ch
      case true =>
        rw [if_neg (by simp), List.takeWhile_cons_of_neg (by simp [hc]), List.dropWhile_cons_of_neg (by simp [hc]),
          List.append_nil]
        exact ⟨k, rfl, h⟩
      case false =>
        have ⟨k₂, h₂, hk₂⟩ := hi (h.next hc) (fun hm => hz <| List.mem_cons_of_mem _ hm) (Nat.lt_of_succ_lt_succ hn)
        rw [if_pos ⟨hne, rfl⟩, List.takeWhile_cons_of_pos (by simp [hc]), List.dropWhile_cons_of_pos (by simp [hc])]
        rw [List.append_assoc, List.singleton_append] at hk₂
        exact ⟨k₂, h₂, hk₂⟩

end At

-- The elements of `argv` point to where the words start in the line.
structure Args (s : List Byte) (ws : List (List Byte)) (argc : Nat) (argv : Nat → Option Nat) : Prop where
  argc  : argc = ws.length
  start : ∀ i (hi : i < ws.length), ∃ p, argv i = some p ∧ p ≤ s.length ∧ (s.drop p).takeWhile (!isSpace ·) = ws[i]

theorem Args.concat (h : Args (pre ++ rest) ws argc argv) :
    Args (pre ++ rest) (ws ++ [rest.takeWhile (!isSpace ·)]) (argc + 1) (update argv argc (some pre.length)) where
  argc := by simp [h.argc]
  start i hi := by
    rw [List.length_append, List.length_singleton] at hi
    by_cases he : i = ws.length
    case pos =>
      subst he
      refine ⟨pre.length, ?_, by simp, ?_⟩
      · rw [h.argc, update_self]
      · rw [List.drop_left, List.getElem_concat_length rfl]
    case neg =>
      have hi : i < ws.length := by omega
      rw [h.argc, update_of_ne he, List.getElem_append_left hi]
      exact h.start i hi

theorem At.setArg (h : k.At pre rest argc argv) (hlt : argc < maxargs) {p : Option Nat} :
    ∃ k', k.setArg p = .ok k' ∧ k'.At pre rest argc (update argv argc p) :=
  ⟨_, if_pos <| h.argc ▸ hlt, h.buf, h.text, h.argc, by rw [← h.argc, ← h.argv]⟩

-- The next argument is the word which the pointer is at.
theorem At.arg (h : k.At pre rest argc argv) (hz : 0#8 ∉ rest) (hlt : argc < maxargs) :
    ∃ k₁, k.setArg (some k.buf) = .ok k₁ ∧
    ∃ k₂, Runcmd.scan (k₁.text.length + 1) { k₁ with argc := k₁.argc + 1 } = .ok k₂ ∧
      k₂.At (pre ++ rest.takeWhile (!isSpace ·)) (rest.dropWhile (!isSpace ·)) (argc + 1)
        (update argv argc (some pre.length)) := by
  have ⟨k₁, h₁, hk₁⟩ := h.setArg hlt (p := some k.buf)
  have hk : At { k₁ with argc := k₁.argc + 1 } pre rest (argc + 1) (update argv argc (some pre.length)) :=
    ⟨hk₁.buf, hk₁.text, by rw [hk₁.argc], by rw [hk₁.argv, h.buf]⟩
  have hlen : rest.length < k₁.text.length + 1 := by
    rw [hk₁.text]
    simp
    omega
  exact ⟨k₁, h₁, hk.scan hz hlen⟩

-- The result of the loop, for the line `s` with the words `ws`.
structure Parsed (s : List Byte) (ws : List (List Byte)) (few : Bool) (k : Runcmd) : Prop where
  le   : few = true ↔ ws.length ≤ maxargs - 1
  args : few = true → ∃ argv, k.At s [] ws.length argv ∧ Args s ws ws.length argv

-- Each round takes one of the words that are left.
theorem At.parse (h : k.At pre rest argc argv) (hz : 0#8 ∉ rest) (ha : Args (pre ++ rest) ws argc argv)
    (hle : ws.length ≤ maxargs - 1) (hn : rest.length < n) :
    ∃ few k', Runcmd.parse n k = .ok (few, k') ∧ Parsed (pre ++ rest) (ws ++ words rest) few k' := by
  induction n generalizing k pre rest argc argv ws
  case zero => exact absurd hn (Nat.not_lt_zero _)
  case succ n hi =>
    have hlen : rest.length < k.text.length + 1 := by
      rw [h.text]
      simp
      omega
    have ⟨k₁, h₁, hk₁⟩ := h.gobble hz hlen
    have hrest : (rest.dropWhile isSpace).length ≤ rest.length := (List.dropWhile_sublist _).length_le
    have hpre : pre ++ rest = pre ++ rest.takeWhile isSpace ++ rest.dropWhile isSpace := by
      rw [List.append_assoc, List.takeWhile_append_dropWhile]
    have hz₁ : 0#8 ∉ rest.dropWhile isSpace := fun hm => hz <| (List.dropWhile_sublist _).mem hm
    have hsp : ∀ ch r, rest.dropWhile isSpace = ch :: r → isSpace ch = false := fun ch r he => by
      have hd := List.head?_dropWhile_not isSpace rest
      rw [he] at hd
      simpa using hd
    rw [Runcmd.parse, h₁, ← words_dropWhile, hpre]
    rw [hpre] at ha
    simp only [bind, Except.bind, hk₁.read]
    generalize rest.dropWhile isSpace = r at *
    generalize pre ++ rest.takeWhile isSpace = pre' at *
    cases r
    case nil =>
      rw [List.append_nil] at ha ⊢
      rw [words_nil, List.append_nil]
      refine ⟨true, k₁, rfl, iff_of_true rfl hle, fun _ => ⟨argv, ?_, ?_⟩⟩
      · rwa [← ha.argc]
      · rwa [← ha.argc]
    case cons ch r =>
      have hne : ch ≠ 0#8 := fun he => hz₁ <| he ▸ List.mem_cons_self
      have hc := hsp ch r rfl
      rw [List.headD_cons, if_neg hne, hk₁.argc, ha.argc, words_cons hc]
      by_cases hm : ws.length = maxargs - 1
      case pos =>
        rw [if_pos hm]
        refine ⟨false, k₁, rfl, iff_of_false Bool.false_ne_true ?_, fun hf => absurd hf Bool.false_ne_true⟩
        rw [List.length_append, hm]
        simp
      case neg =>
        have ⟨k₂, h₂, k₃, h₃, hk₃⟩ := hk₁.arg hz₁ (by rw [ha.argc]; omega)
        have hlen₃ : ((ch :: r).dropWhile (!isSpace ·)).length < n := by
          rw [List.dropWhile_cons_of_pos (by simp [hc])]
          have := (List.dropWhile_sublist (!isSpace ·) (l := r)).length_le
          simp only [List.length_cons] at hrest hn
          omega
        have ha₃ := ha.concat
        have hpre₃ : pre' ++ ch :: r =
            pre' ++ (ch :: r).takeWhile (!isSpace ·) ++ (ch :: r).dropWhile (!isSpace ·) := by
          rw [List.append_assoc, List.takeWhile_append_dropWhile]
        rw [if_neg hm, h₂]
        simp only [h₃]
        rw [hpre₃] at ha₃ ⊢
        have ⟨few, k₄, h₄, hk₄⟩ := hi hk₃ (fun hm => hz₁ <| (List.dropWhile_sublist _).mem hm) ha₃
          (by rw [List.length_append, List.length_singleton]; omega) hlen₃
        rw [List.append_assoc ws, List.singleton_append] at hk₄
        exact ⟨few, k₄, h₄, hk₄⟩

-- The arguments are the words of the line, and nothing but its whitespace has changed.
structure Splits (s : List Byte) (k : Runcmd) : Prop where
  argc : k.argc = (words s).length
  argv : ∀ i (hi : i < (words s).length), ∃ p, k.argv i = some p ∧ StringAt k.text p (words s)[i]
  null : k.argv k.argc = none
  text : List.Forall₂ (fun b c => b = c ∨ isSpace c ∧ b = 0#8) k.text (s ++ [0#8])

theorem prefix_gobbled : l.takeWhile (!isSpace ·) ++ [0#8] <+: l.map gobbled ++ [0#8] := by
  induction l
  case nil => exact List.prefix_refl _
  case cons ch l hi =>
    cases hc : isSpace ch
    case true =>
      have hg : gobbled ch = 0#8 := if_pos hc
      rw [List.takeWhile_cons_of_neg (by simp [hc]), List.map_cons, hg]
      exact List.cons_prefix_cons.mpr ⟨rfl, List.nil_prefix⟩
    case false =>
      have hg : gobbled ch = ch := if_neg (by simp [hc])
      rw [List.takeWhile_cons_of_pos (by simp [hc]), List.map_cons, hg]
      exact List.cons_prefix_cons.mpr ⟨rfl, hi⟩

theorem forall₂_gobbled : List.Forall₂ (fun b c => b = c ∨ isSpace c ∧ b = 0#8) (s.map gobbled ++ [0#8]) (s ++ [0#8]) := by
  induction s
  case nil => exact .cons (.inl rfl) .nil
  case cons ch s hi =>
    refine .cons ?_ hi
    cases hc : isSpace ch
    case true => exact .inr ⟨rfl, if_pos hc⟩
    case false => exact .inl <| if_neg (by simp [hc])

-- After the last word the pointer is at the end of the line, so that each word is followed by a NUL.
theorem At.splits {argv : Nat → Option Nat} (h : k.At s [] (words s).length argv) (ha : Args s (words s) (words s).length argv)
    (hz : 0#8 ∉ s) (hn : argv (words s).length = none) : Splits s k where
  argc := h.argc
  argv i hi := by
    have ⟨p, hp, hle, hw⟩ := ha.start i hi
    refine ⟨p, by rw [h.argv, hp], ?_, ?_⟩
    · rw [← hw]
      exact fun hm => hz <| (List.drop_sublist p s).mem <| (List.takeWhile_sublist _).mem hm
    · rw [h.text, List.nil_append, List.drop_append_of_le_length (by simpa using hle), ← List.map_drop, ← hw]
      exact prefix_gobbled
  null := by rw [h.argv, h.argc, hn]
  text := by
    rw [h.text, List.nil_append]
    exact forall₂_gobbled

end Runcmd

open Runcmd

theorem lookup_ne_tooMany {arg : List Byte} {i : Nat} : lookup arg i ws ≠ .tooMany := by
  induction ws generalizing i
  case nil => exact nofun
  case cons name ws hi =>
    rw [lookup]
    split
    case isTrue => exact nofun
    case isFalse => exact hi

-- A line with few enough words is split into them, and one with more words runs no command. The buffer and `argv` are
-- accessed within their bounds.
theorem runcmd_splits (commands : List (List Byte)) (s : List Byte) (argv : Nat → Option Nat) (hz : 0#8 ∉ s) :
    ∃ ran k, runcmd commands (s ++ [0#8]) argv = .ok (ran, k) ∧
      ((words s).length ≤ maxargs - 1 → ran ≠ .tooMany ∧ Splits s k) ∧
      ((words s).length > maxargs - 1 → ran = .tooMany) := by
  have h₀ : At { text := s ++ [0#8], buf := 0, argc := 0, argv := update argv 0 none } [] s 0 (update argv 0 none) :=
    ⟨rfl, rfl, rfl, rfl⟩
  have ha₀ : Args ([] ++ s) [] 0 (update argv 0 none) := ⟨rfl, fun i hi => absurd hi (Nat.not_lt_zero i)⟩
  have ⟨few, k, hp, hk⟩ := h₀.parse hz ha₀ (Nat.zero_le _) (n := (s ++ [0#8]).length + 1) (by rw [List.length_append]; omega)
  rw [List.nil_append, List.nil_append] at hk
  have hset : Runcmd.setArg { text := s ++ [0#8], buf := 0, argc := 0, argv } none =
      .ok { text := s ++ [0#8], buf := 0, argc := 0, argv := update argv 0 none } := rfl
  rw [runcmd, hset]
  simp only [bind, Except.bind, hp]
  cases few
  case false =>
    have hm : ¬(words s).length ≤ maxargs - 1 := fun hle => Bool.false_ne_true <| hk.le.mpr hle
    exact ⟨.tooMany, k, rfl, fun hle => absurd hle hm, fun _ => rfl⟩
  case true =>
    have hle := hk.le.mp rfl
    have ⟨argv', hk', ha⟩ := hk.args rfl
    have ⟨k₁, h₁, hk₁⟩ := hk'.setArg (p := none) (Nat.lt_of_le_of_lt hle (by decide))
    have ha₁ : Args s (words s) (words s).length (update argv' (words s).length none) := by
      refine ⟨rfl, fun i hi => ?_⟩
      rw [update_of_ne (Nat.ne_of_lt hi)]
      exact ha.start i hi
    have hs := hk₁.splits ha₁ hz (update_self ..)
    simp only [Bool.not_true, Bool.false_eq_true, if_false, h₁]
    by_cases hc : k₁.argc = 0
    case pos =>
      rw [if_pos hc]
      exact ⟨.nothing, k₁, rfl, fun _ => ⟨nofun, hs⟩, fun hgt => absurd hle (Nat.not_le_of_gt hgt)⟩
    case neg =>
      have ⟨p, hp, _⟩ := hs.argv 0 (by rw [← hs.argc]; exact Nat.pos_of_ne_zero hc)
      rw [if_neg hc, hp]
      exact ⟨_, k₁, rfl, fun _ => ⟨lookup_ne_tooMany, hs⟩, fun hgt => absurd hle (Nat.not_le_of_gt hgt)⟩

theorem runcmd_splits_help :
    ∃ ran k, runcmd [bytes "help"] (bytes " help\tme " ++ [0#8]) (fun _ => none) = .ok (ran, k) ∧
      ((words (bytes " help\tme ")).length ≤ maxargs - 1 → ran ≠ .tooMany ∧ Splits (bytes " help\tme ") k) ∧
      ((words (bytes " help\tme ")).length > maxargs - 1 → ran = .tooMany) :=
  runcmd_splits [bytes "help"] (bytes " help\tme ") (fun _ => none) (by decide)

example : words (bytes " help\tme ") = [bytes "help", bytes "me"] := by
  decide

end Jos
