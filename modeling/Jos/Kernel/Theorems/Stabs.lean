import Jos.Kernel.Kdebug
import Mathlib.Tactic.SplitIfs

-- The search of `stab_binsearch`.

open Bisect

namespace Jos

variable {stabs : List Stab} {type : Byte} {addr : Word} {i l r m : Int} {n : Nat} {g g' : Span} {b b' : Bool}

-- The entry with a given index, provided that there is one.
def stab (stabs : List Stab) (i : Int) : Stab :=
  stabs.getD i.toNat default

def HasType (stabs : List Stab) (type : Byte) (i : Int) : Prop :=
  (stab stabs i).type = type

def value (stabs : List Stab) (i : Int) : Nat :=
  (stab stabs i).value.toNat

instance : DecidablePred (HasType stabs type) :=
  fun _ => inferInstanceAs (Decidable (_ = _))

variable (stabs i) in
theorem value_lt : value stabs i < 2 ^ 32 :=
  (stab stabs i).value.isLt

theorem readStab_ok (h₁ : 0 ≤ i) (h₂ : i < stabs.length) : readStab stabs i = .ok (stab stabs i) := by
  obtain ⟨k, rfl⟩ := Int.eq_ofNat_of_zero_le h₁
  have hk : k < stabs.length := by omega
  have hg : stabs[(k : Int).toNat]? = some (stab stabs k) := by
    simp [stab, List.getD_eq_getElem?_getD, hk]
  simp only [readStab, hg]
  rfl

variable (type) in
theorem scanDown_spec (hl : 0 ≤ l) (hm : m < stabs.length) (hn : (m - l + 1).toNat < n) :
    ∃ m', scanDown stabs type l n m = .ok m' ∧
      (Last (HasType stabs type) l m m' ∨ Free (HasType stabs type) l m ∧ m' = min m (l - 1)) := by
  induction n generalizing m
  case zero => omega
  case succ n ih =>
    rw [scanDown]
    split_ifs with hlt
    case pos => exact ⟨m, rfl, .inr ⟨fun i h₁ h₂ => by omega, by omega⟩⟩
    case neg =>
      rw [readStab_ok (by omega) hm]
      by_cases ht : HasType stabs type m
      case pos =>
        refine ⟨m, ?_, .inl ⟨by omega, Int.le_refl m, ht, fun i h₁ h₂ => by omega⟩⟩
        exact if_neg (not_not.mpr ht)
      case neg =>
        obtain ⟨m', hs, h⟩ := ih (m := m - 1) (by omega) (by omega)
        refine ⟨m', (if_pos ht).trans hs, ?_⟩
        have hne {i : Int} (h : i ≤ m) (hi : HasType stabs type i) : i ≤ m - 1 := by
          by_contra hc
          obtain rfl : i = m := by omega
          exact ht hi
        rcases h with hm' | ⟨hf, he⟩
        case inl =>
          have := hm'.le
          exact .inl ⟨hm'.ge, by omega, hm'.mem, fun i h₁ h₂ hi => hm'.free i h₁ (hne h₂ hi) hi⟩
        case inr => exact .inr ⟨fun i h₁ h₂ hi => hf i h₁ (hne h₂ hi) hi, by omega⟩

-- The fuel is enough: after an exact match the next step makes the range smaller.
def Enough (stabs : List Stab) (n : Nat) (l r : Int) (addr : Word) : Prop :=
  2 * (r - l + 1).toNat < n ∨ 2 * (r - l + 1).toNat ≤ n ∧ 0 < n ∧ value stabs l ≠ addr.toNat

variable (type) in
theorem searchLoop_search (hl : 0 ≤ l) (hr : r < stabs.length) (hn : Enough stabs n l r addr) :
    ∃ g' b', searchLoop stabs type n addr l r g b = .ok (g', b') ∧
      Search (2 ^ 32) (HasType stabs type) (value stabs) addr.toNat l r g b g' b' := by
  induction n generalizing l r addr g b
  case zero => exact absurd hn (by rw [Enough]; omega)
  case succ n ih =>
    by_cases hlt : r < l
    case pos => exact ⟨g, b, if_pos hlt, .stop hlt⟩
    case neg =>
      have hmid : (l + r).tdiv 2 = (l + r) / 2 := Int.tdiv_eq_ediv_of_nonneg (by omega)
      obtain ⟨m, hs, hm⟩ := scanDown_spec type (n := ((l + r) / 2 - l + 1).toNat + 1) hl
        (show (l + r) / 2 < stabs.length by omega) (Nat.lt_succ_self _)
      rw [searchLoop, if_neg hlt]
      simp only [hmid, hs, bind, Except.bind]
      rcases hm with hm | ⟨hf, he⟩
      case inr =>
        rw [if_pos (show m < l by omega)]
        obtain ⟨g', b', h₁, h₂⟩ := ih (l := (l + r) / 2 + 1) (g := g) (b := b) (by omega) hr
          (.inl (by rw [Enough] at hn; omega))
        exact ⟨g', b', h₁, .skip (by omega) hf h₂⟩
      case inl =>
        have hge := hm.ge
        have hle := hm.le
        rw [if_neg (show ¬m < l by omega), readStab_ok (by omega) (by omega)]
        simp only
        split_ifs with hv hv'
        case pos =>
          obtain ⟨g', b', h₁, h₂⟩ := ih (l := (l + r) / 2 + 1) (g := { g with left := m }) (b := true) (by omega) hr
            (.inl (by rw [Enough] at hn; omega))
          exact ⟨g', b', h₁, .low (by omega) hm hv h₂⟩
        case pos =>
          obtain ⟨g', b', h₁, h₂⟩ := ih (r := m - 1) (g := { g with right := m - 1 }) (b := true) hl (by omega)
            (.inl (by rw [Enough] at hn; omega))
          exact ⟨g', b', h₁, .high (by omega) hm hv' h₂⟩
        case neg =>
          have hx : value stabs m = addr.toNat := by
            rw [BitVec.lt_def] at hv hv'
            rw [value]
            omega
          have ha : (addr + 1#32).toNat = (addr.toNat + 1) % 2 ^ 32 := BitVec.toNat_add _ _
          have hn' : Enough stabs n m r (addr + 1#32) := by
            rw [Enough] at hn ⊢
            by_cases hml : m = l
            case pos =>
              subst hml
              omega
            case neg => omega
          obtain ⟨g', b', h₁, h₂⟩ := ih (g := { g with left := m }) (b := true) (by omega) hr hn'
          rw [ha] at h₂
          exact ⟨g', b', h₁, .hit (by omega) hm hx h₂⟩

variable (stabs type addr g) in
theorem stabBinsearch_finds (hl : 0 ≤ g.left) (hr : g.right < stabs.length) :
    ∃ g', stabBinsearch stabs g type addr = .ok g' ∧
      Finds (2 ^ 32) (HasType stabs type) (value stabs) addr.toNat g.left g.right g' := by
  have hn : Enough stabs (2 * (g.right - g.left + 1).toNat + 1) g.left g.right addr := .inl (Nat.lt_succ_self _)
  obtain ⟨g₁, b, h₁, h₂⟩ := searchLoop_search type (g := g) (b := false) hl hr hn
  rw [stabBinsearch, h₁]
  cases b
  case false => exact ⟨_, rfl, .none h₂⟩
  case true =>
    have hb := h₂.bounds
    obtain ⟨m, hs, hm⟩ := scanDown_spec type (n := (g₁.right - g₁.left).toNat + 1) (show 0 ≤ g₁.left + 1 by omega)
      (show g₁.right < stabs.length by omega) (by omega)
    refine ⟨{ g₁ with left := m }, ?_, .some h₂ ?_⟩
    case refine_1 =>
      change (scanDown stabs type (g₁.left + 1) ((g₁.right - g₁.left).toNat + 1) g₁.right >>= _) = _
      rw [hs]
      rfl
    case refine_2 =>
      rcases hm with hm | ⟨hf, rfl⟩
      case inl => exact .last hm
      case inr =>
        rw [Int.add_sub_cancel]
        exact .free hf

-- The search in the range from `l` to `r` returns what its comment says.
def Documented (stabs : List Stab) (l r : Int) (type : Byte) (addr : Word) (g : Span) : Prop :=
  Bracket (HasType stabs type) (value stabs) addr.toNat l r g

theorem stabBinsearch_documented (hl : 0 ≤ l) (hr : r < stabs.length)
    (hs : Sorted (HasType stabs type) (value stabs) l r) :
    (∃ g, stabBinsearch stabs ⟨l, r⟩ type addr = .ok g ∧ Documented stabs l r type addr g) ↔
      Succeeds (2 ^ 32) (HasType stabs type) (value stabs) addr.toNat l r := by
  obtain ⟨g, hg, hf⟩ := stabBinsearch_finds stabs type addr ⟨l, r⟩ hl hr
  rw [← hf.bracket_iff hs (value_lt stabs) (by decide)]
  constructor
  case mp =>
    rintro ⟨g', hg', h⟩
    obtain rfl := Except.ok.inj (hg.symm.trans hg')
    exact h
  case mpr => exact fun h => ⟨g, hg, h⟩

theorem stabBinsearch_documented_fun :
    ∃ g, stabBinsearch [⟨0#32, nFun, 0#16, 10#32⟩, ⟨0#32, nPsym, 0#16, 0#32⟩, ⟨0#32, nFun, 0#16, 20#32⟩] ⟨0, 2⟩ nFun 15#32 =
        .ok g ∧
      Documented [⟨0#32, nFun, 0#16, 10#32⟩, ⟨0#32, nPsym, 0#16, 0#32⟩, ⟨0#32, nFun, 0#16, 20#32⟩] 0 2 nFun 15#32 g := by
  refine (stabBinsearch_documented (by decide) (by decide) fun i j h₁ h₂ h₃ hi hj => ?_).mpr
    (.inr ⟨0, ⟨by decide, by decide, by decide, by decide, fun i h₁ h₂ hi => ?_⟩, .inl (by decide)⟩)
  case refine_1 =>
    obtain ⟨rfl, rfl⟩ | ⟨rfl, rfl⟩ | ⟨rfl, rfl⟩ : i = 0 ∧ j = 1 ∨ i = 0 ∧ j = 2 ∨ i = 1 ∧ j = 2 := by omega
    all_goals revert hi hj; decide
  case refine_2 =>
    obtain rfl | rfl : i = 1 ∨ i = 2 := by omega
    all_goals revert hi; decide

-- The only function begins behind the address, but an entry is returned.
theorem not_documented_behind :
    ¬∃ g, stabBinsearch [⟨0#32, nFun, 0#16, 10#32⟩] ⟨0, 0⟩ nFun 5#32 = .ok g ∧
      Documented [⟨0#32, nFun, 0#16, 10#32⟩] 0 0 nFun 5#32 g := by
  rintro ⟨g, hg, h⟩
  have hr : stabBinsearch [⟨0#32, nFun, 0#16, 10#32⟩] ⟨0, 0⟩ nFun 5#32 = .ok ⟨-1, -1⟩ := rfl
  obtain rfl := Except.ok.inj (hr.symm.trans hg)
  refine absurd (h.missed fun i h₁ h₂ _ => ?_) (by decide)
  obtain rfl : i = 0 := by omega
  decide

end Jos
