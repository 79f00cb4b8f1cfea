import Jos.Kernel.Theorems.Stabs

-- Which entries of a table `stab_binsearch` reads.

open Bisect

namespace Jos

variable {stabs : List Stab} {type : Byte} {addr : Word} {i l r m m' lower upper : Int} {n : Nat} {g g' : Span}
  {any : Bool}

section Through

variable (read : Int → D Stab)

-- The functions of the search, where the entries of the table are read by `read`.
def scanDownThrough (type : Byte) (l : Int) : Nat → Int → D Int
  | 0, _ => throw .running
  | n + 1, m => do
    if m < l then
      return m
    else if (← read m).type ≠ type then
      scanDownThrough type l n (m - 1)
    else
      return m

def searchLoopThrough (type : Byte) : Nat → Word → Int → Int → Span → Bool → D (Span × Bool)
  | 0, _, _, _, _, _ => throw .running
  | n + 1, addr, l, r, g, anyMatches => do
    if r < l then
      return (g, anyMatches)
    else
      let trueM := (l + r).tdiv 2
      let m ← scanDownThrough read type l ((trueM - l + 1).toNat + 1) trueM
      if m < l then
        searchLoopThrough type n addr (trueM + 1) r g anyMatches
      else
        let value := (← read m).value
        if value < addr then
          searchLoopThrough type n addr (trueM + 1) r { g with left := m } true
        else if addr < value then
          searchLoopThrough type n addr l (m - 1) { g with right := m - 1 } true
        else
          searchLoopThrough type n (addr + 1#32) m r { g with left := m } true

def stabBinsearchThrough (g : Span) (type : Byte) (addr : Word) : D Span := do
  let fuel := 2 * (g.right - g.left + 1).toNat + 1
  let (g, anyMatches) ← searchLoopThrough read type fuel addr g.left g.right g false
  if anyMatches then
    return { g with left := ← scanDownThrough read type (g.left + 1) ((g.right - g.left).toNat + 1) g.right }
  else
    return { g with right := g.left - 1 }

end Through

theorem scanDownThrough_readStab : scanDownThrough (readStab stabs) type l n m = scanDown stabs type l n m := by
  induction n generalizing m
  case zero => rfl
  case succ n ih => simp only [scanDownThrough, scanDown, ih]

theorem searchLoopThrough_readStab :
    searchLoopThrough (readStab stabs) type n addr l r g any = searchLoop stabs type n addr l r g any := by
  induction n generalizing addr l r g any
  case zero => rfl
  case succ n ih => simp only [searchLoopThrough, searchLoop, scanDownThrough_readStab, ih]

-- Without a restriction this is the search.
theorem stabBinsearchThrough_readStab :
    stabBinsearchThrough (readStab stabs) g type addr = stabBinsearch stabs g type addr := by
  simp only [stabBinsearchThrough, stabBinsearch, searchLoopThrough_readStab, scanDownThrough_readStab]

-- Only the entries from `lower` to `upper` can be read.
def readWithin (stabs : List Stab) (lower upper i : Int) : D Stab :=
  if lower ≤ i ∧ i ≤ upper then readStab stabs i else throw .stabs

theorem scanDown_within (hl : lower ≤ l) (hm : m ≤ upper) :
    scanDownThrough (readWithin stabs lower upper) type l n m = scanDown stabs type l n m := by
  induction n generalizing m
  case zero => rfl
  case succ n ih =>
    rw [scanDownThrough, scanDown]
    by_cases hlt : m < l
    case pos => rw [if_pos hlt, if_pos hlt]
    case neg => rw [if_neg hlt, if_neg hlt, readWithin, if_pos ⟨by omega, hm⟩, ih (by omega)]

-- By induction on the fuel. The range that is searched only becomes smaller.
theorem searchLoop_within (h₀ : 0 ≤ l) (hn : r < stabs.length) (hl : lower ≤ l) (hr : r ≤ upper) :
    searchLoopThrough (readWithin stabs lower upper) type n addr l r g any =
      searchLoop stabs type n addr l r g any := by
  induction n generalizing addr l r g any
  case zero => rfl
  case succ n ih =>
    rw [searchLoopThrough, searchLoop]
    by_cases hlt : r < l
    case pos => rw [if_pos hlt, if_pos hlt]
    case neg =>
      have hmid : (l + r).tdiv 2 = (l + r) / 2 := Int.tdiv_eq_ediv_of_nonneg (by omega)
      obtain ⟨m, hs, hm⟩ := scanDown_spec type (n := ((l + r) / 2 - l + 1).toNat + 1) h₀
        (show (l + r) / 2 < stabs.length by omega) (Nat.lt_succ_self _)
      have hw := (scanDown_within hl (show (l + r) / 2 ≤ upper by omega)).trans hs
      rw [if_neg hlt, if_neg hlt]
      simp only [hmid, hs, hw, bind, Except.bind]
      by_cases hml : m < l
      case pos => rw [if_pos hml, if_pos hml, ih (by omega) hn (by omega) hr]
      case neg =>
        have hle : m ≤ (l + r) / 2 := by
          rcases hm with hm | ⟨-, he⟩
          case inl => exact hm.le
          case inr => omega
        rw [if_neg hml, if_neg hml, readWithin, if_pos ⟨by omega, by omega⟩, ih (by omega) hn (by omega) hr,
          ih h₀ (by omega) hl (by omega), ih (by omega) hn (by omega) hr]

variable (stabs type addr) in
-- The search comes to an end, and reads no entry outside of its range.
theorem stab_binsearch_confined (hl : 0 ≤ l) (hr : r < stabs.length) :
    ∃ g, stabBinsearch stabs ⟨l, r⟩ type addr = .ok g ∧
      stabBinsearchThrough (readWithin stabs l r) ⟨l, r⟩ type addr = .ok g := by
  obtain ⟨g, hg, -⟩ := stabBinsearch_finds stabs type addr ⟨l, r⟩ hl hr
  refine ⟨g, hg, ?_⟩
  rw [← hg]
  have hn : Enough stabs (2 * (r - l + 1).toNat + 1) l r addr := .inl (Nat.lt_succ_self _)
  obtain ⟨g₁, any, h₁, h₂⟩ := searchLoop_search type (g := ⟨l, r⟩) (b := false) hl hr hn
  have hw := (searchLoop_within hl hr (Int.le_refl l) (Int.le_refl r)).trans h₁
  have hb := h₂.bounds
  simp only at hb
  rw [stabBinsearchThrough, stabBinsearch]
  simp only [h₁, hw, bind, Except.bind]
  rw [scanDown_within (by omega) (by omega)]

theorem stab_binsearch_confined_unsorted :
    ∃ g, stabBinsearch [⟨0#32, nFun, 0#16, 20#32⟩, ⟨0#32, nFun, 0#16, 0xFFFFFFFF#32⟩] ⟨0, 1⟩ nFun 0xFFFFFFFF#32 = .ok g ∧
      stabBinsearchThrough (readWithin [⟨0#32, nFun, 0#16, 20#32⟩, ⟨0#32, nFun, 0#16, 0xFFFFFFFF#32⟩] 0 1) ⟨0, 1⟩ nFun
        0xFFFFFFFF#32 = .ok g :=
  stab_binsearch_confined _ _ _ (by decide) (by decide)

end Jos
