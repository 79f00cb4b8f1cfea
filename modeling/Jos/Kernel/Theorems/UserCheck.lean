import Jos.Kernel.Theorems.UserMem
import Jos.Kernel.Theorems.Protect

-- `user_mem_check` against its contract, for all ranges of addresses.

open Function Program

namespace Jos

open Kernel

variable {M F : Set Ppn} {l : List Ppn} {s s' s₀ : Kernel} {e : EnvIx} {pd : Ppn} {va len perm upper x y : Word}
  {a a' : Nat}

namespace Kernel

-- All page tables of the directory exist.
def TablesExist (s : Kernel) (pd : Ppn) : Prop :=
  ∀ i t, s.table pd i = some t → t.toNat < s.npages

-- The contract of `user_mem_check` for one address, which is any natural number.
def Accessible (s : Kernel) (pd : Ppn) (perm : Word) (a : Nat) : Prop :=
  a < ulim.toNat ∧ s.table pd (pdx (BitVec.ofNat 32 a)) ≠ none ∧
    s.entry pd (pdx (BitVec.ofNat 32 a)) (ptx (BitVec.ofNat 32 a)) &&& (perm ||| pteP) = perm ||| pteP

def AllAccessible (s : Kernel) (pd : Ppn) (va len perm : Word) : Prop :=
  ∀ a, va.toNat ≤ a → a < va.toNat + len.toNat → s.Accessible pd perm a

-- The first address of the range that is not accessible.
structure FirstBad (s : Kernel) (pd : Ppn) (va len perm : Word) (a : Nat) : Prop where
  above  : va.toNat ≤ a
  below  : a < va.toNat + len.toNat
  bad    : ¬s.Accessible pd perm a
  before : ∀ a', va.toNat ≤ a' → a' < a → s.Accessible pd perm a'

-- `user_mem_check` does what its contract says.
def CheckExact (s : Kernel) (pd : Ppn) (va len perm : Word) : Prop :=
  ∃ r s', (userMemCheck pd va len perm).run s = .ok r s' ∧
    ((r = 0#32 ∧ s.AllAccessible pd va len perm) ∨
      (r = efault ∧ s.FirstBad pd va len perm s'.userMemCheckAddr.toNat))

-- The ranges on which the check is right. It refuses a range that ends at `ULIM`; a page passes if it has one of
-- the bits; the page in which the range ends is not looked at, unless it is the first; and the sum `va + len`
-- wraps around.
structure CheckSound (s : Kernel) (pd : Ppn) (va len perm : Word) : Prop where
  ends : s.AllAccessible pd va len perm → va.toNat + len.toNat ≠ ulim.toNat
  low  : ∀ a, s.FirstBad pd va len perm a → a < ulim.toNat → s.grants pd (BitVec.ofNat 32 a) perm = false ∧
    (a = va.toNat ∨ (a + 4096 ≤ va.toNat + len.toNat ∧ va.toNat + len.toNat < 2 ^ 32))
  high : ∀ a, s.FirstBad pd va len perm a → ulim.toNat ≤ a →
    (s.grants pd (BitVec.ofNat 32 a) perm = false ∧ (a = va.toNat ∨ ulim ≤ va + len)) ∨
    (ulim ≤ va + len ∧ s.GrantsAll pd (BitVec.ofNat 32 a) (roundDown (va + len) pgsize) perm) ∨
    (0xFFFFF000#32 ≤ va ∧ ¬s.GrantsAll pd 0#32 (roundDown (va + len) pgsize) perm)

end Kernel

section Contract

theorem toNat_ulim : ulim.toNat = 0xEF800000 :=
  rfl

-- A page with all of the bits has one of them.
theorem Kernel.Accessible.grants (h : s.Accessible pd perm a) : s.grants pd (BitVec.ofNat 32 a) perm = true := by
  rw [Kernel.grants, has, h.2.2, bne_iff_ne]
  intro he
  have hb := congrArg (·.getLsbD 0) he
  simp [pteP] at hb

theorem accessible_congr (h : a / 4096 = a' / 4096) : s.Accessible pd perm a ↔ s.Accessible pd perm a' := by
  have hu := toNat_ulim
  by_cases hlt : a < ulim.toNat
  case neg =>
    refine iff_of_false (fun h => hlt h.1) fun h' => hlt ?_
    have := h'.1
    omega
  case pos =>
    have hlt' : a' < ulim.toNat := by omega
    have hp : (BitVec.ofNat 32 a).toNat / 4096 = (BitVec.ofNat 32 a').toNat / 4096 := by
      simp only [BitVec.toNat_ofNat]
      omega
    obtain ⟨hd, ht⟩ := same_indices hp
    simp only [Accessible, hd, ht, hlt, hlt', true_and]

namespace Kernel.FirstBad

variable (h : s.FirstBad pd va len perm a)

include h in
theorem unique (h' : s.FirstBad pd va len perm a') : a = a' := by
  by_contra hne
  obtain hlt | hlt := Nat.lt_or_gt_of_ne hne
  case inl => exact h.bad (h'.before a h.above hlt)
  case inr => exact h'.bad (h.before a' h'.above hlt)

include h in
theorem not_all : ¬s.AllAccessible pd va len perm :=
  fun hall => h.bad (hall a h.above h.below)

-- It is the first of the range, or the first of a page.
include h in
theorem start : a = va.toNat ∨ a % 4096 = 0 := by
  by_contra hn
  simp only [not_or] at hn
  have ha := h.above
  have hp := h.before (a - 1) (by omega) (by omega)
  exact h.bad ((accessible_congr (by omega)).mp hp)

-- From `ULIM` on, nothing is accessible.
include h in
theorem high (hu : ulim.toNat ≤ a) : a = if va < ulim then ulim.toNat else va.toNat := by
  have ha := h.above
  split
  case isTrue hv =>
    by_contra hne
    have hlt : va.toNat < ulim.toNat := hv
    exact absurd (h.before ulim.toNat (by omega) (by omega)).1 (lt_irrefl _)
  case isFalse hv =>
    by_contra hne
    have hle : ulim.toNat ≤ va.toNat := BitVec.not_lt.mp hv
    have := (h.before va.toNat le_rfl (by omega)).1
    omega

end Kernel.FirstBad

theorem exists_firstBad (hn : ¬s.AllAccessible pd va len perm) : ∃ a, s.FirstBad pd va len perm a := by
  classical
  simp only [AllAccessible, not_forall] at hn
  have hex : ∃ a, va.toNat ≤ a ∧ a < va.toNat + len.toNat ∧ ¬s.Accessible pd perm a := by
    obtain ⟨a, h₁, h₂, h₃⟩ := hn
    exact ⟨a, h₁, h₂, h₃⟩
  obtain ⟨h₁, h₂, h₃⟩ := Nat.find_spec hex
  refine ⟨Nat.find hex, h₁, h₂, h₃, fun a' ha' hlt => ?_⟩
  by_contra hb
  exact Nat.find_min hex hlt ⟨ha', by omega, hb⟩

-- The first address of the range is not accessible.
theorem firstBad_va (hl : 0 < len) (hn : ¬s.Accessible pd perm va.toNat) : s.FirstBad pd va len perm va.toNat where
  above := le_rfl
  below := by
    have : (0#32).toNat < len.toNat := hl
    simp only [BitVec.toNat_ofNat] at this
    omega
  bad := hn
  before _ h h' := absurd h' (Nat.not_lt.mpr h)

end Contract

-- The page directories of all environments have all of their page tables.
theorem KernHalf.tablesExist (h : KernHalf s₀ s) (hi : PageInv M F l s) (hd : s.pgdirOf e = some pd) :
    s.TablesExist pd := by
  intro i t ht
  by_cases hu : i.val < pdxUtop
  case pos => exact hi.table_bound hd hu ht
  case neg =>
    have hm := h.dir hd (Nat.not_lt.mp hu)
    rw [Kernel.table, hm] at ht
    split at ht
    case isTrue =>
      cases entryPage_self.symm.trans ht
      exact hi.bound (hi.pgdir_mem hd)
    case isFalse hne => exact hi.bound (hi.kern_mem ⟨Nat.not_lt.mp hu, hne⟩ ht)

section Outcome

variable (ht : s.TablesExist pd)

-- The first page `user_mem_check` looks at is the one of `va`.
theorem grants_roundDown : s.grants pd (roundDown va pgsize) perm = s.grants pd va perm :=
  grants_congr (by
    rw [toNat_roundDown]
    omega)

theorem toNat_roundDown_add : (roundDown va pgsize + pgsize).toNat = (va.toNat / 4096 * 4096 + 4096) % 2 ^ 32 := by
  rw [BitVec.toNat_add, toNat_roundDown]
  rfl

-- The four ways in which `user_mem_check` ends.
inductive CheckOutcome (s : Kernel) (pd : Ppn) (va len perm : Word) (s' : Kernel) : Word → Prop
  | first (hg : s.grants pd va perm = false) (ha : s'.userMemCheckAddr = va) : CheckOutcome s pd va len perm s' efault
  | later {x : Word} (hg : s.grants pd va perm = true)
    (hx : s.FirstRefused pd (roundDown va pgsize + pgsize) (roundDown (va + len) pgsize) perm x)
    (ha : s'.userMemCheckAddr = if va < x then x else va) : CheckOutcome s pd va len perm s' efault
  | limit (hg : s.grants pd va perm = true)
    (hall : s.GrantsAll pd (roundDown va pgsize + pgsize) (roundDown (va + len) pgsize) perm) (hu : ulim ≤ va + len)
    (ha : s'.userMemCheckAddr = if va < ulim then ulim else va) : CheckOutcome s pd va len perm s' efault
  | pass (hg : s.grants pd va perm = true)
    (hall : s.GrantsAll pd (roundDown va pgsize + pgsize) (roundDown (va + len) pgsize) perm) (hu : ¬ulim ≤ va + len) :
    CheckOutcome s pd va len perm s' 0#32

include ht in
theorem userMemCheck_outcome : ∃ r s', (userMemCheck pd va len perm).run s = .ok r s' ∧
    CheckOutcome s pd va len perm s' r := by
  suffices hw : wp (userMemCheck pd va len perm) (fun r s' => CheckOutcome s pd va len perm s' r)
      (fun _ _ => False) s by
    cases hr : (userMemCheck pd va len perm).run s
    case ok r s' => exact ⟨r, s', rfl, wp_ok (Q := fun r s' => CheckOutcome s pd va len perm s' r) hw hr⟩
    case error => exact (wp_error hw hr).elim
  have hva : (roundDown va pgsize).toNat = va.toNat / 4096 * 4096 := toNat_roundDown
  have hup : (roundDown (va + len) pgsize).toNat = (va + len).toNat / 4096 * 4096 := toNat_roundDown
  have hadd : (roundDown va pgsize + pgsize).toNat = (va.toNat / 4096 * 4096 + 4096) % 2 ^ 32 := toNat_roundDown_add
  have hlt := (va + len).isLt
  -- What follows the loop when all pages have passed.
  have hend (hg : s.grants pd va perm = true)
      (hall : s.GrantsAll pd (roundDown va pgsize + pgsize) (roundDown (va + len) pgsize) perm) : wp (do
      if va + len ≥ ulim then
        modify fun s => { s with userMemCheckAddr := if va < ulim then ulim else va }
        return efault
      else
        return 0#32 : K Word) (fun r s' => CheckOutcome s pd va len perm s' r) (fun _ _ => False) s := by
    split
    case isTrue hu => exact .limit hg hall hu rfl
    case isFalse hu => exact .pass hg hall hu
  rw [userMemCheck, userMemCheckLoop]
  simp only [bind_assoc]
  rw [wp_bind_of_ok (entryAllows_run fun t => ht _ t), grants_roundDown]
  cases hg : s.grants pd va perm
  case false =>
    have hnl : ¬va < roundDown va pgsize := by
      rw [BitVec.lt_def, hva]
      omega
    simp only [Bool.false_eq_true, if_false, bind_assoc, pure_bind, wp_bind_modify, hnl]
    exact .first hg rfl
  case true =>
    simp only [if_true]
    split
    case isTrue hc =>
      have hn : (roundDown (va + len) pgsize).toNat - (roundDown va pgsize + pgsize).toNat ≤ 2 ^ 20 * 4096 := by
        omega
      refine wp_seq (userMemCheckLoop_wp (fun a t _ _ => ht _ t) (by omega) (by omega) hc hn) ?_
      rintro r s₁ (⟨rfl, rfl, hall⟩ | ⟨rfl, x, hx, rfl⟩)
      case inl => exact hend hg hall
      case inr => exact .later hg hx rfl
    case isFalse hc =>
      have hall : s.GrantsAll pd (roundDown va pgsize + pgsize) (roundDown (va + len) pgsize) perm :=
        fun a ha hau => absurd (lt_of_le_of_lt (BitVec.le_def.mp ha) (BitVec.lt_def.mp hau)) hc
      simp only [pure_bind, if_true]
      exact hend hg hall

end Outcome

section Exact

variable (hl : 0 < len)

-- The addresses up to `y` lie in pages that have passed.
theorem grants_between (hg : s.grants pd va perm = true) (hall : s.GrantsAll pd (roundDown va pgsize + pgsize) y perm)
    (ha : va.toNat ≤ a) (hay : a < y.toNat) : s.grants pd (BitVec.ofNat 32 a) perm = true := by
  have hy := y.isLt
  have hn : (BitVec.ofNat 32 a).toNat = a := by
    rw [BitVec.toNat_ofNat]
    omega
  by_cases hp : a / 4096 = va.toNat / 4096
  case pos =>
    rw [← hg]
    exact grants_congr (by rw [hn, hp])
  case neg =>
    refine hall _ ?_ ?_
    case refine_1 =>
      rw [BitVec.le_def, hn, toNat_roundDown_add]
      omega
    case refine_2 => rw [BitVec.lt_def, hn]; exact hay

theorem not_accessible_of_refused (hg : s.grants pd va perm = false) : ¬s.Accessible pd perm va.toNat := by
  intro h
  have hg' := h.grants
  rw [BitVec.ofNat_toNat, BitVec.setWidth_eq, hg] at hg'
  cases hg'

include hl in
theorem sound_of_first (hg : s.grants pd va perm = false) :
    s.FirstBad pd va len perm va.toNat ∧ s.CheckSound pd va len perm := by
  have hf := firstBad_va hl (not_accessible_of_refused hg)
  have hg' : s.grants pd (BitVec.ofNat 32 va.toNat) perm = false := by
    rw [BitVec.ofNat_toNat, BitVec.setWidth_eq, hg]
  refine ⟨hf, fun hall => absurd hall hf.not_all, fun a ha _ => ?_, fun a ha _ => ?_⟩
  case refine_1 =>
    cases hf.unique ha
    exact ⟨hg', .inl rfl⟩
  case refine_2 =>
    cases hf.unique ha
    exact .inl ⟨hg', .inl rfl⟩

-- The loop has stopped at a page above `va`.
theorem later_iff (hg : s.grants pd va perm = true)
    (hx : s.FirstRefused pd (roundDown va pgsize + pgsize) (roundDown (va + len) pgsize) perm x) (hv : va < x) :
    s.FirstBad pd va len perm x.toNat ↔ s.CheckSound pd va len perm := by
  have hlt := va.isLt
  have hlen := len.isLt
  have hpage := hx.page
  have hvx : va.toNat < x.toNat := hv
  have hxu : x.toNat < (va + len).toNat / 4096 * 4096 := by
    rw [← toNat_roundDown]
    exact hx.below
  have hsum : (va + len).toNat = va.toNat + len.toNat := by
    rw [BitVec.toNat_add] at hxu ⊢
    omega
  have hnx : BitVec.ofNat 32 x.toNat = x := by simp
  have hbad : ¬s.Accessible pd perm x.toNat := not_accessible_of_refused hx.refused
  have hul : ∀ {w : Word}, ulim ≤ w ↔ ulim.toNat ≤ w.toNat := Iff.rfl
  constructor
  case mp =>
    intro hf
    refine ⟨fun hall => absurd hall hf.not_all, fun a ha _ => ?_, fun a ha hau => ?_⟩
    case refine_1 =>
      cases hf.unique ha
      exact ⟨by rw [hnx, hx.refused], .inr ⟨by omega, by rw [← hsum]; exact (va + len).isLt⟩⟩
    case refine_2 =>
      cases hf.unique ha
      refine .inl ⟨by rw [hnx, hx.refused], .inr ?_⟩
      rw [hul, hsum]
      have := ha.below
      omega
  case mpr =>
    intro hs
    have hn : ¬s.AllAccessible pd va len perm := fun hall => hbad (hall _ (by omega) (by omega))
    obtain ⟨a, ha⟩ := exists_firstBad hn
    have hle : a ≤ x.toNat := by
      by_contra hn
      exact hbad (ha.before _ (by omega) (by omega))
    -- A page that is refused cannot come before `x`.
    have heq (hga : s.grants pd (BitVec.ofNat 32 a) perm = false) : a = x.toNat := by
      by_contra hne
      rw [grants_between hg hx.before ha.above (by omega)] at hga
      cases hga
    by_cases hau : a < ulim.toNat
    case pos => exact heq (hs.low a ha hau).1 ▸ ha
    case neg =>
      obtain ⟨hga, -⟩ | ⟨-, hall⟩ | ⟨hlast, -⟩ := hs.high a ha (Nat.not_lt.mp hau)
      case inl => exact heq hga ▸ ha
      case inr.inl =>
        have hxr := hall x (by rw [BitVec.le_def, BitVec.toNat_ofNat]; omega) hx.below
        rw [hx.refused] at hxr
        cases hxr
      case inr.inr =>
        have hl' : 0xFFFFF000 ≤ va.toNat := hlast
        have := (va + len).isLt
        omega

-- The loop has wrapped around.
include hl in
theorem sound_of_wrap (hx : s.FirstRefused pd (roundDown va pgsize + pgsize) (roundDown (va + len) pgsize) perm x)
    (hv : ¬va < x) : s.FirstBad pd va len perm va.toNat ∧ s.CheckSound pd va len perm := by
  have hlt := va.isLt
  have hu := toNat_ulim
  have hxv : x.toNat ≤ va.toNat := BitVec.not_lt.mp hv
  have hx₁ : (va.toNat / 4096 * 4096 + 4096) % 2 ^ 32 ≤ x.toNat := by
    rw [← toNat_roundDown_add]
    exact hx.above
  have hlast : 0xFFFFF000 ≤ va.toNat := by omega
  have hf : s.FirstBad pd va len perm va.toNat := firstBad_va hl fun h => by
    have := h.1
    omega
  refine ⟨hf, fun hall => absurd hall hf.not_all, fun a ha hau => ?_, fun a ha _ => .inr <| .inr ⟨hlast, fun hall => ?_⟩⟩
  case refine_1 =>
    cases hf.unique ha
    omega
  case refine_2 =>
    have hr := hall x (by rw [BitVec.le_def]; exact Nat.zero_le _) hx.below
    rw [hx.refused] at hr
    cases hr

section Passed

variable (hg : s.grants pd va perm = true)
  (hall : s.GrantsAll pd (roundDown va pgsize + pgsize) (roundDown (va + len) pgsize) perm)

-- If all pages that were looked at have passed, the first address that is not accessible is not below `ULIM`.
include hg hall in
theorem passed_high (hs : s.CheckSound pd va len perm) (ha : s.FirstBad pd va len perm a) : ulim.toNat ≤ a := by
  by_contra hn
  obtain ⟨hga, hp⟩ := hs.low a ha (Nat.not_le.mp hn)
  obtain hp | ⟨hp, hw⟩ := hp
  case inl =>
    rw [hp, BitVec.ofNat_toNat, BitVec.setWidth_eq, hg] at hga
    cases hga
  case inr =>
    obtain he | he := ha.start
    case inl =>
      rw [he, BitVec.ofNat_toNat, BitVec.setWidth_eq, hg] at hga
      cases hga
    case inr =>
      have hay : a < (roundDown (va + len) pgsize).toNat := by
        rw [toNat_roundDown, BitVec.toNat_add]
        omega
      rw [grants_between hg hall ha.above hay] at hga
      cases hga

include hl hg hall in
theorem limit_iff (hu : ulim ≤ va + len) :
    s.FirstBad pd va len perm (if va < ulim then ulim else va).toNat ↔ s.CheckSound pd va len perm := by
  have hlt := va.isLt
  have hlen := len.isLt
  have hul := toNat_ulim
  have hu' : ulim.toNat ≤ (va.toNat + len.toNat) % 2 ^ 32 := by
    rw [← BitVec.toNat_add]
    exact hu
  have hm : (if va < ulim then ulim else va).toNat = if va < ulim then ulim.toNat else va.toNat := by
    split <;> rfl
  have hmu : ulim.toNat ≤ if va < ulim then ulim.toNat else va.toNat := by
    split
    case isTrue => exact le_rfl
    case isFalse hv => exact BitVec.not_lt.mp hv
  rw [hm]
  constructor
  case mp =>
    intro hf
    refine ⟨fun h => absurd h hf.not_all, fun a ha hau => ?_, fun a ha _ => .inr <| .inl ⟨hu, fun w haw hw => ?_⟩⟩
    case refine_1 =>
      cases hf.unique ha
      omega
    case refine_2 =>
      have hva := ha.above
      have haw' : a ≤ w.toNat := by
        rw [BitVec.le_def, BitVec.toNat_ofNat] at haw
        have hlt' : a < 2 ^ 32 := by
          rw [ha.high (hf.unique ha ▸ hmu)]
          split <;> omega
        omega
      have hgw := grants_between (a := w.toNat) hg hall (by omega) hw
      rwa [BitVec.ofNat_toNat, BitVec.setWidth_eq] at hgw
  case mpr =>
    intro hs
    have hn : ¬s.AllAccessible pd va len perm := by
      intro h
      have he := hs.ends h
      have hz : 0 < len.toNat := hl
      have := (h (va.toNat + len.toNat - 1) (by omega) (by omega)).1
      omega
    obtain ⟨a, ha⟩ := exists_firstBad hn
    rw [← ha.high (passed_high hg hall hs ha)]
    exact ha

include hg hall in
theorem pass_iff (hu : ¬ulim ≤ va + len) : s.AllAccessible pd va len perm ↔ s.CheckSound pd va len perm := by
  have hul := toNat_ulim
  have hlt := va.isLt
  have hu' : ¬ulim.toNat ≤ (va.toNat + len.toNat) % 2 ^ 32 := by
    rw [← BitVec.toNat_add]
    exact hu
  constructor
  case mp =>
    intro h
    refine ⟨fun _ he => ?_, fun a ha _ => absurd h ha.not_all, fun a ha _ => absurd h ha.not_all⟩
    rw [he] at hu'
    omega
  case mpr =>
    intro hs
    by_contra hn
    obtain ⟨a, ha⟩ := exists_firstBad hn
    obtain ⟨hga, hp | hp⟩ | ⟨hp, -⟩ | ⟨hlast, hp⟩ := hs.high a ha (passed_high hg hall hs ha)
    case inl.inl =>
      rw [hp, BitVec.ofNat_toNat, BitVec.setWidth_eq, hg] at hga
      cases hga
    case inl.inr => exact hu hp
    case inr.inl => exact hu hp
    case inr.inr =>
      have hl' : 0xFFFFF000 ≤ va.toNat := hlast
      have hz : roundDown va pgsize + pgsize = 0#32 := by
        refine BitVec.eq_of_toNat_eq ?_
        rw [toNat_roundDown_add, BitVec.toNat_ofNat]
        omega
      exact hp (hz ▸ hall)

end Passed

-- The check meets its contract on exactly the ranges of `CheckSound`.
theorem user_mem_check_exact (ht : s.TablesExist pd) (hl : 0 < len) :
    s.CheckExact pd va len perm ↔ s.CheckSound pd va len perm := by
  obtain ⟨r, s', hr, ho⟩ : ∃ r s', (userMemCheck pd va len perm).run s = .ok r s' ∧
      CheckOutcome s pd va len perm s' r := userMemCheck_outcome ht
  have hex : s.CheckExact pd va len perm ↔ ((r = 0#32 ∧ s.AllAccessible pd va len perm) ∨
      (r = efault ∧ s.FirstBad pd va len perm s'.userMemCheckAddr.toNat)) := by
    refine ⟨?_, fun h => ⟨r, s', hr, h⟩⟩
    rintro ⟨r', s'', hr', h⟩
    cases hr.symm.trans hr'
    exact h
  have hne : efault ≠ 0#32 := by decide
  rw [hex]
  cases ho
  case first hg ha =>
    obtain ⟨hf, hs⟩ := sound_of_first hl hg
    exact iff_of_true (.inr ⟨rfl, ha ▸ hf⟩) hs
  case later x hg hx ha =>
    by_cases hv : va < x
    case pos =>
      rw [if_pos hv] at ha
      simp only [hne, false_and, false_or, true_and, ha]
      exact later_iff hg hx hv
    case neg =>
      rw [if_neg hv] at ha
      obtain ⟨hf, hs⟩ := sound_of_wrap hl hx hv
      exact iff_of_true (.inr ⟨rfl, ha ▸ hf⟩) hs
  case limit hg hall hu ha =>
    simp only [hne, false_and, false_or, true_and, ha]
    exact limit_iff hl hg hall hu
  case pass hg hall hu =>
    simp only [Ne.symm hne, false_and, or_false, true_and]
    exact pass_iff hg hall hu

end Exact

theorem tablesExist_of (h : ∀ i, (s.table pd i).all (·.toNat < s.npages) = true) : s.TablesExist pd := by
  intro i t ht
  have hi := h i
  rw [ht] at hi
  simpa using hi

-- Nothing is mapped at address 0x1000.
theorem user_mem_check_exact_unmapped : (soleEnv 4).CheckExact 1#20 0x1000#32 4#32 pteU :=
  (user_mem_check_exact (tablesExist_of (by decide +kernel)) (by decide)).mpr
    (sound_of_first (by decide) (by decide +kernel)).2

-- A page that has been allocated for reading passes the check for writing.
theorem user_mem_check_readonly :
    returns (userMemCheck 1#20 0x1000#32 4#32 (pteU ||| pteW))
      (final (sysPageAlloc 0 0#32 0x1000#32 (pteP ||| pteU)) (soleEnv 4)) = some 0#32 ∧
    ¬(final (sysPageAlloc 0 0#32 0x1000#32 (pteP ||| pteU)) (soleEnv 4)).CheckExact 1#20 0x1000#32 4#32
      (pteU ||| pteW) := by
  have hr : returns (userMemCheck 1#20 0x1000#32 4#32 (pteU ||| pteW))
      (final (sysPageAlloc 0 0#32 0x1000#32 (pteP ||| pteU)) (soleEnv 4)) = some 0#32 := by decide +kernel
  have hn : ¬(final (sysPageAlloc 0 0#32 0x1000#32 (pteP ||| pteU)) (soleEnv 4)).entry 1#20 0 1 &&&
      (pteU ||| pteW ||| pteP) = pteU ||| pteW ||| pteP := by decide +kernel
  refine ⟨hr, ?_⟩
  obtain ⟨s₁, hr⟩ := returns_eq_some.mp hr
  rintro ⟨r, s', hr', ⟨-, hall⟩ | ⟨rfl, -⟩⟩
  case inl => exact hn (hall 0x1000 (by decide) (by decide)).2.2
  case inr => cases hr.symm.trans hr'

end Jos
