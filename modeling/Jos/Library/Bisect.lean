import Mathlib.Data.Int.Order.Basic
import Mathlib.Tactic.ByContra

-- The search for the bracket of a key among entries of which only some count. When the key is found, the search goes on
-- for the following key, which is zero behind `M - 1`.

namespace Bisect

structure Span where
  left  : Int
  right : Int
  deriving DecidableEq

-- None of the entries from `l` to `r` counts.
def Free (T : Int → Prop) (l r : Int) : Prop :=
  ∀ i, l ≤ i → i ≤ r → ¬T i

-- The last of the entries from `l` to `r` that counts.
structure Last (T : Int → Prop) (l r m : Int) : Prop where
  ge   : l ≤ m
  le   : m ≤ r
  mem  : T m
  free : Free T (m + 1) r

def Sorted (T : Int → Prop) (v : Int → Nat) (l r : Int) : Prop :=
  ∀ i j, l ≤ i → i < j → j ≤ r → T i → T j → v i < v j

-- The loop of the search: from a region and whether something has been met to the same at its end.
inductive Search (M : Nat) (T : Int → Prop) (v : Int → Nat) :
    Nat → Int → Int → Span → Bool → Span → Bool → Prop
  | stop {x l r g any} : r < l → Search M T v x l r g any g any
  | skip {x l r g any g' any'} : l ≤ r → Free T l ((l + r) / 2) → Search M T v x ((l + r) / 2 + 1) r g any g' any' →
    Search M T v x l r g any g' any'
  | low {x l r g any g' any' m} : l ≤ r → Last T l ((l + r) / 2) m → v m < x →
    Search M T v x ((l + r) / 2 + 1) r { g with left := m } true g' any' → Search M T v x l r g any g' any'
  | high {x l r g any g' any' m} : l ≤ r → Last T l ((l + r) / 2) m → x < v m →
    Search M T v x l (m - 1) { g with right := m - 1 } true g' any' → Search M T v x l r g any g' any'
  | hit {x l r g any g' any' m} : l ≤ r → Last T l ((l + r) / 2) m → v m = x →
    Search M T v ((x + 1) % M) m r { g with left := m } true g' any' → Search M T v x l r g any g' any'

-- The left end is the last entry in the region that counts. The entry at its left end is not looked at.
inductive Fix (T : Int → Prop) (g : Span) : Int → Prop
  | last {m} : Last T (g.left + 1) g.right m → Fix T g m
  | free : Free T (g.left + 1) g.right → Fix T g (min g.right g.left)

-- What the search returns.
inductive Finds (M : Nat) (T : Int → Prop) (v : Int → Nat) (x : Nat) (l r : Int) : Span → Prop
  | none {g} : Search M T v x l r ⟨l, r⟩ false g false → Finds M T v x l r { g with right := g.left - 1 }
  | some {g m} : Search M T v x l r ⟨l, r⟩ false g true → Fix T g m → Finds M T v x l r { g with left := m }

-- With `r'` as the right end, the bisection from `l` to `r` comes to the entry `a`.
inductive Meets (T : Int → Prop) (a : Int) : Int → Int → Int → Prop
  | here {l r} : Last T l ((l + r) / 2) a → Meets T a l r r
  | skip {l r r'} : l ≤ r → Free T l ((l + r) / 2) → Meets T a ((l + r) / 2 + 1) r r' → Meets T a l r r'
  | low {l r r' m} : Last T l ((l + r) / 2) m → m < a → Meets T a ((l + r) / 2 + 1) r r' → Meets T a l r r'
  | high {l r r' m} : Last T l ((l + r) / 2) m → a < m → Meets T a l (m - 1) r' → Meets T a l r r'

-- The last entry which is not behind the key.
structure LastLe (T : Int → Prop) (v : Int → Nat) (x : Nat) (l r a : Int) : Prop where
  ge    : l ≤ a
  le    : a ≤ r
  mem   : T a
  val   : v a ≤ x
  later : ∀ i, a < i → i ≤ r → T i → x < v i

-- The entry that follows `a`.
structure Next (T : Int → Prop) (a r b : Int) : Prop where
  lt   : a < b
  le   : b ≤ r
  mem  : T b
  free : Free T (a + 1) (b - 1)

-- The region of `a` ends before the next entry.
def Ends (T : Int → Prop) (a r right : Int) : Prop :=
  (∃ b, Next T a r b ∧ right = b - 1) ∨ Free T (a + 1) r ∧ right = r

-- What the search is meant to return.
structure Bracket (T : Int → Prop) (v : Int → Nat) (x : Nat) (l r : Int) (g : Span) : Prop where
  found  : ∀ a, LastLe T v x l r a → g.left = a ∧ Ends T a r g.right
  missed : (∀ i, l ≤ i → i ≤ r → T i → x < v i) → g.right < g.left

-- The search fails if all entries are behind the key, and if the key is the greatest one and found. It also fails if the
-- key is found while the next entry, which is the one for the following key, is still in reach: unless the following
-- key is the greatest one, for then the error it makes may be right.
def Succeeds (M : Nat) (T : Int → Prop) (v : Int → Nat) (x : Nat) (l r : Int) : Prop :=
  Free T l r ∨ ∃ a, LastLe T v x l r a ∧ (v a < x ∨ x + 1 ≠ M ∧ ∀ b, Next T a r b → v b = x + 1 →
    (∀ r', Meets T a l r r' → r' < b) ∨ x + 2 = M ∧ b = a + 1)

-- From `l` to `r`, the bisection goes to the left until it comes to the entry at `l`, and that is behind the key, too.
-- The key which follows the greatest one is in front of everything.
inductive Lost (M : Nat) (T : Int → Prop) (v : Int → Nat) (x : Nat) (l : Int) : Int → Prop
  | first {r} : Last T l ((l + r) / 2) l → x < v l ∨ v l = x ∧ x + 1 = M → Lost M T v x l r
  | high {r m} : Last T l ((l + r) / 2) m → x < v m → Lost M T v x l (m - 1) → Lost M T v x l r

variable {M x : Nat} {T : Int → Prop} {v : Int → Nat} {l r r' a b m k i : Int} {g g' : Span} {any any' : Bool}

theorem Last.unique (h : Last T l r m) (h' : Last T l r k) : m = k := by
  have h₁ : ¬m < k := fun hlt => h.free k (by omega) h'.le h'.mem
  have h₂ : ¬k < m := fun hlt => h'.free m (by omega) h.le h.mem
  omega

theorem Last.not_free (h : Last T l r m) (hf : Free T l r) : False :=
  hf m h.ge h.le h.mem

theorem free_or_last : Free T l r ∨ ∃ m, Last T l r m := by
  induction hn : (r - l + 1).toNat generalizing r
  case zero => exact .inl fun i h₁ h₂ => by omega
  case succ n ih =>
    by_cases hr : T r
    case pos => exact .inr ⟨r, by omega, Int.le_refl r, hr, fun i h₁ h₂ => by omega⟩
    case neg =>
      have hir {i : Int} (h : i ≤ r) (hi : T i) : i ≤ r - 1 := by
        by_contra hc
        obtain rfl : i = r := by omega
        exact hr hi
      cases ih (r := r - 1) (by omega)
      case inl hf => exact .inl fun i h₁ h₂ hi => hf i h₁ (hir h₂ hi) hi
      case inr hm =>
        obtain ⟨m, hm⟩ := hm
        exact .inr ⟨m, hm.ge, by have := hm.le; omega, hm.mem, fun i h₁ h₂ hi => hm.free i h₁ (hir h₂ hi) hi⟩

theorem Sorted.mono (h : Sorted T v l r) (hl : l ≤ m) (hr : k ≤ r) : Sorted T v m k :=
  fun i j hi hij hj => h i j (by omega) hij (by omega)

theorem Last.val_le (h : Last T l m k) (hs : Sorted T v l m) (hi : T i) (h₁ : l ≤ i) (h₂ : i ≤ m) : v i ≤ v k := by
  have hik : ¬k < i := fun hlt => h.free i (by omega) h₂ hi
  rcases Int.lt_or_eq_of_le (Int.not_lt.mp hik) with hlt | rfl
  case inl => exact Nat.le_of_lt (hs i k h₁ hlt h.le hi h.mem)
  case inr => exact Nat.le_refl _

-- The right end is in front of the first entry behind the key, or where it has been if there is none.
def Cut (T : Int → Prop) (v : Int → Nat) (x : Nat) (l r right right' : Int) : Prop :=
  (∃ b, l ≤ b ∧ b ≤ r ∧ T b ∧ x < v b ∧ (∀ i, l ≤ i → i < b → T i → v i < x) ∧ right' = b - 1) ∨
    (∀ i, l ≤ i → i ≤ r → T i → v i < x) ∧ right' = right

variable {right right' : Int}

theorem Cut.extend (h : Cut T v x k r right right') (hl : l ≤ k) (hlow : ∀ i, l ≤ i → i < k → T i → v i < x) :
    Cut T v x l r right right' := by
  cases h
  case inl h =>
    obtain ⟨b, h₁, h₂, hb, hx, hlow', rfl⟩ := h
    refine .inl ⟨b, by omega, h₂, hb, hx, fun i hi hib ht => ?_, rfl⟩
    by_cases hik : i < k
    case pos => exact hlow i hi hik ht
    case neg => exact hlow' i (by omega) hib ht
  case inr h =>
    refine .inr ⟨fun i hi hir ht => ?_, h.2⟩
    by_cases hik : i < k
    case pos => exact hlow i hi hik ht
    case neg => exact h.1 i (by omega) hir ht

theorem Cut.high (h : Cut T v x l (m - 1) (m - 1) right') (hl : l ≤ m) (hr : m ≤ r) (hm : T m) (hx : x < v m) :
    Cut T v x l r right right' := by
  cases h
  case inl h =>
    obtain ⟨b, h₁, h₂, hb⟩ := h
    exact .inl ⟨b, h₁, by omega, hb⟩
  case inr h => exact .inl ⟨m, hl, hr, hm, hx, fun i h₁ h₂ => h.1 i h₁ (by omega), h.2⟩

namespace Search

theorem of_free (h : Search M T v x l r g any g' any') (hf : Free T l r) : g' = g ∧ any' = any := by
  induction h
  case stop => exact ⟨rfl, rfl⟩
  case skip ih => exact ih fun i h₁ h₂ => hf i (by omega) h₂
  case low hle hm _ _ _ | high hle hm _ _ _ | hit hle hm _ _ _ =>
    exact (hf _ hm.ge (by have := hm.le; omega) hm.mem).elim

theorem any_of_any (h : Search M T v x l r g any g' any') (ha : any = true) : any' = true := by
  induction h
  case stop => exact ha
  case skip ih => exact ih ha
  case low ih | high ih | hit ih => exact ih rfl

theorem any_of_mem (h : Search M T v x l r g any g' any') (hl : l ≤ i) (hr : i ≤ r) (hi : T i) : any' = true := by
  induction h
  case stop => omega
  case skip hle hf _ ih =>
    have hgt := mt (hf i hl) (not_not.mpr hi)
    exact ih (by omega) hr
  case low hs _ | high hs _ | hit hs _ => exact hs.any_of_any rfl

-- What the search returns stays in the region.
theorem bounds (h : Search M T v x l r g any g' any') :
    (g'.left = g.left ∨ l ≤ g'.left ∧ g'.left ≤ r) ∧ (g'.right = g.right ∨ l - 1 ≤ g'.right ∧ g'.right < r) := by
  induction h
  case stop => exact ⟨.inl rfl, .inl rfl⟩
  case skip hle _ _ ih => omega
  case low hle hm _ _ ih | high hle hm _ _ ih | hit hle hm _ _ ih =>
    have := hm.ge
    have := hm.le
    simp only at ih
    omega

-- Without an entry for the key itself, the ends of the bracket are a lower entry, and the first one that is higher.
theorem no_hit (h : Search M T v x l r g any g' any') (hs : Sorted T v l r)
    (hx : ∀ i, l ≤ i → i ≤ r → T i → v i ≠ x) :
    (g'.left = g.left ∨ l ≤ g'.left ∧ g'.left ≤ r ∧ T g'.left ∧ v g'.left < x) ∧ Cut T v x l r g.right g'.right := by
  induction h
  case stop => exact ⟨.inl rfl, .inr ⟨fun i h₁ h₂ => by omega, rfl⟩⟩
  case skip hle hf _ ih =>
    obtain ⟨hl, hr⟩ := ih (hs.mono (by omega) (Int.le_refl _)) fun i h₁ h₂ => hx i (by omega) h₂
    exact ⟨hl.imp_right fun hl => ⟨by omega, hl.2⟩,
      hr.extend (by omega) fun i h₁ h₂ ht => (hf i h₁ (by omega) ht).elim⟩
  case low x l r _ _ g' _ m hle hm hv _ ih =>
    have hmr := hm.le
    obtain ⟨hl, hr⟩ := ih (hs.mono (by omega) (Int.le_refl _)) fun i h₁ h₂ => hx i (by omega) h₂
    have hlow (i) (h₁ : l ≤ i) (h₂ : i < (l + r) / 2 + 1) (ht : T i) : v i < x :=
      Nat.lt_of_le_of_lt (hm.val_le (hs.mono (Int.le_refl l) (by omega)) ht h₁ (by omega)) hv
    refine ⟨.inr ?_, hr.extend (by omega) hlow⟩
    cases hl
    case inl hl =>
      rw [show g'.left = m from hl]
      exact ⟨hm.ge, by omega, hm.mem, hv⟩
    case inr hl =>
      obtain ⟨h₁, h₂⟩ := hl
      exact ⟨by omega, h₂⟩
  case high hle hm hv _ ih =>
    have hmr := hm.le
    obtain ⟨hl, hr⟩ := ih (hs.mono (Int.le_refl _) (by omega)) fun i h₁ h₂ => hx i h₁ (by omega)
    exact ⟨hl.imp_right fun hl => ⟨hl.1, by omega, hl.2.2⟩, hr.high hm.ge (by omega) hm.mem hv⟩
  case hit hle hm hv _ _ => exact absurd hv (hx _ hm.ge (by have := hm.le; omega) hm.mem)

-- Once the ends are not to the left of `b`, they remain there.
theorem floor (h : Search M T v x l r g any g' any') (hb : v b < x ∨ b < l) (hl : b ≤ l) (hgl : b ≤ g.left)
    (hgr : b ≤ g.right) : b ≤ g'.left ∧ b ≤ g'.right := by
  induction h
  case stop => exact ⟨hgl, hgr⟩
  case skip hle _ _ ih => exact ih (.inr (by omega)) (by omega) hgl hgr
  case low hle hm _ _ ih => exact ih (.inr (by omega)) (by omega) (Int.le_trans hl hm.ge) hgr
  case high m hle hm hv _ ih =>
    have hne : b ≠ m := by
      rintro rfl
      have := hm.ge
      omega
    have := hm.ge
    exact ih hb hl hgl (by simp only; omega)
  case hit m hle hm hv _ ih =>
    have hne : b ≠ m := by
      rintro rfl
      have := hm.ge
      omega
    have := hm.ge
    exact ih (.inr (by omega)) (by omega) (by simp only; omega) hgr

-- Behind the greatest key the search starts again at zero, and `a` is too high.
theorem wrap (h : Search M T v 0 a r g any g' any') (ha : Last T a r a) (hv : 0 < v a) :
    g' = { g with right := a - 1 } := by
  have hle := ha.le
  have hmid : Last T a ((a + r) / 2) a := ⟨Int.le_refl a, by omega, ha.mem, fun i h₁ h₂ => ha.free i h₁ (by omega)⟩
  cases h
  case stop => omega
  case skip hf _ => exact (hmid.not_free hf).elim
  case low hlt _ _ _ => omega
  case high m _ _ hm hs =>
    obtain rfl := hm.unique hmid
    refine (hs.of_free fun i h₁ h₂ => ?_).1
    omega
  case hit m hx _ hm _ =>
    obtain rfl := hm.unique hmid
    omega

end Search

namespace Meets

theorem bounds (h : Meets T a l r r') : l ≤ a ∧ a ≤ r' ∧ r' ≤ r := by
  induction h
  case here ha =>
    have := ha.ge
    have := ha.le
    omega
  case skip | low => omega
  case high hm _ _ _ =>
    have := hm.le
    omega

theorem exists_of_search (h : Search M T v x l r g any g' any') (hs : Sorted T v l r) (hl : l ≤ a) (hr : a ≤ r)
    (ha : T a) (hx : v a = x) : ∃ r', Meets T a l r r' := by
  induction h
  case stop => omega
  case skip hle hf _ ih =>
    have hgt := mt (hf a hl) (not_not.mpr ha)
    obtain ⟨r', h⟩ := ih (hs.mono (by omega) (Int.le_refl _)) (by omega) hr hx
    exact ⟨r', .skip hle hf h⟩
  case low hle hm hv _ ih =>
    have hgt : ¬a ≤ _ := fun hc => absurd (hm.val_le (hs.mono (Int.le_refl _) (by omega)) ha hl hc) (by omega)
    obtain ⟨r', h⟩ := ih (hs.mono (by omega) (Int.le_refl _)) (by omega) hr hx
    have := hm.le
    exact ⟨r', .low hm (by omega) h⟩
  case high m hle hm hv _ ih =>
    have hml := hm.ge
    have hlt : ¬m < a := fun hc => absurd (hs m a hm.ge hc hr hm.mem ha) (by omega)
    have hne : m ≠ a := by
      rintro rfl
      omega
    obtain ⟨r', h⟩ := ih (hs.mono (Int.le_refl _) (by have := hm.le; omega)) hl (by omega) hx
    exact ⟨r', .high hm (by omega) h⟩
  case hit m hle hm hv _ _ =>
    have hmr := hm.le
    have hml := hm.ge
    have h₁ : ¬m < a := fun hc => absurd (hs m a hm.ge hc hr hm.mem ha) (by omega)
    have h₂ : ¬a < m := fun hc => absurd (hs a m hl hc (by omega) ha hm.mem) (by omega)
    obtain rfl : m = a := by omega
    exact ⟨_, .here hm⟩

-- The search finds its key at `a` when the bisection comes there.
theorem search (h : Meets T a l r r') (hs : Search M T v x l r g any g' any') (hsort : Sorted T v l r) (ha : T a)
    (hx : v a = x) :
    ∃ right, Search M T v ((x + 1) % M) a r' ⟨a, right⟩ true g' any' ∧
      (r' = r ∧ right = g.right ∨ r' < r ∧ right = r' ∧ T (r' + 1)) := by
  induction h generalizing g any
  case here l r hm =>
    have hle := hm.le
    have hge := hm.ge
    cases hs
    case stop => omega
    case skip hf _ => exact (hm.not_free hf).elim
    case low m hlt _ hm' _ =>
      obtain rfl := hm.unique hm'
      omega
    case high m hlt _ hm' _ =>
      obtain rfl := hm.unique hm'
      omega
    case hit m _ _ hm' hs =>
      obtain rfl := hm.unique hm'
      exact ⟨_, hs, .inl ⟨rfl, rfl⟩⟩
  case skip l r r' hle hf hmt ih =>
    cases hs
    case stop => omega
    case skip _ hs => exact ih hs (hsort.mono (by omega) (Int.le_refl _))
    case low hm _ | high hm _ | hit hm _ => exact (hm.not_free hf).elim
  case low l r r' m hm hlt hmt ih =>
    have hb := hmt.bounds
    have hge := hm.ge
    have hle := hm.le
    have hv := hsort m a hm.ge hlt (by omega) hm.mem ha
    cases hs
    case stop => omega
    case skip hf _ => exact (hm.not_free hf).elim
    case low hs =>
      obtain ⟨right, h₁, h₂⟩ := ih hs (hsort.mono (by omega) (Int.le_refl _))
      exact ⟨right, h₁, h₂⟩
    case high hv' _ hm' _ | hit hv' _ hm' _ =>
      obtain rfl := hm.unique hm'
      omega
  case high l r r' m hm hlt hmt ih =>
    have hb := hmt.bounds
    have hge := hm.ge
    have hle := hm.le
    have hv := hsort a m hb.1 hlt (by omega) ha hm.mem
    cases hs
    case stop => omega
    case skip hf _ => exact (hm.not_free hf).elim
    case low hv' _ hm' _ | hit hv' _ hm' _ =>
      obtain rfl := hm.unique hm'
      omega
    case high _ _ hm' hs =>
      obtain rfl := hm.unique hm'
      obtain ⟨right, h₁, h₂⟩ := ih hs (hsort.mono (Int.le_refl _) (by omega))
      refine ⟨right, h₁, .inr ?_⟩
      cases h₂
      case inl h₂ =>
        obtain ⟨rfl, rfl⟩ := h₂
        exact ⟨by omega, rfl, by simpa using hm.mem⟩
      case inr h₂ => exact ⟨by omega, h₂.2⟩

end Meets

section Bracket

variable (hs : Sorted T v l r) (ha : LastLe T v x l r a)

theorem exists_lastLe (hl : l ≤ i) (hr : i ≤ r) (hi : T i) (hx : v i ≤ x) : ∃ a, LastLe T v x l r a := by
  cases free_or_last (T := fun i => T i ∧ v i ≤ x) (l := l) (r := r)
  case inl hf => exact (hf i hl hr ⟨hi, hx⟩).elim
  case inr hm =>
    obtain ⟨m, hm⟩ := hm
    refine ⟨m, hm.ge, hm.le, hm.mem.1, hm.mem.2, fun j h₁ h₂ hj => ?_⟩
    exact Nat.lt_of_not_le fun hle => hm.free j (by omega) h₂ ⟨hj, hle⟩

include ha in
theorem LastLe.unique (hb : LastLe T v x l r b) : a = b := by
  have h₁ : ¬a < b := fun hlt => absurd (ha.later b hlt hb.le hb.mem) (by have := hb.val; omega)
  have h₂ : ¬b < a := fun hlt => absurd (hb.later a hlt ha.le ha.mem) (by have := ha.val; omega)
  omega

include ha in
theorem bracket_iff_of_lastLe : Bracket T v x l r g ↔ g.left = a ∧ Ends T a r g.right := by
  constructor
  case mp => exact fun h => h.found a ha
  case mpr =>
    refine fun h => ⟨fun b hb => ha.unique hb ▸ h, fun hall => ?_⟩
    exact absurd (hall a ha.ge ha.le ha.mem) (by have := ha.val; omega)

include ha in
theorem succeeds_iff_of_lastLe :
    Succeeds M T v x l r ↔ v a < x ∨ x + 1 ≠ M ∧ ∀ b, Next T a r b → v b = x + 1 →
      (∀ r', Meets T a l r r' → r' < b) ∨ x + 2 = M ∧ b = a + 1 := by
  constructor
  case mp =>
    rintro (hf | ⟨b, hb, h⟩)
    case inl => exact (hf a ha.ge ha.le ha.mem).elim
    case inr => exact ha.unique hb ▸ h
  case mpr => exact fun h => .inr ⟨a, ha, h⟩

include ha in
-- The entries up to `a` are lower, by the order.
theorem LastLe.val_le_of_le (hs : Sorted T v l r) (hl : l ≤ i) (hi : T i) (hia : i ≤ a) : v i ≤ v a := by
  rcases Int.lt_or_eq_of_le hia with hlt | rfl
  case inl => exact Nat.le_of_lt (hs i a hl hlt ha.le hi ha.mem)
  case inr => exact Nat.le_refl _

-- The last step leaves `a` if the region reaches from it, or from before it, to the next entry.
theorem Fix.eq (h : Fix T g m) (hl : g.left ≤ a) (hr : a ≤ g.right) (ha : T a) (hf : Free T (a + 1) g.right) :
    m = a := by
  cases h
  case last hm =>
    have := hm.ge
    have h₁ : ¬a < m := fun hlt => hf m (by omega) hm.le hm.mem
    have h₂ : ¬m < a := fun hlt => hm.free a (by omega) hr ha
    omega
  case free hf' =>
    have h₁ : ¬g.left < a := fun hlt => hf' a (by omega) hr ha
    omega

theorem Fix.le (h : Fix T g m) : m ≤ g.right := by
  cases h
  case last hm => exact hm.le
  case free => omega

theorem Fix.ge (h : Fix T g m) (hl : b ≤ g.left) (hr : b ≤ g.right) : b ≤ m := by
  cases h
  case last hm =>
    have := hm.ge
    omega
  case free => omega

theorem Ends.free (h : Ends T a r m) : Free T (a + 1) m := by
  rcases h with ⟨b, hb, rfl⟩ | ⟨hf, rfl⟩
  case inl => exact hb.free
  case inr => exact hf

theorem Ends.ge (h : Ends T a r m) (ha : a ≤ r) : a ≤ m := by
  rcases h with ⟨b, hb, rfl⟩ | ⟨-, rfl⟩
  case inl =>
    have := hb.lt
    omega
  case inr => exact ha

theorem Ends.le (h : Ends T a r m) : m ≤ r := by
  rcases h with ⟨b, hb, rfl⟩ | ⟨-, rfl⟩
  case inl =>
    have := hb.le
    omega
  case inr => exact Int.le_refl _

theorem Next.unique (h : Next T a r b) (h' : Next T a r k) : b = k := by
  have h₁ : ¬b < k := fun hlt => h'.free b (by have := h.lt; omega) (by omega) h.mem
  have h₂ : ¬k < b := fun hlt => h.free k (by have := h'.lt; omega) (by omega) h'.mem
  omega

theorem Next.not_free (h : Next T a r b) (hf : Free T (a + 1) r) : False :=
  hf b h.lt h.le h.mem

theorem Ends.unique (h : Ends T a r m) (h' : Ends T a r k) : m = k := by
  rcases h with ⟨b, hb, rfl⟩ | ⟨hf, rfl⟩ <;> rcases h' with ⟨b', hb', rfl⟩ | ⟨hf', rfl⟩
  case inl.inl => rw [hb.unique hb']
  case inl.inr => exact (hb.not_free hf').elim
  case inr.inl => exact (hb'.not_free hf).elim
  case inr.inr => rfl

-- The region of `a` consists of `a` only.
theorem Ends.eq_iff (h : Ends T a r m) (ha : a ≤ r) : a = m ↔ a = r ∨ T (a + 1) := by
  rcases h with ⟨b, hb, rfl⟩ | ⟨hf, rfl⟩
  case inl =>
    have hlt := hb.lt
    have hle := hb.le
    constructor
    case mp => exact fun he => .inr (by rw [show a + 1 = b by omega]; exact hb.mem)
    case mpr =>
      rintro (he | hT)
      case inl => omega
      case inr =>
        by_contra hne
        exact hb.free (a + 1) (Int.le_refl _) (by omega) hT
  case inr =>
    refine ⟨.inl, ?_⟩
    rintro (he | hT)
    case inl => exact he
    case inr =>
      by_contra hne
      exact hf (a + 1) (Int.le_refl _) (by omega) hT

variable {right : Int}

include hs ha in
-- If there is no entry for the key, it is bracketed.
theorem Search.of_lt (h : Search M T v x l r ⟨l, r⟩ any g any') (hv : v a < x) :
    g.left ≤ a ∧ Ends T a r g.right := by
  have hx (i) (h₁ : l ≤ i) (h₂ : i ≤ r) (hi : T i) : v i ≠ x := by
    by_cases hia : i ≤ a
    case pos =>
      have := ha.val_le_of_le hs h₁ hi hia
      omega
    case neg =>
      have := ha.later i (by omega) h₂ hi
      omega
  obtain ⟨hl, hr⟩ := h.no_hit hs hx
  constructor
  case left =>
    rcases hl with hl | ⟨h₁, h₂, hi, hlt⟩
    case inl => exact hl ▸ ha.ge
    case inr => exact Int.not_lt.mp fun hlt' => absurd (ha.later _ hlt' h₂ hi) (by omega)
  case right =>
    rcases hr with ⟨b, h₁, h₂, hb, hxb, hlow, he⟩ | ⟨hlow, he⟩
    case inl =>
      have hab : a < b := Int.not_le.mp fun hle => absurd (ha.val_le_of_le hs h₁ hb hle) (by omega)
      refine .inl ⟨b, ⟨hab, h₂, hb, fun i h₁ h₂ hi => ?_⟩, he⟩
      have := hlow i (by have := ha.ge; omega) (by omega) hi
      have := ha.later i (by omega) (by omega) hi
      omega
    case inr =>
      refine .inr ⟨fun i h₁ h₂ hi => ?_, he⟩
      have := hlow i (by have := ha.ge; omega) h₂ hi
      have := ha.later i (by omega) h₂ hi
      omega

include hs ha in
-- After the key has been found at `a`, the search for the following key brackets it too, if there is no entry for that
-- key in reach.
theorem Search.of_eq (h : Search M T v (x + 1) a r' ⟨a, right⟩ any g any') (hv : v a = x) (hle : r' ≤ r)
    (hr : r' = r ∧ right = r ∨ r' < r ∧ right = r' ∧ T (r' + 1)) (har : a ≤ r')
    (hn : ∀ b, Next T a r b → v b = x + 1 → r' < b) : g.left = a ∧ Ends T a r g.right := by
  have hnext {b : Int} (h₁ : a < b) (h₂ : b ≤ r) (hb : T b) (hlow : ∀ i, a ≤ i → i < b → T i → v i ≤ x) :
      Next T a r b := by
    refine ⟨h₁, h₂, hb, fun i h₃ h₄ hi => ?_⟩
    have := hlow i (by omega) (by omega) hi
    have := ha.later i (by omega) (by omega) hi
    omega
  have hx (i) (h₁ : a ≤ i) (h₂ : i ≤ r') (hi : T i) : v i ≠ x + 1 := by
    intro he
    rcases Int.lt_or_eq_of_le h₁ with hlt | rfl
    case inr => omega
    case inl =>
      refine absurd (hn i (hnext hlt (by omega) hi fun j h₃ h₄ hj => ?_) he) (by omega)
      have := hs j i (by have := ha.ge; omega) h₄ (by omega) hj hi
      omega
  obtain ⟨hl, hr'⟩ := h.no_hit (hs.mono ha.ge hle) hx
  constructor
  case left =>
    rcases hl with hl | ⟨h₁, h₂, hi, hlt⟩
    case inl => exact hl
    case inr =>
      have : ¬a < g.left := fun hlt' => absurd (ha.later _ hlt' (by omega) hi) (by omega)
      omega
  case right =>
    rcases hr' with ⟨b, h₁, h₂, hb, hxb, hlow, he⟩ | ⟨hlow, he⟩
    case inl =>
      have hne : a ≠ b := by
        rintro rfl
        omega
      exact .inl ⟨b, hnext (by omega) (by omega) hb fun i h₃ h₄ hi => Nat.le_of_lt_succ (hlow i h₃ h₄ hi), he⟩
    case inr =>
      have hf : Free T (a + 1) r' := by
        intro i h₁ h₂ hi
        have := hlow i (by omega) h₂ hi
        have := ha.later i (by omega) (by omega) hi
        omega
      rcases hr with ⟨rfl, rfl⟩ | ⟨hlt, rfl, hmem⟩
      case inl => exact .inr ⟨hf, he⟩
      case inr =>
        refine .inl ⟨right + 1, ⟨by omega, by omega, hmem, ?_⟩, by simp only at he; omega⟩
        rwa [Int.add_sub_cancel]

include hs ha in
theorem bracket_iff_of_hit (hM : ∀ i, v i < M) (h1 : 1 < M) (hx : v a = x)
    (h : Search M T v x l r ⟨l, r⟩ false g true) (hf : Fix T g m) :
    (m = a ∧ Ends T a r g.right) ↔ x + 1 ≠ M ∧ ∀ b, Next T a r b → v b = x + 1 →
      (∀ r', Meets T a l r r' → r' < b) ∨ x + 2 = M ∧ b = a + 1 := by
  have hvM := hM a
  by_cases hM' : x + 1 = M
  case pos =>
    -- The following key is zero.
    obtain ⟨r', hm⟩ := Meets.exists_of_search h hs ha.ge ha.le ha.mem hx
    obtain ⟨right, h', -⟩ := hm.search h hs ha.mem hx
    have hb := hm.bounds
    rw [hM', Nat.mod_self] at h'
    have hlast : Last T a r' a :=
      ⟨Int.le_refl a, hb.2.1, ha.mem, fun i h₁ h₂ hi => absurd (ha.later i (by omega) (by omega) hi)
        (by have := hM i; omega)⟩
    have hg := h'.wrap hlast (by omega)
    refine iff_of_false (fun hc => ?_) fun hc => hc.1 hM'
    have := hc.2.ge ha.le
    rw [hg] at this
    simp only at this
    omega
  case neg =>
    have hmod : (x + 1) % M = x + 1 := Nat.mod_eq_of_lt (by omega)
    by_cases hex : ∃ b r', Next T a r b ∧ v b = x + 1 ∧ Meets T a l r r' ∧ b ≤ r'
    case neg =>
      obtain ⟨r', hm⟩ := Meets.exists_of_search h hs ha.ge ha.le ha.mem hx
      obtain ⟨right, h', hr⟩ := hm.search h hs ha.mem hx
      have hb := hm.bounds
      rw [hmod] at h'
      have hn (b) (hb : Next T a r b) (hv : v b = x + 1) (r') (hm : Meets T a l r r') : r' < b :=
        Int.not_le.mp fun hle => hex ⟨b, r', hb, hv, hm, hle⟩
      obtain ⟨hl, he⟩ := h'.of_eq hs ha hx hb.2.2 hr hb.2.1 fun b hb hv => hn b hb hv r' hm
      refine iff_of_true ⟨?_, he⟩ ⟨hM', fun b hb hv => .inl (hn b hb hv)⟩
      exact hf.eq (Int.le_of_eq hl) (he.ge ha.le) ha.mem he.free
    case pos =>
      obtain ⟨b, r', hb, hvb, hm, hbr⟩ := hex
      obtain ⟨right, h', hr⟩ := hm.search h hs ha.mem hx
      have hbd := hm.bounds
      have hbge := hb.lt
      rw [hmod] at h'
      have hs' := hs.mono ha.ge hbd.2.2
      obtain ⟨r'', hm'⟩ := Meets.exists_of_search h' hs' (by omega) hbr hb.mem hvb
      obtain ⟨right', h'', hr'⟩ := hm'.search h' hs' hb.mem hvb
      have hbd' := hm'.bounds
      have hall : ¬∀ r', Meets T a l r r' → r' < b := fun hc => absurd (hc r' hm) (by omega)
      by_cases hM'' : x + 2 = M
      case pos =>
        rw [show x + 1 + 1 = M by omega, Nat.mod_self] at h''
        have hlast : Last T b r'' b := by
          refine ⟨Int.le_refl b, hbd'.2.1, hb.mem, fun i h₁ h₂ hi => ?_⟩
          have := hs b i (by have := ha.ge; omega) (by omega) (by omega) hb.mem hi
          have := hM i
          omega
        have hg := h''.wrap hlast (by omega)
        have hmb : m = b - 1 := by
          cases hf
          case last hl =>
            have := hl.ge
            have := hl.le
            rw [hg] at *
            simp only at *
            omega
          case free =>
            rw [hg]
            simp only
            omega
        have he : Ends T a r g.right := .inl ⟨b, hb, by rw [hg]⟩
        constructor
        case mp =>
          rintro ⟨rfl, -⟩
          refine ⟨hM', fun c hc hv => .inr ⟨hM'', ?_⟩⟩
          have h₁ : ¬c < b := fun hlt => hb.free c (by have := hc.lt; omega) (by omega) hc.mem
          have h₂ : ¬b < c := fun hlt => hc.free b (by omega) (by omega) hb.mem
          omega
        case mpr =>
          intro hc
          have := (hc.2 b hb hvb).resolve_left hall
          exact ⟨by omega, he⟩
      case neg =>
        rw [show (x + 1 + 1) % M = x + 2 from Nat.mod_eq_of_lt (by omega)] at h''
        simp only at hr hr'
        have hfl := h''.floor (b := b) (.inl (by omega)) (Int.le_refl b) (Int.le_refl b) (by simp only; omega)
        have hge := hf.ge hfl.1 hfl.2
        refine iff_of_false (fun hc => absurd hc.1 (by omega)) fun hc => ?_
        exact hM'' ((hc.2 b hb hvb).resolve_left hall).1

include hs in
-- When the search returns what it is meant to.
theorem Finds.bracket_iff (hM : ∀ i, v i < M) (h1 : 1 < M) (h : Finds M T v x l r g) :
    Bracket T v x l r g ↔ Succeeds M T v x l r := by
  by_cases hfr : Free T l r
  case pos =>
    refine iff_of_true ⟨fun a ha => (hfr a ha.ge ha.le ha.mem).elim, fun _ => ?_⟩ (.inl hfr)
    cases h
    case none g _ =>
      simp only
      omega
    case some h _ => cases (h.of_free hfr).2
  case neg =>
    obtain ⟨i, hl, hr, hi⟩ : ∃ i, l ≤ i ∧ i ≤ r ∧ T i := by
      by_contra hc
      exact hfr fun i h₁ h₂ hi => hc ⟨i, h₁, h₂, hi⟩
    cases h
    case none h => cases h.any_of_mem hl hr hi
    case some g m h hf =>
      by_cases hex : ∃ a, LastLe T v x l r a
      case neg =>
        have hall (i) (h₁ : l ≤ i) (h₂ : i ≤ r) (hi : T i) : x < v i :=
          Nat.lt_of_not_le fun hle => hex (exists_lastLe h₁ h₂ hi hle)
        refine iff_of_false (fun hb => absurd (hb.missed hall) (Int.not_lt.mpr hf.le)) ?_
        rintro (hf | ⟨a, ha, -⟩)
        case inl => exact hfr hf
        case inr => exact hex ⟨a, ha⟩
      case pos =>
        obtain ⟨a, ha⟩ := hex
        rw [bracket_iff_of_lastLe ha, succeeds_iff_of_lastLe ha]
        by_cases hv : v a < x
        case pos =>
          obtain ⟨hl, he⟩ := h.of_lt hs ha hv
          exact iff_of_true ⟨hf.eq hl (he.ge ha.le) ha.mem he.free, he⟩ (.inl hv)
        case neg =>
          have := ha.val
          rw [or_iff_right hv]
          have hiff := bracket_iff_of_hit (g := g) hs ha hM h1 (by omega) h hf
          exact hiff

end Bracket

namespace Lost

theorem mem (h : Lost M T v x l r) : T l := by
  induction h
  case first hm _ => exact hm.mem
  case high ih => exact ih

theorem le (h : Lost M T v x l r) : l ≤ r := by
  have hle {m : Int} (hm : Last T l ((l + r) / 2) m) : l ≤ r := by
    have := hm.ge
    have := hm.le
    omega
  cases h
  case first hm => exact hle hm
  case high hm => exact hle hm

-- When something is met at the left end, the next step meets it again.
theorem of_search (hM : ∀ i, v i < M) (h : Search M T v x l r g any g' any') (hl : l ≤ g.right)
    (hr : g'.right = l - 1) : Lost M T v x l r := by
  induction h
  case stop => omega
  case skip hle _ hs _ =>
    have := hs.bounds
    omega
  case low hle hm _ hs _ =>
    have := hs.bounds
    simp only at this
    omega
  case high l _ _ _ _ _ m hle hm hv _ ih =>
    have hge := hm.ge
    by_cases hml : m = l
    case pos =>
      subst hml
      exact .first hm (.inl hv)
    case neg => exact .high hm hv (ih (by simp only; omega) hr)
  case hit x l r _ _ _ _ m hle hm hv hs _ =>
    have hge := hm.ge
    have hml : m = l := by
      have := hs.bounds
      simp only at this
      omega
    subst hml
    have hx := hM m
    have hmod : x + 1 ≠ M → (x + 1) % M = x + 1 := fun hne => Nat.mod_eq_of_lt (by omega)
    cases hs
    case stop => omega
    case skip hf _ => exact (hm.not_free hf).elim
    case low hs =>
      have := hs.bounds
      simp only at this
      omega
    case high k hk _ hm' _ =>
      obtain rfl := hm.unique hm'
      exact .first hm (.inr ⟨hv, by_contra fun hne => by have := hmod hne; omega⟩)
    case hit k hk _ hm' _ =>
      obtain rfl := hm.unique hm'
      exact .first hm (.inr ⟨hv, by_contra fun hne => by have := hmod hne; omega⟩)

-- The search returns with its ends in the wrong order.
theorem search (h : Lost M T v x l r) (h1 : 1 < M) (hs : Search M T v x l r g any g' any') (hl : g.left = l) :
    g' = ⟨l, l - 1⟩ := by
  have hend {x : Nat} {g : Span} {any any' : Bool} (hl : g.left = l) (hs : Search M T v x l (l - 1) g any g' any')
      (hr : g.right = l - 1) : g' = ⟨l, l - 1⟩ := by
    rw [(hs.of_free fun i h₁ h₂ => by omega).1, ← hr]
    exact congrArg (Span.mk · g.right) hl
  have hle := h.le
  induction h generalizing g any
  case first r hm hv =>
    cases hs
    case stop => omega
    case skip hf _ => exact (hm.not_free hf).elim
    case low hlt _ hm' _ =>
      obtain rfl := hm.unique hm'
      omega
    case high hlt _ hm' hs =>
      obtain rfl := hm.unique hm'
      exact hend (g := { g with right := l - 1 }) hl hs rfl
    case hit hx _ hm' hs =>
      obtain rfl := hm.unique hm'
      rw [show x + 1 = M by omega, Nat.mod_self] at hs
      cases hs
      case stop => omega
      case skip hf _ => exact (hm.not_free hf).elim
      case low hlt _ _ _ => omega
      case high hlt _ hm' hs =>
        obtain rfl := hm.unique hm'
        exact hend (g := ⟨l, l - 1⟩) rfl hs rfl
      case hit hx' _ hm' _ =>
        obtain rfl := hm.unique hm'
        omega
  case high r m hm hv hlost ih =>
    cases hs
    case stop => omega
    case skip hf _ => exact (hm.not_free hf).elim
    case low hlt _ hm' _ | hit hlt _ hm' _ =>
      obtain rfl := hm.unique hm'
      omega
    case high hlt _ hm' hs =>
      obtain rfl := hm.unique hm'
      exact ih hs hl hlost.le

theorem behind (h : Lost M T v x l r) : x < v l ∨ v l = x ∧ x + 1 = M := by
  induction h
  case first hv => exact hv
  case high ih => exact ih

end Lost

-- The greatest key is found at `p`, and from there the search for zero is lost.
structure Wraps (M : Nat) (T : Int → Prop) (v : Int → Nat) (x : Nat) (l r p : Int) : Prop where
  max   : x + 1 = M
  val   : v p = x
  meets : Meets T p l r r
  lost  : Lost M T v 0 p r

section Wraps

variable {p : Int}

theorem Search.left_mem (h : Search M T v x l r g any g' any') : g'.left = g.left ∨ T g'.left := by
  induction h
  case stop => exact .inl rfl
  case skip ih | high ih => exact ih
  case low hm _ _ ih | hit hm _ _ ih =>
    rcases ih with he | hT
    case inl => exact .inr (he ▸ hm.mem)
    case inr => exact .inr hT

theorem Wraps.of_search (hM : ∀ i, v i < M) (hf : Free T l (p - 1)) (h : Search M T v x l r g any g' any')
    (hlp : l ≤ p) (hgl : g.left < p) (hgr : p ≤ g.right) (hl : p ≤ g'.left) (hr : g'.right = p - 1) :
    Wraps M T v x l r p := by
  induction h
  case stop => omega
  case skip l r _ _ _ _ hle hfm hs ih =>
    have hb := hs.bounds
    by_cases hmp : (l + r) / 2 + 1 ≤ p
    case neg => omega
    case pos =>
      have hw := ih (fun i h₁ h₂ => hf i (by omega) h₂) hmp hgl hgr hl hr
      exact ⟨hw.max, hw.val, .skip hle hfm hw.meets, hw.lost⟩
  case low m hle hm _ hs _ =>
    have hb := hs.bounds
    have hmp : ¬m < p := fun hlt => hf m hm.ge (by omega) hm.mem
    have := hm.le
    simp only at hb
    omega
  case high m hle hm hv hs ih =>
    have hmp : ¬m < p := fun hlt => hf m hm.ge (by omega) hm.mem
    by_cases hme : m = p
    case pos =>
      subst hme
      rw [(hs.of_free hf).1] at hl
      simp only at hl
      omega
    case neg =>
      have hw := ih hf hlp hgl (by simp only; omega) hl hr
      have := hM m
      have := hw.max
      omega
  case hit x _ _ _ _ _ _ m hle hm hv hs _ =>
    have hb := hs.bounds
    have hmp : ¬m < p := fun hlt => hf m hm.ge (by omega) hm.mem
    have hme : m = p := by
      simp only at hb
      omega
    subst hme
    have hlost := Lost.of_search hM hs hgr hr
    have hbeh := hlost.behind
    have hmax : x + 1 = M := by
      by_contra hne
      rw [Nat.mod_eq_of_lt (by have := hM m; omega)] at hbeh
      omega
    rw [hmax, Nat.mod_self] at hlost
    exact ⟨hmax, hv, .here hm, hlost⟩

theorem Meets.search_of_free (hm : Meets T p l r r') (hr : r' = r) (hf : Free T l (p - 1))
    (h : Search M T v x l r g any g' any') (hx : v p = x) :
    Search M T v ((x + 1) % M) p r ⟨p, g.right⟩ true g' any' := by
  induction hm generalizing any
  case here hm =>
    have hle := hm.le
    have hge := hm.ge
    cases h
    case stop => omega
    case skip hf _ => exact (hm.not_free hf).elim
    case low hlt _ hm' _ | high hlt _ hm' _ =>
      obtain rfl := hm.unique hm'
      omega
    case hit _ _ hm' hs =>
      obtain rfl := hm.unique hm'
      exact hs
  case skip hle hfm _ ih =>
    cases h
    case stop => omega
    case skip _ hs => exact ih hr (fun i h₁ h₂ => hf i (by omega) h₂) hs
    case low hm _ | high hm _ | hit hm _ => exact (hm.not_free hfm).elim
  case low hm hlt _ _ => exact (hf _ hm.ge (by omega) hm.mem).elim
  case high hm _ hmt _ =>
    have := hmt.bounds
    have := hm.le
    have := hm.ge
    omega

namespace Finds

theorem eq_of_wraps (h1 : 1 < M) (h : Finds M T v x l r g) (hf : Free T l (p - 1)) (hw : Wraps M T v x l r p) :
    g = ⟨p - 1, p - 1⟩ := by
  have hb := hw.meets.bounds
  have hmem := hw.lost.mem
  cases h
  case none h => cases h.any_of_mem hb.1 hb.2.1 hmem
  case some g m h hfix =>
    have hs := hw.meets.search_of_free rfl hf h hw.val
    rw [hw.max, Nat.mod_self] at hs
    have hg := hw.lost.search h1 hs rfl
    subst hg
    have := hfix.le
    have := hfix.ge (b := p - 1) (by simp only; omega) (Int.le_refl _)
    simp only at *
    rw [show m = p - 1 by omega]

-- An entry that does not count is only returned at the left end of the region, or after the greatest key.
theorem wraps (hM : ∀ i, v i < M) (h : Finds M T v x l r g) (hf : Free T l (p - 1)) (hlp : l < p - 1)
    (hg : g.left = p - 1) : Wraps M T v x l r p := by
  cases h
  case none g h =>
    have := (h.of_free fun i h₁ h₂ hi => by cases h.any_of_mem h₁ h₂ hi).1
    subst this
    simp only at hg
    omega
  case some g m h hfix =>
    have hb := h.bounds
    have hm := h.left_mem
    have hle : l ≤ r := Int.not_lt.mp fun hlt => by cases (h.of_free fun i h₁ h₂ => by omega).2
    simp only at hb hm hg
    cases hfix
    case last hl => exact (hf m (by omega) (by omega) hl.mem).elim
    case free =>
      have hp : p ≤ g.left := by
        rcases hm with he | hT
        case inl => omega
        case inr =>
          by_contra hlt
          exact hf g.left (by omega) (by omega) hT
      have hlr : l < p ∧ p ≤ r := by omega
      exact .of_search hM hf h (by omega) hlr.1 hlr.2 hp (by omega)

end Finds

end Wraps

namespace Finds

theorem bounds (h : Finds M T v x l r g) :
    Free T l r ∧ g = ⟨l, l - 1⟩ ∨ l ≤ r ∧ l - 1 ≤ g.left ∧ g.left ≤ g.right ∧ g.right ≤ r := by
  cases h
  case none g h =>
    have hf : Free T l r := fun i h₁ h₂ hi => by cases h.any_of_mem h₁ h₂ hi
    exact .inl ⟨hf, by rw [(h.of_free hf).1]⟩
  case some g m h hf =>
    have hb := h.bounds
    simp only at hb
    have hle : l ≤ r := Int.not_lt.mp fun hlt => by cases (h.of_free fun i h₁ h₂ => by omega).2
    refine .inr ⟨hle, ?_, hf.le, by simp only; omega⟩
    exact hf.ge (by omega) (by omega)

theorem eq_of_lost (h1 : 1 < M) (h : Finds M T v x l r g) (hl : Lost M T v x l r) : g = ⟨l - 1, l - 1⟩ := by
  cases h
  case none h => cases h.any_of_mem (Int.le_refl l) hl.le hl.mem
  case some g m h hf =>
    have hg := hl.search h1 h rfl
    subst hg
    have := hf.le
    have := hf.ge (b := l - 1) (by simp only; omega) (Int.le_refl _)
    simp only at *
    rw [show m = l - 1 by omega]

-- Only a search that is lost returns a left end in front of the region.
theorem lost (hM : ∀ i, v i < M) (h : Finds M T v x l r g) (hg : g.left = l - 1) : Lost M T v x l r := by
  cases h
  case none h =>
    have := h.bounds
    simp only at this hg
    omega
  case some g m h hf =>
    have hb := h.bounds
    have hle : l ≤ r := Int.not_lt.mp fun hlt => by cases (h.of_free fun i h₁ h₂ => by omega).2
    refine .of_search hM h hle ?_
    simp only at hb hg
    cases hf
    case last hm =>
      have := hm.ge
      omega
    case free => omega

end Finds

end Bisect
