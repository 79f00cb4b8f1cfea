import Jos.Kernel.Theorems.Blank
import Jos.Kernel.Theorems.UserMem

-- Which addresses the system calls that deal with pages accept.

open Function Program

namespace Jos

open Kernel

variable {s s' : Kernel} {c : CpuIx} {a e src dst : EnvIx} {va srcva dstva perm : Word} {envid srcid dstid : EnvId}

-- The address of a page of the user part.
def PageVa (va : Word) : Prop :=
  va < utop ∧ va.toNat % 4096 = 0

-- The addresses on which the test with a signed remainder is right. Between 2^31 and `UTOP` the remainder is
-- never positive.
def Caught (va : Word) : Prop :=
  va.toNat % 4096 = 0 ∨ va.toNat < 2 ^ 31 ∨ utop ≤ va

instance : Decidable (Caught va) :=
  inferInstanceAs (Decidable (_ ∨ _ ∨ _))

theorem srem_pos : (0#32).slt (va.srem pgsize) = true ↔ va.toNat < 2 ^ 31 ∧ va.toNat % 4096 ≠ 0 := by
  have hp : pgsize.toInt = 4096 := rfl
  have hlt := va.isLt
  have hz : (0#32).toInt = 0 := rfl
  rw [BitVec.slt_iff_toInt_lt, BitVec.toInt_srem, hp, hz, BitVec.toInt_eq_toNat_cond]
  split
  case isTrue h =>
    rw [Int.tmod_eq_emod_of_nonneg (by omega)]
    omega
  case isFalse h =>
    refine iff_of_false (fun ht => ?_) fun ht => h (by omega)
    rw [← neg_neg ((va.toNat : Int) - _), Int.neg_tmod, Int.tmod_eq_emod_of_nonneg (by omega)] at ht
    omega

-- What the test of the page calls refuses.
theorem badVa_iff : badVa va = true ↔ utop ≤ va ∨ (va.toNat < 2 ^ 31 ∧ va.toNat % 4096 ≠ 0) := by
  simp only [badVa, Bool.or_eq_true, decide_eq_true_eq, srem_pos, ge_iff_le]

theorem badVa_of_pageVa (h : PageVa va) : badVa va = false := by
  rw [← Bool.not_eq_true, badVa_iff]
  rintro (hu | hm)
  case inl => exact absurd h.1 (BitVec.not_lt.mpr hu)
  case inr => exact hm.2 h.2

theorem badVa_of_caught (hc : Caught va) (h : ¬PageVa va) : badVa va = true := by
  rw [badVa_iff]
  by_cases hu : utop ≤ va
  case pos => exact .inl hu
  case neg =>
    have hm : va.toNat % 4096 ≠ 0 := fun hm => h ⟨BitVec.not_le.mp hu, hm⟩
    obtain hc | hc | hc := hc
    case inl => exact absurd hc hm
    case inr.inl => exact .inr ⟨hc, hm⟩
    case inr.inr => exact absurd hc hu

-- An address the test lets pass by mistake.
theorem not_badVa_of_not_caught (hc : ¬Caught va) : badVa va = false ∧ ¬PageVa va := by
  simp only [Caught, not_or] at hc
  refine ⟨?_, fun h => hc.1 h.2⟩
  rw [← Bool.not_eq_true, badVa_iff]
  rintro (hu | hm)
  case inl => exact hc.2.2 hu
  case inr => exact hc.2.1 hm.1

-- The alignment test of the calls for messages.
theorem roundDown_eq_iff : roundDown va pgsize = va ↔ va.toNat % 4096 = 0 := by
  rw [← BitVec.toNat_inj, toNat_roundDown]
  omega

namespace Kernel

-- `envid` stands for the environment `e`, for a caller on the processor `c`.
def Names (s : Kernel) (c : CpuIx) (envid : EnvId) (e : EnvIx) : Prop :=
  (envid2env c envid true).run s = .ok (some e) s

-- `sys_page_map` finds no page at `srcva`, or it may not be written to.
def Unmappable (s : Kernel) (src : EnvIx) (srcva perm : Word) : Prop :=
  ∃ pd r s', (s.envs src).pgdir = some pd ∧ (pageLookup pd srcva).run s = .ok r s' ∧
    ∀ x, r = some x → has (s'.pte x.2) pteW = false ∧ has perm pteW = true

end Kernel

-- The calls refuse `va` if and only if it is not the address of a user page.
structure VaChecked (va : Word) : Prop where
  alloc : ∀ s c envid e perm, Names s c envid e → permOk perm = true →
    (¬PageVa va → (sysPageAlloc c envid va perm).run s = .ok einval s) ∧
    (PageVa va → ∀ s', (sysPageAlloc c envid va perm).run s ≠ .ok einval s')
  unmap : ∀ s c envid e, Names s c envid e →
    (¬PageVa va → (sysPageUnmap c envid va).run s = .ok einval s) ∧
    (PageVa va → ∀ s', (sysPageUnmap c envid va).run s ≠ .ok einval s')
  map : ∀ s c srcid src srcva dstid dst dstva perm, Names s c srcid src → Names s c dstid dst → permOk perm = true →
    srcva = va ∨ dstva = va →
    (¬PageVa va → (sysPageMap c srcid srcva dstid dstva perm).run s = .ok einval s) ∧
    (PageVa srcva → PageVa dstva → ∀ s', (sysPageMap c srcid srcva dstid dstva perm).run s = .ok einval s' →
      s.Unmappable src srcva perm)
  ipc : va < utop → (badVa va = true ↔ roundDown va pgsize ≠ va)

section Calls

theorem enomem_ne_einval : enomem ≠ einval := by
  decide

theorem zero_ne_einval : 0#32 ≠ einval := by
  decide

-- What follows once the environment has been found.
theorem wp_names {f : Option EnvIx → K Word} {Q : Word → Kernel → Prop} {E : Exit → Kernel → Prop}
    (he : Names s c envid e) : wp (envid2env c envid true >>= f) Q E s ↔ wp (f (some e)) Q E s :=
  wp_bind_of_ok he

theorem sysPageAlloc_badVa (he : Names s c envid e) (hv : badVa va = true) :
    (sysPageAlloc c envid va perm).run s = .ok einval s := by
  rw [Names] at he
  simp [sysPageAlloc, he, hv]

theorem sysPageAlloc_goodVa (he : Names s c envid e) (hv : badVa va = false) (hp : permOk perm = true) :
    (sysPageAlloc c envid va perm).run s ≠ .ok einval s' := by
  intro hr
  have hw : wp (sysPageAlloc c envid va perm) (fun r _ => r ≠ einval) (fun _ _ => True) s := by
    rw [sysPageAlloc, wp_names he]
    simp only [hv, hp, Bool.false_eq_true, Bool.not_true, if_false]
    refine wp_seq wp_trivial fun o s₁ _ => ?_
    cases o
    case none => exact enomem_ne_einval
    case some pp =>
      refine wp_seq wp_trivial fun pd s₂ _ => ?_
      refine wp_seq wp_trivial fun r s₃ _ => ?_
      split
      case isTrue =>
        refine wp_seq wp_trivial fun _ s₄ _ => ?_
        exact enomem_ne_einval
      case isFalse => exact zero_ne_einval
  exact wp_ok hw hr rfl

theorem sysPageUnmap_badVa (he : Names s c envid e) (hv : badVa va = true) :
    (sysPageUnmap c envid va).run s = .ok einval s := by
  rw [Names] at he
  simp [sysPageUnmap, he, hv]

theorem sysPageUnmap_goodVa (he : Names s c envid e) (hv : badVa va = false) :
    (sysPageUnmap c envid va).run s ≠ .ok einval s' := by
  intro hr
  have hw : wp (sysPageUnmap c envid va) (fun r _ => r ≠ einval) (fun _ _ => True) s := by
    rw [sysPageUnmap, wp_names he]
    simp only [hv, Bool.false_eq_true, if_false]
    refine wp_seq wp_trivial fun pd s₁ _ => ?_
    refine wp_seq wp_trivial fun _ s₂ _ => ?_
    exact zero_ne_einval
  exact wp_ok hw hr rfl

theorem sysPageMap_badVa (hs : Names s c srcid src) (hd : Names s c dstid dst)
    (hv : badVa srcva = true ∨ badVa dstva = true) :
    (sysPageMap c srcid srcva dstid dstva perm).run s = .ok einval s := by
  rw [Names] at hs hd
  cases hv₁ : badVa srcva
  case true => simp [sysPageMap, hs, hd, hv₁]
  case false =>
    have hv₂ : badVa dstva = true := hv.resolve_left (by simp [hv₁])
    simp [sysPageMap, hs, hd, hv₁, hv₂]

-- After the tests of the addresses, `sys_page_map` fails with `-E_INVAL` only because of the page itself.
theorem sysPageMap_goodVa (hs : Names s c srcid src) (hd : Names s c dstid dst) (hv₁ : badVa srcva = false)
    (hv₂ : badVa dstva = false) (hp : permOk perm = true)
    (hr : (sysPageMap c srcid srcva dstid dstva perm).run s = .ok einval s') : s.Unmappable src srcva perm := by
  have hw : wp (sysPageMap c srcid srcva dstid dstva perm) (fun r _ => r = einval → s.Unmappable src srcva perm)
      (fun _ _ => True) s := by
    rw [sysPageMap, wp_names hs, wp_names hd]
    simp only [hv₁, hv₂, hp, Bool.false_eq_true, Bool.not_true, if_false]
    cases hd : (s.envs src).pgdir
    case none =>
      have hn : (envPgdir src).run s = .error (.fault 0#32) s := by simp [envPgdir, hd]
      exact (wp_bind_of_error hn).mpr trivial
    case some pd =>
      have hn : (envPgdir src).run s = .ok pd s := by simp [envPgdir, hd]
      rw [wp_bind_of_ok hn]
      cases hl : (pageLookup pd srcva).run s
      case error => exact (wp_bind_of_error hl).mpr trivial
      case ok r s₁ =>
        rw [wp_bind_of_ok hl]
        cases r
        case none => exact fun _ => ⟨pd, none, s₁, hd, hl, by simp⟩
        case some x =>
          simp only [mapShared, wp_bind_get]
          split
          case isTrue hw =>
            refine fun _ => ⟨pd, some x, s₁, hd, hl, fun y hy => ?_⟩
            cases hy
            simpa using hw
          case isFalse =>
            refine wp_seq wp_trivial fun _ s₂ _ => ?_
            refine wp_seq wp_trivial fun _ s₃ _ => ?_
            split
            case isTrue => exact fun hc => absurd hc enomem_ne_einval
            case isFalse => exact fun hc => absurd hc zero_ne_einval
  exact wp_ok hw hr rfl

end Calls

end Jos
