import Jos.Kernel.Theorems.Memory

-- What `user_mem_check` decides about a range of addresses that ends at the boundary of a page.

open Function Program

namespace Jos

open Kernel

variable {M : Set Ppn} {l : List Ppn} {s s' : Kernel} {c : CpuIx} {a : EnvIx} {pd t : Ppn}
  {va va' lower upper perm : Word}

-- The addresses of one page have the same indices.
theorem same_indices (h : va.toNat / 4096 = va'.toNat / 4096) : pdx va = pdx va' ∧ ptx va = ptx va' := by
  refine ⟨Fin.ext ?_, Fin.ext ?_⟩
  case refine_1 =>
    rw [val_pdx, val_pdx]
    omega
  case refine_2 =>
    rw [val_ptx, val_ptx]
    omega

theorem toNat_roundDown : (roundDown va pgsize).toNat = va.toNat / 4096 * 4096 := by
  have hp : pgsize.toNat = 4096 := rfl
  have hm : (va % pgsize).toNat = va.toNat % 4096 := by rw [BitVec.toNat_umod, hp]
  have hlt := va.isLt
  rw [roundDown, BitVec.toNat_sub, hm]
  omega

namespace Kernel

-- The test `user_mem_check` applies to the page that contains `va`: one of the bits is enough.
def grants (s : Kernel) (pd : Ppn) (va perm : Word) : Bool :=
  has (s.entry pd (pdx va) (ptx va)) (perm ||| pteP)

theorem grants_congr (h : va.toNat / 4096 = va'.toNat / 4096) : s.grants pd va perm = s.grants pd va' perm := by
  have ⟨hd, ht⟩ := same_indices h
  simp only [grants, hd, ht]

-- All pages that meet the range pass the test.
def GrantsAll (s : Kernel) (pd : Ppn) (lower upper perm : Word) : Prop :=
  ∀ va, lower ≤ va → va < upper → s.grants pd va perm = true

end Kernel

theorem entryAllows_run (hb : ∀ t, s.table pd (pdx va) = some t → t.toNat < s.npages) :
    (entryAllows pd va perm).run s = .ok (s.grants pd va perm) s := by
  cases ht : s.table pd (pdx va)
  case none =>
    have hz : has 0#32 (perm ||| pteP) = false := by simp [has]
    simp [entryAllows, pgdirWalk_none ht, grants, entry, ht, hz]
  case some t => simp [entryAllows, pgdirWalk_some ht (hb t ht), grants, entry, ht, pte]

namespace Kernel

-- `x` is the first page from `lower` on that does not pass the test.
structure FirstRefused (s : Kernel) (pd : Ppn) (lower upper perm x : Word) : Prop where
  page    : x.toNat % 4096 = 0
  above   : lower ≤ x
  below   : x < upper
  refused : s.grants pd x perm = false
  before  : s.GrantsAll pd lower x perm

end Kernel

section Loop

-- The loop visits the pages from `lower` to `upper`, and stops at the first that fails the test.
theorem userMemCheckLoop_wp {n : Nat} (hb : ∀ a t, lower ≤ a → a < upper → s.table pd (pdx a) = some t → t.toNat < s.npages)
    (hl : lower.toNat % 4096 = 0) (hu : upper.toNat % 4096 = 0) (hlt : lower < upper)
    (hn : upper.toNat - lower.toNat ≤ n * 4096) :
    wp (userMemCheckLoop pd va upper perm n lower)
      (fun r s' => (r = true ∧ s' = s ∧ s.GrantsAll pd lower upper perm) ∨
        (r = false ∧ ∃ x, s.FirstRefused pd lower upper perm x ∧
          s' = { s with userMemCheckAddr := if va < x then x else va })) (fun _ _ => False) s := by
  induction n generalizing lower
  case zero => bv_omega
  case succ n ih =>
    have hp : pgsize.toNat = 4096 := rfl
    have hadd : (lower + pgsize).toNat = lower.toNat + 4096 := by
      have := upper.isLt
      rw [BitVec.toNat_add, hp]
      bv_omega
    -- The first page of the range is the one of `lower`.
    have hfirst : ∀ a, lower ≤ a → ¬lower + pgsize ≤ a → s.grants pd a perm = s.grants pd lower perm := by
      intro a ha hn
      refine grants_congr ?_
      rw [BitVec.le_def, hadd] at hn
      rw [BitVec.le_def] at ha
      omega
    rw [userMemCheckLoop, wp_bind_of_ok (entryAllows_run fun t => hb lower t (BitVec.le_refl _) hlt)]
    cases hg : s.grants pd lower perm
    case false =>
      refine .inr ⟨rfl, lower, ⟨hl, BitVec.le_refl _, hlt, hg, fun a ha hau => ?_⟩, rfl⟩
      exact absurd hau (BitVec.not_lt.mpr ha)
    case true =>
      simp only [if_true]
      split
      case isTrue hlt' =>
        refine wp_mono (ih (fun a t ha => hb a t (by bv_omega)) (by omega) hlt' (by omega)) ?_ fun _ _ => id
        rintro r s' (⟨rfl, hs, hall⟩ | ⟨rfl, x, hx, hs⟩)
        case inl =>
          refine .inl ⟨rfl, hs, fun a ha hau => ?_⟩
          by_cases hn : lower + pgsize ≤ a
          case pos => exact hall a hn hau
          case neg => rw [hfirst a ha hn, hg]
        case inr =>
          have hx' := hx.above
          refine .inr ⟨rfl, x, ⟨hx.page, by bv_omega, hx.below, hx.refused, fun a ha hau => ?_⟩, hs⟩
          by_cases hn : lower + pgsize ≤ a
          case pos => exact hx.before a hn hau
          case neg => rw [hfirst a ha hn, hg]
      case isFalse hnlt =>
        refine .inl ⟨rfl, rfl, fun a ha hau => ?_⟩
        rw [hfirst a ha (by bv_omega), hg]

-- A range that starts anywhere in a page meets the same pages as one that starts at the page.
theorem grantsAll_roundDown (hlt : va < upper) :
    s.GrantsAll pd (roundDown va pgsize) upper perm ↔ s.GrantsAll pd va upper perm := by
  have hr : (roundDown va pgsize).toNat = va.toNat / 4096 * 4096 := toNat_roundDown
  refine ⟨fun h a ha hau => h a ?_ hau, fun h a ha hau => ?_⟩
  case refine_1 =>
    rw [BitVec.le_def, hr]
    rw [BitVec.le_def] at ha
    omega
  case refine_2 =>
    by_cases hc : va ≤ a
    case pos => exact h a hc hau
    case neg =>
      rw [← h va (BitVec.le_refl _) hlt]
      refine grants_congr ?_
      rw [BitVec.le_def, hr] at ha
      rw [BitVec.le_def] at hc
      omega

-- The check of the range from `va` to `upper`.
theorem userMemCheck_wp (hb : ∀ i t, i.val < pdxUtop → s.table pd i = some t → t.toNat < s.npages)
    (hu : upper.toNat % 4096 = 0) (hlt : va < upper) (hut : upper ≤ utop) :
    wp (userMemCheck pd va (upper - va) perm)
      (fun r s' => UpToAddr s s' ∧ (r.slt 0#32 = false ↔ s.GrantsAll pd va upper perm)) (fun _ _ => False) s := by
  have he : va + (upper - va) = upper := by bv_omega
  have hr : roundDown upper pgsize = upper := BitVec.eq_of_toNat_eq (by rw [toNat_roundDown]; omega)
  have hd : (roundDown va pgsize).toNat = va.toNat / 4096 * 4096 := toNat_roundDown
  have hul : ¬upper ≥ ulim := by
    have ht : utop.toNat = 0xEEC00000 := rfl
    have hl : ulim.toNat = 0xEF800000 := rfl
    bv_omega
  rw [userMemCheck, he, hr]
  have hlow : roundDown va pgsize < upper := by
    rw [BitVec.lt_def, hd]
    have := BitVec.lt_def.mp hlt
    omega
  have hn : upper.toNat - (roundDown va pgsize).toNat ≤ (2 ^ 20 + 1) * 4096 := by
    have := upper.isLt
    omega
  have hb' : ∀ a t, roundDown va pgsize ≤ a → a < upper → s.table pd (pdx a) = some t → t.toNat < s.npages :=
    fun a t _ ha => hb _ t (pdx_lt (by bv_omega))
  refine wp_seq (userMemCheckLoop_wp hb' (by omega) hu hlow hn) ?_
  rintro r s₁ (⟨rfl, rfl, hall⟩ | ⟨rfl, x, hx, rfl⟩)
  case inl =>
    simp only [if_true, if_neg hul]
    exact ⟨.refl _, fun _ => (grantsAll_roundDown hlt).mp hall, fun _ => by decide⟩
  case inr =>
    refine ⟨⟨_, rfl⟩, fun hf => absurd hf (by decide), fun hall => ?_⟩
    have hg := (grantsAll_roundDown hlt).mpr hall x hx.above hx.below
    rw [hx.refused] at hg
    cases hg

end Loop

end Jos
