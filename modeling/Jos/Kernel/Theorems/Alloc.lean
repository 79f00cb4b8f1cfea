import Jos.Kernel.Theorems.Refs

-- The steps of the page allocator keep its invariant.

open Function RefCount

namespace Jos

namespace Kernel

variable {s s' : Kernel} {p q : Ppn}

-- `page_decref`, once it is known that it does not panic.
def dropRef (s : Kernel) (p : Ppn) : Kernel :=
  if (s.pages p).ref = 1#16 then (s.decRef p).pushFree p else s.decRef p

-- The allocator's own variables are the same.
structure SameAlloc (s s' : Kernel) : Prop where
  pages     : s'.pages = s.pages
  free      : s'.pageFreeList = s.pageFreeList
  npages    : s'.npages = s.npages
  kernPgdir : s'.kernPgdir = s.kernPgdir

-- The live environments are those with a page directory.
def HasDirs (s : Kernel) : Prop :=
  ∀ {e}, (s.envs e).status = .free ↔ (s.envs e).pgdir = none

@[simp]
theorem link_incRef : ((s.incRef p).pages q).link = (s.pages q).link := by
  by_cases h : q = p <;> simp [incRef, setPage, h]

@[simp]
theorem link_decRef : ((s.decRef p).pages q).link = (s.pages q).link := by
  by_cases h : q = p <;> simp [decRef, setPage, h]

theorem ref_incRef : ((s.incRef p).pages p).ref = (s.pages p).ref + 1#16 := by
  simp [incRef, setPage]

theorem ref_incRef_of_ne (h : q ≠ p) : ((s.incRef p).pages q).ref = (s.pages q).ref := by
  simp [incRef, setPage, h]

theorem ref_decRef : ((s.decRef p).pages p).ref = (s.pages p).ref - 1#16 := by
  simp [decRef, setPage]

theorem ref_decRef_of_ne (h : q ≠ p) : ((s.decRef p).pages q).ref = (s.pages q).ref := by
  simp [decRef, setPage, h]

@[simp]
theorem ref_pushFree : ((s.pushFree p).pages q).ref = (s.pages q).ref := by
  by_cases h : q = p <;> simp [pushFree, setPage, h]

@[simp]
theorem ref_popFree : ((s.popFree p).pages q).ref = (s.pages q).ref := by
  by_cases h : q = p <;> simp [popFree, setPage, h]

theorem link_pushFree : (fun q => ((s.pushFree p).pages q).link) =
    update (fun q => (s.pages q).link) p s.pageFreeList := by
  funext q
  by_cases h : q = p <;> simp [pushFree, setPage, h]

theorem link_popFree : (fun q => ((s.popFree p).pages q).link) =
    update (fun q => (s.pages q).link) p none := by
  funext q
  by_cases h : q = p <;> simp [popFree, setPage, h]

end Kernel

namespace PageInv

open Kernel

variable {M F : Set Ppn} {l : List Ppn} {s s' : Kernel} {p q : Ppn} {r r' : Ref}

theorem congr (h : PageInv M F l s) (ha : SameAlloc s s') (ht : s'.target = s.target)
    (hd : s'.HasDirs) : PageInv M F l s' where
  chain := by simpa only [FreeList, ha.pages, ha.free] using h.chain
  pool := by simpa only [ha.pages, ht] using h.pool
  link := by rw [ha.pages]; exact h.link
  bound := by rw [ha.npages]; exact h.bound
  owned := by rw [ht, ha.kernPgdir]; exact h.owned
  unique := by rw [ht]; exact h.unique
  kern := by rw [ha.kernPgdir]; exact h.kern
  kernUser := by rw [ht]; exact h.kernUser
  dir := hd

-- Taking the head of the free list.
theorem popFree (h : PageInv M F (p :: l) s) : PageInv M (insert p F) l (s.popFree p) where
  chain := by
    simp only [FreeList, link_popFree]
    have hc := h.chain
    rw [FreeList, hc.1] at hc
    exact hc.pop h.pool.nodup none
  pool := by
    simp only [ref_popFree]
    exact h.pool.alloc
  link := by
    intro q hq hl
    rw [congrFun link_popFree q]
    by_cases he : q = p
    case pos => simp [he]
    case neg => rw [update_of_ne he]; exact h.link hq (by simp [he, hl])
  bound := h.bound
  owned := h.owned
  unique := h.unique
  kern := h.kern
  kernUser := h.kernUser
  dir := h.dir

-- Giving a page back that has not been mapped.
theorem pushFree (h : PageInv M (insert p F) l s) (hp : p ∉ F) :
    PageInv M F (p :: l) (s.pushFree p) where
  chain := by
    simp only [FreeList, link_pushFree]
    exact Linked.Chain.push h.chain (h.pool.not_free_of_flight (by simp))
  pool := by
    simp only [ref_pushFree]
    exact h.pool.release hp
  link := by
    intro q hq hl
    simp only [List.mem_cons, not_or] at hl
    rw [congrFun link_pushFree q, update_of_ne hl.1]
    exact h.link hq hl.2
  bound := h.bound
  owned := h.owned
  unique := h.unique
  kern := h.kern
  kernUser := h.kernUser
  dir := h.dir

theorem zeroPage (h : PageInv M F l s) (hp : ¬s.Table p) : PageInv M F l (s.zeroPage p) := by
  refine h.congr ⟨rfl, rfl, rfl, rfl⟩ (target_congr rfl rfl ?_) h.dir
  intro q hq
  have hne : q ≠ p := fun e => hp (e ▸ hq)
  simp [Kernel.zeroPage, hne]

-- The count of a page that is in use.
theorem ref_eq (h : PageInv M F l s) (hp : p ∈ M) : (s.pages p).ref.toNat = s.refs p :=
  h.pool.count hp

theorem ref_pos (h : PageInv M F l s) (hp : p ∈ M) (hr : s.target r = some p) :
    0 < (s.pages p).ref.toNat := by
  rw [h.ref_eq hp]
  exact refs_pos hr

-- Storing a page that is in flight.
theorem link_flight (h : PageInv M (insert p F) l s) (hp : p ∉ F) (ha : SameAlloc s s')
    (ht : s'.target = update s.target r (some p)) (hr : s.target r = none)
    (hk : ∀ i, r = .kpde i → pdxUtop ≤ i.val) (hd : s'.HasDirs) :
    PageInv M F l (s'.incRef p) where
  chain := by
    simp only [FreeList, link_incRef, ha.pages]
    exact ha.free ▸ h.chain
  pool := by
    have hz : (s.pages p).ref.toNat = 0 := by
      have ⟨hm, hz⟩ := h.pool.flight (Set.mem_insert p F)
      rw [h.ref_eq hm, Kernel.refs, hz]
    change Pool M F s'.target _ l
    rw [ht]
    refine h.pool.link_flight hp hr ?_ ?_
    · simp only [ref_incRef, ha.pages, BitVec.toNat_add, hz]
      rfl
    · intro q hq
      simp only [ref_incRef_of_ne hq, ha.pages]
  link := by
    intro q hq hl
    simp only [link_incRef, ha.pages]
    exact h.link hq hl
  bound := by
    intro q hq
    exact ha.npages ▸ h.bound hq
  owned := by
    intro r' q hq
    change s'.target r' = some q at hq
    change _ ∨ _ ∧ q = s'.kernPgdir
    rw [ht] at hq
    rw [ha.kernPgdir]
    by_cases hc : r' = r
    case pos =>
      subst hc
      rw [update_self] at hq
      cases hq
      exact .inl (h.pool.flight (by simp)).1
    case neg =>
      rw [update_of_ne hc] at hq
      exact h.owned hq
  unique := by
    intro r₁ r₂ q ht₁ h₁ h₂
    change s'.target r₁ = some q at h₁
    change s'.target r₂ = some q at h₂
    rw [ht, update_apply] at h₁ h₂
    have hf {r'} : s.target r' ≠ some p := h.pool.not_ref_of_flight (Set.mem_insert p F)
    split at h₁ <;> split at h₂
    case isTrue.isTrue e₁ e₂ => exact e₁.trans e₂.symm
    case isTrue.isFalse => cases h₁; exact absurd h₂ hf
    case isFalse.isTrue => cases h₂; exact absurd h₁ hf
    case isFalse.isFalse => exact h.unique ht₁ h₁ h₂
  kern := by
    change s'.kernPgdir ∉ M
    exact ha.kernPgdir ▸ h.kern
  kernUser := by
    intro i hi
    change s'.target (.kpde i) = none
    have hne : Ref.kpde i ≠ r := by
      rintro rfl
      exact absurd (hk i rfl) (by omega)
    rw [ht, update_of_ne hne]
    exact h.kernUser hi
  dir := hd

-- Mapping a page that is mapped already.
theorem link_shared (h : PageInv M F l s) (hr' : s.target r' = some p) (hn' : ¬r'.IsTable)
    (hn : ¬r.IsTable) (ha : SameAlloc s s') (ht : s'.target = update s.target r (some p))
    (hr : s.target r = none) (hb : s.refs p + 1 < 2 ^ 16) (hd : s'.HasDirs) :
    PageInv M F l (s'.incRef p) := by
  have hp : p ∈ M := by
    refine (h.owned hr').resolve_right ?_
    rintro ⟨rfl, -⟩
    exact hn' trivial
  have hr₁ {r₁} (ht₁ : r₁.IsTable) : s.target r₁ ≠ some p := by
    intro h₁
    have he := h.unique ht₁ h₁ hr'
    exact hn' (he ▸ ht₁)
  exact {
    chain := by
      simp only [FreeList, link_incRef, ha.pages]
      exact ha.free ▸ h.chain
    pool := by
      change Pool M F s'.target _ l
      rw [ht]
      refine h.pool.link_shared hr' hr ?_ ?_
      · have hc := h.ref_eq hp
        have h₁ : (1#16).toNat = 1 := rfl
        simp only [ref_incRef, ha.pages, BitVec.toNat_add, h₁]
        omega
      · intro q hq
        simp only [ref_incRef_of_ne hq, ha.pages]
    link := by
      intro q hq hl
      simp only [link_incRef, ha.pages]
      exact h.link hq hl
    bound := by
      intro q hq
      exact ha.npages ▸ h.bound hq
    owned := by
      intro r₁ q hq
      change s'.target r₁ = some q at hq
      change _ ∨ _ ∧ q = s'.kernPgdir
      rw [ht] at hq
      rw [ha.kernPgdir]
      by_cases hc : r₁ = r
      case pos =>
        subst hc
        rw [update_self] at hq
        cases hq
        exact .inl hp
      case neg =>
        rw [update_of_ne hc] at hq
        exact h.owned hq
    unique := by
      intro r₁ r₂ q ht₁ h₁ h₂
      change s'.target r₁ = some q at h₁
      change s'.target r₂ = some q at h₂
      have hne : r₁ ≠ r := fun e => hn (e ▸ ht₁)
      rw [ht, update_of_ne hne] at h₁
      rw [ht, update_apply] at h₂
      split at h₂
      case isTrue => cases h₂; exact absurd h₁ (hr₁ ht₁)
      case isFalse => exact h.unique ht₁ h₁ h₂
    kern := by
      change s'.kernPgdir ∉ M
      exact ha.kernPgdir ▸ h.kern
    kernUser := by
      intro i hi
      change s'.target (.kpde i) = none
      have hne : Ref.kpde i ≠ r := fun e => hn (e ▸ trivial)
      rw [ht, update_of_ne hne]
      exact h.kernUser hi
    dir := hd }

-- Clearing a reference and dropping its count; the last one frees the page.
theorem unlink (h : PageInv M F l s) (hr : s.target r = some p) (hp : p ∈ M) (ha : SameAlloc s s')
    (ht : s'.target = update s.target r none) (hd : s'.HasDirs) :
    PageInv M F (if (s.pages p).ref = 1#16 then p :: l else l) (s'.dropRef p) := by
  have hl : p ∉ l := h.pool.not_free_of_ref hr
  have hpos := h.ref_pos hp hr
  have hc := h.ref_eq hp
  have h₁ : (1#16).toNat = 1 := rfl
  have hcount : ((s'.decRef p).pages p).ref.toNat = (s.pages p).ref.toNat - 1 := by
    rw [ref_decRef, ha.pages, BitVec.toNat_sub, h₁]
    omega
  have hother {q} (hq : q ≠ p) : ((s'.decRef p).pages q).ref.toNat = (s.pages q).ref.toNat := by
    rw [ref_decRef_of_ne hq, ha.pages]
  have howned {r₁ q} (hq : s'.target r₁ = some q) :
      q ∈ M ∨ (r₁ = .kpde (pdx uvpt) ∧ q = s'.kernPgdir) := by
    rw [ht, update_apply] at hq
    rw [ha.kernPgdir]
    split at hq
    case isTrue => cases hq
    case isFalse => exact h.owned hq
  have hunique {r₁ r₂ : Ref} {q} (ht₁ : r₁.IsTable) (h₁ : s'.target r₁ = some q)
      (h₂ : s'.target r₂ = some q) : r₁ = r₂ := by
    rw [ht, update_apply] at h₁ h₂
    split at h₁
    case isTrue => cases h₁
    case isFalse =>
      split at h₂
      case isTrue => cases h₂
      case isFalse => exact h.unique ht₁ h₁ h₂
  have hkern {i : Ptx} (hi : i.val < pdxUtop) : s'.target (.kpde i) = none := by
    rw [ht, update_apply]
    split
    case isTrue => rfl
    case isFalse => exact h.kernUser hi
  rw [dropRef, ha.pages]
  by_cases h1 : (s.pages p).ref = 1#16
  case pos =>
    rw [if_pos h1, if_pos h1]
    exact {
      chain := by
        simp only [FreeList, link_pushFree, link_decRef, ha.pages]
        have := Linked.Chain.push h.chain hl
        rw [← ha.free] at this
        exact this
      pool := by
        change Pool M F s'.target _ (p :: l)
        rw [ht]
        simp only [ref_pushFree]
        refine h.pool.unlink_last hr ?_ ?_ (fun q hq => hother hq) hp
        · rw [h1]; rfl
        · rw [hcount, h1]; rfl
      link := by
        intro q hq hl'
        simp only [List.mem_cons, not_or] at hl'
        rw [congrFun link_pushFree q, update_of_ne hl'.1]
        simp only [link_decRef, ha.pages]
        exact h.link hq hl'.2
      bound := fun hq => ha.npages ▸ h.bound hq
      owned := howned
      unique := hunique
      kern := fun hk => h.kern (ha.kernPgdir ▸ hk)
      kernUser := hkern
      dir := hd }
  case neg =>
    rw [if_neg h1, if_neg h1]
    have hge : (s.pages p).ref.toNat ≠ 1 := fun e => h1 (BitVec.eq_of_toNat_eq (e.trans h₁.symm))
    exact {
      chain := by
        simp only [FreeList, link_decRef, ha.pages]
        exact ha.free ▸ h.chain
      pool := by
        change Pool M F s'.target _ l
        rw [ht]
        refine h.pool.unlink_shared hr ?_ ?_ (fun q hq => hother hq) hp
        · rw [hcount]; omega
        · rw [hcount]; omega
      link := by
        intro q hq hl'
        simp only [link_decRef, ha.pages]
        exact h.link hq hl'
      bound := fun hq => ha.npages ▸ h.bound hq
      owned := howned
      unique := hunique
      kern := fun hk => h.kern (ha.kernPgdir ▸ hk)
      kernUser := hkern
      dir := hd }

end PageInv

end Jos
