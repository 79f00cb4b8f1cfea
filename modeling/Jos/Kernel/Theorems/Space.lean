import Jos.Kernel.Theorems.MapRegion
import Jos.Kernel.Theorems.Mapping
import Jos.Kernel.Theorems.Memory
import Jos.Kernel.Icode
import Mathlib.Data.Fintype.Prod

-- The address space of an environment while `region_alloc` adds pages to it.

open Function Program

namespace Jos

open Kernel

variable {s s' s₀ : Kernel} {c : CpuIx} {e : EnvIx} {pd p pp t q : Ppn} {l l₀ : List Ppn} {D : Finset (Ptx × Ptx)}
  {T : Finset Ptx} {i j i' j' : Ptx} {va va' w : Word} {a : Access} {b : BitVec 8} {used : Nat}

-- The entry `region_alloc` makes for a page.
def userEntry (p : Ppn) : Word :=
  page2pa p ||| (pteU ||| pteW) ||| pteP

theorem entryPage_userEntry : entryPage (userEntry p) = some p :=
  entryPage_insert (by decide)

theorem userEntry_inj (h : userEntry p = userEntry q) : p = q :=
  Option.some.inj <| by rw [← entryPage_userEntry, h, entryPage_userEntry]

theorem userEntry_has : has (userEntry p) pteU = true ∧ has (userEntry p) pteW = true := by
  rw [userEntry, has_or, has_or, has_or, has_or, has_or, has_or]
  simp [has, pteU, pteW]

theorem tableEntry_has : has (page2pa t ||| pteP ||| pteU ||| pteW) pteU = true ∧
    has (page2pa t ||| pteP ||| pteU ||| pteW) pteW = true := by
  simp only [has_or]
  simp [has, pteU, pteW]

namespace Kernel

-- What a program whose page directory is `pd` reads at `va`.
def userByte (s : Kernel) (pd : Ppn) (va : Word) : Option (BitVec 8) :=
  (s.translate pd va ⟨true, false⟩).map (s.byteAt · va)

-- `pp` is taken off the free list and not used yet.
structure Loose (s : Kernel) (pd : Ppn) (l₀ l : List Ppn) (pp : Ppn) : Prop where
  old   : pp ∈ l₀
  taken : pp ∉ l
  table : ∀ i, s.table pd i ≠ some pp
  entry : ∀ {i j}, i.val < pdxUtop → s.entry pd i j ≠ userEntry pp

end Kernel

-- Below `UTOP` the directory `pd` has the pages `D`, and page tables for the indices `T`. All these are pages which have
-- been on the free list `l₀`; nothing else has changed.
structure Space (pd : Ppn) (l₀ : List Ppn) (D : Finset (Ptx × Ptx)) (T : Finset Ptx) (s₀ : Kernel) (used : Nat)
    (l : List Ppn) (s : Kernel) : Prop where
  pgdir : PgdirInv pd l s
  count : l.length + used = l₀.length
  sub   : ∀ {p}, p ∈ l → p ∈ l₀
  dir   : pd ∉ l₀
  user  : ∀ {i j}, (i, j) ∈ D → i.val < pdxUtop
  table : ∀ {i}, i.val < pdxUtop → (s.table pd i = none ↔ i ∉ T)
  pde   : ∀ {i t}, i.val < pdxUtop → s.table pd i = some t →
    t ∈ l₀ ∧ s.mem pd i = page2pa t ||| pteP ||| pteU ||| pteW
  entry : ∀ {i j}, i.val < pdxUtop → (i, j) ∉ D → s.entry pd i j = 0#32
  frame : ∀ {i j}, (i, j) ∈ D →
    ∃ p ∈ l₀, p ∉ l ∧ s.entry pd i j = userEntry p ∧ ∀ i', s.table pd i' ≠ some p
  inj   : ∀ {i j i' j'}, (i, j) ∈ D → (i', j') ∈ D → s.entry pd i j = s.entry pd i' j' → (i, j) = (i', j')
  other : ∀ {q}, q ∉ l₀ → q ≠ pd → s.mem q = s₀.mem q
  upper : ∀ {i}, ¬i.val < pdxUtop → s.mem pd i = s₀.mem pd i
  rest  : s = { s₀ with mem := s.mem, pages := s.pages, pageFreeList := s.pageFreeList }

theorem PgdirInv.popFree (h : PgdirInv pd (pp :: l) s) : PgdirInv pd l (s.popFree pp) := by
  refine ⟨h.list.pop, fun {p} hp => ?_, fun hp => h.bound (by simp [hp]), fun hp => h.dir (by simp [hp]),
    fun ht hp => h.table ht (by simp [hp]), h.exist, h.unique⟩
  rw [ref_popFree]
  exact h.ref (by simp [hp])

theorem PgdirInv.incRef (h : PgdirInv pd l s) (hp : pp ∉ l) : PgdirInv pd l (s.incRef pp) := by
  refine ⟨?_, fun {p} hl => ?_, h.bound, h.dir, h.table, h.exist, h.unique⟩
  case refine_1 =>
    refine Linked.Chain.congr h.list fun q _ => ?_
    simp
  case refine_2 =>
    have hne : p ≠ pp := by
      rintro rfl
      exact hp hl
    rw [show ((s.incRef pp).pages p).ref = (s.pages p).ref by simp [Kernel.incRef, setPage, hne]]
    exact h.ref hl

-- The directory of an environment.
theorem PgdirInv.of_pgdirOf {M : Set Ppn} (h : PageInv M ∅ l s) (hk : KernHalf s₀ s) (hd : s.pgdirOf e = some pd) :
    PgdirInv pd l s := by
  have hg : s.target (.pgdir e) = some pd := hd
  have hne : pd ≠ s.kernPgdir := by
    rintro rfl
    exact h.kern (h.pgdir_mem hd)
  have hself : s.IsPgdir pd := .inr ⟨e, hd⟩
  refine ⟨h.chain, fun hp => ?_, fun hp => h.bound (h.pool.mem_free.mp hp).1, h.pool.not_free_of_ref hg,
    fun {i t} ht => ?_, fun {i t} ht hn => ?_, fun {i i' t} ht ht' => ?_⟩
  case refine_1 =>
    have hm := h.pool.mem_free.mp hp
    apply BitVec.eq_of_toNat_eq
    rw [h.ref_eq hm.1]
    exact hm.2.1
  case refine_2 =>
    obtain ⟨-, rfl⟩ | ⟨e', -, hr⟩ | ⟨hr, -⟩ := hk.table_cases hself ht
    case inl => exact h.pool.not_free_of_ref hg
    case inr.inl => exact h.pool.not_free_of_ref hr
    case inr.inr => exact h.pool.not_free_of_ref hr
  case refine_3 =>
    obtain ⟨-, rfl⟩ | ⟨e', -, hr⟩ | ⟨hr, hi⟩ := hk.table_cases hself ht
    case inl => exact (hn rfl).elim
    case inr.inl => exact h.bound (h.table_mem hr)
    case inr.inr =>
      refine h.bound ((h.owned hr).resolve_right ?_)
      rintro ⟨he, -⟩
      exact hi.elim hne fun hi => hi (Ref.kpde.inj he)
  case refine_4 =>
    obtain ⟨rfl, rfl⟩ | ⟨e₁, -, hr⟩ | ⟨hr, -⟩ := hk.table_cases hself ht <;>
      obtain ⟨rfl, he⟩ | ⟨e₂, -, hr'⟩ | ⟨hr', -⟩ := hk.table_cases hself ht'
    case inl.inl => rfl
    case inl.inr.inl => cases h.unique (by trivial) hg hr'
    case inl.inr.inr => cases h.unique (by trivial) hg hr'
    case inr.inl.inl =>
      subst he
      cases h.unique (by trivial) hg hr
    case inr.inl.inr.inl => exact (Ref.pde.inj (h.unique (by trivial) hr hr')).2
    case inr.inl.inr.inr => cases h.unique (by trivial) hr hr'
    case inr.inr.inl =>
      subst he
      cases h.unique (by trivial) hg hr
    case inr.inr.inr.inl => cases h.unique (by trivial) hr hr'
    case inr.inr.inr.inr => exact Ref.kpde.inj (h.unique (by trivial) hr hr')

namespace Space

-- At first there is nothing below `UTOP`.
theorem empty (h : PgdirInv pd l s) (hz : ∀ i, i.val < pdxUtop → s.table pd i = none) : Space pd l ∅ ∅ s 0 l s := by
  refine ⟨h, rfl, id, h.dir, fun hx => ?_, fun hi => by simp [hz _ hi], fun hi ht => ?_, fun {i j} hi _ => ?_,
    fun hx => ?_, fun hx => ?_, fun _ _ => rfl, fun _ => rfl, rfl⟩
  case refine_1 => simp at hx
  case refine_2 => cases (hz _ hi).symm.trans ht
  case refine_3 => rw [Kernel.entry, hz i hi]
  case refine_4 => simp at hx
  case refine_5 => simp at hx

section

variable (h : Space pd l₀ D T s₀ used l s)

include h in
theorem table_ne_dir (hi : i.val < pdxUtop) : s.table pd i ≠ some pd :=
  fun ht => h.dir (h.pde hi ht).1

include h in
theorem mem_table (hx : (i, j) ∈ D) : ∃ t, s.table pd i = some t := by
  obtain ⟨p, -, -, he, -⟩ := h.frame hx
  cases ht : s.table pd i
  case some t => exact ⟨t, rfl⟩
  case none =>
    have hz : s.entry pd i j = 0#32 := by rw [Kernel.entry, ht]
    have hn := congrArg entryPage (hz.symm.trans he)
    rw [entryPage_zero, entryPage_userEntry] at hn
    cases hn

include h in
-- The pages can be read and written.
theorem translate (hx : (pdx va, ptx va) ∈ D) (he : s.entry pd (pdx va) (ptx va) = userEntry p) :
    s.translate pd va a = some p := by
  obtain ⟨t, ht⟩ := h.mem_table hx
  obtain ⟨-, hd⟩ := h.pde (h.user hx) ht
  have hu := userEntry_has (p := p)
  have hd' := tableEntry_has (t := t)
  simp [Kernel.translate, he, hd, hu, hd', entryPage_userEntry]

include h in
theorem translate_none (hi : (pdx va).val < pdxUtop) (hx : (pdx va, ptx va) ∉ D) : s.translate pd va a = none := by
  simp [Kernel.translate, h.entry hi hx, entryPage_zero]

include h in
theorem userByte_eq (hx : (pdx va, ptx va) ∈ D) (he : s.entry pd (pdx va) (ptx va) = userEntry p) :
    s.userByte pd va = some (s.byteAt p va) := by
  rw [Kernel.userByte, h.translate hx he, Option.map_some]

-- What is read does not change with the entry and its page.
theorem userByte_congr {T' : Finset Ptx} {D' : Finset (Ptx × Ptx)} {used' : Nat} {l' : List Ppn}
    (h : Space pd l₀ D T s₀ used l s) (h' : Space pd l₀ D' T' s₀ used' l' s') (hx : (pdx va, ptx va) ∈ D)
    (hx' : (pdx va, ptx va) ∈ D') (he : s'.entry pd (pdx va) (ptx va) = s.entry pd (pdx va) (ptx va))
    (hm : ∀ p, s.entry pd (pdx va) (ptx va) = userEntry p → s'.mem p = s.mem p) :
    s'.userByte pd va = s.userByte pd va := by
  obtain ⟨p, -, -, hp, -⟩ := h.frame hx
  rw [h.userByte_eq hx hp, h'.userByte_eq hx' (he.trans hp), Kernel.byteAt, Kernel.byteAt, hm p hp]

end

section PopFree

variable (h : Space pd l₀ D T s₀ used (pp :: l) s)

include h in
-- A page is taken off the free list.
theorem popFree : Space pd l₀ D T s₀ (used + 1) l (s.popFree pp) := by
  refine ⟨h.pgdir.popFree, ?_, fun hp => h.sub (by simp [hp]), h.dir, h.user, h.table, h.pde, h.entry, fun hx => ?_,
    h.inj, h.other, h.upper, by rw [h.rest]; rfl⟩
  case refine_1 =>
    have := h.count
    simp only [List.length_cons] at this
    omega
  case refine_2 =>
    obtain ⟨p, hp, hl, hf⟩ := h.frame hx
    exact ⟨p, hp, fun hm => hl (by simp [hm]), hf⟩

include h in
theorem loose : (s.popFree pp).Loose pd l₀ l pp := by
  refine ⟨h.sub (by simp), h.pgdir.not_mem, fun i ht => h.pgdir.table ht (by simp), fun {i j} hi he => ?_⟩
  have he' : s.entry pd i j = userEntry pp := he
  by_cases hx : (i, j) ∈ D
  case pos =>
    obtain ⟨p, -, hl, hp, -⟩ := h.frame hx
    cases userEntry_inj (hp.symm.trans he')
    exact hl (by simp)
  case neg =>
    have hn := congrArg entryPage ((h.entry hi hx).symm.trans he')
    rw [entryPage_zero, entryPage_userEntry] at hn
    cases hn

end PopFree

section AddTable

variable (h : Space pd l₀ D T s₀ used (t :: l) s) (hi : i.val < pdxUtop) (hn : s.table pd i = none)

include h hi hn in
theorem addTable : Space pd l₀ D (insert i T) s₀ (used + 1) l (s.addTable pd i t) := by
  have hne := h.pgdir.ne_dir
  have hentry {i' j} (hi' : i'.val < pdxUtop) : (s.addTable pd i t).entry pd i' j = s.entry pd i' j :=
    h.pgdir.entry_addTable hn (h.table_ne_dir hi')
  refine ⟨h.pgdir.addTable hn, ?_, fun hp => h.sub (by simp [hp]), h.dir, h.user, fun {i'} hi' => ?_,
    fun {i' t'} hi' ht => ?_, fun hi' hx => ?_, fun {i' j} hx => ?_, fun hx hx' he => ?_, fun {q} hq hqd => ?_,
    fun {i'} hi' => ?_, ?_⟩
  case refine_1 =>
    have := h.count
    simp only [List.length_cons] at this
    omega
  case refine_2 =>
    by_cases hii : i' = i
    case pos => simp [hii, PageInv.table_addTable]
    case neg =>
      rw [h.pgdir.table_addTable_ne hii, h.table hi']
      simp [hii]
  case refine_3 =>
    by_cases hii : i' = i
    case pos =>
      subst hii
      cases PageInv.table_addTable.symm.trans ht
      exact ⟨h.sub (by simp), PgdirInv.dir_addTable_self⟩
    case neg =>
      rw [h.pgdir.table_addTable_ne hii] at ht
      rw [h.pgdir.dir_addTable hii]
      exact h.pde hi' ht
  case refine_4 => rw [hentry hi', h.entry hi' hx]
  case refine_5 =>
    obtain ⟨p, hp, hl, he, ht⟩ := h.frame hx
    refine ⟨p, hp, fun hm => hl (by simp [hm]), (hentry (h.user hx)).trans he, fun i'' ht' => ?_⟩
    by_cases hii : i'' = i
    case pos =>
      subst hii
      cases PageInv.table_addTable.symm.trans ht'
      exact hl (by simp)
    case neg =>
      rw [h.pgdir.table_addTable_ne hii] at ht'
      exact ht i'' ht'
  case refine_6 =>
    rw [hentry (h.user hx), hentry (h.user hx')] at he
    exact h.inj hx hx' he
  case refine_7 =>
    have hqt : q ≠ t := by
      rintro rfl
      exact hq (h.sub (by simp))
    rw [PageInv.mem_addTable hqt hqd, h.other hq hqd]
  case refine_8 =>
    have hii : i' ≠ i := by
      rintro rfl
      exact hi' hi
    rw [h.pgdir.dir_addTable hii, h.upper hi']
  case refine_9 =>
    rw [h.rest]
    rfl

include h hi hn in
theorem userByte_addTable (hx : (pdx va, ptx va) ∈ D) : (s.addTable pd i t).userByte pd va = s.userByte pd va := by
  refine h.userByte_congr (h.addTable hi hn) hx hx
    (h.pgdir.entry_addTable hn (h.table_ne_dir (h.user hx))) fun p he => ?_
  obtain ⟨p', hp, hl, he', -⟩ := h.frame hx
  cases userEntry_inj (he'.symm.trans he)
  refine PageInv.mem_addTable ?_ ?_
  case refine_1 =>
    rintro rfl
    exact hl (by simp)
  case refine_2 =>
    rintro rfl
    exact h.dir hp

include h hn in
theorem loose_addTable (hp : s.Loose pd l₀ (t :: l) pp) : (s.addTable pd i t).Loose pd l₀ l pp := by
  refine ⟨hp.old, fun hm => hp.taken (by simp [hm]), fun i' ht => ?_, fun {i' j} hi' => ?_⟩
  case refine_1 =>
    by_cases hii : i' = i
    case pos =>
      subst hii
      cases PageInv.table_addTable.symm.trans ht
      exact hp.taken (by simp)
    case neg =>
      rw [h.pgdir.table_addTable_ne hii] at ht
      exact hp.table i' ht
  case refine_2 =>
    rw [h.pgdir.entry_addTable hn (h.table_ne_dir hi')]
    exact hp.entry hi'

end AddTable

section Store

variable (h : Space pd l₀ D T s₀ used l s) (hi : i.val < pdxUtop) (ht : s.table pd i = some t)
  (hp : s.Loose pd l₀ l pp) (hx : (i, j) ∉ D)

include h hi ht hp hx in
-- The page becomes a page of the program.
theorem store : Space pd l₀ (insert (i, j) D) T s₀ used l ((s.setMem t j (userEntry pp)).incRef pp) := by
  have hk : t ≠ pd := by
    rintro rfl
    exact h.table_ne_dir hi ht
  have hd : (s.setMem t j (userEntry pp)).mem pd = s.mem pd := by simp [Kernel.setMem, hk.symm]
  have htable {i'} : (s.setMem t j (userEntry pp)).table pd i' = s.table pd i' := by simp only [Kernel.table, hd]
  have hentry {i' j'} (hi' : i'.val < pdxUtop) : (s.setMem t j (userEntry pp)).entry pd i' j' =
      if i' = i ∧ j' = j then userEntry pp else s.entry pd i' j' :=
    h.pgdir.entry_setMem ht hk (h.table_ne_dir hi')
  have hold {i' j'} (hx' : (i', j') ∈ D) : (s.setMem t j (userEntry pp)).entry pd i' j' = s.entry pd i' j' := by
    rw [hentry (h.user hx'), if_neg]
    rintro ⟨rfl, rfl⟩
    exact hx hx'
  have hnew : (s.setMem t j (userEntry pp)).entry pd i j = userEntry pp := (hentry hi).trans (if_pos ⟨rfl, rfl⟩)
  refine ⟨(h.pgdir.setMem hk).incRef hp.taken, h.count, h.sub, h.dir, fun {i' j'} hx' => ?_, fun {i'} hi' => ?_,
    fun {i' t'} hi' ht' => ?_, fun {i' j'} hi' hx' => ?_, fun {i' j'} hx' => ?_, fun {i₁ j₁ i₂ j₂} h₁ h₂ he => ?_,
    fun {q} hq hqd => ?_, fun {i'} hi' => ?_, ?_⟩
  case refine_1 =>
    rcases Finset.mem_insert.mp hx' with he | hx'
    case inl =>
      cases he
      exact hi
    case inr => exact h.user hx'
  case refine_2 =>
    change (s.setMem t j (userEntry pp)).table pd i' = none ↔ _
    rw [htable]
    exact h.table hi'
  case refine_3 =>
    change (s.setMem t j (userEntry pp)).table pd i' = some t' at ht'
    rw [htable] at ht'
    change _ ∧ (s.setMem t j (userEntry pp)).mem pd i' = _
    rw [hd]
    exact h.pde hi' ht'
  case refine_4 =>
    rw [Finset.mem_insert, not_or] at hx'
    change (s.setMem t j (userEntry pp)).entry pd i' j' = _
    rw [hentry hi', if_neg (by simpa using hx'.1)]
    exact h.entry hi' hx'.2
  case refine_5 =>
    rcases Finset.mem_insert.mp hx' with he | hx'
    case inl =>
      cases he
      exact ⟨pp, hp.old, hp.taken, hnew, fun i' ht' => hp.table i' (htable.symm.trans ht')⟩
    case inr =>
      obtain ⟨p, hp, hl, he, hn⟩ := h.frame hx'
      exact ⟨p, hp, hl, (hold hx').trans he, fun i' ht' => hn i' (htable.symm.trans ht')⟩
  case refine_6 =>
    change (s.setMem t j (userEntry pp)).entry pd i₁ j₁ = (s.setMem t j (userEntry pp)).entry pd i₂ j₂ at he
    rcases Finset.mem_insert.mp h₁ with e₁ | h₁ <;> rcases Finset.mem_insert.mp h₂ with e₂ | h₂
    case inl.inl => rw [e₁, e₂]
    case inl.inr =>
      cases e₁
      rw [hnew, hold h₂] at he
      exact (hp.entry (h.user h₂) he.symm).elim
    case inr.inl =>
      cases e₂
      rw [hnew, hold h₁] at he
      exact (hp.entry (h.user h₁) he).elim
    case inr.inr =>
      rw [hold h₁, hold h₂] at he
      exact h.inj h₁ h₂ he
  case refine_7 =>
    have hqt : q ≠ t := by
      rintro rfl
      exact hq (h.pde hi ht).1
    change (s.setMem t j (userEntry pp)).mem q = _
    rw [← h.other hq hqd]
    simp [Kernel.setMem, hqt]
  case refine_8 =>
    change (s.setMem t j (userEntry pp)).mem pd i' = _
    rw [hd, h.upper hi']
  case refine_9 =>
    rw [h.rest]
    rfl

include h hi ht hp hx in
theorem userByte_store (hv : (pdx va, ptx va) ∈ D) :
    ((s.setMem t j (userEntry pp)).incRef pp).userByte pd va = s.userByte pd va := by
  have hk : t ≠ pd := by
    rintro rfl
    exact h.table_ne_dir hi ht
  refine h.userByte_congr (h.store hi ht hp hx) hv (Finset.mem_insert_of_mem hv) ?_ fun p he => ?_
  case refine_1 =>
    change (s.setMem t j (userEntry pp)).entry pd _ _ = _
    rw [h.pgdir.entry_setMem ht hk (h.table_ne_dir (h.user hv)), if_neg]
    rintro ⟨rfl, rfl⟩
    exact hx hv
  case refine_2 =>
    obtain ⟨p', -, -, he', hn⟩ := h.frame hv
    cases userEntry_inj (he'.symm.trans he)
    have hne : p ≠ t := by
      rintro rfl
      exact hn i ht
    change (s.setMem t j (userEntry pp)).mem p = _
    simp [Kernel.setMem, hne]

end Store

section Frame

variable (h : Space pd l₀ D T s₀ used l s) (hx : (i, j) ∈ D) (he : s.entry pd i j = userEntry p)

include h hx he in
theorem frame_ne : p ∈ l₀ ∧ p ≠ pd ∧ ∀ i', s.table pd i' ≠ some p := by
  obtain ⟨p', hp, -, he', ht⟩ := h.frame hx
  cases userEntry_inj (he.symm.trans he')
  refine ⟨hp, ?_, ht⟩
  rintro rfl
  exact h.dir hp

include h hx he in
theorem dir_setByteAt : (s.setByteAt p w b).mem pd = s.mem pd :=
  mem_setByteAt_of_ne (h.frame_ne hx he).2.1.symm

include h hx he in
theorem table_setByteAt : (s.setByteAt p w b).table pd i' = s.table pd i' := by
  simp only [Kernel.table, h.dir_setByteAt hx he]

include h hx he in
theorem entry_setByteAt : (s.setByteAt p w b).entry pd i' j' = s.entry pd i' j' := by
  rw [Kernel.entry, Kernel.entry, h.table_setByteAt hx he]
  cases ht : s.table pd i'
  case none => rfl
  case some t =>
    have hne : t ≠ p := by
      rintro rfl
      exact (h.frame_ne hx he).2.2 i' ht
    exact congrFun (mem_setByteAt_of_ne hne) j'

include h hx he in
-- The page of an entry is written.
theorem setByteAt : Space pd l₀ D T s₀ used l (s.setByteAt p w b) := by
  obtain ⟨hp, hpd, -⟩ := h.frame_ne hx he
  refine ⟨h.pgdir.setMem hpd, h.count, h.sub, h.dir, h.user, fun hi => ?_, fun hi ht => ?_, fun hi hn => ?_,
    fun hm => ?_, fun h₁ h₂ he' => ?_, fun {q} hq hqd => ?_, fun {i'} hi => ?_, ?_⟩
  case refine_1 =>
    rw [h.table_setByteAt hx he]
    exact h.table hi
  case refine_2 =>
    rw [h.table_setByteAt hx he] at ht
    rw [h.dir_setByteAt hx he]
    exact h.pde hi ht
  case refine_3 => rw [h.entry_setByteAt hx he, h.entry hi hn]
  case refine_4 =>
    obtain ⟨p', hp', hl, he', ht⟩ := h.frame hm
    refine ⟨p', hp', hl, (h.entry_setByteAt hx he).trans he', fun i' => ?_⟩
    rw [h.table_setByteAt hx he]
    exact ht i'
  case refine_5 =>
    rw [h.entry_setByteAt hx he, h.entry_setByteAt hx he] at he'
    exact h.inj h₁ h₂ he'
  case refine_6 =>
    have hne : q ≠ p := by
      rintro rfl
      exact hq hp
    rw [mem_setByteAt_of_ne hne, h.other hq hqd]
  case refine_7 => rw [h.dir_setByteAt hx he, h.upper hi]
  case refine_8 =>
    rw [h.rest]
    rfl

end Frame

theorem eq_of_page (hi : pdx va' = pdx va) (hj : ptx va' = ptx va) (ho : va'.toNat % 4096 = va.toNat % 4096) :
    va' = va := by
  have hi := congrArg Fin.val hi
  have hj := congrArg Fin.val hj
  rw [val_pdx, val_pdx] at hi
  rw [val_ptx, val_ptx] at hj
  apply BitVec.eq_of_toNat_eq
  omega

theorem userByte_setByteAt (h : Space pd l₀ D T s₀ used l s) (hx : (pdx va, ptx va) ∈ D)
    (he : s.entry pd (pdx va) (ptx va) = userEntry p) (hx' : (pdx va', ptx va') ∈ D) :
    (s.setByteAt p va b).userByte pd va' = if va' = va then some b else s.userByte pd va' := by
  obtain ⟨p', -, -, he', -⟩ := h.frame hx'
  rw [(h.setByteAt hx he).userByte_eq hx' ((h.entry_setByteAt hx he).trans he'), h.userByte_eq hx' he',
    byteAt_setByteAt]
  by_cases hv : va' = va
  case pos =>
    subst hv
    rw [if_pos ⟨userEntry_inj (he'.symm.trans he), rfl⟩, if_pos rfl]
  case neg =>
    have hn : ¬(p' = p ∧ va'.toNat % 4096 = va.toNat % 4096) := by
      rintro ⟨rfl, ho⟩
      have hp := h.inj hx' hx (he'.trans he.symm)
      exact hv (eq_of_page (Prod.mk.inj hp).1 (Prod.mk.inj hp).2 ho)
    rw [if_neg hn, if_neg hv]

section Insert

variable {n : Nat}

theorem head_ne (h : Space pd l₀ D T s₀ used l s) (hp : pp ∉ l) : s.pageFreeList ≠ some pp := by
  intro hl
  have hc : s.FreeList l := h.pgdir.list
  rw [FreeList, hl] at hc
  obtain ⟨l', rfl, -⟩ := hc.head_some
  exact hp (by simp)

theorem exist (h : Space pd l₀ D T s₀ used l s) (hi : i.val < pdxUtop) (ht : s.table pd i = some t) :
    t.toNat < s.npages := by
  refine h.pgdir.exist ht ?_
  rintro rfl
  exact h.table_ne_dir hi ht

-- `page_insert` for a page that is not mapped yet, if there is memory for its page table.
theorem pageInsert (h : Space pd l₀ D T s₀ (n + T.card) l s) (hp : s.Loose pd l₀ l pp) (hi : (pdx va).val < pdxUtop)
    (hx : (pdx va, ptx va) ∉ D) (hm : s.table pd (pdx va) = none → l ≠ []) :
    ∃ s' l', (pageInsert c pd pp va (pteU ||| pteW)).run s = .ok 0#32 s' ∧
      Space pd l₀ (insert (pdx va, ptx va) D) (insert (pdx va) T) s₀ (n + (insert (pdx va) T).card) l' s' ∧
      ∀ va', (pdx va', ptx va') ∈ D → s'.userByte pd va' = s.userByte pd va' := by
  cases ht : s.table pd (pdx va)
  case some t =>
    have hT : pdx va ∈ T := by
      by_contra hn
      cases ht.symm.trans ((h.table hi).mpr hn)
    have hr : (pageRemove c pd va).run s = .ok () s :=
      pageRemove_none (fun t' ht' => h.exist hi ht') (by rw [h.entry hi hx, entryPage_zero])
    refine ⟨_, l, ?_, ?_, fun va' hv => h.userByte_store hi ht hp hx hv⟩
    case refine_1 => simp [Jos.pageInsert, pgdirWalk_some ht (h.exist hi ht), hr, h.head_ne hp.taken, userEntry]
    case refine_2 =>
      rw [Finset.insert_eq_of_mem hT]
      exact h.store hi ht hp hx
  case none =>
    have hT : pdx va ∉ T := (h.table hi).mp ht
    obtain ⟨t, l, rfl⟩ := List.exists_cons_of_ne_nil (hm ht)
    have hw : (pgdirWalk pd va true).run s = .ok (some (t, ptx va)) (s.addTable pd (pdx va) t) :=
      pgdirWalk_create ht h.pgdir.list.1 (h.pgdir.bound (by simp))
    have ha := h.addTable hi ht
    have hp' := h.loose_addTable ht hp
    have hr : (pageRemove c pd va).run (s.addTable pd (pdx va) t) = .ok () (s.addTable pd (pdx va) t) :=
      pageRemove_none (fun t' ht' => ha.exist hi ht') (by rw [ha.entry hi hx, entryPage_zero])
    refine ⟨((s.addTable pd (pdx va) t).setMem t (ptx va) (userEntry pp)).incRef pp, l, ?_, ?_, fun va' hv => ?_⟩
    case refine_1 => simp [Jos.pageInsert, hw, hr, ha.head_ne hp'.taken, userEntry]
    case refine_2 =>
      rw [Finset.card_insert_of_notMem hT, ← Nat.add_assoc]
      exact ha.store hi PageInv.table_addTable hp' hx
    case refine_3 =>
      rw [ha.userByte_store hi PageInv.table_addTable hp' hx hv]
      exact h.userByte_addTable hi ht hv

end Insert

end Space

-- The pages at the addresses from `lower` to `upper`.
@[irreducible]
def pagesFrom (lower upper : Nat) : Finset (Ptx × Ptx) :=
  Finset.univ.filter fun x => lower ≤ (pgaddr x.1 x.2).toNat ∧ (pgaddr x.1 x.2).toNat < upper

theorem mem_pagesFrom {lower upper : Nat} {x : Ptx × Ptx} :
    x ∈ pagesFrom lower upper ↔ lower ≤ (pgaddr x.1 x.2).toNat ∧ (pgaddr x.1 x.2).toNat < upper := by
  unfold pagesFrom
  rw [Finset.mem_filter, and_iff_right (Finset.mem_univ x)]

theorem pagesFrom_eq_empty {lower upper : Nat} (h : upper ≤ lower) : pagesFrom lower upper = ∅ := by
  refine Finset.eq_empty_of_forall_notMem fun x hx => ?_
  have := mem_pagesFrom.mp hx
  omega

theorem pagesFrom_eq_insert {lower : Word} {upper : Nat} (ha : lower.toNat % 4096 = 0) (hlt : lower.toNat < upper) :
    pagesFrom lower.toNat upper = insert (pdx lower, ptx lower) (pagesFrom (lower.toNat + 4096) upper) := by
  ext ⟨i, j⟩
  rw [Finset.mem_insert, mem_pagesFrom, mem_pagesFrom, Prod.mk.injEq, ← pgaddr_eq_iff ha]
  simp only
  have hp : (pgaddr i j).toNat % 4096 = 0 := by
    rw [toNat_pgaddr]
    omega
  have he : pgaddr i j = lower ↔ (pgaddr i j).toNat = lower.toNat :=
    ⟨fun h => by rw [h], fun h => BitVec.eq_of_toNat_eq h⟩
  rw [he]
  omega

namespace Space

theorem regionAllocLoop {n : Nat} {lower upper : Word} (h : Space pd l₀ D T s₀ (D.card + T.card) l s)
    (ha : lower.toNat % 4096 = 0) (hu : upper ≤ utop) (hn : upper.toNat ≤ lower.toNat + 4096 * n)
    (hx : ∀ x ∈ pagesFrom lower.toNat upper.toNat, x ∉ D)
    (he : (D ∪ pagesFrom lower.toNat upper.toNat).card +
      (T ∪ (pagesFrom lower.toNat upper.toNat).image Prod.fst).card ≤ l₀.length) :
    wp (regionAllocLoop c pd upper n lower)
      (fun _ s' => (∃ l', Space pd l₀ (D ∪ pagesFrom lower.toNat upper.toNat)
        (T ∪ (pagesFrom lower.toNat upper.toNat).image Prod.fst) s₀ ((D ∪ pagesFrom lower.toNat upper.toNat).card +
          (T ∪ (pagesFrom lower.toNat upper.toNat).image Prod.fst).card) l' s') ∧
        ∀ va, (pdx va, ptx va) ∈ D → s'.userByte pd va = s.userByte pd va)
      (fun _ _ => False) s := by
  induction n generalizing lower D T s l
  case zero =>
    rw [pagesFrom_eq_empty (by omega)]
    simp only [Finset.union_empty, Finset.image_empty]
    exact ⟨⟨l, h⟩, fun _ _ => rfl⟩
  case succ n ih =>
    rw [Jos.regionAllocLoop]
    by_cases hlt : lower < upper
    case neg =>
      rw [if_neg hlt, pagesFrom_eq_empty (Nat.not_lt.mp hlt)]
      simp only [Finset.union_empty, Finset.image_empty]
      exact ⟨⟨l, h⟩, fun _ _ => rfl⟩
    case pos =>
      have hlt' : lower.toNat < upper.toNat := hlt
      have hut : upper.toNat ≤ utop.toNat := hu
      have hutop : utop.toNat = 0xEEC00000 := by decide
      have hnext : (lower + pgsize).toNat = lower.toNat + 4096 := toNat_next (by omega)
      have hpages := pagesFrom_eq_insert ha hlt'
      have hi : (pdx lower).val < pdxUtop := by
        rw [val_pdx, pdxUtop]
        omega
      have hxD : (pdx lower, ptx lower) ∉ D := hx _ (by rw [hpages]; exact Finset.mem_insert_self _ _)
      -- What is needed for the first page.
      have hD : D ∪ pagesFrom lower.toNat upper.toNat =
          insert (pdx lower, ptx lower) D ∪ pagesFrom (lower + pgsize).toNat upper.toNat := by
        rw [hpages, hnext, Finset.union_insert, Finset.insert_union]
      have hT : T ∪ (pagesFrom lower.toNat upper.toNat).image Prod.fst =
          insert (pdx lower) T ∪ (pagesFrom (lower + pgsize).toNat upper.toNat).image Prod.fst := by
        rw [hpages, hnext, Finset.image_insert, Finset.union_insert, Finset.insert_union]
      rw [hD, hT] at he ⊢
      have h₁ := Finset.card_le_card <| @Finset.subset_union_left _ _ (insert (pdx lower, ptx lower) D)
        (pagesFrom (lower + pgsize).toNat upper.toNat)
      have h₂ := Finset.card_le_card <| @Finset.subset_union_left _ _ (insert (pdx lower) T)
        ((pagesFrom (lower + pgsize).toNat upper.toNat).image Prod.fst)
      have hcount := h.count
      rw [Finset.card_insert_of_notMem hxD] at h₁
      have hcard := Finset.card_le_card (Finset.subset_insert (pdx lower) T)
      cases l
      case nil =>
        simp only [List.length_nil] at hcount
        omega
      case cons pp l =>
        have hpop := h.popFree
        have hloose := h.loose
        have hmem : (s.popFree pp).table pd (pdx lower) = none → l ≠ [] := by
          rintro ht rfl
          have hn : pdx lower ∉ T := (h.table hi).mp ht
          rw [Finset.card_insert_of_notMem hn] at h₂
          simp only [List.length_cons, List.length_nil] at hcount
          omega
        rw [show D.card + T.card + 1 = (insert (pdx lower, ptx lower) D).card + T.card by
          rw [Finset.card_insert_of_notMem hxD]
          omega] at hpop
        obtain ⟨s', l', hr, hs', hb⟩ := hpop.pageInsert (c := c) hloose hi hxD hmem
        rw [if_pos hlt, wp_bind_of_ok (pageAlloc_some h.pgdir.list.1)]
        simp only
        rw [wp_bind_of_ok hr, if_neg (by decide)]
        refine wp_mono (ih hs' (by omega) (by omega) (fun x hx' hm => ?_) he) (fun _ s'' hs'' => ?_) fun _ _ => id
        case refine_1 =>
          rcases Finset.mem_insert.mp hm with rfl | hm
          case inl =>
            have hlo := (mem_pagesFrom.mp hx').1
            have heq : pgaddr (pdx lower) (ptx lower) = lower := (pgaddr_eq_iff ha).mpr ⟨rfl, rfl⟩
            rw [heq] at hlo
            omega
          case inr => exact hx x (by rw [hpages, ← hnext]; exact Finset.mem_insert_of_mem hx') hm
        case refine_2 =>
          refine ⟨hs''.1, fun va hv => ?_⟩
          rw [hs''.2 va (Finset.mem_insert_of_mem hv), hb va hv]
          rfl

end Space

end Jos
