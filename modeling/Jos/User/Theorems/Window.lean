import Jos.User.Fork
import Jos.Kernel.Theorems.Blank
import Jos.Kernel.Theorems.UserCheck

-- The window onto the page tables at `UVPT`: a page directory that contains itself is a page table, and a page of its
-- own address space.

open Function Client

namespace Jos

open Kernel

variable {s s' s₀ : Kernel} {pd p t : Ppn} {va pn w : Word} {i j : Ptx} {a : EnvIx} {u : Bool}
  {dup : Word → User Unit} {o : Option Unit}

namespace Kernel

-- The physical word at the linear address `va`.
def physWord (s : Kernel) (pd : Ppn) (va : Word) (a : Access) : Option PtePtr :=
  (s.translate pd va a).map fun p => (p, wordIx va)

-- Whether there is a page with number `pn`.
def present (s : Kernel) (pd : Ppn) (pn : Word) : Bool :=
  has (s.entry pd (pdx (pn * pgsize)) (ptx (pn * pgsize))) pteP

-- The pages with the given indices which are present, without the exception stack.
def tablePages (s : Kernel) (pd : Ppn) (i : Ptx) (js : List Ptx) : List Word :=
  (js.map (pageNo i)).filter fun pn => pn ≠ uxstackPn && s.present pd pn

-- The pages below `UTOP`.
def userPages (s : Kernel) (pd : Ppn) : List Word :=
  userPdxs.flatMap fun i => s.tablePages pd i (List.finRange 1024)

end Kernel

section Indices

variable (hn : pn.toNat < 2 ^ 20)

include hn in
theorem toNat_mul_pgsize : (pn * pgsize).toNat = pn.toNat * 4096 := by
  have hp : pgsize.toNat = 4096 := rfl
  rw [BitVec.toNat_mul, hp, Nat.mod_eq_of_lt (by omega)]

include hn in
theorem toNat_window : (uvpt + 4#32 * pn).toNat = 957 * 2 ^ 22 + 4 * pn.toNat := by
  have hu : uvpt.toNat = 957 * 2 ^ 22 := rfl
  have h4 : (4#32 : Word).toNat = 4 := rfl
  rw [BitVec.toNat_add, BitVec.toNat_mul, hu, h4]
  omega

include hn in
theorem pdx_window : pdx (uvpt + 4#32 * pn) = pdx uvpt := by
  have hu : (pdx uvpt).val = 957 := rfl
  refine Fin.ext ?_
  rw [val_pdx, toNat_window hn, hu]
  omega

include hn in
theorem ptx_window : ptx (uvpt + 4#32 * pn) = pdx (pn * pgsize) := by
  refine Fin.ext ?_
  rw [val_ptx, val_pdx, toNat_window hn, toNat_mul_pgsize hn]
  omega

include hn in
theorem wordIx_window : wordIx (uvpt + 4#32 * pn) = ptx (pn * pgsize) := by
  refine Fin.ext ?_
  rw [val_wordIx, val_ptx, toNat_window hn, toNat_mul_pgsize hn]
  omega

-- The page number with the given indices.
theorem toNat_pageNo : (pageNo i j).toNat = i * 1024 + j := by
  have hi := i.isLt
  have hj := j.isLt
  have h₁ : (BitVec.ofNat 32 i <<< 10).toNat = i.val <<< 10 := by
    simp only [BitVec.toNat_shiftLeft, BitVec.toNat_ofNat, Nat.shiftLeft_eq]
    omega
  have h₂ : (BitVec.ofNat 32 j).toNat = j.val := by
    simp only [BitVec.toNat_ofNat]
    omega
  rw [pageNo, BitVec.toNat_or, h₁, h₂, ← Nat.shiftLeft_add_eq_or_of_lt (by omega), Nat.shiftLeft_eq]

theorem pageNo_lt : (pageNo i j).toNat < 2 ^ 20 := by
  have hi := i.isLt
  have hj := j.isLt
  rw [toNat_pageNo]
  omega

theorem pdx_pageNo : pdx ((pageNo i j) * pgsize) = i := by
  have hj := j.isLt
  refine Fin.ext ?_
  rw [val_pdx, toNat_mul_pgsize pageNo_lt, toNat_pageNo]
  omega

theorem ptx_pageNo : ptx ((pageNo i j) * pgsize) = j := by
  have hj := j.isLt
  refine Fin.ext ?_
  rw [val_ptx, toNat_mul_pgsize pageNo_lt, toNat_pageNo]
  omega

-- The page directory is the page table of the window itself.
theorem uvpd_window : uvpd + 4#32 * BitVec.ofNat 32 i =
    uvpt + 4#32 * (pageNo (pdx uvpt) i) := by
  have hi := i.isLt
  have hu : (pdx uvpt).val = 957 := rfl
  have hd : uvpd.toNat = 957 * 2 ^ 22 + 4 * (957 * 1024) := rfl
  have h4 : (4#32 : Word).toNat = 4 := rfl
  refine BitVec.eq_of_toNat_eq ?_
  rw [toNat_window pageNo_lt, toNat_pageNo, hu, BitVec.toNat_add, BitVec.toNat_mul, hd, h4, BitVec.toNat_ofNat]
  omega

end Indices

-- `pd` is the page directory of `a` and contains itself; in user mode, the page tables can be read.
structure Window (u : Bool) (a : EnvIx) (pd : Ppn) (s : Kernel) : Prop where
  dir  : s.pgdirOf a = some pd
  self : s.table pd (pdx uvpt) = some pd
  user : u = true → has (s.mem pd (pdx uvpt)) pteU ∧
    ∀ i, i.val < pdxUtop → s.table pd i ≠ none → has (s.mem pd i) pteU

-- The same pages and page tables are present below `UTOP`.
structure SamePresence (pd : Ppn) (s s' : Kernel) : Prop where
  table : ∀ i, i.val < pdxUtop → (s'.table pd i).isSome = (s.table pd i).isSome
  page  : ∀ pn, s'.present pd pn = s.present pd pn

section Translate

variable (hw : s.table pd (pdx uvpt) = some pd) (hn : pn.toNat < 2 ^ 20)

-- The window shows the entry for the page `pn`.
include hw hn in
theorem physWord_window (ht : s.table pd (pdx (pn * pgsize)) = some t)
    (hu : u = true → has (s.mem pd (pdx uvpt)) pteU ∧ has (s.mem pd (pdx (pn * pgsize))) pteU) :
    s.physWord pd (uvpt + 4#32 * pn) ⟨u, false⟩ = some (t, ptx (pn * pgsize)) := by
  have he : s.entry pd (pdx uvpt) (pdx (pn * pgsize)) = s.mem pd (pdx (pn * pgsize)) := by rw [entry, hw]
  have hp : entryPage (s.mem pd (pdx (pn * pgsize))) = some t := ht
  simp only [physWord, Kernel.translate, pdx_window hn, ptx_window hn, wordIx_window hn, he, hp]
  rw [if_pos ⟨hu, by simp⟩]
  rfl

include hw in
theorem physWord_uvpd (hu : u = true → has (s.mem pd (pdx uvpt)) pteU) :
    s.physWord pd (uvpd + 4#32 * BitVec.ofNat 32 i) ⟨u, false⟩ = some (pd, i) := by
  have hx : pdx ((pageNo (pdx uvpt) i) * pgsize) = pdx uvpt := pdx_pageNo
  rw [uvpd_window, physWord_window hw pageNo_lt (hx ▸ hw) (by rw [hx]; exact fun h => ⟨hu h, hu h⟩), ptx_pageNo]

theorem pgdirWalk_present (ht : s.table pd (pdx va) = some t) : (pgdirWalk pd va false).run s =
    if t.toNat < s.npages then .ok (some (t, ptx va)) s else .error .panic s := by
  by_cases hb : t.toNat < s.npages
  case pos => rw [if_pos hb, pgdirWalk_some ht hb]
  case neg =>
    have hk : s.npages ≤ (pgnum (s.mem pd (pdx va))).toNat := by
      rw [pgnum_of_entryPage ht]
      exact Nat.not_lt.mp hb
    simp [pgdirWalk, has_of_entryPage ht, kaddr, hk, hb]

end Translate

section Pages

theorem mem_userPages : pn ∈ s.userPages pd ↔ pn.toNat < pdxUtop * 1024 ∧ pn ≠ uxstackPn ∧ s.present pd pn := by
  simp only [userPages, tablePages, List.mem_flatMap, List.mem_filter, List.mem_map, List.mem_finRange, true_and,
    Bool.and_eq_true, decide_eq_true_eq, userPdxs]
  constructor
  case mp =>
    rintro ⟨i, hi, ⟨j, rfl⟩, hne, hp⟩
    have hj := j.isLt
    refine ⟨?_, hne, hp⟩
    rw [toNat_pageNo]
    omega
  case mpr =>
    rintro ⟨hlt, hne, hp⟩
    have hu : pdxUtop = 955 := rfl
    refine ⟨⟨pn.toNat / 1024, by omega⟩, by simp only; omega, ⟨⟨pn.toNat % 1024, by omega⟩, ?_⟩, hne, hp⟩
    refine BitVec.eq_of_toNat_eq ?_
    rw [toNat_pageNo]
    exact Nat.div_add_mod' pn.toNat 1024

theorem userPages_nodup : (s.userPages pd).Nodup := by
  have hinj {i j i' j' : Ptx} (h : pageNo i j = pageNo i' j') : i = i' ∧ j = j' := by
    have h := congrArg BitVec.toNat h
    have hj := j.isLt
    have hj' := j'.isLt
    rw [toNat_pageNo, toNat_pageNo] at h
    exact ⟨Fin.ext (by omega), Fin.ext (by omega)⟩
  refine List.nodup_flatMap.mpr ⟨fun i _ => ?_, ?_⟩
  case refine_1 => exact .filter _ <| .map (fun _ _ h => (hinj h).2) (List.nodup_finRange _)
  case refine_2 =>
    refine List.Pairwise.imp (fun {i i'} hne pn h h' => ?_) ((List.nodup_finRange 1024).filter _)
    obtain ⟨j, -, rfl⟩ := List.mem_map.mp (List.mem_filter.mp h).1
    obtain ⟨j', -, he⟩ := List.mem_map.mp (List.mem_filter.mp h').1
    exact hne (hinj he).1.symm

end Pages

section Loop

variable {T : Kernel → Kernel → Prop} [Std.Refl T] [IsTrans Kernel T] {m : Access}

instance : Std.Refl (userServer a m T).Moves :=
  inferInstanceAs (Std.Refl T)

instance : IsTrans Kernel (userServer a m T).Moves :=
  inferInstanceAs (IsTrans Kernel T)

-- A program that tests the present bit of a word it reads.
theorem ends_load {b : Bool} {x : Bool → User Unit} (h : ∀ s₁, T s s₁ → ∃ p, s₁.pgdirOf a = some pd ∧
    s₁.physWord pd va m = some p ∧ has (s₁.pte p) pteP = b) :
    Ends (userServer a m T) (User.load va >>= fun w => x (has w pteP)) s o s' ↔ Ends (userServer a m T) (x b) s o s' := by
  have hk : (User.load va >>= fun w => x (has w pteP)) = .ask (.load va) fun (w : Word) => x (has w pteP) := rfl
  rw [hk, ends_ask, ← ends_moves]
  refine exists_congr fun s₁ => ?_
  constructor
  case mp =>
    rintro ⟨r, s₂, hm, ⟨pd', p, hd, ht, rfl, rfl⟩, he⟩
    obtain ⟨p', hd', hp, hb⟩ := h _ hm
    cases hd.symm.trans hd'
    rw [physWord, ht] at hp
    cases hp
    rw [pte] at hb
    exact ⟨hm, hb ▸ he⟩
  case mpr =>
    rintro ⟨hm, he⟩
    obtain ⟨p, hd, hp, hb⟩ := h s₁ hm
    obtain ⟨q, ht, rfl⟩ := Option.map_eq_some_iff.mp hp
    exact ⟨_, s₁, hm, ⟨pd, q, hd, ht, rfl, rfl⟩, by rw [pte] at hb; rwa [hb]⟩

-- What the loops rely on while they run.
structure Steady (u : Bool) (a : EnvIx) (pd : Ppn) (s₀ s : Kernel) : Prop where
  window : Window u a pd s
  same   : SamePresence pd s₀ s

-- Neither the other environments nor `dup` take pages away from `a`, or give it new ones.
structure Undisturbed (u : Bool) (a : EnvIx) (pd : Ppn) (s₀ : Kernel) (T : Kernel → Kernel → Prop)
    (dup : Word → User Unit) : Prop where
  moves : ∀ {s s'}, Steady u a pd s₀ s → T s s' → Steady u a pd s₀ s'
  dup   : ∀ {pn s s'}, Steady u a pd s₀ s → Ends (userServer a ⟨u, false⟩ T) (dup pn) s (some ()) s' →
    Steady u a pd s₀ s'

variable (hu : Undisturbed u a pd s₀ T dup)

include hu in
theorem Undisturbed.forM {l : List Word} (hs : Steady u a pd s₀ s)
    (he : Ends (userServer a ⟨u, false⟩ T) (l.forM dup) s (some ()) s') : Steady u a pd s₀ s' := by
  induction l generalizing s
  case nil =>
    obtain ⟨tr, hr⟩ := he
    cases hr
    case done hm => exact hu.moves hs hm
  case cons pn l ih =>
    change Ends _ (dup pn >>= fun _ => l.forM dup) s _ s' at he
    rw [ends_bind] at he
    obtain ⟨_, s₁, h₁, h₂⟩ | ⟨he, -⟩ := he
    case inl => exact ih (hu.dup hs h₁) h₂
    case inr => cases he

include hu in
theorem ends_forkPage (hs : Steady u a pd s₀ s) (hi : i.val < pdxUtop) (ht : (s₀.table pd i).isSome) :
    Ends (userServer a ⟨u, false⟩ T) (forkPage dup i j) s o s' ↔ Ends (userServer a ⟨u, false⟩ T)
      (if pageNo i j ≠ uxstackPn ∧ s₀.present pd (pageNo i j) then dup (pageNo i j) else pure ()) s o s' := by
  by_cases hx : pageNo i j ≠ uxstackPn
  case neg => simp [forkPage, hx]
  case pos =>
    have hbit : ∀ s₁, T s s₁ → ∃ p, s₁.pgdirOf a = some pd ∧
        s₁.physWord pd (uvpt + 4#32 * pageNo i j) ⟨u, false⟩ = some p ∧
        has (s₁.pte p) pteP = s₀.present pd (pageNo i j) := by
      intro s₁ hm
      obtain ⟨hw, hp⟩ := hu.moves hs hm
      obtain ⟨t, ht₁⟩ := Option.isSome_iff_exists.mp ((hp.table i hi).trans ht)
      have ht₂ : s₁.table pd (pdx (pageNo i j * pgsize)) = some t := by rw [pdx_pageNo, ht₁]
      refine ⟨(t, j), hw.dir, ?_, ?_⟩
      case refine_1 =>
        rw [physWord_window hw.self pageNo_lt ht₂, ptx_pageNo]
        rw [pdx_pageNo]
        exact fun h => ⟨(hw.user h).1, (hw.user h).2 i hi (by simp [ht₁])⟩
      case refine_2 => rw [← hp.page, present, pdx_pageNo, ptx_pageNo, entry, ht₁, pte]
    simp only [forkPage, hx, ne_eq, not_false_eq_true, if_true, true_and]
    exact ends_load (x := fun b => if b then dup (pageNo i j) else pure ()) hbit

include hu in
theorem ends_forkPages (js : List Ptx) (hs : Steady u a pd s₀ s) (hi : i.val < pdxUtop)
    (ht : (s₀.table pd i).isSome) : Ends (userServer a ⟨u, false⟩ T) (js.forM (forkPage dup i)) s o s' ↔
      Ends (userServer a ⟨u, false⟩ T) ((s₀.tablePages pd i js).forM dup) s o s' := by
  induction js generalizing s o s'
  case nil => exact Iff.rfl
  case cons j js ih =>
    refine (ends_bind_left fun o s₁ => ends_forkPage hu hs hi ht).trans ?_
    by_cases hx : pageNo i j ≠ uxstackPn ∧ s₀.present pd (pageNo i j)
    case pos =>
      have hf : s₀.tablePages pd i (j :: js) = pageNo i j :: s₀.tablePages pd i js := by
        rw [tablePages, List.map_cons, List.filter_cons_of_pos (by simpa using hx), tablePages]
      rw [if_pos hx, hf]
      exact ends_bind_congr fun _ s₁ h₁ o s' => ih (hu.dup hs h₁)
    case neg =>
      have hf : s₀.tablePages pd i (j :: js) = s₀.tablePages pd i js := by
        rw [tablePages, List.map_cons, List.filter_cons_of_neg (by simpa using hx), tablePages]
      rw [if_neg hx, hf]
      exact ih hs

-- A page table that is not there has no pages.
theorem tablePages_of_none {js : List Ptx} (ht : s.table pd i = none) : s.tablePages pd i js = [] := by
  simp [tablePages, present, pdx_pageNo, entry, ht, has]

include hu in
theorem ends_forkTable (hs : Steady u a pd s₀ s) (hi : i.val < pdxUtop) :
    Ends (userServer a ⟨u, false⟩ T) (forkTable dup i) s o s' ↔
      Ends (userServer a ⟨u, false⟩ T) ((s₀.tablePages pd i (List.finRange 1024)).forM dup) s o s' := by
  have hbit : ∀ s₁, T s s₁ → ∃ p, s₁.pgdirOf a = some pd ∧
      s₁.physWord pd (uvpd + 4#32 * BitVec.ofNat 32 i) ⟨u, false⟩ = some p ∧
      has (s₁.pte p) pteP = (s₀.table pd i).isSome := by
    intro s₁ hm
    obtain ⟨hw, hp⟩ := hu.moves hs hm
    refine ⟨(pd, i), hw.dir, physWord_uvpd hw.self fun h => (hw.user h).1, ?_⟩
    rw [← hp.table i hi, Kernel.table, pte, entryPage]
    cases has (s₁.mem pd i) pteP <;> rfl
  refine (ends_load (x := fun b => if b then (List.finRange 1024).forM (forkPage dup i) else pure ()) hbit).trans ?_
  cases ht : s₀.table pd i
  case none =>
    rw [tablePages_of_none ht]
    exact Iff.rfl
  case some t => exact ends_forkPages hu _ hs hi (by simp [ht])

include hu in
theorem ends_forkTables (is : List Ptx) (hs : Steady u a pd s₀ s) (hi : ∀ i ∈ is, i.val < pdxUtop) :
    Ends (userServer a ⟨u, false⟩ T) (is.forM (forkTable dup)) s o s' ↔ Ends (userServer a ⟨u, false⟩ T)
      ((is.flatMap fun i => s₀.tablePages pd i (List.finRange 1024)).forM dup) s o s' := by
  induction is generalizing s o s'
  case nil => exact Iff.rfl
  case cons i is ih =>
    have happ : ∀ l₁ l₂ : List Word, (l₁ ++ l₂).forM dup = (l₁.forM dup >>= fun _ => l₂.forM dup) :=
      fun l₁ l₂ => List.forM_append
    rw [List.flatMap_cons, happ]
    refine (ends_bind_left fun o s₁ => ends_forkTable hu hs (hi i (by simp))).trans ?_
    refine ends_bind_congr fun _ s₁ h₁ o s' => ?_
    exact ih (hu.forM hs h₁) fun i' hi' => hi i' (by simp [hi'])

end Loop

-- The environment has an exception stack and nothing else.
def onlyUxstack : Kernel :=
  ((soleEnv 8).popFree 2#20).mapPage 0 1#20 2#20 (uxstacktop - pgsize) pteU

theorem onlyUxstack_window : Window true 0 1#20 onlyUxstack :=
  ⟨by decide +kernel, by decide +kernel, fun _ => by decide +kernel⟩

end Jos
