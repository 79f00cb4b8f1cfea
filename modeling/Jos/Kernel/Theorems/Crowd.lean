import Jos.Kernel.Theorems.Counts

-- One environment maps a page at 2^16 addresses.

open Function RefCount Program

namespace Jos

open Kernel

variable {n : Nat} {s : Kernel} {p : Ppn} {i j : Ptx}

-- The first environment has a page at the first address, which it will map at all the others. It also has a page it
-- cannot write, and one it can, whose first word looks like an entry for the former. Page tables are the pages 3 and 6.
def crowdBase : Kernel :=
  let s := soleEnv 128
  let s := s.setMem 4#20 0 (page2pa 2#20 ||| pteP ||| pteU ||| pteW)
  let s := (s.popFree 2#20).mapPage 0 1#20 2#20 (pgaddr 64 0) (pteP ||| pteU)
  let s := (s.popFree 4#20).mapPage 0 1#20 4#20 (pgaddr 64 1) (pteP ||| pteU ||| pteW)
  (s.popFree 5#20).mapPage 0 1#20 5#20 (pgaddr 0 0) (pteP ||| pteU)

def crowdPte : Word := page2pa 5#20 ||| (pteP ||| pteU) ||| pteP

def tablePage (d : Nat) : Ppn := BitVec.ofNat 20 (6 + d)

-- The page 5 is mapped `n` times, and there are `T` page tables for this.
def crowd (T n : Nat) : Kernel :=
  { crowdBase with
    pages := fun p =>
      if p = 5#20 then
        { link := none, ref := BitVec.ofNat 16 n }
      else if 6 ≤ p.toNat ∧ p.toNat < 6 + T then
        { link := none, ref := 1#16 }
      else
        crowdBase.pages p
    pageFreeList := some (tablePage T)
    mem := fun p j =>
      if p = 1#20 ∧ j.val < T then
        page2pa (tablePage j.val) ||| pteP ||| pteU ||| pteW
      else if 6 ≤ p.toNat ∧ p.toNat < 6 + T then
        if 1024 * (p.toNat - 6) + j.val < n then crowdPte else 0#32
      else
        crowdBase.mem p j }

-- The address of the mapping with the number `n`.
def slot (n : Nat) : Word :=
  pgaddr (Fin.ofNat 1024 (n / 1024)) (Fin.ofNat 1024 n)

section Base

theorem eq_of_mem {s s' : Kernel} (hp : s.pages = s'.pages) (hf : s.pageFreeList = s'.pageFreeList)
    (hm : s.mem = s'.mem)
    (h : { s with pages := s'.pages, pageFreeList := s'.pageFreeList, mem := s'.mem } = s') : s = s' := by
  rw [← hp, ← hf, ← hm] at h
  exact h

theorem crowdBase_free : crowdBase.pageFreeList = some 7#20 := by
  decide +kernel

theorem crowdBase_pages (h : 7 ≤ p.toNat) (h' : p.toNat < 128) :
    (crowdBase.pages p).ref = 0#16 ∧ (crowdBase.pages p).link = some (p + 1#20) := by
  have hall : ∀ x < 128, 7 ≤ x → (crowdBase.pages (BitVec.ofNat 20 x)).ref = 0#16 ∧
      (crowdBase.pages (BitVec.ofNat 20 x)).link = some (BitVec.ofNat 20 x + 1#20) := by decide +kernel
  have hp := hall p.toNat h' h
  rwa [BitVec.ofNat_toNat, BitVec.setWidth_eq] at hp

theorem crowdBase_dir (h : 1 ≤ j.val) (h' : j.val < 64) : crowdBase.mem 1#20 j = 0#32 := by
  have hall : ∀ j : Ptx, 1 ≤ j.val → j.val < 64 → crowdBase.mem 1#20 j = 0#32 := by decide +kernel
  exact hall j h h'

theorem crowd_one : crowd 1 1 = crowdBase := by
  have h6 {p : Ppn} (h : 6 ≤ p.toNat ∧ p.toNat < 6 + 1) : p = 6#20 := BitVec.eq_of_toNat_eq (by simp; omega)
  have hp : (crowd 1 1).pages = crowdBase.pages := by
    funext p
    simp only [crowd]
    split
    case isTrue h =>
      subst h
      decide +kernel
    case isFalse =>
      split
      case isTrue h =>
        rw [h6 h]
        decide +kernel
      case isFalse => rfl
  have hm : (crowd 1 1).mem = crowdBase.mem := by
    funext p j
    simp only [crowd]
    split
    case isTrue h =>
      obtain ⟨rfl, hj⟩ := h
      have : j = 0 := Fin.ext (by simpa using hj)
      subst this
      decide +kernel
    case isFalse hne =>
      split
      case isTrue h =>
        rw [h6 h]
        clear hne
        revert j
        decide +kernel
      case isFalse => rfl
  have hf : (crowd 1 1).pageFreeList = crowdBase.pageFreeList := crowdBase_free.symm
  exact eq_of_mem hp hf hm rfl

end Base

section Step

variable {T : Nat}

theorem toNat_tablePage {d : Nat} (hd : d ≤ 64) : (tablePage d).toNat = 6 + d := by
  rw [tablePage, BitVec.toNat_ofNat]
  omega

theorem tablePage_ne {d : Nat} (hd : d ≤ 64) : tablePage d ≠ 1#20 ∧ tablePage d ≠ 5#20 := by
  have ht := toNat_tablePage hd
  constructor
  all_goals
    intro he
    rw [he] at ht
    simp only [BitVec.toNat_ofNat] at ht
    omega

theorem crowd_table (hi : i.val < T) : (crowd T n).table 1#20 i = some (tablePage i.val) := by
  simp [Kernel.table, crowd, hi, entryPage_table]

theorem crowd_no_table (h₁ : 1 ≤ i.val) (h' : i.val < 64) (hi : ¬i.val < T) : (crowd T n).table 1#20 i = none := by
  simp [Kernel.table, crowd, hi, crowdBase_dir h₁ h']

theorem mem_crowd {d : Nat} (hT : T ≤ 64) (hd : d < T) :
    (crowd T n).mem (tablePage d) j = if 1024 * d + j.val < n then crowdPte else 0#32 := by
  have ht := toNat_tablePage (d := d) (by omega)
  have hne := (tablePage_ne (d := d) (by omega)).1
  simp only [crowd, hne, ht, false_and, if_false]
  rw [if_pos (by omega), Nat.add_sub_cancel_left]

theorem mem_crowd_dir : (crowd T n).mem 1#20 j =
    if j.val < T then page2pa (tablePage j.val) ||| pteP ||| pteU ||| pteW else crowdBase.mem 1#20 j := by
  simp [crowd]

-- A page table is added.
theorem crowd_addTable (hi : i.val = T) (h₁ : 1 ≤ T) (hT : T < 64) (hn : n ≤ 1024 * T) :
    (crowd T n).addTable 1#20 i (tablePage T) = crowd (T + 1) n := by
  have ht := toNat_tablePage hT.le
  obtain ⟨h1, h5⟩ := tablePage_ne hT.le
  have hnext : tablePage T + 1#20 = tablePage (T + 1) := by rw [tablePage, tablePage, ← BitVec.ofNat_add]; rfl
  obtain ⟨href, hlink⟩ := crowdBase_pages (p := tablePage T) (by omega) (by omega)
  refine eq_of_mem ?_ ?_ ?_ rfl
  case refine_1 =>
    funext p
    by_cases hp : p = tablePage T
    case pos => simp [hp, Kernel.addTable, setMem, incRef, setPage, zeroPage, popFree, crowd, h5, ht, href]
    case neg =>
      have hne : p.toNat ≠ 6 + T := fun he => hp (BitVec.eq_of_toNat_eq (by rw [he, ht]))
      have hiff : (6 ≤ p.toNat ∧ p.toNat < 6 + (T + 1)) ↔ (6 ≤ p.toNat ∧ p.toNat < 6 + T) := by omega
      simp [hp, Kernel.addTable, setMem, incRef, setPage, zeroPage, popFree, crowd, hiff]
  case refine_2 =>
    simp [Kernel.addTable, setMem, incRef, setPage, zeroPage, popFree, crowd, h5, ht, hlink, hnext]
  case refine_3 =>
    funext p j
    by_cases hp : p = tablePage T
    case pos =>
      have hlt : ¬1024 * T + j.val < n := by omega
      simp [hp, Kernel.addTable, setMem, incRef, setPage, zeroPage, popFree, crowd, h1, ht, hlt]
    case neg =>
      have hne : p.toNat ≠ 6 + T := fun he => hp (BitVec.eq_of_toNat_eq (by rw [he, ht]))
      have hiff : (6 ≤ p.toNat ∧ p.toNat < 6 + (T + 1)) ↔ (6 ≤ p.toNat ∧ p.toNat < 6 + T) := by omega
      by_cases hp1 : p = 1#20
      case pos =>
        by_cases hj : j = i
        case pos => simp [hp1, hj, hi, Kernel.addTable, setMem, crowd]
        case neg =>
          have hjT : j.val < T + 1 ↔ j.val < T := by
            have : j.val ≠ T := fun he => hj (Fin.ext (he.trans hi.symm))
            omega
          have hl : ((crowd T n).addTable 1#20 i (tablePage T)).mem 1#20 j = (crowd T n).mem 1#20 j := by
            simp [Kernel.addTable, setMem, incRef, setPage, zeroPage, popFree, hj, h1.symm]
          rw [hp1, hl, mem_crowd_dir, mem_crowd_dir, if_congr hjT rfl rfl]
      case neg => simp [hp, hp1, hiff, Kernel.addTable, setMem, incRef, setPage, zeroPage, popFree, crowd]

-- An entry is stored.
theorem crowd_store (hT : T ≤ 64) (hd : n / 1024 < T) (hj : j.val = n % 1024) :
    ((crowd T n).setMem (tablePage (n / 1024)) j crowdPte).incRef 5#20 = crowd T (n + 1) := by
  have ht := toNat_tablePage (d := n / 1024) (by omega)
  obtain ⟨h1, h5⟩ := tablePage_ne (d := n / 1024) (by omega)
  refine eq_of_mem ?_ rfl ?_ rfl
  case refine_1 =>
    funext p
    by_cases hp : p = 5#20
    case pos => simp [hp, setMem, incRef, setPage, crowd, BitVec.ofNat_add]
    case neg => simp [hp, setMem, incRef, setPage, crowd]
  case refine_2 =>
    funext p j'
    by_cases hp : p = tablePage (n / 1024)
    case pos =>
      by_cases hjj : j' = j
      case pos =>
        have hlt : 1024 * (n / 1024) + j.val < n + 1 := by omega
        rw [hp, hjj, mem_crowd hT hd, if_pos hlt]
        simp [setMem, incRef, setPage]
      case neg =>
        have hne : j'.val ≠ n % 1024 := fun he => hjj (Fin.ext (he.trans hj.symm))
        have hlt : 1024 * (n / 1024) + j'.val < n + 1 ↔ 1024 * (n / 1024) + j'.val < n := by omega
        have hl : (((crowd T n).setMem (tablePage (n / 1024)) j crowdPte).incRef 5#20).mem (tablePage (n / 1024)) j' =
            (crowd T n).mem (tablePage (n / 1024)) j' := by
          simp [setMem, incRef, setPage, hjj]
        rw [hp, hl, mem_crowd hT hd, mem_crowd hT hd, if_congr hlt rfl rfl]
    case neg =>
      have hne : p.toNat ≠ 6 + n / 1024 := fun he => hp (BitVec.eq_of_toNat_eq (by rw [he, ht]))
      have hj' := j'.isLt
      have hlt : 6 ≤ p.toNat → (1024 * (p.toNat - 6) + j'.val < n + 1 ↔ 1024 * (p.toNat - 6) + j'.val < n) := by omega
      simp only [setMem, incRef, setPage, crowd, update_of_ne hp]
      split
      case isTrue => rfl
      case isFalse =>
        split
        case isTrue h => simp only [hlt h.1]
        case isFalse => rfl

-- Storing an entry where there is none.
theorem mapPage_empty {t : Ppn} {va perm : Word} (ht : s.table 1#20 (pdx va) = some t)
    (he : s.mem t (ptx va) = 0#32) (hf : s.pageFreeList ≠ some p) :
    s.mapPage 0 1#20 p va perm = (s.setMem t (ptx va) (page2pa p ||| perm ||| pteP)).incRef p := by
  have hu : s.unmapPage 0 1#20 va = s := by simp [Kernel.unmapPage, ht, he]
  rw [mapPage, PageInv.ensureTable_of_table ht, hu, Kernel.retake, if_neg hf, PageInv.storePte_eq ht]

theorem mapPage_addTable {t : Ppn} {va perm : Word} (ht : s.table 1#20 (pdx va) = none)
    (hf : s.pageFreeList = some t) :
    s.mapPage 0 1#20 p va perm = (s.addTable 1#20 (pdx va) t).mapPage 0 1#20 p va perm := by
  rw [mapPage, mapPage, PageInv.ensureTable_of_none ht hf,
    PageInv.ensureTable_of_table (s := s.addTable 1#20 (pdx va) t) PageInv.table_addTable]

section Map

theorem pdx_slot (hn : n < 2 ^ 16) : (pdx (slot n)).val = n / 1024 := by
  rw [slot, pdx_pgaddr, Fin.val_ofNat]
  omega

theorem ptx_slot : (ptx (slot n)).val = n % 1024 := by
  rw [slot, ptx_pgaddr, Fin.val_ofNat]

theorem crowd_map_table (hn : n < 2 ^ 16) (hT : T ≤ 64) (hd : n / 1024 < T) :
    (crowd T n).mapPage 0 1#20 5#20 (slot n) (pteP ||| pteU) = crowd T (n + 1) := by
  have hi := pdx_slot hn
  have ht : (crowd T n).table 1#20 (pdx (slot n)) = some (tablePage (n / 1024)) := by
    rw [← hi]
    exact crowd_table (by omega)
  have he : (crowd T n).mem (tablePage (n / 1024)) (ptx (slot n)) = 0#32 := by
    rw [mem_crowd hT hd, ptx_slot, if_neg (by omega)]
  have hf : (crowd T n).pageFreeList ≠ some 5#20 := by
    simp [crowd, (tablePage_ne hT).2]
  rw [mapPage_empty ht he hf]
  exact crowd_store hT hd ptx_slot

-- The page tables which `n` mappings need.
def tables (n : Nat) : Nat :=
  (n + 1023) / 1024

theorem crowd_map (h₁ : 1 ≤ n) (hn : n < 2 ^ 16) :
    (crowd (tables n) n).mapPage 0 1#20 5#20 (slot n) (pteP ||| pteU) = crowd (tables (n + 1)) (n + 1) := by
  by_cases hd : n / 1024 < tables n
  case pos =>
    have hT : tables (n + 1) = tables n := by
      unfold tables at hd ⊢
      omega
    rw [hT]
    exact crowd_map_table hn (by unfold tables; omega) hd
  case neg =>
    -- All page tables are full.
    have hi := pdx_slot hn
    unfold tables at hd
    have hT : tables n = n / 1024 := by unfold tables; omega
    have hT' : tables (n + 1) = n / 1024 + 1 := by unfold tables; omega
    rw [hT, hT', mapPage_addTable (crowd_no_table (by omega) (by omega) (by omega)) rfl,
      crowd_addTable hi (by omega) (by omega) (by omega)]
    exact crowd_map_table hn (by omega) (by omega)

end Map

end Step

section Inv

variable {T : Nat}

theorem target_soleEnv {m : Nat} (h₀ : 0 < m) (hm : m < 2 ^ 20) :
    (soleEnv m).target = update (fun _ => none) (.pgdir 0) (some 1#20) := by
  obtain ⟨l, L, h, hL⟩ := freshKernel_inv hm
  have hl : (freshKernel m).pageFreeList = some 1#20 := if_neg (by omega)
  obtain ⟨l', rfl⟩ := h.free_of_head hl
  have ht : ((freshKernel m).newEnv 0 1#20 0#32).target = update (freshKernel m).target (.pgdir 0) (some 1#20) :=
    h.target_newEnv rfl
  rw [target_blank (s := freshKernel m) (fun _ => rfl) fun _ => rfl] at ht
  exact ht

-- The first environment maps a new page.
theorem MemInv.mapNew {M : Set Ppn} {v w : Word} (h : MemInv M s)
    (hc : s.pageFreeList = some p ∧ s.pgdirOf 0 = some 1#20 ∧ (pdx v).val < pdxUtop ∧
      ¬(s.popFree p).NoTable 1#20 (pdx v) ∧ FlagsOnly w) : MemInv M ((s.popFree p).mapPage 0 1#20 p v w) :=
  h.allocPage hc.1 hc.2.1 hc.2.2.1 hc.2.2.2.1 hc.2.2.2.2

theorem crowdBase_inv : MemInv { p | p ∈ freshPages 128 } crowdBase := by
  have h₀ : MemInv { p | p ∈ freshPages 128 }
      ((soleEnv 128).setMem 4#20 0 (page2pa 2#20 ||| pteP ||| pteU ||| pteW)) := by
    obtain ⟨l, L, h, hL⟩ := soleEnv_inv (n := 128) (by decide) (by decide)
    have hn : ¬(soleEnv 128).Table 4#20 := by
      refine h.unref_not_table (by decide) fun r hr => ?_
      rw [target_soleEnv (by decide) (by decide), update_apply] at hr
      split at hr <;> simp at hr
    exact ⟨l, L, h.setMem hn, hL.sameEnvs ⟨rfl, rfl, rfl, rfl, rfl, rfl, fun _ => rfl⟩⟩
  have h₁ := h₀.mapNew (p := 2#20) (v := pgaddr 64 0) (w := pteP ||| pteU) (by decide +kernel)
  have h₂ := h₁.mapNew (p := 4#20) (v := pgaddr 64 1) (w := pteP ||| pteU ||| pteW) (by decide +kernel)
  exact h₂.mapNew (by decide +kernel)

theorem pgdirOf_crowd : (crowd T n).pgdirOf 0 = some 1#20 := by
  have hb : crowdBase.pgdirOf 0 = some 1#20 := by decide +kernel
  exact hb

-- The entries of the first 64 page tables.
theorem target_crowd (hT : T ≤ 64) (hi : i.val < 64) (h₁ : 1 ≤ T) :
    (crowd T n).target (.pte 0 i j) = if i.val < T ∧ 1024 * i.val + j.val < n then some 5#20 else none := by
  rw [target_pte (by rw [pdxUtop]; omega), pteOf_eq pgdirOf_crowd, entry]
  by_cases hiT : i.val < T
  case pos =>
    have hc : entryPage crowdPte = some 5#20 := by decide
    simp only [crowd_table hiT, mem_crowd hT hiT, hiT, true_and]
    split
    case isTrue => exact hc
    case isFalse => exact entryPage_zero
  case neg =>
    rw [crowd_no_table (by omega) hi hiT, if_neg fun h => hiT h.1]
    simp

end Inv

section Run

theorem badVa_slot (hn : n < 2 ^ 16) : badVa (slot n) = false := by
  have hu : utop.toNat = 955 * 2 ^ 22 := by decide
  have hs : (slot n).toNat = n / 1024 % 1024 * 2 ^ 22 + n % 1024 * 2 ^ 12 := by
    rw [slot, toNat_pgaddr, Fin.val_ofNat, Fin.val_ofNat]
  have hlt : ¬slot n ≥ utop := by
    rw [ge_iff_le, BitVec.le_def]
    omega
  have hi : (slot n).toInt = (slot n).toNat := BitVec.toInt_eq_toNat_of_lt (by omega)
  have hz : ((slot n).srem pgsize).toInt = 0 := by
    have hp : pgsize.toInt = 4096 := by decide
    rw [BitVec.toInt_srem, hi, hp, Int.tmod_eq_emod_of_nonneg (by omega)]
    omega
  have hsl : (0#32).slt ((slot n).srem pgsize) = false := by simp [BitVec.slt, hz]
  simp [badVa, hlt, hsl]

def mapCall (n : Nat) : Call :=
  ⟨5#32, 0#32, slot 0, 0#32, slot n, pteP ||| pteU⟩

variable {M : Set Ppn} {T : Nat} (h₁ : 1 ≤ n) (hn : n < 2 ^ 16)

theorem tables_le (hn : n ≤ 2 ^ 16) : tables n ≤ 64 := by
  unfold tables
  omega

theorem cur_crowd : (crowd T n).cur 0 = some 0 := by
  have hb : crowdBase.cur 0 = some 0 := by decide +kernel
  exact hb

theorem live_crowd : ((crowd T n).envs 0).status ≠ .free := by
  have hb : (crowdBase.envs 0).status ≠ .free := by decide +kernel
  exact hb

theorem not_noTable_crowd : ¬(crowd T n).NoTable 1#20 i :=
  fun h => by simpa [crowd] using h.2

include h₁ hn in
theorem target_first : (crowd (tables n) n).target (.pte 0 (pdx (slot 0)) (ptx (slot 0))) = some 5#20 := by
  have hT : 1 ≤ tables n := by unfold tables; omega
  have hi : (pdx (slot 0)).val = 0 := pdx_slot (by omega)
  have hj : (ptx (slot 0)).val = 0 := ptx_slot
  rw [target_crowd (tables_le hn.le) (by omega) hT, if_pos (by omega)]

include h₁ hn in
theorem target_next : (crowd (tables n) n).target (.pte 0 (pdx (slot n)) (ptx (slot n))) = none := by
  have hT : 1 ≤ tables n := by unfold tables; omega
  have hi := pdx_slot hn
  have hj := ptx_slot (n := n)
  rw [target_crowd (tables_le hn.le) (by omega) hT, if_neg (by omega)]

include hn in
theorem pdx_slot_lt : (pdx (slot n)).val < pdxUtop := by
  rw [pdx_slot hn, pdxUtop]
  omega

include h₁ hn in
theorem refs_crowd_succ (h : MemInv M (crowd (tables n) n)) :
    (crowd (tables (n + 1)) (n + 1)).refs 5#20 = (crowd (tables n) n).refs 5#20 + 1 := by
  obtain ⟨l, L, h, -⟩ := h
  have hr := target_first h₁ hn
  have hp : FlagsOnly (pteP ||| pteU) := by decide
  have hrefs := h.refs_mapPage (c := 0) pgdirOf_crowd (pdx_slot_lt hn) not_noTable_crowd hp (.mapped rfl hr)
    (h.pool.not_free_of_ref hr)
  rwa [target_next h₁ hn, if_neg (by simp), crowd_map h₁ hn, Nat.add_zero] at hrefs

theorem mem_managed : 5#20 ∈ { p : Ppn | p ∈ freshPages 128 } :=
  List.mem_map.mpr ⟨5, by simp [List.mem_range'_1], rfl⟩

include hn in
theorem refs_crowd (h : MemInv { p | p ∈ freshPages 128 } (crowd T n)) : (crowd T n).refs 5#20 = n := by
  obtain ⟨l, L, h, -⟩ := h
  rw [← h.ref_eq mem_managed]
  simp only [crowd, if_true, BitVec.toNat_ofNat]
  omega

-- The counts are right as long as there are fewer than 2^16 mappings.
include h₁ hn in
theorem crowd_inv : MemInv { p | p ∈ freshPages 128 } (crowd (tables n) n) := by
  induction n, h₁ using Nat.le_induction
  case base =>
    rw [show tables 1 = 1 from rfl, crowd_one]
    exact crowdBase_inv
  case succ n h₁ ih =>
    have h := ih (by omega)
    have hrefs := refs_crowd_succ h₁ (by omega) h
    have hcount := refs_crowd (by omega) h
    rw [← crowd_map h₁ (by omega)] at hrefs ⊢
    exact h.sharePage (target_first h₁ (by omega)) pgdirOf_crowd (pdx_slot_lt (by omega)) not_noTable_crowd (by decide)
      (by omega)

-- One more mapping.
include h₁ hn in
theorem mapCall_run : ((mapCall n).run 0).run (crowd (tables n) n) = .ok 0#32 (crowd (tables (n + 1)) (n + 1)) := by
  obtain ⟨l, L, h, -⟩ := crowd_inv h₁ hn
  have hp : permOk (pteP ||| pteU) = true := by decide
  have hw : has (pteP ||| pteU) pteW = false := by decide
  rw [← crowd_map h₁ hn]
  exact sysPageMap_run h cur_crowd (k := mapCall n) rfl rfl rfl pgdirOf_crowd pgdirOf_crowd (badVa_slot (by decide))
    (badVa_slot hn) hp (target_first h₁ hn) (fun h => absurd (hw.symm.trans h) (by decide)) not_noTable_crowd

-- The calls, and what holds after each of them.
theorem crowd_run {Q : Kernel → Prop} (hQ : ∀ n, 1 ≤ n → n ≤ 2 ^ 16 → Q (crowd (tables n) n)) : ∀ m, m + 1 ≤ 2 ^ 16 →
    Relation.ReflTransGen (fun s s' => CallStep (fun _ _ k => InSyscall k.perm) s s' ∧ Q s') crowdBase
      (crowd (tables (m + 1)) (m + 1)) := by
  intro m
  induction m
  case zero =>
    intro _
    rw [show tables (0 + 1) = 1 from rfl, crowd_one]
  case succ m ih =>
    intro hm
    have hp : InSyscall (mapCall (m + 1)).perm := by
      have hf : InSyscall (pteP ||| pteU) := by decide
      exact hf
    refine (ih (by omega)).tail ⟨?_, hQ (m + 1 + 1) (by omega) hm⟩
    exact .syscall cur_crowd live_crowd hp (.inl ⟨_, mapCall_run (by omega) (by omega)⟩)

end Run

-- After 2^16 mappings the counter is zero.
theorem pp_ref_wraps :
    MemInv { p | p ∈ freshPages 128 } crowdBase ∧
    ∃ s, Relation.ReflTransGen (CallStep fun _ _ k => InSyscall k.perm) crowdBase s ∧
      (s.pages 5#20).ref = 0#16 ∧ s.refs 5#20 = 2 ^ 16 := by
  have hrun := crowd_run (Q := fun _ => True) (fun _ _ _ => trivial) (2 ^ 16 - 1) (by decide)
  refine ⟨crowdBase_inv, crowd (tables (2 ^ 16)) (2 ^ 16), ?_, ?_, ?_⟩
  case refine_1 => exact Relation.ReflTransGen.mono (fun _ _ h => h.left) _ _ hrun
  case refine_2 => simp [crowd]
  case refine_3 =>
    have h := crowd_inv (n := 2 ^ 16 - 1) (by decide) (by decide)
    have hr := refs_crowd_succ (by decide) (by decide) h
    rw [refs_crowd (by decide) h] at hr
    exact hr

end Jos
