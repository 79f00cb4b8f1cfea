import Jos.Kernel.Theorems.Space
import Jos.Kernel.Theorems.UserMem
import Jos.Kernel.Theorems.Blank
import Mathlib.Data.Set.Card

-- What `load_icode` makes of the image of a program.

open Function Program

namespace Jos

open Kernel

variable {M : Set Ppn} {s s' s₀ s₁ : Kernel} {c : CpuIx} {e e' : EnvIx} {pd pd' p t : Ppn} {l l₀ : List Ppn}
  {D P : Finset (Ptx × Ptx)} {i j : Ptx} {va va' v len binary eph a : Word} {b : BitVec 8} {n : Nat}
  {rom : Rom} {ph : Proghdr} {L : List Proghdr} {f : Nat → BitVec 8}

-- The number of pages that are necessary for the pages `D` and the page tables for them.
def pagesNeeded (D : Finset (Ptx × Ptx)) : Nat :=
  D.card + (D.image Prod.fst).card

-- The page directory `pd` has the pages `D`, and the page tables for them.
def Populated (pd : Ppn) (l₀ : List Ppn) (D : Finset (Ptx × Ptx)) (s₀ s : Kernel) : Prop :=
  ∃ l, Space pd l₀ D (D.image Prod.fst) s₀ (pagesNeeded D) l s

-- The pages with bytes in the range of `len` bytes at `va`.
def pagesOf (va len : Word) : Finset (Ptx × Ptx) :=
  pagesFrom (va.toNat / 4096 * 4096) ((va.toNat + len.toNat + 4095) / 4096 * 4096)

theorem mem_pagesOf {x : Ptx × Ptx} :
    x ∈ pagesOf va len ↔ va.toNat < (pgaddr x.1 x.2).toNat + 4096 ∧ (pgaddr x.1 x.2).toNat < va.toNat + len.toNat := by
  have hp : (pgaddr x.1 x.2).toNat % 4096 = 0 := by
    rw [toNat_pgaddr]
    omega
  rw [pagesOf, mem_pagesFrom]
  omega

theorem toNat_pgaddr_page : (pgaddr (pdx va) (ptx va)).toNat = va.toNat / 4096 * 4096 := by
  rw [toNat_pgaddr, val_pdx, val_ptx]
  omega

theorem page_mem_pagesOf (h : (va' - va).toNat < len.toNat) (hf : va.toNat + len.toNat < 2 ^ 32) :
    (pdx va', ptx va') ∈ pagesOf va len := by
  have hs := BitVec.toNat_sub va' va
  have hv := va.isLt
  have hv' := va'.isLt
  rw [mem_pagesOf, toNat_pgaddr_page]
  omega

-- The byte at the offset `k` of a segment in memory.
def segmentByte (rom : Rom) (binary : Word) (ph : Proghdr) (k : Nat) : BitVec 8 :=
  if k < ph.filesz.toNat then rom (binary + ph.offset + BitVec.ofNat 32 k) else 0#8

-- The program headers of the `n` that start at `a`.
def headers (rom : Rom) : Nat → Word → List Proghdr
  | 0, _     => []
  | n + 1, a => readProghdr rom a :: headers rom n (a + sizeofProghdr)

-- The segments that are loaded.
def loads (L : List Proghdr) : List Proghdr :=
  L.filter (·.type = elfProgLoad)

-- The pages of segments.
def segmentPages : List Proghdr → Finset (Ptx × Ptx)
  | []      => ∅
  | ph :: L => pagesOf ph.va ph.memsz ∪ segmentPages L

namespace Proghdr

-- A byte of the segment is in the page with these indices.
def Touches (ph : Proghdr) (i j : Ptx) : Prop :=
  ∃ k < ph.memsz.toNat, pdx (ph.va + BitVec.ofNat 32 k) = i ∧ ptx (ph.va + BitVec.ofNat 32 k) = j

theorem touches_iff (hm : 0 < ph.memsz.toNat) (hf : ph.va.toNat + ph.memsz.toNat < 2 ^ 32) :
    ph.Touches i j ↔ (i, j) ∈ pagesOf ph.va ph.memsz := by
  constructor
  case mp =>
    rintro ⟨k, hk, rfl, rfl⟩
    refine page_mem_pagesOf ?_ hf
    rw [BitVec.add_comm, BitVec.add_sub_cancel, BitVec.toNat_ofNat]
    omega
  case mpr =>
    intro hx
    have hx := mem_pagesOf.mp hx
    have hp := toNat_pgaddr (d := i) (t := j)
    have hi := i.isLt
    have hj := j.isLt
    simp only at hx
    -- The first byte of the segment in this page.
    have ha : (ph.va + BitVec.ofNat 32 ((pgaddr i j).toNat - ph.va.toNat)).toNat =
        max ph.va.toNat (pgaddr i j).toNat := by
      rw [BitVec.toNat_add, BitVec.toNat_ofNat]
      omega
    refine ⟨(pgaddr i j).toNat - ph.va.toNat, by omega, Fin.ext ?_, Fin.ext ?_⟩
    case refine_1 =>
      rw [val_pdx, ha]
      omega
    case refine_2 =>
      rw [val_ptx, ha]
      omega

end Proghdr

-- What the image of a program must be like: no two segments touch the same page.
structure Loadable (L : List Proghdr) : Prop where
  nonempty : ∀ {ph}, ph ∈ L → 0 < ph.memsz.toNat
  below    : ∀ {ph}, ph ∈ L → ph.va.toNat + ph.memsz.toNat ≤ (ustacktop - pgsize).toNat
  filesz   : ∀ {ph}, ph ∈ L → ph.filesz ≤ ph.memsz
  disjoint : L.Pairwise fun ph ph' => ∀ i j, ph.Touches i j → ¬ph'.Touches i j

theorem toNat_stack : (ustacktop - pgsize).toNat = 0xEEBFD000 := by decide

theorem Loadable.touches_iff (h : Loadable L) (hp : ph ∈ L) : ph.Touches i j ↔ (i, j) ∈ pagesOf ph.va ph.memsz := by
  have hb := h.below hp
  rw [toNat_stack] at hb
  exact ph.touches_iff (h.nonempty hp) (by omega)

theorem mem_segmentPages {x : Ptx × Ptx} : x ∈ segmentPages L ↔ ∃ ph ∈ L, x ∈ pagesOf ph.va ph.memsz := by
  induction L
  case nil => simp [segmentPages]
  case cons ph L ih => simp [segmentPages, ih]

namespace Loadable

theorem tail (h : Loadable (ph :: L)) : Loadable L :=
  ⟨fun hp => h.nonempty (by simp [hp]), fun hp => h.below (by simp [hp]), fun hp => h.filesz (by simp [hp]),
    (List.pairwise_cons.mp h.disjoint).2⟩

theorem disjoint_pages (h : Loadable (ph :: L)) : Disjoint (pagesOf ph.va ph.memsz) (segmentPages L) := by
  refine Finset.disjoint_left.mpr fun ⟨i, j⟩ hx hx' => ?_
  obtain ⟨ph', hp', hx'⟩ := mem_segmentPages.mp hx'
  exact (List.pairwise_cons.mp h.disjoint).1 ph' hp' i j (h.touches_iff (by simp) |>.mpr hx)
    (h.touches_iff (by simp [hp']) |>.mpr hx')

end Loadable

theorem pagesNeeded_mono {D' : Finset (Ptx × Ptx)} (h : D ⊆ D') : pagesNeeded D ≤ pagesNeeded D' :=
  Nat.add_le_add (Finset.card_le_card h) (Finset.card_le_card (Finset.image_subset_image h))

namespace Populated

theorem envs (h : Populated pd l₀ D s₀ s) : s.envs = s₀.envs := by
  obtain ⟨l, h⟩ := h
  rw [h.rest]

theorem cpus (h : Populated pd l₀ D s₀ s) : s.cpus = s₀.cpus := by
  obtain ⟨l, h⟩ := h
  rw [h.rest]

theorem kernPgdir (h : Populated pd l₀ D s₀ s) : s.kernPgdir = s₀.kernPgdir := by
  obtain ⟨l, h⟩ := h
  rw [h.rest]

theorem regionAlloc (h : Populated pd l₀ D s₀ s) (hd : (s₀.envs e).pgdir = some pd)
    (hf : va.toNat + len.toNat ≤ utop.toNat) (hx : Disjoint D (pagesOf va len))
    (he : pagesNeeded (D ∪ pagesOf va len) ≤ l₀.length) :
    wp (regionAlloc c e va len) (fun _ s' => Populated pd l₀ (D ∪ pagesOf va len) s₀ s' ∧
      ∀ va', (pdx va', ptx va') ∈ D → s'.userByte pd va' = s.userByte pd va') (fun _ _ => False) s := by
  have hu : utop.toNat = 0xEEC00000 := by decide
  have hlow : (roundDown va pgsize).toNat = va.toNat / 4096 * 4096 := toNat_roundDown
  have hsum : (va + len).toNat = va.toNat + len.toNat := by
    rw [BitVec.toNat_add]
    omega
  have hup : (roundUp (va + len) pgsize).toNat = (va.toNat + len.toNat + 4095) / 4096 * 4096 := by
    rw [toNat_roundUp (by omega), hsum]
  have hd' : (envPgdir e).run s = .ok pd s := by simp [envPgdir, h.envs, hd]
  obtain ⟨l, h⟩ := h
  have hpages : pagesFrom (roundDown va pgsize).toNat (roundUp (va + len) pgsize).toNat = pagesOf va len := by
    rw [hlow, hup, pagesOf]
  have ha : (roundDown va pgsize).toNat % 4096 = 0 := by omega
  have ht : roundUp (va + len) pgsize ≤ utop := by
    rw [BitVec.le_def]
    omega
  rw [Jos.regionAlloc, wp_bind_of_ok hd']
  generalize hN : 2 ^ 20 = n
  have hrun := h.regionAllocLoop (c := c) (n := n) ha ht (by omega)
  rw [hpages, ← Finset.image_union] at hrun
  exact hrun (fun x hx' => Finset.disjoint_right.mp hx hx') he

theorem empty (h : PgdirInv pd l s) (hz : ∀ i, i.val < pdxUtop → s.table pd i = none) : Populated pd l ∅ s s :=
  ⟨l, Space.empty h hz⟩

theorem storeByte (h : Populated pd l₀ D s₀ s) (hc : (s₀.cpus c).cr3 = pd) (hx : (pdx va, ptx va) ∈ D) :
    wp (storeByte c va b) (fun _ s' => Populated pd l₀ D s₀ s' ∧ ∀ va', (pdx va', ptx va') ∈ D →
      s'.userByte pd va' = if va' = va then some b else s.userByte pd va') (fun _ _ => False) s := by
  have hcpus := h.cpus
  obtain ⟨l, h⟩ := h
  obtain ⟨p, -, -, he, -⟩ := h.frame hx
  have hr : (Jos.storeByte c va b).run s = .ok () (s.setByteAt p va b) := by
    simp [Jos.storeByte, hcpus, hc, h.translate hx he]
  exact wp_of_ok hr ⟨⟨l, h.setByteAt hx he⟩, fun va' => h.userByte_setByteAt hx he⟩

-- By induction on the number of bytes, the last of which is written last.
theorem storeBytes (h : Populated pd l₀ D s₀ s) (hc : (s₀.cpus c).cr3 = pd) (hn : v.toNat + n ≤ 2 ^ 32)
    (hx : ∀ va, (va - v).toNat < n → (pdx va, ptx va) ∈ D) :
    wp (storeBytes c v f n) (fun _ s' => Populated pd l₀ D s₀ s' ∧ ∀ va, (pdx va, ptx va) ∈ D →
      s'.userByte pd va = if (va - v).toNat < n then some (f (va - v).toNat) else s.userByte pd va)
      (fun _ _ => False) s := by
  induction n
  case zero => exact ⟨h, fun va _ => by simp⟩
  case succ n ih =>
    have hk : (v + BitVec.ofNat 32 n - v).toNat = n := by
      rw [BitVec.add_comm, BitVec.add_sub_cancel, BitVec.toNat_ofNat]
      omega
    refine wp_seq (ih (by omega) fun va hv => hx va (by omega)) fun _ s₁ h₁ => ?_
    refine wp_mono (h₁.1.storeByte hc (hx _ (by omega))) (fun _ s₂ h₂ => ⟨h₂.1, fun va hv => ?_⟩) fun _ _ => id
    rw [h₂.2 va hv, h₁.2 va hv]
    by_cases hva : va = v + BitVec.ofNat 32 n
    case pos =>
      subst hva
      rw [if_pos rfl, if_pos (by omega), hk]
    case neg =>
      have hne : (va - v).toNat ≠ n := by
        intro he
        apply hva
        rw [← he, BitVec.ofNat_toNat, BitVec.setWidth_eq, BitVec.add_comm, BitVec.sub_add_cancel]
      have hlt : (va - v).toNat < n + 1 ↔ (va - v).toNat < n := by omega
      rw [if_neg hva]
      simp only [hlt]

theorem loadSegment (h : Populated pd l₀ D s₀ s) (hd : (s₀.envs e).pgdir = some pd) (hc : (s₀.cpus c).cr3 = pd)
    (hf : ph.va.toNat + ph.memsz.toNat ≤ utop.toNat) (hs : ph.filesz ≤ ph.memsz)
    (hx : Disjoint D (pagesOf ph.va ph.memsz)) (he : pagesNeeded (D ∪ pagesOf ph.va ph.memsz) ≤ l₀.length) :
    wp (loadSegment c e rom binary ph) (fun _ s' => Populated pd l₀ (D ∪ pagesOf ph.va ph.memsz) s₀ s' ∧
      (∀ va, (pdx va, ptx va) ∈ D → s'.userByte pd va = s.userByte pd va) ∧
      ∀ va, (va - ph.va).toNat < ph.memsz.toNat →
        s'.userByte pd va = some (segmentByte rom binary ph (va - ph.va).toNat)) (fun _ _ => False) s := by
  have hu : utop.toNat = 0xEEC00000 := by decide
  have hs' : ph.filesz.toNat ≤ ph.memsz.toNat := hs
  have hpage {va} (hv : (va - ph.va).toNat < ph.memsz.toNat) : (pdx va, ptx va) ∈ pagesOf ph.va ph.memsz :=
    page_mem_pagesOf hv (by omega)
  refine wp_seq (h.regionAlloc hd hf hx he) fun _ s₁ h₁ => ?_
  refine wp_seq (h₁.1.storeBytes hc (by omega) fun va hv => Finset.mem_union_right _ (hpage hv)) fun _ s₂ h₂ => ?_
  refine wp_mono (h₂.1.storeBytes hc (by omega) fun va hv => Finset.mem_union_right _ (hpage (by omega)))
    (fun _ s₃ h₃ => ⟨h₃.1, fun va hv => ?_, fun va hv => ?_⟩) fun _ _ => id
  case refine_1 =>
    have hn : ¬(va - ph.va).toNat < ph.memsz.toNat := fun hlt => Finset.disjoint_left.mp hx hv (hpage hlt)
    have hv' : (pdx va, ptx va) ∈ D ∪ pagesOf ph.va ph.memsz := Finset.mem_union_left _ hv
    rw [h₃.2 va hv', if_neg (by omega), h₂.2 va hv', if_neg hn, h₁.2 va hv]
  case refine_2 =>
    have hv' : (pdx va, ptx va) ∈ D ∪ pagesOf ph.va ph.memsz := Finset.mem_union_right _ (hpage hv)
    rw [h₃.2 va hv', h₂.2 va hv', if_pos hv, segmentByte, apply_ite some]

-- By induction on the number of headers. The bytes of a segment stay as they are, since the other segments are in
-- other pages.
theorem loadLoop (h : Populated pd l₀ D s₀ s) (hd : (s₀.envs e).pgdir = some pd) (hc : (s₀.cpus c).cr3 = pd)
    (hn : eph.toNat = a.toNat + 32 * n) (hL : Loadable (loads (headers rom n a)))
    (hx : Disjoint D (segmentPages (loads (headers rom n a))))
    (he : pagesNeeded (D ∪ segmentPages (loads (headers rom n a))) ≤ l₀.length) :
    wp (loadLoop c e rom binary eph n a) (fun _ s' =>
      Populated pd l₀ (D ∪ segmentPages (loads (headers rom n a))) s₀ s' ∧
      (∀ va, (pdx va, ptx va) ∈ D → s'.userByte pd va = s.userByte pd va) ∧
      ∀ ph ∈ loads (headers rom n a), ∀ va, (va - ph.va).toNat < ph.memsz.toNat →
        s'.userByte pd va = some (segmentByte rom binary ph (va - ph.va).toNat)) (fun _ _ => False) s := by
  induction n generalizing D a s
  case zero =>
    refine ⟨?_, fun _ _ => rfl, fun ph hp => by simp [headers, loads] at hp⟩
    simpa [headers, loads, segmentPages] using h
  case succ n ih =>
    have hlt : a < eph := by
      rw [BitVec.lt_def]
      omega
    have hsize : (a + sizeofProghdr).toNat = a.toNat + 32 := by
      have := eph.isLt
      rw [BitVec.toNat_add, sizeofProghdr]
      simp only [BitVec.toNat_ofNat]
      omega
    rw [Jos.loadLoop, if_pos hlt]
    by_cases ht : (readProghdr rom a).type = elfProgLoad
    case neg =>
      have hs : loads (headers rom (n + 1) a) = loads (headers rom n (a + sizeofProghdr)) := by
        simp [headers, loads, ht]
      rw [hs] at hL hx he ⊢
      rw [if_pos ht]
      exact ih h (by omega) hL hx he
    case pos =>
      have hs : loads (headers rom (n + 1) a) = readProghdr rom a :: loads (headers rom n (a + sizeofProghdr)) := by
        simp [headers, loads, ht]
      rw [hs] at hL hx he ⊢
      rw [if_neg (not_not.mpr ht)]
      rw [segmentPages, ← Finset.union_assoc] at he ⊢
      have hx' := Finset.disjoint_union_right.mp hx
      have hb : (readProghdr rom a).va.toNat + (readProghdr rom a).memsz.toNat ≤ (ustacktop - pgsize).toNat :=
        hL.below (by simp)
      have hstack : (ustacktop - pgsize).toNat ≤ utop.toNat := by decide
      refine wp_seq (h.loadSegment hd hc (by omega) (hL.filesz (by simp)) hx'.1
        (Nat.le_trans (pagesNeeded_mono Finset.subset_union_left) he)) fun _ s₁ h₁ => ?_
      refine wp_mono (ih h₁.1 (by omega) hL.tail (Finset.disjoint_union_left.mpr ⟨hx'.2, hL.disjoint_pages⟩) he)
        (fun _ s₂ h₂ => ⟨h₂.1, fun va hv => ?_, fun ph hp va hv => ?_⟩) fun _ _ => id
      case refine_1 => rw [h₂.2.1 va (Finset.mem_union_left _ hv), h₁.2.1 va hv]
      case refine_2 =>
        rcases List.mem_cons.mp hp with rfl | hp
        case inl =>
          have hpage : (pdx va, ptx va) ∈ pagesOf (readProghdr rom a).va (readProghdr rom a).memsz := by
            rw [toNat_stack] at hb
            exact page_mem_pagesOf hv (by omega)
          rw [h₂.2.1 va (Finset.mem_union_right _ hpage), h₁.2.2 va hv]
        case inr => exact h₂.2.2 ph hp va hv

end Populated

namespace PageInv

variable (h : PageInv M ∅ l s₀) (hd : s₀.pgdirOf e = some pd) (hd' : s₀.pgdirOf e' = some pd') (hne : e' ≠ e)

include h hd hd' hne in
theorem pgdir_ne : pd' ≠ pd := by
  rintro rfl
  have hr : s₀.target (.pgdir e') = some pd' := hd'
  cases h.unique (by trivial) hr (show s₀.target (.pgdir e) = some pd' from hd)
  exact hne rfl

end PageInv

-- The other address spaces do not change, as their page tables and pages are not on the free list.
theorem Populated.other (hf : Populated pd l D s₀ s) (h : PageInv M ∅ l s₀) (hd : s₀.pgdirOf e = some pd)
    (hd' : s₀.pgdirOf e' = some pd') (hne : e' ≠ e) (hv : va < utop) :
    (∀ a, s.translate pd' va a = s₀.translate pd' va a) ∧ s.userByte pd' va = s₀.userByte pd' va := by
  obtain ⟨l', hf⟩ := hf
  have hi := pdx_lt hv
  have hdir : s.mem pd' = s₀.mem pd' :=
    hf.other (h.pool.not_free_of_ref (show s₀.target (.pgdir e') = some pd' from hd')) (h.pgdir_ne hd hd' hne)
  have hentry : s.entry pd' (pdx va) (ptx va) = s₀.entry pd' (pdx va) (ptx va) := by
    rw [Kernel.entry, Kernel.entry, Kernel.table, Kernel.table, hdir]
    cases ht : entryPage (s₀.mem pd' (pdx va))
    case none => rfl
    case some t =>
      have hr : s₀.target (.pde e' (pdx va)) = some t := by rw [target_pde hi, tableOf_eq hd', Kernel.table, ht]
      exact congrFun (hf.other (h.pool.not_free_of_ref hr) (h.table_ne_pgdir hr hd)) _
  have htrans {a} : s.translate pd' va a = s₀.translate pd' va a := by
    simp only [Kernel.translate, hdir, hentry]
  refine ⟨fun a => htrans, ?_⟩
  rw [Kernel.userByte, Kernel.userByte, htrans]
  cases ht : s₀.translate pd' va ⟨true, false⟩
  case none => rfl
  case some p =>
    have hp : entryPage (s₀.entry pd' (pdx va) (ptx va)) = some p := by
      simp only [Kernel.translate] at ht
      split at ht
      case isTrue => exact ht
      case isFalse => cases ht
    have hr : s₀.target (.pte e' (pdx va) (ptx va)) = some p := by rw [target_pte hi, pteOf_eq hd', hp]
    simp only [Option.map_some, Kernel.byteAt, hf.other (h.pool.not_free_of_ref hr) (h.page_ne_pgdir hr hd)]

-- The segments that `load_icode` loads from the image at `binary`.
def segments (rom : Rom) (binary : Word) : List Proghdr :=
  loads (headers rom (readElf rom binary).phnum.toNat (binary + (readElf rom binary).phoff))

-- The pages that a program with these segments has, one of which is for its stack.
def Loaded (L : List Proghdr) (i j : Ptx) : Prop :=
  (∃ ph ∈ L, ph.Touches i j) ∨ pgaddr i j = ustacktop - pgsize

-- There is a free page for each of these pages, and for each of the page tables for them.
def FreeRoom (L : List Proghdr) (l : List Ppn) : Prop :=
  { x : Ptx × Ptx | Loaded L x.1 x.2 }.ncard + { i | ∃ j, Loaded L i j }.ncard ≤ l.length

def loadedPages (L : List Proghdr) : Finset (Ptx × Ptx) :=
  segmentPages L ∪ pagesOf (ustacktop - pgsize) pgsize

theorem mem_stackPage : (i, j) ∈ pagesOf (ustacktop - pgsize) pgsize ↔ pgaddr i j = ustacktop - pgsize := by
  have hp : (pgaddr i j).toNat % 4096 = 0 := by
    rw [toNat_pgaddr]
    omega
  have hs : pgsize.toNat = 4096 := rfl
  have he : pgaddr i j = ustacktop - pgsize ↔ (pgaddr i j).toNat = (ustacktop - pgsize).toNat :=
    ⟨fun h => by rw [h], fun h => BitVec.eq_of_toNat_eq h⟩
  rw [mem_pagesOf, he, toNat_stack, hs]
  simp only
  omega

namespace Loadable

theorem mem_loadedPages (h : Loadable L) : (i, j) ∈ loadedPages L ↔ Loaded L i j := by
  rw [loadedPages, Finset.mem_union, mem_stackPage, mem_segmentPages, Loaded]
  refine or_congr_left (exists_congr fun ph => and_congr_right fun hp => ?_)
  exact (h.touches_iff hp).symm

theorem needed (h : Loadable L) (hr : FreeRoom L l) : pagesNeeded (loadedPages L) ≤ l.length := by
  have h₁ : { x : Ptx × Ptx | Loaded L x.1 x.2 } = loadedPages L := by
    ext ⟨i, j⟩
    exact h.mem_loadedPages.symm
  have h₂ : { i | ∃ j, Loaded L i j } = ((loadedPages L).image Prod.fst : Finset Ptx) := by
    ext i
    simp [h.mem_loadedPages]
  rw [FreeRoom, h₁, h₂, Set.ncard_coe_finset, Set.ncard_coe_finset] at hr
  exact hr

theorem disjoint_stack (h : Loadable L) : Disjoint (segmentPages L) (pagesOf (ustacktop - pgsize) pgsize) := by
  refine Finset.disjoint_left.mpr fun ⟨i, j⟩ hx hs => ?_
  obtain ⟨ph, hp, hx⟩ := mem_segmentPages.mp hx
  have hb := h.below hp
  have hs := congrArg BitVec.toNat (mem_stackPage.mp hs)
  have hx := mem_pagesOf.mp hx
  rw [toNat_stack] at hs hb
  simp only at hx
  omega

end Loadable

variable (c) in
theorem load_icode_exact (h : PageInv M ∅ l s) (hk : KernHalf s₀ s) (hd : s.pgdirOf e = some pd)
    (hz : ∀ i, i.val < pdxUtop → s.table pd i = none) (hm : (readElf rom binary).magic = elfMagic)
    (hf : binary.toNat + (readElf rom binary).phoff.toNat + 32 * (readElf rom binary).phnum.toNat < 2 ^ 32)
    (hL : Loadable (segments rom binary)) (hr : FreeRoom (segments rom binary) l) :
    ∃ s', (loadIcode c e rom binary).run s = .ok () s' ∧
      (∀ ph ∈ segments rom binary, ∀ k < ph.memsz.toNat, s'.userByte pd (ph.va + BitVec.ofNat 32 k) =
        some (if k < ph.filesz.toNat then rom (binary + ph.offset + BitVec.ofNat 32 k) else 0#8)) ∧
      (∀ i j, i.val < pdxUtop → Loaded (segments rom binary) i j →
        ∃ p, s'.entry pd i j = page2pa p ||| (pteU ||| pteW) ||| pteP) ∧
      (∀ i j, i.val < pdxUtop → ¬Loaded (segments rom binary) i j → s'.entry pd i j = 0#32) ∧
      (∀ va a, va < utop → ((s'.translate pd va a).isSome ↔ Loaded (segments rom binary) (pdx va) (ptx va))) ∧
      s'.envs = update s.envs e
        { s.envs e with tf := { (s.envs e).tf with eip := (readElf rom binary).entry } } ∧
      ∀ e' pd', e' ≠ e → s.pgdirOf e' = some pd' → ∀ va, va < utop →
        (∀ a, s'.translate pd' va a = s.translate pd' va a) ∧ s'.userByte pd' va = s.userByte pd' va := by
  have hd' : (s.envs e).pgdir = some pd := by
    rw [pgdirOf] at hd
    split at hd
    case isTrue => cases hd
    case isFalse => exact hd
  have hp := PgdirInv.of_pgdirOf h hk hd
  let s₁ := s.setCpu c fun i => { i with cr3 := pd, tlb := [] }
  have hp₁ : PgdirInv pd l s₁ := ⟨hp.list, hp.ref, hp.bound, hp.dir, hp.table, hp.exist, hp.unique⟩
  have h₁ : PageInv M ∅ l s₁ := h.congr ⟨rfl, rfl, rfl, rfl⟩ rfl h.dir
  have hc : (s₁.cpus c).cr3 = pd := by simp [s₁, setCpu]
  have hstart : Populated pd l ∅ s₁ s₁ := .empty hp₁ hz
  have hph : (binary + (readElf rom binary).phoff).toNat = binary.toNat + (readElf rom binary).phoff.toNat := by
    rw [BitVec.toNat_add]
    omega
  have heph : (binary + (readElf rom binary).phoff + sizeofProghdr * (readElf rom binary).phnum.setWidth 32).toNat =
      (binary + (readElf rom binary).phoff).toNat + 32 * (readElf rom binary).phnum.toNat := by
    have hn := (readElf rom binary).phnum.isLt
    rw [BitVec.toNat_add, BitVec.toNat_mul, BitVec.toNat_setWidth, sizeofProghdr, hph]
    simp only [BitVec.toNat_ofNat]
    omega
  have hneed := hL.needed hr
  rw [loadedPages] at hneed
  have hrun : wp (loadIcode c e rom binary) (fun _ s' => ∃ s₂, Populated pd l (loadedPages (segments rom binary)) s₁ s₂ ∧
      (∀ ph ∈ segments rom binary, ∀ va, (va - ph.va).toNat < ph.memsz.toNat →
        s₂.userByte pd va = some (segmentByte rom binary ph (va - ph.va).toNat)) ∧
      s' = (s₂.setEnv e fun v => { v with tf := { v.tf with eip := (readElf rom binary).entry } }).setCpu c fun i =>
        { i with cr3 := s.kernPgdir, tlb := [] }) (fun _ _ => False) s := by
    rw [loadIcode]
    simp only [wp_bind_get, hd', lcr3, wp_bind_modify]
    rw [if_neg (not_not.mpr hm)]
    refine wp_seq (hstart.loadLoop hd' hc (by rw [heph]) hL (by simp) ?_) fun _ s₂ h₂ => ?_
    case refine_1 =>
      rw [Finset.empty_union]
      exact Nat.le_trans (pagesNeeded_mono Finset.subset_union_left) hneed
    case refine_2 =>
      obtain ⟨h₂, -, hb⟩ := h₂
      rw [Finset.empty_union] at h₂
      have hfit : (ustacktop - pgsize).toNat + pgsize.toNat ≤ utop.toNat := by decide
      refine wp_seq (h₂.regionAlloc hd' hfit hL.disjoint_stack hneed) fun _ s₃ h₃ => ?_
      have hk₃ : s₃.kernPgdir = s.kernPgdir := h₃.1.kernPgdir
      simp only [wp_bind_modify, wp_bind_get, wp_modify]
      refine ⟨s₃, h₃.1, fun ph hp va hv => ?_, ?_⟩
      case refine_1 =>
        have hx : (pdx va, ptx va) ∈ segmentPages (segments rom binary) := by
          have hb := hL.below hp
          rw [toNat_stack] at hb
          exact mem_segmentPages.mpr ⟨ph, hp, page_mem_pagesOf hv (by omega)⟩
        rw [h₃.2 va hx]
        exact hb ph hp va hv
      case refine_2 =>
        rw [← hk₃]
        rfl
  obtain ⟨⟨⟩, s', hrun, s₂, h₂, hb, rfl⟩ := run_of_wp hrun
  have ⟨l', hs₂⟩ := h₂
  refine ⟨_, hrun, fun ph hp k hk => ?_, fun i j hi hx => ?_, fun i j hi hx => ?_, fun va a hv => ?_, ?_,
    fun e' pd' hne hd' va hv => ?_⟩
  case refine_1 =>
    have hb := hb ph hp (ph.va + BitVec.ofNat 32 k)
    have hk' : (ph.va + BitVec.ofNat 32 k - ph.va).toNat = k := by
      have := ph.memsz.isLt
      rw [BitVec.add_comm, BitVec.add_sub_cancel, BitVec.toNat_ofNat]
      omega
    rw [hk'] at hb
    exact hb hk
  case refine_2 =>
    obtain ⟨p, -, -, he, -⟩ := hs₂.frame (hL.mem_loadedPages.mpr hx)
    exact ⟨p, he⟩
  case refine_3 => exact hs₂.entry hi fun hm => hx (hL.mem_loadedPages.mp hm)
  case refine_4 =>
    change (s₂.translate pd va a).isSome ↔ _
    rw [← hL.mem_loadedPages]
    by_cases hx : (pdx va, ptx va) ∈ loadedPages (segments rom binary)
    case pos =>
      obtain ⟨p, -, -, he, -⟩ := hs₂.frame hx
      simp [hs₂.translate hx he, hx]
    case neg => simp [hs₂.translate_none (pdx_lt hv) hx, hx]
  case refine_5 =>
    have he : s₂.envs = s.envs := h₂.envs
    simp only [setCpu, setEnv, he]
  case refine_6 => exact h₂.other h₁ hd hd' hne hv

-- An image with two program headers. The second is that of a segment of two bytes, and a third one which is zero.
def smallBytes : List (BitVec 8) :=
  [0x7F, 0x45, 0x4C, 0x46] ++ List.replicate 20 0 ++ [0x20, 0, 0x80, 0] ++ [52, 0, 0, 0] ++ List.replicate 12 0 ++
    [2, 0] ++ List.replicate 6 0 ++ List.replicate 32 6 ++
    [1, 0, 0, 0] ++ [116, 0, 0, 0] ++ [0x20, 0, 0x80, 0] ++ [0, 0, 0, 0] ++ [2, 0, 0, 0] ++ [3, 0, 0, 0] ++
    List.replicate 8 0 ++ [0xCD, 0x30]

def smallImage : Word := 0xF0113000#32

def smallRom : Rom :=
  fun a => smallBytes.getD (a - smallImage).toNat 0#8

theorem segments_small : segments smallRom smallImage =
    [{ type := 1#32, offset := 116#32, va := 0x800020#32, filesz := 2#32, memsz := 3#32 }] := by
  decide +kernel

theorem smallLoadable : Loadable (segments smallRom smallImage) := by
  rw [segments_small]
  constructor <;> simp
  case below => decide

theorem loaded_small (h : Loaded (segments smallRom smallImage) i j) : (i, j) = (2, 0) ∨ (i, j) = (954, 1021) := by
  rw [segments_small] at h
  obtain ⟨ph, hp, k, hk, rfl, rfl⟩ | hs := h
  case inl =>
    obtain rfl := List.mem_singleton.mp hp
    have hk : k < 3 := hk
    left
    interval_cases k <;> decide
  case inr =>
    obtain ⟨rfl, rfl⟩ := (pgaddr_eq_iff (by decide)).mp hs
    right
    decide

theorem smallFreeRoom (hl : 4 ≤ l.length) : FreeRoom (segments smallRom smallImage) l := by
  have h₁ : { x : Ptx × Ptx | Loaded (segments smallRom smallImage) x.1 x.2 } ⊆
      ({(2, 0), (954, 1021)} : Finset (Ptx × Ptx)) := by
    intro x hx
    simpa using loaded_small hx
  have h₂ : { i | ∃ j, Loaded (segments smallRom smallImage) i j } ⊆ ({2, 954} : Finset Ptx) := by
    rintro i ⟨j, hx⟩
    have hx := loaded_small hx
    simp only [Prod.mk.injEq] at hx
    simp only [Finset.coe_insert, Finset.coe_singleton, Set.mem_insert_iff, Set.mem_singleton_iff]
    exact hx.imp And.left And.left
  have h₁ := Set.ncard_le_ncard h₁ (Finset.finite_toSet _)
  have h₂ := Set.ncard_le_ncard h₂ (Finset.finite_toSet _)
  rw [Set.ncard_coe_finset] at h₁ h₂
  have c₁ : ({(2, 0), (954, 1021)} : Finset (Ptx × Ptx)).card = 2 := by decide
  have c₂ : ({2, 954} : Finset Ptx).card = 2 := by decide
  rw [FreeRoom]
  omega

theorem load_icode_exact_small : ∃ s', (loadIcode 0 0 smallRom smallImage).run (soleEnv 8) = .ok () s' ∧
    s'.userByte 1#20 0x800021#32 = some 0x30#8 ∧ s'.userByte 1#20 0x800022#32 = some 0#8 := by
  obtain ⟨l₀, -, h₀, -⟩ := freshKernel_inv (n := 8) (by decide)
  obtain ⟨l, -, h, -⟩ := soleEnv_inv (n := 8) (by decide) (by decide)
  obtain ⟨l₀', rfl⟩ := h₀.free_of_head (t := 1#20) rfl
  have hl : (soleEnv 8).FreeList [2#20, 3#20, 4#20, 5#20, 6#20, 7#20, 8#20] := by decide +kernel
  obtain rfl := h.chain.unique hl
  have hk : KernHalf (freshKernel 8) (freshKernel 8) := by
    refine ⟨rfl, fun _ => rfl, fun {e pd i} hd _ => ?_⟩
    have hn : (freshKernel 8).pgdirOf e = none := rfl
    cases hn.symm.trans hd
  have hk' : KernHalf (freshKernel 8) ((freshKernel 8).newEnv 0 1#20 0#32) := hk.newEnv h₀
  obtain ⟨s', hr, hb, -⟩ := load_icode_exact 0 h
    (hk'.sameUpper (.of_mem rfl rfl rfl)) (show (soleEnv 8).pgdirOf 0 = some 1#20 by decide +kernel)
    (by decide +kernel) (by decide +kernel) (by decide +kernel) smallLoadable (smallFreeRoom (by decide))
  rw [segments_small] at hb
  have hb := hb _ (List.mem_singleton.mpr rfl)
  exact ⟨s', hr, hb 1 (by decide), hb 2 (by decide)⟩

end Jos
