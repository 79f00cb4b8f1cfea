import Jos.Kernel.Mmio
import Jos.Kernel.Theorems.MapRegion

-- Where `mmio_map_region` maps device memory.

open Function Program

namespace Jos

open Kernel

variable {s s' s₀ : Kernel} {l : List Ppn} {base base' pa size addr va : Word} {done : List (Word × Word)} {a : Access}

-- The size can be rounded up and added to `base` without an overflow.
def Fits (base size : Word) : Prop :=
  base.toNat + (size.toNat + 4095) / 4096 * 4096 < 2 ^ 32

instance : Decidable (Fits base size) :=
  inferInstanceAs (Decidable (_ < _))

def mmioPerm : Word :=
  ptePcd ||| ptePwt ||| pteW

-- Calls of `mmio_map_region` that return. The last one is the first in the list of the regions.
inductive MmioCalls (s₀ : Kernel) : List (Word × Word) → Word → Kernel → Prop
  | init : MmioCalls s₀ [] mmiobase s₀
  | call {done : List (Word × Word)} {base pa size addr base' : Word} {s s' : Kernel} : MmioCalls s₀ done base s →
    pa.toNat % 4096 = 0 → Fits base size →
    (mmioMapRegion base pa size).run s = .ok (addr, base') s' → MmioCalls s₀ ((addr, size) :: done) base' s'

-- What a call does that returns `addr`.
structure MmioMapped (done : List (Word × Word)) (pa size addr : Word) (s s' : Kernel) : Prop where
  aligned   : addr.toNat % 4096 = 0
  low       : mmiobase.toNat ≤ addr.toNat
  high      : addr.toNat + size.toNat ≤ mmiolim.toNat
  apart     : ∀ c ∈ done, c.1.toNat + c.2.toNat ≤ addr.toNat ∨ addr.toNat + size.toNat ≤ c.1.toNat
  entry     : ∀ o, o < size → o.toNat % 4096 = 0 →
    s'.entry s.kernPgdir (pdx (addr + o)) (ptx (addr + o)) = (pa + o) ||| mmioPerm ||| pteP
  translate : ∀ o, o < size → o.toNat % 4096 = 0 →
    s'.translate s.kernPgdir (addr + o) ⟨false, false⟩ = some (pgnum (pa + o))
  -- The page table can be seen at `UVPT` when it has been made.
  other     : ∀ va a, (∀ o, o < size → o.toNat % 4096 = 0 → pgnum va ≠ pgnum (addr + o)) →
    (s.table s.kernPgdir (pdx va) = some s.kernPgdir → s'.table s.kernPgdir (ptx va) = s.table s.kernPgdir (ptx va)) →
    s'.translate s.kernPgdir va a = s.translate s.kernPgdir va a

structure MmioInv (done : List (Word × Word)) (base : Word) (s : Kernel) : Prop where
  pgdir   : ∃ l, PgdirInv s.kernPgdir l s
  self    : s.table s.kernPgdir (pdx mmiobase) ≠ some s.kernPgdir
  aligned : base.toNat % 4096 = 0
  low     : mmiobase.toNat ≤ base.toNat
  high    : base.toNat ≤ mmiolim.toNat
  before  : ∀ c ∈ done, c.1.toNat + c.2.toNat ≤ base.toNat

section Region

variable (hb : base.toNat % 4096 = 0) (hp : pa.toNat % 4096 = 0) (hf : Fits base size) (hl : mmiobase.toNat ≤ base.toNat)

theorem toNat_mmiobase : mmiobase.toNat = 0xEF800000 := by
  decide

theorem toNat_mmiolim : mmiolim.toNat = 0xEFC00000 := by
  decide

include hf hl in
theorem Fits.toNat_roundUp : (roundUp size pgsize).toNat = (size.toNat + 4095) / 4096 * 4096 := by
  rw [Fits] at hf
  rw [toNat_mmiobase] at hl
  exact Jos.toNat_roundUp (by omega)

include hf hl in
theorem Fits.toNat_add : (base + roundUp size pgsize).toNat = base.toNat + (size.toNat + 4095) / 4096 * 4096 := by
  rw [BitVec.toNat_add, hf.toNat_roundUp hl]
  exact Nat.mod_eq_of_lt hf

def mmioRegion (base pa size : Word) : Region :=
  ⟨base, roundUp size pgsize, pa, mmioPerm⟩

include hb hp hf hl in
theorem mmioRegion_paged : (mmioRegion base pa size).Paged := by
  have hs := hf.toNat_roundUp hl
  rw [toNat_mmiobase] at hl
  rw [Fits] at hf
  have hm : FlagsOnly mmioPerm := by decide
  refine ⟨hb, ?_, hp, ?_, hm⟩
  case refine_1 =>
    change (roundUp size pgsize).toNat % 4096 = 0
    omega
  case refine_2 =>
    change (roundUp size pgsize).toNat + 4096 ≤ 2 ^ 32
    omega

include hf hl in
-- The window has one page table.
theorem mmioRegion_pdx (hh : (base + roundUp size pgsize).toNat ≤ mmiolim.toNat) {o : Word}
    (ho : o < (mmioRegion base pa size).size) : pdx (base + o) = pdx mmiobase := by
  have hs := hf.toNat_roundUp hl
  have ha := hf.toNat_add hl
  have ho' : o.toNat < (roundUp size pgsize).toNat := ho
  rw [toNat_mmiolim] at hh
  rw [toNat_mmiobase] at hl
  apply Fin.ext
  rw [val_pdx, val_pdx, BitVec.toNat_add, toNat_mmiobase]
  omega

include hb hf hl in
theorem mmioRegion_not_has (h : ∀ o, o < size → o.toNat % 4096 = 0 → pgnum va ≠ pgnum (base + o)) :
    ¬(mmioRegion base pa size).Has (pdx va) (ptx va) := by
  intro hc
  have hs := hf.toNat_roundUp hl
  have hlt : (pgaddr (pdx va) (ptx va) - base).toNat < (roundUp size pgsize).toNat := hc
  have hpg : (pgaddr (pdx va) (ptx va)).toNat = va.toNat / 4096 * 4096 := by
    rw [toNat_pgaddr, val_pdx, val_ptx]
    omega
  have hsub := BitVec.toNat_sub (pgaddr (pdx va) (ptx va)) base
  rw [hpg] at hsub
  have hva := va.isLt
  have hbase := base.isLt
  refine h (pgaddr (pdx va) (ptx va) - base) (BitVec.lt_def.mpr (by omega)) (by omega) ?_
  apply BitVec.eq_of_toNat_eq
  rw [BitVec.add_comm, BitVec.sub_add_cancel, toNat_pgnum, toNat_pgnum, hpg]
  omega

end Region

namespace MmioInv

variable (h : MmioInv done base s) (hp : pa.toNat % 4096 = 0) (hf : Fits base size)

include h hp hf in
-- The call in front of the limit.
theorem mapped (hm : Maps s.kernPgdir (mmioRegion base pa size) l s s')
    (hh : (base + roundUp size pgsize).toNat ≤ mmiolim.toNat) : MmioMapped done pa size base s s' := by
  have hr := mmioRegion_paged h.aligned hp hf h.low
  have hs := hf.toNat_roundUp h.low
  have ha := hf.toNat_add h.low
  have hin (o) (ho : o < size) : o < (mmioRegion base pa size).size := by
    have ho' : o.toNat < size.toNat := ho
    refine BitVec.lt_def.mpr ?_
    change o.toNat < (roundUp size pgsize).toNat
    omega
  have hentry (o) (ho : o < size) (ho' : o.toNat % 4096 = 0) :
      s'.entry s.kernPgdir (pdx (base + o)) (ptx (base + o)) = (pa + o) ||| mmioPerm ||| pteP :=
    hm.inside o (hin o ho) ho'
  refine ⟨h.aligned, h.low, by omega, fun c hc => .inl (h.before c hc), hentry, fun o ho ho' => ?_, fun va a hn hw => ?_⟩
  case refine_1 =>
    have hpo : (pa + o).toNat % 4096 = 0 := aligned_add ho' hp
    have he : entryPage ((pa + o) ||| mmioPerm ||| pteP) = some (pgnum (pa + o)) := by
      rw [← page2pa_pgnum hpo, entryPage_insert (by decide), page2pa_pgnum hpo]
    simp [Kernel.translate, hentry o ho ho', he]
  case refine_2 =>
    refine hm.translate (mmioRegion_not_has h.aligned hf h.low hn) fun hself hmiss => ?_
    obtain ⟨t, -, ht, -⟩ := hm.made hmiss
    have hnew : s'.table s.kernPgdir (ptx va) = some t := by rw [Kernel.table, ht, entryPage_table]
    cases hnew.symm.trans ((hw hself).trans hmiss.1)

include h hp hf in
theorem step : wp (mmioMapRegion base pa size)
    (fun x s' => MmioMapped done pa size x.1 s s' ∧ MmioInv ((x.1, size) :: done) x.2 s')
    (fun e _ => e = .panic ∨ e = .fault 0#32) s := by
  have hr := mmioRegion_paged h.aligned hp hf h.low
  have hs := hf.toNat_roundUp h.low
  have ha := hf.toNat_add h.low
  by_cases hlim : base + roundUp size pgsize > mmiolim
  case pos =>
    unfold mmioMapRegion
    rw [if_pos hlim]
    exact .inl rfl
  case neg =>
    obtain ⟨l, hl⟩ := h.pgdir
    have hh : (base + roundUp size pgsize).toNat ≤ mmiolim.toNat := BitVec.le_def.mp (BitVec.not_lt.mp hlim)
    have hself (o) (ho : o < (mmioRegion base pa size).size) :
        s.table s.kernPgdir (pdx ((mmioRegion base pa size).va + o)) ≠ some s.kernPgdir := by
      change s.table s.kernPgdir (pdx (base + o)) ≠ _
      rw [mmioRegion_pdx hf h.low hh ho]
      exact h.self
    unfold mmioMapRegion
    rw [if_neg hlim, wp_bind_get]
    refine wp_bind.mpr (wp_mono (bootMapRegion_maps hl hr hself) (fun _ s' hm => ?_) fun e _ he => .inr he.1)
    obtain ⟨⟨l', hl'⟩, hm⟩ := hm
    have halign : (base + roundUp size pgsize).toNat % 4096 = 0 := by
      have := h.aligned
      omega
    have hle : base.toNat ≤ (base + roundUp size pgsize).toNat := by omega
    refine ⟨h.mapped hp hf hm hh, ⟨l', hm.kern ▸ hl'⟩, ?_, halign, Nat.le_trans h.low hle, hh, fun c hc => ?_⟩
    case refine_1 =>
      rw [hm.kern]
      by_cases hmiss : s.Missing s.kernPgdir (mmioRegion base pa size) 0#32 (pdx mmiobase)
      case pos =>
        obtain ⟨t, htl, ht, -⟩ := hm.made hmiss
        rw [Kernel.table, ht, entryPage_table]
        rintro ⟨⟩
        exact hl.dir htl
      case neg =>
        rw [Kernel.table, hm.dir hmiss]
        exact h.self
    case refine_2 =>
      rcases List.mem_cons.mp hc with rfl | hc
      case inl =>
        simp only
        omega
      case inr => exact Nat.le_trans (h.before c hc) hle

end MmioInv

theorem MmioCalls.inv (h : PgdirInv s₀.kernPgdir l s₀) (hs : s₀.table s₀.kernPgdir (pdx mmiobase) ≠ some s₀.kernPgdir)
    (hc : MmioCalls s₀ done base s) : MmioInv done base s := by
  induction hc
  case init =>
    refine ⟨⟨l, h⟩, hs, by decide, Nat.le_refl _, ?_, by simp⟩
    rw [toNat_mmiobase, toNat_mmiolim]
    omega
  case call hp hf hr ih => exact (wp_ok (ih.step hp hf) hr).2

variable (pa size) in
theorem mmio_map_region_window (h : PgdirInv s₀.kernPgdir l s₀)
    (hs : s₀.table s₀.kernPgdir (pdx mmiobase) ≠ some s₀.kernPgdir) (hc : MmioCalls s₀ done base s)
    (hp : pa.toNat % 4096 = 0) (hf : Fits base size) :
    wp (mmioMapRegion base pa size) (fun x s' => MmioMapped done pa size x.1 s s')
      (fun e _ => e = .panic ∨ e = .fault 0#32) s :=
  wp_mono ((hc.inv h hs).step hp hf) (fun _ _ hm => hm.1) fun _ _ => id

-- The directory of the first environment is taken for that of the kernel.
def devices : Kernel :=
  { soleEnv 3 with kernPgdir := 1#20 }

theorem devices_pgdir : PgdirInv devices.kernPgdir [2#20, 3#20] devices :=
  have h := soleEnv_pgdir
  ⟨h.list, h.ref, h.bound, h.dir, h.table, h.exist, h.unique⟩

theorem devices_self : devices.table devices.kernPgdir (pdx mmiobase) ≠ some devices.kernPgdir := by
  decide +kernel

-- The registers of the interrupt controller.
theorem mmio_map_region_window_lapic :
    ∃ s', (mmioMapRegion mmiobase 0xFEE00000#32 4096#32).run devices = .ok (mmiobase, mmiobase + 0x1000#32) s' ∧
      s'.translate 1#20 mmiobase ⟨false, false⟩ = some 0xFEE00#20 := by
  have hv : returns (mmioMapRegion mmiobase 0xFEE00000#32 4096#32) devices = some (mmiobase, mmiobase + 0x1000#32) := by
    decide +kernel
  have hw := mmio_map_region_window 0xFEE00000#32 4096#32 devices_pgdir devices_self .init (by decide) (by decide)
  rw [returns] at hv
  split at hv
  case h_2 => cases hv
  case h_1 s' hr =>
    cases hv
    exact ⟨s', hr, (wp_ok hw hr).translate 0#32 (by decide) rfl⟩

-- The page table comes into sight at `UVPT`. Apart from that, a size that overflows is taken for zero.
theorem mmio_map_region_changes_window :
    (∃ s', (mmioMapRegion mmiobase 0xFEE00000#32 4096#32).run devices = .ok (mmiobase, mmiobase + 0x1000#32) s' ∧
      devices.translate 1#20 0xEF7BE000#32 ⟨false, false⟩ = none ∧
      s'.translate 1#20 0xEF7BE000#32 ⟨false, false⟩ = some 2#20) ∧
    (mmioMapRegion mmiobase 0xFEE00000#32 0xFFFFFFFF#32).run devices = .ok (mmiobase, mmiobase) devices := by
  constructor
  case left =>
    have hv : returns (mmioMapRegion mmiobase 0xFEE00000#32 4096#32) devices = some (mmiobase, mmiobase + 0x1000#32) := by
      decide +kernel
    have ht : (final (mmioMapRegion mmiobase 0xFEE00000#32 4096#32) devices).translate 1#20 0xEF7BE000#32 ⟨false, false⟩ =
        some 2#20 := by
      decide +kernel
    rw [returns] at hv
    rw [final] at ht
    split at hv
    case h_2 => cases hv
    case h_1 s' hr =>
      cases hv
      rw [hr] at ht
      exact ⟨s', hr, by decide +kernel, ht⟩
  case right =>
    unfold mmioMapRegion bootMapRegion
    rfl

end Jos
