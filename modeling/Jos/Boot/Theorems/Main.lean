import Jos.Boot.Main
import Mathlib.Data.Nat.Basic

-- Where the boot loader places the segments of the kernel.

open Bytes

namespace Jos.Bootloader

variable {disk : Disk} {m m' : Mem} {n n₀ : Nat} {pa offset endPa a ph eph : Addr} {p : Proghdr} {l : List Proghdr}

-- The kernel image, which starts at the second sector.
def image (disk : Disk) (i : Nat) : BitVec 8 :=
  disk (BitVec.ofNat 28 (i / sectsize + 1)) (i % sectsize)

section Sectors

theorem sector_eq : sector (offset.setWidth 8) ((offset >>> 8).setWidth 8) ((offset >>> 16).setWidth 8)
    ((offset >>> 24).setWidth 8 ||| 0xE0#8) = offset.setWidth 28 := by
  have hlow {k : Nat} (hk : k < 4) : (0xE0#8).getLsbD k = false := by
    interval_cases k <;> rfl
  apply BitVec.eq_of_getLsbD_eq
  intro i hi
  simp only [sector, BitVec.getLsbD_append, BitVec.getLsbD_extractLsb', BitVec.getLsbD_setWidth, BitVec.getLsbD_or,
    BitVec.getLsbD_ushiftRight]
  have hi : i < 28 := hi
  split_ifs
  case pos => rw [decide_eq_true (by omega), decide_eq_true (by omega)]
  case neg =>
    rw [Nat.zero_add, hlow (by omega), Bool.or_false, decide_eq_true (by omega), decide_eq_true (by omega),
      decide_eq_true (by omega), Bool.true_and, Bool.true_and, Bool.true_and]
    congr 1
    omega
  all_goals
    rw [decide_eq_true (by omega), decide_eq_true (by omega), Bool.true_and, Bool.true_and]
    congr 1
    omega

-- The address is in the sector that has been read.
theorem readsect_eq : readsect disk pa offset m a =
    if (a - pa).toNat < 512 then disk (offset.setWidth 28) (a - pa).toNat else m a := by
  rw [readsect, sector_eq]
  rfl

-- The number of sectors from `pa` up to `endPa`.
def sectors (pa endPa : Addr) : Nat :=
  (endPa.toNat + 511) / 512 - pa.toNat / 512

-- The memory with `k` sectors of the disk in the place of the bytes from `pa` on.
def placed (disk : Disk) (pa offset : Addr) (k : Nat) (m : Mem) : Mem := fun a =>
  if pa.toNat ≤ a.toNat ∧ a.toNat < pa.toNat + 512 * k then
    disk (BitVec.ofNat 28 (offset.toNat + (a.toNat - pa.toNat) / 512)) ((a.toNat - pa.toNat) % 512)
  else
    m a

theorem toNat_add_sectsize (h : pa.toNat + 512 < 2 ^ 32) : (pa + BitVec.ofNat 32 sectsize).toNat = pa.toNat + 512 := by
  rw [BitVec.toNat_add]
  simp only [sectsize, BitVec.toNat_ofNat]
  omega

theorem placed_zero : placed disk pa offset 0 m = m :=
  funext fun _ => if_neg (by omega)

theorem placed_succ {k : Nat} (hpa : pa.toNat + 512 < 2 ^ 32) (hoff : offset.toNat < 2 ^ 28) :
    placed disk (pa + BitVec.ofNat 32 sectsize) (offset + 1#32) k (readsect disk pa offset m) =
      placed disk pa offset (k + 1) m := by
  have hoff' : (offset + 1#32).toNat = offset.toNat + 1 := by
    rw [BitVec.toNat_add]
    simp only [BitVec.toNat_ofNat]
    omega
  funext a
  simp only [placed, readsect_eq, toNat_add_sectsize hpa, hoff']
  by_cases hle : pa.toNat ≤ a.toNat
  case neg =>
    have hd : ¬(a - pa).toNat < 512 := by
      rw [BitVec.toNat_sub]
      omega
    rw [if_neg (by omega), if_neg hd, if_neg (by omega)]
  case pos =>
    have hd : (a - pa).toNat = a.toNat - pa.toNat := by
      have := a.isLt
      rw [BitVec.toNat_sub]
      omega
    rw [hd]
    by_cases hlt : a.toNat - pa.toNat < 512
    case pos =>
      have hz : (a.toNat - pa.toNat) / 512 = 0 := Nat.div_eq_of_lt hlt
      rw [if_neg (by omega), if_pos hlt, if_pos (by omega), hz, Nat.add_zero, BitVec.ofNat_toNat, Nat.mod_eq_of_lt hlt]
    case neg =>
      -- The later sectors.
      have hd : (a.toNat - pa.toNat) / 512 = (a.toNat - (pa.toNat + 512)) / 512 + 1 := by omega
      have hm : (a.toNat - pa.toNat) % 512 = (a.toNat - (pa.toNat + 512)) % 512 := by omega
      rw [if_neg hlt, hd, hm, ← Nat.add_assoc]
      exact if_congr (by omega) (by rw [Nat.add_right_comm]) rfl

-- If the end is not in the last sector, each round places one sector.
theorem readsegLoop_eq (ha : pa.toNat % 512 = 0) (he : endPa.toNat ≤ 2 ^ 32 - 512)
    (ho : offset.toNat + sectors pa endPa < 2 ^ 28) :
    readsegLoop disk n pa endPa offset m =
      if sectors pa endPa < n then .ok (placed disk pa offset (sectors pa endPa) m) else .error .running := by
  induction n generalizing pa offset m
  case zero => rfl
  case succ n hi =>
    rw [readsegLoop]
    by_cases hlt : pa < endPa
    case neg =>
      have hz : sectors pa endPa = 0 := by
        have hlt : ¬pa.toNat < endPa.toNat := hlt
        rw [sectors]
        omega
      rw [if_neg hlt, hz, placed_zero, if_pos (Nat.succ_pos n)]
      rfl
    case pos =>
      have hlt' : pa.toNat < endPa.toNat := hlt
      have hpa : (pa + BitVec.ofNat 32 sectsize).toNat = pa.toNat + 512 := toNat_add_sectsize (by omega)
      have hs : sectors pa endPa = sectors (pa + BitVec.ofNat 32 sectsize) endPa + 1 := by
        rw [sectors, sectors, hpa]
        omega
      have hoff : (offset + 1#32).toNat = offset.toNat + 1 := by
        rw [BitVec.toNat_add]
        simp only [BitVec.toNat_ofNat]
        omega
      rw [if_pos hlt, hi (by omega) (by omega), placed_succ (by omega) (by omega), hs]
      exact if_congr Nat.succ_lt_succ_iff.symm rfl rfl

-- The position wraps around before it gets to an end in the last sector.
theorem readsegLoop_ne_ok (ha : pa.toNat % 512 = 0) (he : 2 ^ 32 - 512 < endPa.toNat) :
    readsegLoop disk n pa endPa offset m ≠ .ok m' := by
  induction n generalizing pa offset m
  case zero => exact nofun
  case succ n hi =>
    have hlt : pa < endPa := by
      have := pa.isLt
      rw [BitVec.lt_def]
      omega
    rw [readsegLoop, if_pos hlt]
    apply hi
    rw [BitVec.toNat_add]
    simp only [sectsize, BitVec.toNat_ofNat]
    omega

theorem toNat_round : (pa &&& ~~~(BitVec.ofNat 32 sectsize - 1#32)).toNat = pa.toNat / 512 * 512 := by
  have h : pa &&& ~~~(BitVec.ofNat 32 sectsize - 1#32) = pa >>> 9 <<< 9 := by
    have hb : ∀ i < 32, (~~~(BitVec.ofNat 32 sectsize - 1#32)).getLsbD i = decide (9 ≤ i) := by decide
    apply BitVec.eq_of_getLsbD_eq
    intro i hi
    rw [BitVec.getLsbD_and, hb i hi, BitVec.getLsbD_shiftLeft, BitVec.getLsbD_ushiftRight, decide_eq_true hi,
      Bool.true_and]
    by_cases hi' : i < 9
    case pos => simp [hi']
    case neg =>
      have he : 9 + (i - 9) = i := by omega
      have hi'' : 9 ≤ i := by omega
      simp [hi', he, hi'']
  have hlt := pa.isLt
  rw [h, BitVec.toNat_shiftLeft, BitVec.toNat_ushiftRight, Nat.shiftLeft_eq, Nat.shiftRight_eq_div_pow]
  omega

theorem toNat_offset : (offset / BitVec.ofNat 32 sectsize + 1#32).toNat = offset.toNat / 512 + 1 := by
  have hd : (offset / BitVec.ofNat 32 sectsize).toNat = offset.toNat / 512 := BitVec.toNat_udiv
  have hlt := offset.isLt
  rw [BitVec.toNat_add, hd]
  simp only [BitVec.toNat_ofNat]
  omega

end Sectors

-- The address is in one of the sectors which the segment is in.
def InSectors (p : Proghdr) (a : Addr) : Prop :=
  p.pa.toNat / 512 * 512 ≤ a.toNat ∧ a.toNat < (p.pa.toNat + p.memsz.toNat + 511) / 512 * 512

-- The segment ends before the last sector.
def Ends (p : Proghdr) : Prop :=
  p.pa.toNat + p.memsz.toNat ≤ 2 ^ 32 - 512

section Segment

-- The bytes of the segment are those of the image, and those outside of its sectors stay.
structure Placed (disk : Disk) (p : Proghdr) (m m' : Mem) : Prop where
  byte  : ∀ i < p.memsz.toNat, m' (p.pa + BitVec.ofNat 32 i) = image disk (p.offset.toNat + i)
  frame : ∀ a, ¬InSectors p a → m' a = m a

-- The number of sectors which the segment is in.
def count (p : Proghdr) : Nat :=
  (p.pa.toNat + p.memsz.toNat + 511) / 512 - p.pa.toNat / 512

theorem placed_segment {lo off : Addr} (hlo : lo.toNat = p.pa.toNat / 512 * 512)
    (hoff : off.toNat = p.offset.toNat / 512 + 1) (he : Ends p) (hc : p.pa.toNat % 512 = p.offset.toNat % 512) :
    Placed disk p m (placed disk lo off (count p) m) where
  byte i hi := by
    rw [Ends] at he
    have hi' : (p.pa + BitVec.ofNat 32 i).toNat = p.pa.toNat + i := by
      rw [BitVec.toNat_add]
      simp only [BitVec.toNat_ofNat]
      omega
    -- The byte has the same place in its sector in memory and on the disk.
    have hd : p.offset.toNat / 512 + 1 + (p.pa.toNat + i - p.pa.toNat / 512 * 512) / 512 =
        (p.offset.toNat + i) / 512 + 1 := by
      omega
    have hm : (p.pa.toNat + i - p.pa.toNat / 512 * 512) % 512 = (p.offset.toNat + i) % 512 := by omega
    have hin : p.pa.toNat / 512 * 512 ≤ p.pa.toNat + i ∧
        p.pa.toNat + i < p.pa.toNat / 512 * 512 + 512 * count p := by
      rw [count]
      omega
    simp only [placed, hlo, hoff, hi', hd, hm, if_pos hin]
    rfl
  frame a ha := by
    have hend : p.pa.toNat / 512 * 512 + 512 * count p = (p.pa.toNat + p.memsz.toNat + 511) / 512 * 512 := by
      have hle : p.pa.toNat / 512 ≤ (p.pa.toNat + p.memsz.toNat + 511) / 512 := by omega
      rw [count, Nat.mul_comm 512, ← Nat.add_mul, Nat.add_sub_cancel' hle]
    have hout : ¬(p.pa.toNat / 512 * 512 ≤ a.toNat ∧ a.toNat < p.pa.toNat / 512 * 512 + 512 * count p) := by
      rw [hend]
      exact ha
    simp only [placed, hlo, if_neg hout]

theorem readseg_eq (disk : Disk) (m : Mem) (he : Ends p) (hc : p.pa.toNat % 512 = p.offset.toNat % 512) :
    ∃ m', Placed disk p m m' ∧
      ∀ n, readseg disk n p.pa p.memsz p.offset m = if count p < n then .ok m' else .error .running := by
  refine ⟨_, placed_segment toNat_round toNat_offset he hc, fun n => ?_⟩
  rw [Ends] at he
  have ho := p.offset.isLt
  have hend : (p.pa + p.memsz).toNat = p.pa.toNat + p.memsz.toNat := by
    rw [BitVec.toNat_add]
    omega
  have hs : sectors (p.pa &&& ~~~(BitVec.ofNat 32 sectsize - 1#32)) (p.pa + p.memsz) = count p := by
    rw [sectors, count, hend, toNat_round, Nat.mul_div_cancel _ (by decide)]
  have hcount : count p < 2 ^ 24 := by
    rw [count]
    omega
  rw [readseg, readsegLoop_eq (by rw [toNat_round]; omega) (by omega) (by rw [toNat_offset, hs]; omega), hs]

-- With an end in the last sector nothing stops the loop.
theorem readseg_ne_ok (hw : p.pa.toNat + p.memsz.toNat < 2 ^ 32) (he : ¬Ends p) :
    readseg disk n p.pa p.memsz p.offset m ≠ .ok m' := by
  rw [Ends] at he
  have hend : (p.pa + p.memsz).toNat = p.pa.toNat + p.memsz.toNat := by
    rw [BitVec.toNat_add]
    omega
  apply readsegLoop_ne_ok
  · rw [toNat_round]
    omega
  · omega

end Segment

-- The address is in the page with the ELF header.
def InPage (a : Addr) : Prop :=
  0x10000 ≤ a.toNat ∧ a.toNat < 0x11000

instance : Decidable (InPage a) :=
  inferInstanceAs <| Decidable (_ ∧ _)

-- What is read to that page.
def scratch (disk : Disk) : Mem := fun a =>
  image disk (a.toNat - 0x10000)

def headersFrom (m : Mem) : Nat → Addr → List Proghdr
  | 0, _ => []
  | n + 1, ph => readProghdr m ph :: headersFrom m n (ph + sizeofProghdr)

-- The program headers of the kernel.
def headers (disk : Disk) : List Proghdr :=
  headersFrom (scratch disk) (phnum (scratch disk)).toNat (elfhdr + phoff (scratch disk))

-- The table of the headers is in the page.
def TableFits (disk : Disk) : Prop :=
  (phoff (scratch disk)).toNat + 32 * (phnum (scratch disk)).toNat ≤ 0x1000

-- Each segment has the same place in its sectors in memory and on the disk, none wraps around, and no two of them have a
-- sector in common, nor has one a sector of the page with the headers.
structure Apart (l : List Proghdr) : Prop where
  congr : ∀ p ∈ l, p.pa.toNat % 512 = p.offset.toNat % 512
  wrap  : ∀ p ∈ l, p.pa.toNat + p.memsz.toNat < 2 ^ 32
  apart : l.Pairwise fun p q => ∀ a, InSectors p a → ¬InSectors q a
  page  : ∀ p ∈ l, ∀ a, InPage a → ¬InSectors p a

def HasPage (disk : Disk) (m : Mem) : Prop :=
  ∀ a, InPage a → m a = scratch disk a

section Page

theorem HasPage.load (h : HasPage disk m) (hl : 0x10000 ≤ a.toNat) (hu : a.toNat + 4 ≤ 0x11000) :
    load m a = load (scratch disk) a := by
  apply load_congr
  intro x hx
  apply h
  rw [BitVec.lt_def, BitVec.toNat_sub] at hx
  simp only [BitVec.toNat_ofNat] at hx
  rw [InPage]
  omega

theorem toNat_add_small {k : Nat} (h : a.toNat + k < 2 ^ 32) : (a + BitVec.ofNat 32 k).toNat = a.toNat + k := by
  rw [BitVec.toNat_add]
  simp only [BitVec.toNat_ofNat]
  omega

theorem HasPage.readProghdr (h : HasPage disk m) (hl : 0x10000 ≤ ph.toNat) (hu : ph.toNat + 32 ≤ 0x11000) :
    readProghdr m ph = readProghdr (scratch disk) ph := by
  have hk {k : Nat} (hk : k ≤ 28) :
      Bytes.load m (ph + BitVec.ofNat 32 k) = Bytes.load (scratch disk) (ph + BitVec.ofNat 32 k) := by
    have ha : (ph + BitVec.ofNat 32 k).toNat = ph.toNat + k := toNat_add_small (by omega)
    apply h.load
    all_goals
      rw [ha]
      omega
  rw [Bootloader.readProghdr, Bootloader.readProghdr, hk (k := 4) (by decide), hk (k := 12) (by decide),
    hk (k := 20) (by decide)]

theorem Placed.hasPage (h : Placed disk p m m') (hp : ∀ a, InPage a → ¬InSectors p a) (hm : HasPage disk m) :
    HasPage disk m' :=
  fun a ha => (h.frame a <| hp a ha).trans <| hm a ha

-- The page is read as a segment with the first bytes of the image.
theorem readseg_page (disk : Disk) (m : Mem) : ∃ m', HasPage disk m' ∧ (∀ a, ¬InPage a → m' a = m a) ∧
    ∀ n, readseg disk n elfhdr (BitVec.ofNat 32 (sectsize * 8)) 0#32 m = if 8 < n then .ok m' else .error .running := by
  have he : Ends { offset := 0#32, pa := elfhdr, memsz := BitVec.ofNat 32 (sectsize * 8) } := by
    simp [Ends, elfhdr, sectsize]
  have ⟨m', hp, hn⟩ := readseg_eq disk m he rfl
  refine ⟨m', fun a ha => ?_, fun a ha => hp.frame a ha, hn⟩
  have hlt : a.toNat - 0x10000 < 0x1000 := by
    have := ha.2
    omega
  have ha' : elfhdr + BitVec.ofNat 32 (a.toNat - 0x10000) = a := by
    apply BitVec.eq_of_toNat_eq
    have hl := ha.1
    have hz : elfhdr.toNat = 0x10000 := rfl
    rw [toNat_add_small (by rw [hz]; omega), hz]
    omega
  have hb := hp.byte (a.toNat - 0x10000) hlt
  dsimp only at hb
  rw [ha', BitVec.toNat_ofNat, Nat.zero_mod, Nat.zero_add] at hb
  exact hb

end Page

section Headers

variable {k : Nat}

theorem Apart.tail (h : Apart (p :: l)) : Apart l where
  congr q hq := h.congr q <| List.mem_cons_of_mem _ hq
  wrap q hq  := h.wrap q <| List.mem_cons_of_mem _ hq
  apart      := (List.pairwise_cons.mp h.apart).2
  page q hq  := h.page q <| List.mem_cons_of_mem _ hq

theorem Apart.apart_head {q : Proghdr} (h : Apart (p :: l)) (hq : q ∈ l) : ∀ a, InSectors p a → ¬InSectors q a :=
  (List.pairwise_cons.mp h.apart).1 q hq

theorem count_lt : count p < 2 ^ 24 := by
  rw [count]
  omega

theorem Ends.inSectors {i : Nat} (h : Ends p) (hi : i < p.memsz.toNat) : InSectors p (p.pa + BitVec.ofNat 32 i) := by
  rw [Ends] at h
  have ha : (p.pa + BitVec.ofNat 32 i).toNat = p.pa.toNat + i := toNat_add_small (by omega)
  rw [InSectors, ha]
  constructor
  · exact Nat.le_trans (Nat.div_mul_le_self _ _) (Nat.le_add_right _ _)
  · have := Nat.div_add_mod (p.pa.toNat + p.memsz.toNat + 511) 512
    have := Nat.mod_lt (p.pa.toNat + p.memsz.toNat + 511) (Nat.succ_pos 511)
    omega

-- The segments are placed where nothing else is, so that the table of the headers stays.
theorem segments_placed (hl : 0x10000 ≤ ph.toNat) (hu : ph.toNat + 32 * k ≤ 0x11000) (hm : HasPage disk m)
    (heph : eph.toNat = ph.toNat + 32 * k) (hs : Apart (headersFrom (scratch disk) k ph))
    (he : ∀ p ∈ headersFrom (scratch disk) k ph, Ends p) (hn₀ : 2 ^ 24 ≤ n₀) (hn : k < n) :
    ∃ m', segments disk n₀ n ph eph m = .ok m' ∧
      (∀ p ∈ headersFrom (scratch disk) k ph, ∀ i < p.memsz.toNat,
        m' (p.pa + BitVec.ofNat 32 i) = image disk (p.offset.toNat + i)) ∧
      ∀ a, (∀ p ∈ headersFrom (scratch disk) k ph, ¬InSectors p a) → m' a = m a := by
  induction k generalizing n ph m
  case zero =>
    cases n
    case zero => exact absurd hn (Nat.not_lt_zero _)
    case succ n =>
      have hlt : ¬ph < eph := by
        rw [BitVec.lt_def]
        omega
      rw [segments, if_neg hlt]
      exact ⟨m, rfl, fun p hp => absurd hp List.not_mem_nil, fun _ _ => rfl⟩
  case succ k hi =>
    cases n
    case zero => exact absurd hn (Nat.not_lt_zero _)
    case succ n =>
      have hlt : ph < eph := by
        rw [BitVec.lt_def]
        omega
      have hnext : (ph + sizeofProghdr).toNat = ph.toNat + 32 := toNat_add_small (k := 32) (by omega)
      rw [segments, if_pos hlt, hm.readProghdr hl (by omega)]
      rw [headersFrom] at hs he ⊢
      generalize readProghdr (scratch disk) ph = p at *
      have hend := he p List.mem_cons_self
      have ⟨m₁, hp, hr⟩ := readseg_eq disk m hend (hs.congr p List.mem_cons_self)
      have ⟨m', hok, hb, hf⟩ := hi (by omega) (by omega) (hp.hasPage (hs.page p List.mem_cons_self) hm) (by omega)
        hs.tail (fun q hq => he q <| List.mem_cons_of_mem _ hq) (Nat.lt_of_succ_lt_succ hn)
      dsimp only
      rw [hr, if_pos <| Nat.lt_of_lt_of_le count_lt hn₀]
      refine ⟨m', hok, fun q hq i hi => ?_, fun a ha => ?_⟩
      · cases List.mem_cons.mp hq
        case inr hq => exact hb q hq i hi
        case inl hq =>
          subst hq
          rw [hf _ fun q' hq' => hs.apart_head hq' _ <| hend.inSectors hi, hp.byte i hi]
      · rw [hf a fun q hq => ha q <| List.mem_cons_of_mem _ hq, hp.frame a <| ha p List.mem_cons_self]

-- The loop comes to an end only if it does so for each of the segments.
theorem segments_ends (hl : 0x10000 ≤ ph.toNat) (hu : ph.toNat + 32 * k ≤ 0x11000) (hm : HasPage disk m)
    (heph : eph.toNat = ph.toNat + 32 * k) (hs : Apart (headersFrom (scratch disk) k ph))
    (h : segments disk n₀ n ph eph m = .ok m') : ∀ p ∈ headersFrom (scratch disk) k ph, Ends p := by
  induction k generalizing n ph m
  case zero => exact fun p hp => absurd hp List.not_mem_nil
  case succ k hi =>
    cases n
    case zero => cases h
    case succ n =>
      have hlt : ph < eph := by
        rw [BitVec.lt_def]
        omega
      have hnext : (ph + sizeofProghdr).toNat = ph.toNat + 32 := toNat_add_small (k := 32) (by omega)
      rw [segments, if_pos hlt, hm.readProghdr hl (by omega)] at h
      rw [headersFrom] at hs ⊢
      generalize readProghdr (scratch disk) ph = p at *
      by_cases hend : Ends p
      case neg =>
        cases hr : readseg disk n₀ p.pa p.memsz p.offset m
        case ok => exact absurd hr <| readseg_ne_ok (hs.wrap p List.mem_cons_self) hend
        case error =>
          dsimp only at h
          rw [hr] at h
          cases h
      case pos =>
        have ⟨m₁, hp, hr⟩ := readseg_eq disk m hend (hs.congr p List.mem_cons_self)
        dsimp only at h
        rw [hr] at h
        split at h
        case isFalse => cases h
        case isTrue =>
          have hl' := hi (by omega) (by omega) (hp.hasPage (hs.page p List.mem_cons_self) hm) (by omega) hs.tail h
          intro q hq
          cases List.mem_cons.mp hq
          case inl hq => rwa [hq]
          case inr hq => exact hl' q hq

end Headers

-- When the kernel is loaded, each byte of a segment is the byte of the image at its offset, and apart from the page with
-- the headers nothing but the sectors of the segments has changed; no segment changes more than its own sectors.
structure Loads (disk : Disk) (m : Mem) : Prop where
  load  : ∃ n entry m', bootmain disk n m = .ok (some entry, m') ∧
    (∀ p ∈ headers disk, ∀ i < p.memsz.toNat, m' (p.pa + BitVec.ofNat 32 i) = image disk (p.offset.toNat + i)) ∧
    ∀ a, ¬InPage a → (∀ p ∈ headers disk, ¬InSectors p a) → m' a = m a
  frame : ∀ p ∈ headers disk, ∀ m, ∃ n m', readseg disk n p.pa p.memsz p.offset m = .ok m' ∧
    ∀ a, ¬InSectors p a → m' a = m a

section Main

theorem HasPage.phnum (h : HasPage disk m) : phnum m = phnum (scratch disk) := by
  rw [Bootloader.phnum, Bootloader.phnum, h (elfhdr + 45#32) (by decide), h (elfhdr + 44#32) (by decide)]

theorem HasPage.phoff (h : HasPage disk m) : phoff m = phoff (scratch disk) :=
  h.load (by decide) (by decide)

-- What `bootmain` does once the page has been read.
theorem bootmain_eq (m : Mem) (hmagic : load (scratch disk) elfhdr = elfMagic) : ∃ m₁, HasPage disk m₁ ∧
    (∀ a, ¬InPage a → m₁ a = m a) ∧ ∀ n, bootmain disk n m =
      if 8 < n then
        (fun m => (some (load m (elfhdr + 24#32)), m)) <$> segments disk n n (elfhdr + phoff (scratch disk))
          (elfhdr + phoff (scratch disk) + (phnum (scratch disk)).setWidth 32 * sizeofProghdr) m₁
      else
        .error .running := by
  have ⟨m₁, hm, hf, hr⟩ := readseg_page disk m
  refine ⟨m₁, hm, hf, fun n => ?_⟩
  rw [bootmain, hr]
  split
  case isFalse => rfl
  case isTrue =>
    have hmagic₁ : ¬load m₁ elfhdr ≠ elfMagic := fun hn => hn <| (hm.load (by decide) (by decide)).trans hmagic
    change (if load m₁ elfhdr ≠ elfMagic then _ else _) = _
    rw [if_neg hmagic₁, hm.phoff, hm.phnum]
    rfl

theorem toNat_eph (h : TableFits disk) :
    (elfhdr + phoff (scratch disk)).toNat = 0x10000 + (phoff (scratch disk)).toNat ∧
      (elfhdr + phoff (scratch disk) + (phnum (scratch disk)).setWidth 32 * sizeofProghdr).toNat =
        (elfhdr + phoff (scratch disk)).toNat + 32 * (phnum (scratch disk)).toNat := by
  rw [TableFits] at h
  have hz : elfhdr.toNat = 0x10000 := rfl
  have hp : sizeofProghdr.toNat = 32 := rfl
  have h₁ : (elfhdr + phoff (scratch disk)).toNat = 0x10000 + (phoff (scratch disk)).toNat := by
    rw [BitVec.toNat_add, hz]
    omega
  have hn : (phnum (scratch disk)).toNat < 2 ^ 16 := BitVec.isLt _
  refine ⟨h₁, ?_⟩
  rw [BitVec.toNat_add, BitVec.toNat_mul, BitVec.toNat_setWidth, h₁, hp]
  omega

theorem Loads.ends (h : Loads disk m) (hmagic : Bytes.load (scratch disk) elfhdr = elfMagic) (htable : TableFits disk)
    (hs : Apart (headers disk)) : ∀ p ∈ headers disk, Ends p := by
  have ⟨hph, heph⟩ := toNat_eph htable
  have ⟨m₁, hm, _, hb⟩ := bootmain_eq m hmagic
  have ⟨n, entry, m', hok, _⟩ := h.load
  rw [TableFits] at htable
  rw [hb] at hok
  split at hok
  case isFalse => cases hok
  case isTrue =>
    cases hr : segments disk n n (elfhdr + phoff (scratch disk))
      (elfhdr + phoff (scratch disk) + (phnum (scratch disk)).setWidth 32 * sizeofProghdr) m₁
    case error =>
      rw [hr] at hok
      cases hok
    case ok => exact segments_ends (by omega) (by omega) hm heph hs hr

theorem loads_of_ends (m : Mem) (hmagic : load (scratch disk) elfhdr = elfMagic) (htable : TableFits disk)
    (hs : Apart (headers disk)) (he : ∀ p ∈ headers disk, Ends p) : Loads disk m where
  load := by
    have ⟨hph, heph⟩ := toNat_eph htable
    have ⟨m₁, hm, hf, hb⟩ := bootmain_eq m hmagic
    rw [TableFits] at htable
    have ⟨m', hok, hbyte, hframe⟩ := segments_placed (n := 2 ^ 24) (by omega) (by omega) hm heph hs he (Nat.le_refl _)
      (by omega)
    refine ⟨2 ^ 24, load m' (elfhdr + 24#32), m', ?_, hbyte, fun a hp ha => (hframe a ha).trans <| hf a hp⟩
    rw [hb, if_pos (by decide), hok]
    rfl
  frame p hp m := by
    have ⟨m', hp', hr⟩ := readseg_eq disk m (he p hp) (hs.congr p hp)
    exact ⟨count p + 1, m', (hr _).trans <| if_pos <| Nat.lt_succ_self _, hp'.frame⟩

-- The loader places the segments of the kernel if and only if none of them ends in the last sector of the memory, where
-- the position of `readseg` wraps around.
theorem bootmain_loads_iff (disk : Disk) (m : Mem) (hmagic : load (scratch disk) elfhdr = elfMagic)
    (htable : TableFits disk) (hs : Apart (headers disk)) :
    Loads disk m ↔ ∀ p ∈ headers disk, p.pa.toNat + p.memsz.toNat ≤ 2 ^ 32 - 512 :=
  ⟨fun h => h.ends hmagic htable hs, loads_of_ends m hmagic htable hs⟩

end Main

section Kernel

-- A kernel with a single segment.
def kernel (pa memsz : Addr) : List (BitVec 8) :=
  [0x7F#8, 0x45#8, 0x4C#8, 0x46#8] ++ List.replicate 24 0#8 ++ [0x34#8] ++ List.replicate 15 0#8 ++ [0x01#8] ++
    List.replicate 11 0#8 ++ [0x00#8, 0x10#8, 0x00#8, 0x00#8] ++ List.replicate 4 0#8 ++
    (List.range 4).map (fun i => pa.extractLsb' (8 * i) 8) ++ List.replicate 4 0#8 ++
    (List.range 4).map (fun i => memsz.extractLsb' (8 * i) 8)

def diskOf (l : List (BitVec 8)) : Disk := fun lba i =>
  if lba = 1#28 then l.getD i 0#8 else 0#8

theorem apart_singleton (hc : p.pa.toNat % 512 = p.offset.toNat % 512) (hw : p.pa.toNat + p.memsz.toNat < 2 ^ 32)
    (hp : 0x11000 ≤ p.pa.toNat) : Apart [p] where
  congr q hq := by rwa [List.mem_singleton.mp hq]
  wrap q hq  := by rwa [List.mem_singleton.mp hq]
  apart      := List.pairwise_singleton _ _
  page q hq a ha hs := by
    rw [List.mem_singleton.mp hq] at hs
    have h₁ := ha.2
    have h₂ := hs.1
    omega

theorem bootmain_loads_iff_low :
    Loads (diskOf (kernel 0x100000#32 700#32)) (fun _ => 0#8) ↔
      ∀ p ∈ headers (diskOf (kernel 0x100000#32 700#32)), p.pa.toNat + p.memsz.toNat ≤ 2 ^ 32 - 512 := by
  have hh : headers (diskOf (kernel 0x100000#32 700#32)) = [⟨0x1000#32, 0x100000#32, 700#32⟩] := by decide +kernel
  exact bootmain_loads_iff _ _ (by decide +kernel) (by rw [TableFits]; decide +kernel)
    (hh ▸ apart_singleton rfl (by decide) (by decide))

-- A segment with a single byte in the last sector is read again and again.
theorem bootmain_wraps :
    Bytes.load (scratch (diskOf (kernel 0xFFFFFE00#32 1#32))) elfhdr = elfMagic ∧
      TableFits (diskOf (kernel 0xFFFFFE00#32 1#32)) ∧ Apart (headers (diskOf (kernel 0xFFFFFE00#32 1#32))) ∧
      ¬Loads (diskOf (kernel 0xFFFFFE00#32 1#32)) (fun _ => 0#8) := by
  have hh : headers (diskOf (kernel 0xFFFFFE00#32 1#32)) = [⟨0x1000#32, 0xFFFFFE00#32, 1#32⟩] := by decide +kernel
  have hm : Bytes.load (scratch (diskOf (kernel 0xFFFFFE00#32 1#32))) elfhdr = elfMagic := by decide +kernel
  have ht : TableFits (diskOf (kernel 0xFFFFFE00#32 1#32)) := by
    rw [TableFits]
    decide +kernel
  have ha : Apart (headers (diskOf (kernel 0xFFFFFE00#32 1#32))) :=
    hh ▸ apart_singleton rfl (by decide) (by decide)
  refine ⟨hm, ht, ha, fun hl => ?_⟩
  have he := hl.ends hm ht ha ⟨0x1000#32, 0xFFFFFE00#32, 1#32⟩ (by rw [hh]; exact List.mem_singleton_self _)
  exact absurd he (by decide : ¬0xFFFFFE00 + 1 ≤ 2 ^ 32 - 512)

end Kernel

end Jos.Bootloader
