import Jos.Kernel.Init
import Jos.Kernel.Theorems.Frames
import Jos.Kernel.Theorems.Icode
import Jos.Kernel.Theorems.Layout
import Jos.Kernel.Theorems.System
import Mathlib.Algebra.Order.BigOperators.Group.List

-- The state in which `i386_init` leaves the machine.

open Function Program

namespace Jos

open Kernel

variable {M : Set Ppn} {s s' s₀ s₁ : Kernel} {c : CpuIx} {e e' : EnvIx} {pd p q t : Ppn} {l : List Ppn} {L : List EnvIx}
  {i : Ptx} {va size pa perm w len binary lapicaddr base eph a : Word} {b : BootInfo} {n : Nat} {rom : Rom}
  {images done : List Word} {v : BitVec 8} {ph : Proghdr} {f : Nat → BitVec 8}

-- The allocator's invariant, with memory for all the page tables that the kernel still lacks.
def Roomy (M : Set Ppn) (s : Kernel) : Prop :=
  ∃ l, PageInv M ∅ l s ∧ s.absent ≤ l.length

theorem cur_setCpu {g : CpuInfo → CpuInfo} (hg : (g (s.cpus c)).env = (s.cpus c).env) : (s.setCpu c g).cur = s.cur := by
  funext c'
  by_cases hne : c' = c <;> simp [Kernel.cur, setCpu, hne, hg]

section MapRegion

theorem absent_congr (hk : s'.kernPgdir = s.kernPgdir) (hm : s'.mem = s.mem) : s'.absent = s.absent := by
  have ht : ∀ i, s'.target (.kpde i) = s.target (.kpde i) := fun i => by simp only [target, table, hk, hm]
  exact congrArg Finset.card (Finset.filter_congr fun i _ => by rw [ht])

-- One iteration of `boot_map_region`, whatever environments there are.
theorem bootMapStep_roomy (h : Roomy M s) (hi : KernIx (pdx va)) :
    wp (pgdirWalk s.kernPgdir va true)
      (fun o s' => ∃ p, o = some p ∧ Roomy M (s'.setMem p.1 p.2 w) ∧ SameEnvs s (s'.setMem p.1 p.2 w))
      (fun _ _ => False) s := by
  obtain ⟨l, h, hl⟩ := h
  cases ht : s.target (.kpde (pdx va))
  case some t =>
    have hnt := h.kern_not_table hi ht
    refine wp_of_ok (pgdirWalk_some (show s.table s.kernPgdir (pdx va) = some t from ht) (h.bound (h.kern_mem hi ht)))
      ⟨_, rfl, ⟨l, h.setMem hnt, ?_⟩, rfl, rfl, rfl, rfl, rfl, rfl, fun _ => rfl⟩
    rwa [absent, PageInv.target_setMem hnt]
  case none =>
    have ht' : s.table s.kernPgdir (pdx va) = none := ht
    have hpos : 0 < s.absent := Finset.card_pos.mpr ⟨pdx va, by simp [ht]⟩
    obtain ⟨t, l, rfl⟩ : ∃ t l', l = t :: l' := List.exists_cons_of_length_pos (by omega)
    have ha := h.absent_addKernTable ht
    have h' := h.addKernTable hi.1 ht
    have hnt := h'.kern_not_table (i := pdx va) hi (by rw [h.target_addKernTable, update_self])
    refine wp_of_ok (pgdirWalk_create ht' h.free_head h.free_bound)
      ⟨_, rfl, ⟨l, h'.setMem hnt, ?_⟩, rfl, rfl, rfl, rfl, rfl, rfl, fun _ => rfl⟩
    rw [List.length_cons] at hl
    rw [absent, PageInv.target_setMem hnt, ← absent]
    omega

theorem bootMapLoop_roomy {k : Ppn} {offset : Word} (h : Roomy M s) (hk : s.kernPgdir = k) (hi : KernRegion va size) :
    wp (bootMapLoop k va size pa perm n offset) (fun _ s' => Roomy M s' ∧ SameEnvs s s') (fun _ _ => False) s := by
  induction n generalizing offset s
  case zero => exact ⟨h, .refl⟩
  case succ n ih =>
    simp only [bootMapLoop]
    split
    case isFalse => exact ⟨h, .refl⟩
    case isTrue ho =>
      subst hk
      refine wp_seq (bootMapStep_roomy (w := (pa + offset) ||| perm ||| pteP) h (hi offset ho)) fun _ s₁ hs => ?_
      obtain ⟨p, rfl, h₁, hs₁⟩ := hs
      simp only [wp_bind_modify]
      exact wp_mono (ih h₁ hs₁.kernPgdir) (fun _ _ h₂ => ⟨h₂.1, hs₁.trans h₂.2⟩) fun _ _ => id

theorem bootMapRegion_roomy {k : Ppn} (h : Roomy M s) (hk : s.kernPgdir = k) (hi : KernRegion va size) :
    wp (bootMapRegion k va size pa perm) (fun _ s' => Roomy M s' ∧ SameEnvs s s') (fun _ _ => False) s := by
  unfold bootMapRegion
  exact bootMapLoop_roomy h hk hi

end MapRegion

-- The kernel before it has created environments.
structure Fresh (M : Set Ppn) (s : Kernel) : Prop where
  roomy : Roomy M s
  list  : EnvInv (List.finRange 1024) s
  ids   : ∀ e, (s.envs e).id = 0#32
  cur   : ∀ c, s.cur c = none

section MemInit

-- The kernel before `env_init`.
structure Mapping (M : Set Ppn) (k : Ppn) (s : Kernel) : Prop where
  roomy : Roomy M s
  kern  : s.kernPgdir = k
  envs  : s.envs = fun _ => {}
  cur   : ∀ c, s.cur c = none

theorem memInit_mapping (hb : b.Mappable) (hl : 1024 ≤ b.freePages.length) (hc : ∀ c, s.cur c = none) :
    wp (memInit b c) (fun _ s' => Mapping b.managed (BitVec.ofNat 20 b.kernPgdir) s') (fun _ _ => False) s := by
  obtain ⟨s₁, hr₁, h₁⟩ := bootInv_pageInit (s := s) hb
  have hm := memInit_of (b := b) (c := c) (s := s) (I := Mapping b.managed (BitVec.ofNat 20 b.kernPgdir))
    (E := fun _ _ => False) ?_ (fun _ h => h.kern) ?_
  case refine_1 =>
    intro s' hs'
    have hs := hs'
    rw [hr₁] at hs
    cases hs
    have hcpus : s₁.cpus = s.cpus := by
      rw [pageInit_run, initPages_same] at hr₁
      cases hr₁
      rfl
    refine ⟨⟨_, h₁.inv, h₁.enough hl⟩, h₁.kern, h₁.envs, fun c => ?_⟩
    rw [cur, hcpus]
    exact hc c
  case refine_2 =>
    intro va size pa perm s hr h
    refine wp_mono (bootMapRegion_roomy h.roomy h.kern (hr.kernRegion hb)) (fun _ s' hs => ?_) fun _ _ => id
    exact ⟨hs.1, hs.2.kernPgdir.trans h.kern, hs.2.envs.trans h.envs, fun c => by rw [hs.2.cur, h.cur]⟩
  refine wp_mono hm (fun _ s' hs => ?_) fun _ _ => id
  obtain ⟨s₂, h, rfl⟩ := hs
  obtain ⟨l, hi, ha⟩ := h.roomy
  exact ⟨⟨l, SameMem.setCpu.pageInv hi, ha⟩, h.kern, h.envs, fun c' => by rw [cur_setCpu rfl, h.cur]⟩

theorem cpus_pushEnvs : (L.foldl pushEnv s).cpus = s.cpus := by
  induction L generalizing s
  case nil => rfl
  case cons e L ih => exact ih

theorem Mapping.pushEnvs {k : Ppn} (h : Mapping M k s) (hn : L.Nodup) (hL : ∀ e, e ∈ L) (hr : L.reverse = List.finRange 1024) :
    Fresh M (L.foldl pushEnv { s with envFreeList := none }) := by
  obtain ⟨l, hi, ha⟩ := h.roomy
  obtain ⟨h₁, h₂⟩ := pushEnvs_inv hi h.envs hn hL
  obtain ⟨-, hf, -, hs, hm⟩ := Jos.pushEnvs (s := { s with envFreeList := none }) (L := []) rfl hn (by simp)
  rw [hr] at h₂
  refine ⟨⟨l, h₁, ?_⟩, h₂, fun e => (hf e (.inl (hL e))).2, fun c => ?_⟩
  case refine_1 => rwa [absent_congr hs.kernPgdir hm]
  case refine_2 =>
    rw [Kernel.cur, cpus_pushEnvs]
    exact h.cur c

-- The state after `env_init`.
theorem Mapping.fresh {k : Ppn} (h : Mapping M k s) :
    Fresh M ((List.finRange 1024).reverse.foldl pushEnv { s with envFreeList := none }) :=
  h.pushEnvs (List.nodup_reverse.mpr (List.nodup_finRange _)) (fun e => List.mem_reverse.mpr (List.mem_finRange e))
    (List.reverse_reverse _)

end MemInit

section Start

-- The next region of `mmio_map_region` has room for the registers of `n` interrupt controllers.
structure MmioRoom (n : Nat) (base : Word) : Prop where
  low  : mmiobase ≤ base
  high : base.toNat + 4096 * n ≤ mmiolim.toNat

theorem MmioRoom.next (h : MmioRoom (n + 1) base) : MmioRoom n (base + 4096#32) := by
  obtain ⟨hl, hh⟩ := h
  have hm : mmiolim.toNat = 0xEFC00000 := by decide
  have ha : (base + 4096#32).toNat = base.toNat + 4096 := by
    rw [BitVec.toNat_add]
    simp only [BitVec.toNat_ofNat]
    omega
  rw [BitVec.le_def] at hl
  refine ⟨BitVec.le_def.mpr (by omega), by omega⟩

theorem Fresh.sameEnvs (h : Fresh M s) (hr : Roomy M s') (hs : SameEnvs s s') : Fresh M s' :=
  ⟨hr, h.list.sameEnvs hs, fun e => by rw [hs.envs, h.ids], fun c => by rw [hs.cur, h.cur]⟩

theorem Fresh.setCpu {g : CpuInfo → CpuInfo} (h : Fresh M s) (hg : ∀ i, (g i).env = i.env) : Fresh M (s.setCpu c g) := by
  obtain ⟨⟨l, hi, ha⟩, hL, hd, hc⟩ := h
  exact ⟨⟨l, SameMem.setCpu.pageInv hi, ha⟩, SameMem.setCpu.envInv hL, hd, fun c' => by rw [cur_setCpu (hg _), hc]⟩

theorem MmioRoom.kernRegion (h : MmioRoom (n + 1) base) : KernRegion base 4096#32 := by
  have hl : 0xEF800000 ≤ base.toNat := h.low
  have hh : base.toNat + 4096 ≤ mmiolim.toNat :=
    Nat.le_trans (Nat.add_le_add_left (Nat.le_mul_of_pos_right 4096 (Nat.succ_pos n)) _) h.high
  have hm : mmiolim.toNat = 0xEFC00000 := by decide
  rw [hm] at hh
  have hs : (4096#32 : Word).toNat = 4096 := rfl
  refine kernRegion_of ?_ ?_ (.inr ?_)
  case refine_1 => rw [hs]; omega
  all_goals omega

theorem mmioMapRegion_roomy (h : Roomy M s) (hm : MmioRoom (n + 1) base) :
    wp (mmioMapRegion base pa 4096#32)
      (fun x s' => x = (base, base + 4096#32) ∧ Roomy M s' ∧ SameEnvs s s') (fun _ _ => False) s := by
  have hr : roundUp 4096#32 pgsize = 4096#32 := by decide
  have hle : ¬base + 4096#32 > mmiolim := by
    have hn := hm.next.high
    rw [gt_iff_lt, BitVec.lt_def]
    omega
  unfold mmioMapRegion
  simp only [hr, if_neg hle, wp_bind_get]
  exact wp_seq (bootMapRegion_roomy h rfl hm.kernRegion) fun _ s' hs => ⟨rfl, hs⟩

theorem lapicInit_fresh (h : Fresh M s) (hm : MmioRoom (n + 1) base) :
    wp (lapicInit lapicaddr base) (fun base' s' => Fresh M s' ∧ MmioRoom n base') (fun _ _ => False) s := by
  rw [lapicInit]
  split
  case isTrue =>
    have hh := hm.high
    exact ⟨h, hm.low, by omega⟩
  case isFalse =>
    refine wp_seq (mmioMapRegion_roomy h.roomy hm) fun x s' hs => ?_
    obtain ⟨rfl, hr, hs⟩ := hs
    exact ⟨h.sameEnvs hr hs, hm.next⟩

theorem mpMain_fresh (h : Fresh M s) (hm : MmioRoom (n + 1) base) :
    wp (mpMain c lapicaddr base) (fun base' s' => Fresh M s' ∧ MmioRoom n base') (fun _ _ => False) s := by
  simp only [mpMain, lcr3, wp_bind_get, wp_bind_modify]
  refine wp_seq (lapicInit_fresh (h.setCpu fun _ => rfl) hm) fun base' s' hs => ?_
  exact ⟨hs.1.setCpu fun _ => rfl, hs.2⟩

theorem bootAps_fresh {cs : List CpuIx} (h : Fresh M s) (hm : MmioRoom cs.length base) :
    wp (bootAps lapicaddr cs base) (fun _ s' => Fresh M s') (fun _ _ => False) s := by
  induction cs generalizing s base
  case nil => exact h
  case cons c cs ih => exact wp_seq (mpMain_fresh h hm) fun base' s' hs => ih hs.1 hs.2

end Start

section Load

-- What holds while `load_icode` writes to the address space of `e`.
structure Loading (M : Set Ppn) (c : CpuIx) (e : EnvIx) (pd : Ppn) (s : Kernel) : Prop where
  mem : MemInv M s
  dir : s.pgdirOf e = some pd
  cr3 : (s.cpus c).cr3 = pd

namespace Loading

variable (h : Loading M c e pd s)

include h in
theorem regionAlloc (hf : va.toNat + len.toNat ≤ utop.toNat) :
    wp (regionAlloc c e va len) (fun _ s' => Loading M c e pd s') (fun _ _ => True) s := by
  have hu : utop.toNat = 0xEEC00000 := by decide
  have hsum : (va + len).toNat = va.toNat + len.toNat := by
    rw [BitVec.toNat_add]
    omega
  have hup : roundUp (va + len) pgsize ≤ utop := by
    rw [BitVec.le_def, toNat_roundUp (by omega)]
    omega
  obtain ⟨l, L, hi, hL⟩ := h.mem
  rw [Jos.regionAlloc, wp_bind_of_ok (envPgdir_run h.dir)]
  generalize 2 ^ 20 = n
  refine wp_mono (regionAllocLoop_inv hi h.dir hup) (fun _ s' hs => ?_) fun _ _ => id
  obtain ⟨⟨l', h'⟩, hs⟩ := hs
  exact ⟨⟨l', L, h', hL.sameEnvs hs⟩, by rw [hs.pgdirOf, h.dir], by rw [hs.cr3, h.cr3]⟩

-- A page that the program has is no page table.
include h in
theorem storeByte (hv : va < utop) :
    wp (storeByte c va v) (fun _ s' => Loading M c e pd s') (fun _ _ => True) s := by
  rw [Jos.storeByte, wp_bind_get, h.cr3]
  cases ht : s.translate pd va ⟨false, true⟩
  case none => exact trivial
  case some p =>
    obtain ⟨l, L, hi, hL⟩ := h.mem
    have hnt : ¬s.Table p := hi.page_not_table (target_of_translate h.dir hv ht)
    have hs : SameEnvs s (s.setByteAt p va v) := ⟨rfl, rfl, rfl, rfl, rfl, rfl, fun _ => rfl⟩
    exact ⟨⟨l, L, hi.setMem hnt, hL.sameEnvs hs⟩, h.dir, h.cr3⟩

include h in
theorem storeBytes (hf : va.toNat + n ≤ utop.toNat) :
    wp (storeBytes c va f n) (fun _ s' => Loading M c e pd s') (fun _ _ => True) s := by
  induction n
  case zero => exact h
  case succ n ih =>
    refine wp_seq (ih (by omega)) fun _ s₁ h₁ => h₁.storeByte ?_
    have hu : utop.toNat = 0xEEC00000 := by decide
    rw [BitVec.lt_def, BitVec.toNat_add, BitVec.toNat_ofNat]
    omega

include h in
theorem loadSegment (hf : ph.va.toNat + ph.memsz.toNat ≤ utop.toNat) (hs : ph.filesz ≤ ph.memsz) :
    wp (loadSegment c e rom binary ph) (fun _ s' => Loading M c e pd s') (fun _ _ => True) s := by
  have hs' : ph.filesz.toNat ≤ ph.memsz.toNat := hs
  refine wp_seq (h.regionAlloc hf) fun _ s₁ h₁ => ?_
  refine wp_seq (h₁.storeBytes hf) fun _ s₂ h₂ => ?_
  exact h₂.storeBytes (by omega)

include h in
theorem loadLoop (hL : Loadable (loads (headers rom n a))) :
    wp (loadLoop c e rom binary eph n a) (fun _ s' => Loading M c e pd s') (fun _ _ => True) s := by
  induction n generalizing a s
  case zero => exact h
  case succ n ih =>
    rw [Jos.loadLoop]
    split
    case isFalse => exact h
    case isTrue =>
      by_cases ht : (readProghdr rom a).type = elfProgLoad
      case neg =>
        rw [if_pos ht]
        exact ih h (by simpa [headers, loads, ht] using hL)
      case pos =>
        have hs : loads (headers rom (n + 1) a) = readProghdr rom a :: loads (headers rom n (a + sizeofProghdr)) := by
          simp [headers, loads, ht]
        rw [hs] at hL
        rw [if_neg (not_not.mpr ht)]
        have hb := hL.below List.mem_cons_self
        have hstack : (ustacktop - pgsize).toNat ≤ utop.toNat := by decide
        refine wp_seq (h.loadSegment (Nat.le_trans hb hstack) (hL.filesz (by simp))) fun _ s₁ h₁ => ?_
        exact ih h₁ hL.tail

end Loading

-- What `load_icode` relies on in the image of a program.
structure Image (rom : Rom) (binary : Word) : Prop where
  magic    : (readElf rom binary).magic = elfMagic
  fits     : binary.toNat + (readElf rom binary).phoff.toNat + 32 * (readElf rom binary).phnum.toNat < 2 ^ 32
  loadable : Loadable (segments rom binary)

-- The pages a program needs, with those for its page tables.
def imagePages (rom : Rom) (binary : Word) : Nat :=
  pagesNeeded (loadedPages (segments rom binary))

-- The address space holds the segments of the image and one page for the stack, and nothing else.
structure Contents (rom : Rom) (binary : Word) (pd : Ppn) (s : Kernel) : Prop where
  bytes  : ∀ ph ∈ segments rom binary, ∀ k < ph.memsz.toNat,
    s.userByte pd (ph.va + BitVec.ofNat 32 k) = some (segmentByte rom binary ph k)
  mapped : ∀ va a, va < utop → ((s.translate pd va a).isSome ↔ Loaded (segments rom binary) (pdx va) (ptx va))

-- The kernel's part of the address spaces is not on the free list.
theorem Populated.kernHalf {D : Finset (Ptx × Ptx)} (hp : Populated pd l D s s') (h : PageInv M ∅ l s)
    (hk : KernHalf s₀ s) (hd : s.pgdirOf e = some pd) : KernHalf s₀ s' := by
  have hr : s.target (.pgdir e) = some pd := hd
  have hne : s.kernPgdir ≠ pd := (h.pgdir_ne_kern hd).symm
  obtain ⟨l', hp⟩ := hp
  have hdir : s'.pgdirOf = s.pgdirOf := by
    funext e
    rw [hp.rest]
    rfl
  refine hk.sameUpper ⟨by rw [hp.rest], hdir, fun {q} hq => ?_, fun {e' pd' i} hd' hi => ?_⟩
  case refine_1 =>
    obtain rfl | ⟨i, hi, ht⟩ := hq
    case inl => exact hp.other (fun hm => h.kern (h.pool.mem_free.mp hm).1) hne
    case inr =>
      refine hp.other (h.pool.not_free_of_ref ht) ?_
      rintro rfl
      simpa using h.unique (by trivial) ht hr
  case refine_2 =>
    have hr' : s.target (.pgdir e') = some pd' := hd'
    by_cases hc : pd' = pd
    case pos => exact hc ▸ hp.upper (Nat.not_lt.mpr hi)
    case neg => rw [hp.other (h.pool.not_free_of_ref hr') hc]

theorem Contents.congr {s₁ s₂ : Kernel} (h : Contents rom binary pd s₁)
    (hs : ∀ va, va < utop → (∀ a, s₂.translate pd va a = s₁.translate pd va a) ∧ s₂.userByte pd va = s₁.userByte pd va)
    (hL : Loadable (segments rom binary)) : Contents rom binary pd s₂ := by
  refine ⟨fun ph hp k hk => ?_, fun va a hv => by rw [(hs va hv).1, h.mapped va a hv]⟩
  have hb := hL.below hp
  have hu : utop.toNat = 0xEEC00000 := by decide
  have hv : ph.va + BitVec.ofNat 32 k < utop := by
    rw [toNat_stack] at hb
    rw [BitVec.lt_def, BitVec.toNat_add, BitVec.toNat_ofNat]
    omega
  rw [(hs _ hv).2, h.bytes ph hp k hk]

-- What `load_icode` does, when there are enough pages.
structure Loads (M : Set Ppn) (L : List EnvIx) (rom : Rom) (binary : Word) (e : EnvIx) (pd : Ppn) (s₀ : Kernel)
    (l : List Ppn) (s s' : Kernel) : Prop where
  inv      : ∃ l', PageInv M ∅ l' s' ∧ l'.length + imagePages rom binary = l.length
  list     : EnvInv L s'
  kern     : KernHalf s₀ s'
  cur      : s'.cur = s.cur
  envs     : s'.envs = update s.envs e { s.envs e with tf := { (s.envs e).tf with eip := (readElf rom binary).entry } }
  contents : Contents rom binary pd s'
  other    : ∀ {e' pd' binary'}, e' ≠ e → s.pgdirOf e' = some pd' → Loadable (segments rom binary') →
    Contents rom binary' pd' s → Contents rom binary' pd' s'

section Loaded

-- The state with the address space of `e` in `%cr3`, and the one in which it is complete.
variable {s₁ s₂ : Kernel} (h : PageInv M ∅ l s₁) (hL : EnvInv L s₁) (hk : KernHalf s₀ s₁) (hd : s₁.pgdirOf e = some pd)
  (hi : Image rom binary) (hp : Populated pd l (loadedPages (segments rom binary)) s₁ s₂)
  (hb : ∀ ph ∈ segments rom binary, ∀ va, (va - ph.va).toNat < ph.memsz.toNat →
    s₂.userByte pd va = some (segmentByte rom binary ph (va - ph.va).toNat))

include hi hp hb in
theorem Populated.contents : Contents rom binary pd s₂ := by
  refine ⟨fun ph hm k hk => ?_, fun va a hv => ?_⟩
  case refine_1 =>
    have hb := hb ph hm (ph.va + BitVec.ofNat 32 k)
    have hk' : (ph.va + BitVec.ofNat 32 k - ph.va).toNat = k := by
      have := ph.memsz.isLt
      rw [BitVec.add_comm, BitVec.add_sub_cancel, BitVec.toNat_ofNat]
      omega
    rw [hk'] at hb
    exact hb hk
  case refine_2 =>
    obtain ⟨l', hs⟩ := hp
    rw [← hi.loadable.mem_loadedPages]
    by_cases hx : (pdx va, ptx va) ∈ loadedPages (segments rom binary)
    case pos =>
      obtain ⟨p, -, -, he, -⟩ := hs.frame hx
      simp [hs.translate hx he, hx]
    case neg => simp [hs.translate_none (pdx_lt hv) hx, hx]

include h hL hk hd hi hp hb in
theorem Populated.loads (hl : Loading M c e pd s₂) :
    Loads M L rom binary e pd s₀ l s₁
      ((s₂.setEnv e fun v => { v with tf := { v.tf with eip := (readElf rom binary).entry } }).setCpu c fun i =>
        { i with cr3 := s₂.kernPgdir, tlb := [] }) := by
  have hm : SameMem s₂ ((s₂.setEnv e fun v => { v with tf := { v.tf with eip := (readElf rom binary).entry } }).setCpu c
      fun i => { i with cr3 := s₂.kernPgdir, tlb := [] }) :=
    SameMem.trans (.setEnv rfl rfl Iff.rfl) .setCpu
  have hk₂ := hp.kernHalf h hk hd
  have hc₂ : s₂.cpus = s₁.cpus := hp.cpus
  have he₂ : s₂.envs = s₁.envs := hp.envs
  obtain ⟨l', hs⟩ := id hp
  obtain ⟨l₂, -, hi₂, -⟩ := hl.mem
  cases hi₂.chain.unique hs.pgdir.list
  have hf : s₂.envFreeList = s₁.envFreeList := by rw [hs.rest]
  have hL₂ : EnvInv L s₂ := ⟨by rw [he₂, hf]; exact hL.chain, hL.nodup, by rw [he₂]; exact hL.mem⟩
  refine ⟨⟨_, hm.pageInv hi₂, hs.count⟩, hm.envInv hL₂, hk₂.sameUpper (.of_mem rfl hm.pgdirOf rfl), ?_, ?_,
    (hp.contents hi hb).congr (fun _ _ => ⟨fun _ => rfl, rfl⟩) hi.loadable, fun {e' pd' binary'} hne hd' hL' hx => ?_⟩
  case refine_1 =>
    rw [cur_setCpu rfl]
    funext c'
    exact congrArg CpuInfo.env (congrFun hc₂ c')
  case refine_2 => simp only [setCpu, setEnv, he₂]
  case refine_3 =>
    exact (hx.congr (fun va hv => hp.other h hd hd' hne hv) hL').congr (fun _ _ => ⟨fun _ => rfl, rfl⟩) hL'

end Loaded

variable (c) in
theorem loadIcode_loads (h : PageInv M ∅ l s) (hL : EnvInv L s) (hk : KernHalf s₀ s) (hd : s.pgdirOf e = some pd)
    (hz : ∀ i, i.val < pdxUtop → s.table pd i = none) (hi : Image rom binary) (hr : imagePages rom binary ≤ l.length) :
    ∃ s', (loadIcode c e rom binary).run s = .ok () s' ∧ Loads M L rom binary e pd s₀ l s s' := by
  have hd' : (s.envs e).pgdir = some pd := pgdirOf_pgdir hd
  let s₁ := s.setCpu c fun i => { i with cr3 := pd, tlb := [] }
  have hm₁ : SameMem s s₁ := .setCpu
  have h₁ : PageInv M ∅ l s₁ := hm₁.pageInv h
  have hk₁ : KernHalf s₀ s₁ := hk.sameUpper (.of_mem rfl rfl rfl)
  have hc : (s₁.cpus c).cr3 = pd := by simp [s₁, setCpu]
  have hstart : Populated pd l ∅ s₁ s₁ := .empty (PgdirInv.of_pgdirOf h₁ hk₁ hd) hz
  have hload : Loading M c e pd s₁ := ⟨⟨l, L, h₁, hm₁.envInv hL⟩, hd, hc⟩
  have heph : (binary + (readElf rom binary).phoff + sizeofProghdr * (readElf rom binary).phnum.setWidth 32).toNat =
      (binary + (readElf rom binary).phoff).toNat + 32 * (readElf rom binary).phnum.toNat := by
    have hf := hi.fits
    have hn := (readElf rom binary).phnum.isLt
    rw [BitVec.toNat_add, BitVec.toNat_mul, BitVec.toNat_setWidth, sizeofProghdr, BitVec.toNat_add]
    simp only [BitVec.toNat_ofNat]
    omega
  have hneed : pagesNeeded (segmentPages (segments rom binary) ∪ pagesOf (ustacktop - pgsize) pgsize) ≤ l.length := hr
  have hfit : (ustacktop - pgsize).toNat + pgsize.toNat ≤ utop.toNat := by decide
  -- The pages that are made, and the allocator's invariant.
  have hrun : wp (loadIcode c e rom binary) (fun _ s' => ∃ s₂, Populated pd l (loadedPages (segments rom binary)) s₁ s₂ ∧
      (∀ ph ∈ segments rom binary, ∀ va, (va - ph.va).toNat < ph.memsz.toNat →
        s₂.userByte pd va = some (segmentByte rom binary ph (va - ph.va).toNat)) ∧ Loading M c e pd s₂ ∧
      s' = (s₂.setEnv e fun v => { v with tf := { v.tf with eip := (readElf rom binary).entry } }).setCpu c fun i =>
        { i with cr3 := s₂.kernPgdir, tlb := [] }) (fun _ _ => False) s := by
    rw [loadIcode]
    simp only [wp_bind_get, hd', lcr3, wp_bind_modify]
    rw [if_neg (not_not.mpr hi.magic)]
    have hneed' : pagesNeeded (∅ ∪ segmentPages (segments rom binary)) ≤ l.length := by
      rw [Finset.empty_union]
      exact Nat.le_trans (pagesNeeded_mono Finset.subset_union_left) hneed
    have hloop : wp (loadLoop c e rom binary _ _ _) _ _ s₁ :=
      hstart.loadLoop hd' hc heph hi.loadable (Finset.disjoint_empty_left _) hneed'
    refine wp_seq (wp_mono (wp_and hloop (hload.loadLoop hi.loadable)) (fun _ _ => id) fun _ _ hx => hx.1) fun _ s₂ hs => ?_
    obtain ⟨⟨h₂, -, hb⟩, hl₂⟩ := hs
    rw [Finset.empty_union] at h₂
    have hstack := h₂.regionAlloc (c := c) hd' hfit hi.loadable.disjoint_stack hneed
    refine wp_seq (wp_mono (wp_and hstack (hl₂.regionAlloc hfit)) (fun _ _ => id) fun _ _ hx => hx.1) fun _ s₃ hs => ?_
    obtain ⟨⟨h₃, hkeep⟩, hl₃⟩ := hs
    simp only [wp_bind_modify, wp_bind_get, wp_modify]
    refine ⟨s₃, h₃, fun ph hp va hv => ?_, hl₃, rfl⟩
    have hx : (pdx va, ptx va) ∈ segmentPages (segments rom binary) := by
      have hb := hi.loadable.below hp
      rw [toNat_stack] at hb
      exact mem_segmentPages.mpr ⟨ph, hp, page_mem_pagesOf hv (by omega)⟩
    rw [hkeep va hx]
    exact hb ph hp va hv
  obtain ⟨⟨⟩, s', hrun, s₂, hp, hb, hl, rfl⟩ := run_of_wp hrun
  have hloads := hp.loads h₁ (hm₁.envInv hL) hk₁ hd hi hb hl
  refine ⟨_, hrun, hloads.inv, hloads.list, hloads.kern, ?_, hloads.envs, hloads.contents, fun hne hd' hL' hx => ?_⟩
  case refine_1 => rw [hloads.cur, cur_setCpu rfl]
  case refine_2 => exact hloads.other hne hd' hL' (hx.congr (fun _ _ => ⟨fun _ => rfl, rfl⟩) hL')

end Load

section Create

-- The address space of an environment is known by the pages that are in use.
theorem sees_congr (hd : s.pgdirOf e = some pd) (hv : va < utop)
    (hm : ∀ r q, s.target r = some q → s'.mem q = s.mem q) :
    (∀ a, s'.translate pd va a = s.translate pd va a) ∧ s'.userByte pd va = s.userByte pd va := by
  have hdir : s'.mem pd = s.mem pd := hm (.pgdir e) pd hd
  have hentry : s'.entry pd (pdx va) (ptx va) = s.entry pd (pdx va) (ptx va) := by
    rw [Kernel.entry, Kernel.entry, Kernel.table, Kernel.table, hdir]
    cases ht : entryPage (s.mem pd (pdx va))
    case none => rfl
    case some t =>
      have hr : s.target (.pde e (pdx va)) = some t := by rw [target_pde (pdx_lt hv), tableOf_eq hd, Kernel.table, ht]
      exact congrFun (hm _ t hr) _
  have htrans {a} : s'.translate pd va a = s.translate pd va a := by
    simp only [Kernel.translate, hdir, hentry]
  refine ⟨fun a => htrans, ?_⟩
  rw [Kernel.userByte, Kernel.userByte, htrans]
  cases ht : s.translate pd va ⟨true, false⟩
  case none => rfl
  case some p => simp only [Option.map_some, Kernel.byteAt, hm _ p (target_of_translate hd hv ht)]

theorem pgdirOf_congr (h : s'.envs e = s.envs e) : s'.pgdirOf e = s.pgdirOf e := by
  simp only [pgdirOf, h]

-- A program is ready to run from its entry point, in an address space of its own.
structure Holds (rom : Rom) (binary : Word) (e : EnvIx) (s : Kernel) : Prop where
  status : (s.envs e).status = .runnable
  id     : (s.envs e).id = 0x1000#32 ||| BitVec.ofNat 32 e
  parent : (s.envs e).parentId = 0#32
  recv   : (s.envs e).ipcRecving = false
  upcall : (s.envs e).pgfaultUpcall = 0#32
  tf     : (s.envs e).tf =
    { ds := gdUd ||| 3#16, es := gdUd ||| 3#16, ss := gdUd ||| 3#16, esp := ustacktop, cs := gdUt ||| 3#16, eflags := flIf
      eip := (readElf rom binary).entry }
  space  : ∃ pd, s.pgdirOf e = some pd ∧ Contents rom binary pd s

theorem Holds.of_env (h : Holds rom binary e s) (he : s'.envs e = s.envs e)
    (hs : ∀ pd, s.pgdirOf e = some pd → Contents rom binary pd s → Contents rom binary pd s') : Holds rom binary e s' := by
  obtain ⟨pd, hd, hx⟩ := h.space
  refine ⟨?_, ?_, ?_, ?_, ?_, ?_, pd, (pgdirOf_congr he).trans hd, hs pd hd hx⟩
  all_goals rw [he]
  case refine_1 => exact h.status
  case refine_2 => exact h.id
  case refine_3 => exact h.parent
  case refine_4 => exact h.recv
  case refine_5 => exact h.upcall
  case refine_6 => exact h.tf

-- The programs `done` have been loaded, and there are `n` free pages for the other ones.
structure Created (M : Set Ppn) (rom : Rom) (s₀ : Kernel) (done : List Word) (n : Nat) (s : Kernel) : Prop where
  inv   : ∃ l, PageInv M ∅ l s ∧ n ≤ l.length
  list  : EnvInv ((List.finRange 1024).drop done.length) s
  kern  : KernHalf s₀ s
  ids   : ∀ e, done.length ≤ e.val → (s.envs e).id = 0#32
  cur   : ∀ c, s.cur c = none
  holds : ∀ (e : EnvIx) (h : e.val < done.length), Holds rom done[e.val] e s

theorem nextEnvId_first : nextEnvId 0#32 e = 0x1000#32 ||| BitVec.ofNat 32 e := by
  have hg : (0#32 + 1#32 <<< envgenshift) &&& ~~~0x3FF#32 = 0x1000#32 := by decide
  have hn : (0x1000#32 : Word).sle 0#32 = false := by decide
  simp only [nextEnvId, hg, hn]
  rfl

theorem drop_finRange {m k : Nat} (hk : k < m) :
    (List.finRange m).drop k = ⟨k, hk⟩ :: (List.finRange m).drop (k + 1) := by
  rw [List.drop_eq_getElem_cons (by simpa using hk), List.getElem_finRange]
  rfl

theorem Created.envCreate (h : Created M rom s₀ done (imagePages rom binary + 1 + n) s) (hi : Image rom binary)
    (hd : done.length < 1024) (hl : ∀ binary ∈ done, Image rom binary) :
    wp (envCreate c rom binary .user) (fun _ s' => Created M rom s₀ (done ++ [binary]) n s') (fun _ _ => False) s := by
  obtain ⟨l, hp, hn⟩ := h.inv
  obtain ⟨p, l, rfl⟩ : ∃ p l', l = p :: l' := List.exists_cons_of_length_pos (by omega)
  rw [List.length_cons] at hn
  -- The first environment on the list is the one after those that have been made.
  obtain ⟨e, he⟩ : ∃ e : EnvIx, e = ⟨done.length, hd⟩ := ⟨_, rfl⟩
  have hL := h.list
  rw [drop_finRange hd, ← he] at hL
  have hf : (s.envs e).status = .free := hL.mem.mp (by simp)
  have hother : ∀ e', e' ≠ e → (s.newEnv e p 0#32).envs e' = s.envs e' := fun e' hne => by
    simp [Kernel.newEnv, setEnv, newDir, hne, incRef, setPage, Kernel.zeroPage, Kernel.popFree]
  rw [Jos.envCreate, wp_bind_of_ok (hp.envAlloc_run hL.chain.1)]
  have hp₁ : PageInv M ∅ l (s.newEnv e p 0#32) := hp.newEnv hf
  have hL₁ : EnvInv _ (s.newEnv e p 0#32) := hL.newEnv
  have hk₁ : KernHalf s₀ (s.newEnv e p 0#32) := h.kern.newEnv hp
  obtain ⟨s₂, hr, hx⟩ := loadIcode_loads c hp₁ hL₁ hk₁ pgdirOf_newEnv (fun i hi => hp.table_newDir hi) hi (by omega)
  simp only [wp_bind_of_ok hr, wp_modify]
  have hm : SameMem s₂ (s₂.setEnv e fun v => { v with type := .user }) := .setEnv rfl rfl Iff.rfl
  have hsame : ∀ e', e' ≠ e → (s₂.setEnv e fun v => { v with type := .user }).envs e' = s.envs e' := fun e' hne => by
    simp [setEnv, hne, hx.envs, hother e' hne]
  have hnew : (s₂.setEnv e fun v => { v with type := .user }).envs e =
      { freshEnv { s.envs e with pgdir := some p } e 0#32 with
        tf := { (freshEnv { s.envs e with pgdir := some p } e 0#32).tf with eip := (readElf rom binary).entry } } := by
    simp [setEnv, hx.envs, Kernel.newEnv, newDir, freshEnv, incRef, setPage, Kernel.zeroPage, Kernel.popFree]
  obtain ⟨l', hp₂, hl'⟩ := hx.inv
  refine ⟨⟨l', hm.pageInv hp₂, by omega⟩, ?_, hx.kern.sameUpper (.of_mem rfl hm.pgdirOf rfl), fun e' he' => ?_,
    fun c' => (congrFun hx.cur c').trans (h.cur c'), fun e' he' => ?_⟩
  case refine_1 =>
    rw [List.length_append, List.length_singleton]
    exact hm.envInv hx.list
  case refine_2 =>
    rw [List.length_append, List.length_singleton] at he'
    have hne : e' ≠ e := fun hc => by simp [hc, he] at he'
    rw [hsame e' hne]
    exact h.ids e' (by omega)
  case refine_3 =>
    by_cases hc : e' = e
    case pos =>
      subst hc
      have hid : (s.envs e').id = 0#32 := h.ids e' (by simp [he])
      have hget : (done ++ [binary])[e'.val] = binary := by simp [he]
      rw [hget]
      refine ⟨?_, ?_, ?_, ?_, ?_, ?_, p, ?_, hx.contents.congr (fun _ _ => ⟨fun _ => rfl, rfl⟩) hi.loadable⟩
      case refine_7 => simp [pgdirOf, hnew, freshEnv]
      all_goals rw [hnew]
      case refine_2 => simp only [freshEnv, hid, nextEnvId_first]
      all_goals rfl
    case neg =>
      have hlt : e'.val < done.length := by
        have hv : e'.val ≠ done.length := fun hv => hc (by rw [he]; exact Fin.ext hv)
        simp only [List.length_append, List.length_singleton] at he'
        omega
      rw [List.getElem_append_left hlt]
      refine (h.holds e' hlt).of_env (hsame e' hc) fun pd hd hy => ?_
      have hL' := (hl _ (List.getElem_mem hlt)).loadable
      have hd₁ : (s.newEnv e p 0#32).pgdirOf e' = some pd := (pgdirOf_newEnv_of_ne hc).trans hd
      have hy₁ : Contents rom done[e'.val] pd (s.newEnv e p 0#32) :=
        hy.congr (fun va hv => sees_congr hd hv fun r q hq => mem_newEnv fun hc => hp.pool.not_ref_of_free (by simp [hc]) hq) hL'
      exact (hx.other hc hd₁ hL' hy₁).congr (fun _ _ => ⟨fun _ => rfl, rfl⟩) hL'

end Create

section Boot

-- As long as there are no environments, all pages are free but those of the kernel's page tables.
theorem PageInv.free_count {D : List Ppn} (h : PageInv M ∅ l s) (hn : ∀ e, s.pgdirOf e = none) (hD : D.Nodup)
    (hM : ∀ p ∈ D, p ∈ M) : D.length ≤ l.length + 1024 := by
  have hmap : ∀ p ∈ D.filter (· ∉ l), ∃ i, s.target (.kpde i) = some p := by
    intro p hp
    obtain ⟨hp, hl⟩ := List.mem_filter.mp hp
    have hz : RefCount.refs s.target p ≠ 0 := fun hz => of_decide_eq_true hl (h.pool.mem_free.mpr ⟨hM p hp, hz, by simp⟩)
    obtain ⟨r, hr⟩ := RefCount.refs_pos_iff.mp (Nat.pos_of_ne_zero hz)
    cases r
    case kpde i => exact ⟨i, hr⟩
    all_goals simp [target, pteOf, tableOf, hn] at hr
  choose! f hf using hmap
  have hinj : Set.InjOn f { p | p ∈ D.filter (· ∉ l) } := by
    intro p hp q hq hpq
    have hq' := hf q hq
    rw [← hpq, hf p hp] at hq'
    exact Option.some.inj hq'
  have hused := ((hD.filter _).map_on hinj).length_le_card
  have hfree : (D.filter (· ∈ l)).length ≤ l.length :=
    (List.subperm_of_subset (hD.filter _) fun p hp => of_decide_eq_true (List.mem_filter.mp hp).2).length_le
  have hsum := List.length_eq_length_filter_add (l := D) fun p => decide (p ∈ l)
  rw [List.length_map, Fintype.card_fin] at hused
  simp only [decide_not] at hused
  omega

-- The free pages that the programs need, with one page directory for each.
def pagesFor (rom : Rom) (images : List Word) : Nat :=
  (images.map fun binary => imagePages rom binary + 1).sum

theorem pagesFor_le (h : ∀ binary ∈ images, imagePages rom binary ≤ n) : pagesFor rom images ≤ images.length * (n + 1) := by
  have hs := List.sum_le_card_nsmul (images.map fun binary => imagePages rom binary + 1) (n + 1) fun x hx => by
    obtain ⟨binary, hb, rfl⟩ := List.mem_map.mp hx
    exact Nat.succ_le_succ (h binary hb)
  simpa [pagesFor] using hs

theorem Created.envCreates (h : Created M rom s₀ done (pagesFor rom images) s) (hi : ∀ binary ∈ done ++ images, Image rom binary)
    (hn : (done ++ images).length ≤ 1024) :
    wp (images.forM fun binary => Jos.envCreate c rom binary .user)
      (fun _ s' => Created M rom s₀ (done ++ images) 0 s') (fun _ _ => False) s := by
  induction images generalizing done s
  case nil => simpa [pagesFor] using h
  case cons binary images ih =>
    have hlen : done.length < 1024 := by
      simp only [List.length_append, List.length_cons] at hn
      omega
    refine wp_seq (Created.envCreate (n := pagesFor rom images) (by simpa [pagesFor] using h) (hi binary (by simp)) hlen
      fun b hb => hi b (by simp [hb])) fun _ s₁ h₁ => ?_
    rw [List.append_cons] at hi hn ⊢
    exact ih h₁ hi hn

theorem Fresh.pgdirOf (h : Fresh M s) (e : EnvIx) : s.pgdirOf e = none :=
  pgdirOf_free (h.list.mem.mp (List.mem_finRange e))

theorem Fresh.created {D : List Ppn} (h : Fresh M s) (hD : D.Nodup) (hM : ∀ p ∈ D, p ∈ M) (hn : 1024 + n ≤ D.length) :
    Created M rom s [] n s := by
  obtain ⟨l, hp, -⟩ := h.roomy
  have hc := hp.free_count h.pgdirOf hD hM
  refine ⟨⟨l, hp, by omega⟩, by simpa using h.list, ⟨rfl, fun _ => rfl, fun hd _ => ?_⟩, fun e _ => h.ids e, h.cur,
    fun e he => absurd he (Nat.not_lt_zero _)⟩
  rw [h.pgdirOf] at hd
  cases hd

theorem i386Init_created {p : Platform} (hv : p.boot.Valid) (hm : MmioRoom (p.aps.length + 1) p.mmio)
    (hi : ∀ binary ∈ images, Image rom binary) (hn : images.length ≤ 1024)
    (hr : 1024 + pagesFor rom images ≤ p.boot.freePages.length) :
    ∃ s₁ s', (i386Init p c rom images).run s = .ok () s' ∧ Created p.boot.managed rom s₁ images 0 s' := by
  have hw : wp (i386Init p c rom images) (fun _ s' => ∃ s₁, Created p.boot.managed rom s₁ images 0 s') (fun _ _ => False) s := by
    simp only [i386Init, wp_bind_modify]
    refine wp_seq (memInit_mapping hv.mappable (by omega) fun c => rfl) fun _ s₁ h₁ => ?_
    have h₂ := h₁.fresh
    rw [wp_bind_of_ok envInit_run]
    generalize List.foldl pushEnv _ _ = s₂ at h₂ ⊢
    simp only [wp_bind_modify]
    refine wp_seq (lapicInit_fresh (h₂.setCpu fun _ => rfl) hm) fun base s₃ h₃ => ?_
    refine wp_seq (bootAps_fresh h₃.1 h₃.2) fun _ s₄ h₄ => ?_
    have h : Created p.boot.managed rom s₄ [] (pagesFor rom images) s₄ :=
      h₄.created hv.mappable.fits.nodup (fun _ => id) hr
    exact wp_mono (h.envCreates (by simpa using hi) (by simpa using hn)) (fun _ s' hs => ⟨s₄, hs⟩) fun _ _ => id
  obtain ⟨⟨⟩, s', hrun, s₁, h⟩ := run_of_wp hw
  exact ⟨s₁, s', hrun, h⟩

theorem mem_drop_finRange {m k : Nat} {i : Fin m} : i ∈ (List.finRange m).drop k ↔ k ≤ i.val := by
  rw [List.mem_drop_iff_getElem]
  simp only [List.getElem_finRange, List.length_finRange]
  constructor
  case mp =>
    rintro ⟨j, hj, rfl⟩
    simp
  case mpr => exact fun hk => ⟨i.val - k, by omega, Fin.ext (by simp; omega)⟩

-- Three processors, and two programs.
def pcPlatform : Platform :=
  { boot := pc, lapicaddr := 0xFEE00000#32, aps := [1, 2], mmio := 0xEF803000#32 }

theorem smallImage_image : Image smallRom smallImage :=
  ⟨by decide +kernel, by decide +kernel, smallLoadable⟩

theorem imagePages_small : imagePages smallRom smallImage ≤ 4 := by
  have hs : loadedPages (segments smallRom smallImage) ⊆ {(2, 0), (954, 1021)} := fun x hx => by
    simpa using loaded_small (smallLoadable.mem_loadedPages.mp hx)
  have hc : pagesNeeded {(2, 0), (954, 1021)} = 4 := by decide
  exact hc ▸ pagesNeeded_mono hs

theorem pc_room : 1034 ≤ pc.freePages.length := by
  have hl : pc.low = 4178 := pc.low_eq
  simp only [BootInfo.freePages, List.length_map, List.length_append, List.length_range', hl]
  exact le_add_left (by decide)

end Boot

end Jos
