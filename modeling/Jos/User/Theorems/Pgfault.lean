import Jos.User.Pgfault
import Jos.User.Theorems.Window
import Jos.Kernel.Theorems.Frames
import Jos.Kernel.Theorems.Addresses

-- A run of the page fault handler gives the page a copy of its own.

open Function Client Cow

namespace Jos

open Kernel

variable {M : Set Ppn} {l : List Ppn} {s s' s₁ : Kernel} {c : CpuIx} {a e : EnvIx} {pd p q : Ppn}
  {va va' w err : Word} {n k : Nat} {acc : Access} {o : Option Unit} {f : Word → Handler Unit}

instance : Std.Refl (handlerServer a).Moves :=
  inferInstanceAs (Std.Refl (Eq : Kernel → Kernel → Prop))

instance : IsTrans Kernel (handlerServer a).Moves :=
  inferInstanceAs (IsTrans Kernel Eq)

section Ends

theorem ends_handler_load : Ends (handlerServer a) (Handler.load va >>= f) s o s' ↔
    ∃ pd p, s.pgdirOf a = some pd ∧ s.translate pd va ⟨true, false⟩ = some p ∧
      Ends (handlerServer a) (f (s.mem p (wordIx va))) s o s' := by
  change Ends (handlerServer a) (.ask (.user (.load va)) fun (w : Word) => f w) s o s' ↔ _
  rw [ends_ask]
  constructor
  case mp =>
    rintro ⟨_, _, _, rfl, ⟨pd, p, hd, ht, rfl, rfl⟩, he⟩
    exact ⟨pd, p, hd, ht, he⟩
  case mpr =>
    rintro ⟨pd, p, hd, ht, he⟩
    exact ⟨s, _, s, rfl, ⟨pd, p, hd, ht, rfl, rfl⟩, he⟩

theorem ends_handler_store {f : Unit → Handler Unit} : Ends (handlerServer a) (Handler.store va w >>= f) s o s' ↔
    ∃ pd p, s.pgdirOf a = some pd ∧ s.translate pd va ⟨true, true⟩ = some p ∧
      Ends (handlerServer a) (f ()) (s.setMem p (wordIx va) w) o s' := by
  change Ends (handlerServer a) (.ask (.store va w) f) s o s' ↔ _
  rw [ends_ask]
  constructor
  case mp =>
    rintro ⟨_, _, _, rfl, ⟨pd, p, hd, ht, rfl⟩, he⟩
    exact ⟨pd, p, hd, ht, he⟩
  case mpr =>
    rintro ⟨pd, p, hd, ht, he⟩
    exact ⟨s, (), _, rfl, ⟨pd, p, hd, ht, rfl⟩, he⟩

-- A handler which returns has survived its system calls.
theorem ends_handler_syscall {x : Call} (he : Ends (handlerServer a) (Handler.syscall true x >>= f) s (some ()) s') :
    ∃ c ret s₁, s.cur c = some a ∧ (x.run c).run s = .ok ret s₁ ∧ Ends (handlerServer a) (f ret) s₁ (some ()) s' := by
  obtain ⟨_, ret, s₁, rfl, ⟨c, hc, hr⟩, he⟩ := ends_check he
  exact ⟨c, ret, s₁, hc, hr, he⟩

end Ends

section Addresses

theorem toNat_pageNum : (pageNum va).toNat = va.toNat / 2 ^ 12 := by
  rw [pageNum, BitVec.toNat_ushiftRight, Nat.shiftRight_eq_div_pow]

theorem toNat_pageAddr : (pageNum va * pgsize).toNat = va.toNat / 4096 * 4096 := by
  have hv := va.isLt
  have hn : (pageNum va).toNat = va.toNat / 4096 := toNat_pageNum
  rw [toNat_mul_pgsize (by omega), hn]

theorem pageIx_pageAddr : pageIx e (pageNum va * pgsize) = pageIx e va := by
  refine Prod.ext rfl <| Prod.ext (Fin.ext ?_) (Fin.ext ?_)
  case refine_1 => simp only [pageIx, val_pdx, toNat_pageAddr]; omega
  case refine_2 => simp only [pageIx, val_ptx, toNat_pageAddr]; omega

-- The words of a page.
section Words

variable (hb : va.toNat % 4096 = 0) (hk : k < 1024)

include hb hk

theorem toNat_word : (va + 4#32 * BitVec.ofNat 32 k).toNat = va.toNat + 4 * k := by
  have hv := va.isLt
  have h4 : (4#32 : Word).toNat = 4 := rfl
  rw [BitVec.toNat_add, BitVec.toNat_mul, h4, BitVec.toNat_ofNat]
  omega

theorem pageIx_word : pageIx e (va + 4#32 * BitVec.ofNat 32 k) = pageIx e va := by
  refine Prod.ext rfl <| Prod.ext (Fin.ext ?_) (Fin.ext ?_)
  case refine_1 => simp only [pageIx, val_pdx, toNat_word hb hk]; omega
  case refine_2 => simp only [pageIx, val_ptx, toNat_word hb hk]; omega

theorem wordIx_word : (wordIx (va + 4#32 * BitVec.ofNat 32 k)).val = k := by
  rw [val_wordIx, toNat_word hb hk]
  omega

end Words

end Addresses

section Memmove

-- The page `p` after the first `n` words of `q` have been copied to it.
def Kernel.copyWords (s : Kernel) (p q : Ppn) (n : Nat) : Kernel :=
  { s with mem := update s.mem p fun j => if j.val < n then s.mem q j else s.mem p j }

theorem copyWords_zero : s.copyWords p q 0 = s := by
  simp [copyWords]

theorem copyWords_succ {j : Ptx} (hj : j.val = n) :
    (s.copyWords p q n).setMem p j (s.mem q j) = s.copyWords p q (n + 1) := by
  simp only [copyWords, Kernel.setMem, update_self, update_idem]
  congr 2
  funext j'
  by_cases hc : j' = j
  case pos =>
    subst hc
    rw [update_self, if_pos (by omega)]
  case neg =>
    have hne : j'.val ≠ n := fun he => hc (Fin.ext (he.trans hj.symm))
    rw [update_of_ne hc]
    by_cases hlt : j'.val < n
    case pos => rw [if_pos hlt, if_pos (by omega)]
    case neg => rw [if_neg hlt, if_neg (by omega)]

theorem mem_copyWords_of_ne {r : Ppn} (hr : r ≠ p) : (s.copyWords p q n).mem r = s.mem r := by
  simp [copyWords, hr]

theorem mem_copyWords : (s.copyWords p q 1024).mem p = s.mem q := by
  simp [copyWords]

theorem lt_utop_word (hb : va.toNat % 4096 = 0) (hv : va < utop) (hk : k < 1024) :
    va + 4#32 * BitVec.ofNat 32 k < utop := by
  have hu : utop.toNat = 955 * 2 ^ 22 := rfl
  have hlt : va.toNat < utop.toNat := hv
  rw [BitVec.lt_def, toNat_word hb hk]
  omega

section Copy

variable {src dst : Word} (h : PageInv M ∅ l s) (hp : s.target (.pte a (pdx dst) (ptx dst)) = some p)

-- Copying to a page of the program changes no mapping.
include h hp in
theorem target_copyWords : (s.copyWords p q n).target = s.target := by
  refine target_congr rfl rfl fun r hr => mem_copyWords_of_ne ?_
  rintro rfl
  exact h.page_not_table hp hr

include h hp in
theorem PageInv.copyWords : PageInv M ∅ l (s.copyWords p q n) :=
  h.congr ⟨rfl, rfl, rfl, rfl⟩ (target_copyWords h hp) h.dir

variable (hs : s.target (.pte a (pdx src) (ptx src)) = some q) (hne : q ≠ p) (hsb : src.toNat % 4096 = 0)
  (hdb : dst.toNat % 4096 = 0) (hsu : src < utop) (hdu : dst < utop)

-- The loop copies word by word.
include h hp hs hne hsb hdb hsu hdu in
theorem ends_rep (hk : k + n ≤ 1024) (he : Ends (handlerServer a) (Handler.rep Handler.movsl 4#32 n
    (dst + 4#32 * BitVec.ofNat 32 k) (src + 4#32 * BitVec.ofNat 32 k)) (s.copyWords p q k) o s') :
    o = some () ∧ s' = s.copyWords p q (k + n) := by
  induction n generalizing k
  case zero =>
    obtain ⟨tr, hr⟩ := he
    cases hr
    case done hm => exact ⟨rfl, (show s.copyWords p q k = s' from hm).symm⟩
  case succ n ih =>
    have hkn : k < 1024 := by omega
    have hnext : ∀ x : Word, x + 4#32 * BitVec.ofNat 32 k + 4#32 = x + 4#32 * BitVec.ofNat 32 (k + 1) := by
      intro x
      rw [BitVec.ofNat_add, BitVec.mul_add, BitVec.add_assoc]
      rfl
    have hpage : ∀ {x y : Word} {r : Ppn}, y.toNat % 4096 = 0 → y < utop → x = y + 4#32 * BitVec.ofNat 32 k →
        s.target (.pte a (pdx y) (ptx y)) = some r →
        (s.copyWords p q k).target (.pte a (pdx x) (ptx x)) = some r := by
      rintro x y r hb - rfl hr
      have hix : pageIx a (y + 4#32 * BitVec.ofNat 32 k) = pageIx a y := pageIx_word hb hkn
      simp only [pageIx, Prod.mk.injEq, true_and] at hix
      rw [target_copyWords h hp, hix.1, hix.2, hr]
    change Ends (handlerServer a) ((Handler.load (src + 4#32 * BitVec.ofNat 32 k) >>= fun w =>
      Handler.store (dst + 4#32 * BitVec.ofNat 32 k) w) >>= fun _ => Handler.rep Handler.movsl 4#32 n
        (dst + 4#32 * BitVec.ofNat 32 k + 4#32) (src + 4#32 * BitVec.ofNat 32 k + 4#32)) _ o s' at he
    rw [bind_assoc, ends_handler_load] at he
    obtain ⟨pd, q', hd, ht, he⟩ := he
    rw [ends_handler_store] at he
    obtain ⟨pd', p', hd', ht', he⟩ := he
    have hq' : q' = q := Option.some.inj <|
      (target_of_translate hd (lt_utop_word hsb hsu hkn) ht).symm.trans (hpage hsb hsu rfl hs)
    have hp' : p' = p := Option.some.inj <|
      (target_of_translate hd' (lt_utop_word hdb hdu hkn) ht').symm.trans (hpage hdb hdu rfl hp)
    subst hq' hp'
    have hw : wordIx (src + 4#32 * BitVec.ofNat 32 k) = wordIx (dst + 4#32 * BitVec.ofNat 32 k) :=
      Fin.ext ((wordIx_word hsb hkn).trans (wordIx_word hdb hkn).symm)
    rw [mem_copyWords_of_ne hne, hw, copyWords_succ (wordIx_word hdb hkn), hnext, hnext] at he
    have hsum : k + 1 + n = k + (n + 1) := by omega
    exact hsum ▸ ih (by omega) he

-- A page of the program can only be moved to a page that is there.
theorem mapped_of_rep (hdu : dst < utop) (he : Ends (handlerServer a) (Handler.rep Handler.movsl 4#32 (n + 1) dst src) s o s') :
    ∃ p, s.target (.pte a (pdx dst) (ptx dst)) = some p := by
  change Ends (handlerServer a) ((Handler.load src >>= fun w => Handler.store dst w) >>= fun _ =>
    Handler.rep Handler.movsl 4#32 n (dst + 4#32) (src + 4#32)) _ o s' at he
  rw [bind_assoc, ends_handler_load] at he
  obtain ⟨pd, q', hd, ht, he⟩ := he
  rw [ends_handler_store] at he
  obtain ⟨pd', p, hd', ht', -⟩ := he
  exact ⟨p, target_of_translate hd' hdu ht'⟩

-- Two pages do not overlap, and the words of a page are aligned.
include hsb hdb hsu in
theorem memmove_page : Handler.memmove dst src pgsize = Handler.rep Handler.movsl 4#32 1024 dst src := by
  have hsz : pgsize.toNat = 4096 := rfl
  have hu : utop.toNat = 955 * 2 ^ 22 := rfl
  have hlt : src.toNat < utop.toNat := hsu
  have hover : ¬(src < dst ∧ src + pgsize > dst) := by
    rintro ⟨h₁, h₂⟩
    rw [BitVec.lt_def] at h₁
    rw [gt_iff_lt, BitVec.lt_def, BitVec.toNat_add, hsz] at h₂
    omega
  have halign : ∀ x : Word, x.toNat % 4096 = 0 → x.srem 4#32 = 0#32 := by
    intro x hx
    have h4 : (4#32 : Word).toInt = 4 := rfl
    apply BitVec.eq_of_toInt_eq
    rw [BitVec.toInt_srem, h4, BitVec.toInt_eq_toNat_cond]
    split
    all_goals
      rw [BitVec.toInt_zero]
      exact Int.tmod_eq_zero_of_dvd (by omega)
  simp only [Handler.memmove]
  rw [if_neg hover, if_pos ⟨halign _ hsb, halign _ hdb, by decide⟩]
  rfl

-- What `memmove` does with a page.
include h hp hs hne hsb hdb hsu hdu in
theorem ends_memmove (he : Ends (handlerServer a) (Handler.memmove dst src pgsize) s o s') :
    o = some () ∧ s' = s.copyWords p q 1024 := by
  have hz : ∀ x : Word, x = x + 4#32 * BitVec.ofNat 32 0 := fun x => by simp
  rw [memmove_page hsb hdb hsu, hz dst, hz src, ← copyWords_zero (s := s) (p := p) (q := q)] at he
  simpa using ends_rep h hp hs hne hsb hdb hsu hdu (by omega) he

end Copy

end Memmove

section Calls

variable {β : Type}

theorem discard_bind (x : Handler Word) (g : Unit → Handler β) : (discard x >>= g) = x >>= fun _ => g () := by
  simp only [discard, map_const, Function.comp, bind_map_left]

-- A handler which returns has seen a page which is copied on write, and these are the calls it has made.
structure PgfaultRun (a : EnvIx) (va : Word) (s s' : Kernel) where
  c₁ : CpuIx
  c₂ : CpuIx
  c₃ : CpuIx
  r₁ : Word
  r₂ : Word
  r₃ : Word
  s₁ : Kernel
  s₂ : Kernel
  s₃ : Kernel
  cur₁  : s.cur c₁ = some a
  alloc : (sysPageAlloc c₁ 0#32 pftemp (pteP ||| pteU ||| pteW)).run s = .ok r₁ s₁
  move  : Ends (handlerServer a) (Handler.memmove pftemp (pageNum va * pgsize) pgsize) s₁ (some ()) s₂
  cur₂  : s₂.cur c₂ = some a
  map   : (sysPageMap c₂ 0#32 pftemp 0#32 (pageNum va * pgsize) (pteU ||| pteP ||| pteW)).run s₂ = .ok r₂ s₃
  cur₃  : s₃.cur c₃ = some a
  unmap : (sysPageUnmap c₃ 0#32 pftemp).run s₃ = .ok r₃ s'

theorem ends_pgfault (he : Ends (handlerServer a) (pgfault va err) s (some ()) s') : Nonempty (PgfaultRun a va s s') := by
  simp only [pgfault] at he
  split at he
  case isTrue => exact absurd he not_ends_stop
  case isFalse =>
    rw [ends_handler_load] at he
    obtain ⟨pd, p, -, -, he⟩ := he
    split at he
    case isTrue => exact absurd he not_ends_stop
    case isFalse =>
      rw [discard_bind] at he
      obtain ⟨c₁, r₁, s₁, hc₁, hr₁, he⟩ := ends_handler_syscall he
      obtain ⟨_, s₂, hm, he⟩ | ⟨hn, -⟩ := ends_bind.mp he
      case inr => cases hn
      case inl =>
        rw [discard_bind] at he
        obtain ⟨c₂, r₂, s₃, hc₂, hr₂, he⟩ := ends_handler_syscall he
        have hlast : Ends (handlerServer a) (Handler.sysPageUnmap 0#32 pftemp >>= fun _ => pure ()) s₃ (some ()) s' := by
          rw [← discard_bind _ fun _ => pure (), bind_pure_comp, id_map']
          exact he
        obtain ⟨c₃, r₃, s₄, hc₃, hr₃, tr, he⟩ := ends_handler_syscall hlast
        cases he
        case done hm' =>
          cases (show s₄ = s' from hm')
          exact ⟨⟨c₁, c₂, c₃, r₁, r₂, r₃, s₁, s₂, s₃, hc₁, hr₁, hm, hc₂, hr₂, hc₃, hr₃⟩⟩

end Calls

section Resolve

variable {y : Entry Ppn}

theorem findEnv_self : s.findEnv a 0#32 true = some a :=
  if_pos rfl

theorem MemInv.copyWords (h : MemInv M s) (hp : s.target (.pte a (pdx va) (ptx va)) = some p) :
    MemInv M (s.copyWords p q n) := by
  obtain ⟨l, L, h, hL⟩ := h
  exact ⟨l, L, h.copyWords hp, hL.chain, hL.nodup, hL.mem⟩

-- After `memmove`, a copy of the frame `y` is mapped at `PFTEMP`.
structure PageMoved (M : Set Ppn) (a : EnvIx) (y : Entry Ppn) (s s₂ : Kernel) (pd p : Ppn) : Prop where
  inv    : MemInv M s₂
  dir    : s₂.pgdirOf a = some pd
  once   : s₂.refs p = 1
  unused : s.frames.Unused p
  map    : s₂.frames.map = update s.frames.map (pageIx a pftemp) (some ⟨p, true⟩)
  copy   : s₂.mem p = s.mem y.frame
  keep   : s.frames.Keeps s₂.frames

theorem pftemp_lt : pftemp < utop := by
  decide

theorem pageAddr_aligned : (pageNum va * pgsize).toNat % 4096 = 0 := by
  rw [toNat_pageAddr]
  omega

theorem pageAddr_lt (hv : va < utop) : pageNum va * pgsize < utop := by
  have hlt : va.toNat < utop.toNat := hv
  rw [BitVec.lt_def, toNat_pageAddr]
  omega

-- The addresses on the page of `va` are mapped alike.
theorem target_pageAddr (hy : s.frames.map (pageIx a va) = some y) :
    s.target (.pte a (pdx (pageNum va * pgsize)) (ptx (pageNum va * pgsize))) = some y.frame := by
  rw [← pageIx_pageAddr] at hy
  exact (target_of_frames hy).1

section

variable (h : MemInv M s) (hl : (s.envs a).status ≠ .free) (hv : va < utop)
  (hy : s.frames.map (pageIx a va) = some y) (ht : s.frames.map (pageIx a pftemp) = none)

include hy ht in
theorem page_ne_pftemp : pageIx a va ≠ pageIx a pftemp := by
  intro hc
  rw [hc, ht] at hy
  cases hy

include h hl hv hy ht in
theorem PgfaultRun.moved (x : PgfaultRun a va s s') : ∃ pd p, PageMoved M a y s x.s₂ pd p := by
  have hfl : FlagsOnly (pteP ||| pteU ||| pteW) := by decide
  obtain ⟨l, L, hi, hL⟩ := id h
  obtain ⟨-, hs⟩ | ⟨-, e, pd, p, hx⟩ := sysPageAlloc_cases hi x.cur₁ hl x.alloc
  case inl =>
    -- Without a page, `memmove` has nowhere to write to.
    have hmv := x.move
    rw [memmove_page pageAddr_aligned (by decide) (pageAddr_lt hv), hs] at hmv
    obtain ⟨p, hp⟩ := mapped_of_rep pftemp_lt hmv
    rw [pageIx, frames_of_target hp] at ht
    cases ht
  case inr =>
    obtain rfl : e = a := Option.some.inj (hx.env.symm.trans findEnv_self)
    obtain ⟨hr, hu⟩ := hx.remaps hi hfl
    have h₁ : MemInv M x.s₁ := by
      rw [hx.eq]
      exact h.allocPage hx.page hx.dir (pdx_lt pftemp_lt) hx.table hfl
    have hd₁ : x.s₁.pgdirOf e = some pd := by
      rw [hx.eq, SameEnvs.mapPage.pgdirOf]
      exact hx.dir
    have hp₁ := (target_of_frames hr.map_self).1
    have hq₁ := target_pageAddr ((hr.map_of_ne (page_ne_pftemp hy ht)).trans hy)
    obtain ⟨l₁, L₁, hi₁, -⟩ := id h₁
    obtain ⟨-, hs₂⟩ := ends_memmove hi₁ hp₁ hq₁ (hu hy) pageAddr_aligned (by decide) (pageAddr_lt hv) pftemp_lt x.move
    refine ⟨pd, p, hs₂ ▸ h₁.copyWords hp₁, ?_, ?_, hu, ?_, ?_, fun k z hz => ?_⟩
    case refine_1 => rw [hs₂]; exact hd₁
    case refine_2 => rw [hs₂, Kernel.refs, target_copyWords hi₁ hp₁]; exact hx.refs hi hfl
    case refine_3 =>
      refine Eq.trans ?_ hr.map
      rw [hs₂]
      refine frames_map_of_mem rfl fun t htab => mem_copyWords_of_ne ?_
      rintro rfl
      exact hi₁.page_not_table hp₁ htab
    case refine_4 => rw [hs₂, mem_copyWords]; exact hr.keep _ _ hy
    case refine_5 =>
      change x.s₂.mem z.frame = _
      rw [hs₂, mem_copyWords_of_ne (hu hz)]
      exact hr.keep _ _ hz

-- The copy takes the place of the page, and `PFTEMP` is free again.
include hv hy ht in
theorem PageMoved.placed (hm : PageMoved M a y s s₁ pd p) (hc : s₁.cur c = some a) {r : Word}
    (hr : (sysPageMap c 0#32 pftemp 0#32 (pageNum va * pgsize) (pteU ||| pteP ||| pteW)).run s₁ = .ok r s') :
    MemInv M s' ∧ s'.pgdirOf a = some pd ∧
      Cow.Space.Remaps (pageIx a va) (some ⟨p, true⟩) s₁.frames s'.frames := by
  have hfl : FlagsOnly (pteU ||| pteP ||| pteW) := by decide
  have hmap : s₁.frames.map (pageIx a pftemp) = some ⟨p, true⟩ := by rw [hm.map, update_self]
  have hp : s₁.target (.pte a (pdx pftemp) (ptx pftemp)) = some p := (target_of_frames hmap).1
  have hw : true = has (s₁.pteOf a (pdx pftemp) (ptx pftemp)) pteW := (target_of_frames hmap).2
  have hq : s₁.target (.pte a (pdx (pageNum va * pgsize)) (ptx (pageNum va * pgsize))) = some y.frame := by
    refine target_pageAddr ?_
    rw [hm.map, update_of_ne (page_ne_pftemp hy ht)]
    exact hy
  have hi := pdx_lt (pageAddr_lt hv)
  have htab : ∃ t, s₁.table pd (pdx (pageNum va * pgsize)) = some t := by
    rw [← Option.ne_none_iff_exists']
    intro hn
    rw [PageInv.no_table_pte hi (by rw [tableOf_eq hm.dir, hn])] at hq
    cases hq
  obtain ⟨t, htab⟩ := htab
  have hnt : ¬s₁.NoTable pd (pdx (pageNum va * pgsize)) := by
    rintro ⟨hn, -⟩
    cases hn.symm.trans htab
  obtain ⟨l, L, hinv, hL⟩ := id hm.inv
  have hbad : badVa (pageNum va * pgsize) = false := badVa_of_pageVa ⟨pageAddr_lt hv, pageAddr_aligned⟩
  have hperm : permOk (pteU ||| pteP ||| pteW) = true := by decide
  have hrun := sysPageMap_run (k := ⟨5#32, 0#32, pftemp, 0#32, pageNum va * pgsize, pteU ||| pteP ||| pteW⟩) hinv hc rfl
    findEnv_self findEnv_self hm.dir hm.dir (show badVa pftemp = false by decide) hbad hperm hp (fun _ => hw.symm) hnt
  cases (show (sysPageMap c _ _ _ _ _).run s₁ = _ from hrun).symm.trans hr
  have hb : (s₁.mapPage c pd p (pageNum va * pgsize) (pteU ||| pteP ||| pteW)).refs p < 2 ^ 16 := by
    have hrefs := hinv.refs_mapPage (c := c) hm.dir hi hnt hfl (.mapped rfl hp) (hinv.pool.not_free_of_ref hp)
    rw [hm.once] at hrefs
    omega
  refine ⟨hm.inv.sharePage hp hm.dir hi hnt hfl hb, by rw [SameEnvs.mapPage.pgdirOf, hm.dir], ?_⟩
  rw [← pageIx_pageAddr]
  exact hinv.mapPage_remaps hm.dir hi hnt hfl (.mapped rfl hp)

end

theorem MemInv.unmapPage (h : MemInv M s) (hd : s.pgdirOf e = some pd) (hv : va < utop) :
    MemInv M (s.unmapPage c pd va) := by
  obtain ⟨l, L, h, hL⟩ := h
  obtain ⟨l₁, h₁, -⟩ := h.unmapPage (c := c) hd (pdx_lt hv)
  exact ⟨l₁, L, h₁, hL.sameEnvs .unmapPage⟩

-- The page is mapped to a new frame with the same contents, and may be written to.
theorem pgfault_resolves (h : MemInv M s) (hl : (s.envs a).status ≠ .free) (hv : va < utop)
    (hy : s.frames.map (pageIx a va) = some y) (ht : s.frames.map (pageIx a pftemp) = none)
    (he : Ends (handlerServer a) (pgfault va err) s (some ()) s') :
    Step s.frames s'.frames .skip ∧ MemInv M s' ∧ ∃ p, s'.frames.map (pageIx a va) = some ⟨p, true⟩ := by
  obtain ⟨x⟩ := ends_pgfault he
  have hne := page_ne_pftemp hy ht
  obtain ⟨pd, p, hm⟩ := x.moved h hl hv hy ht
  obtain ⟨h₃, hd₃, hr₃⟩ := hm.placed hv hy ht x.cur₂ x.map
  obtain ⟨l, L, hi₃, hL⟩ := id h₃
  have hs' : s' = x.s₃.unmapPage x.c₃ pd pftemp := by
    have hrun := (sysPageUnmap_run hi₃ x.cur₃ findEnv_self hd₃ (by decide)).symm.trans x.unmap
    rw [EStateM.Result.ok.injEq] at hrun
    exact hrun.2.symm
  have hr₄ := hi₃.unmapPage_remaps (c := x.c₃) hd₃ (pdx_lt pftemp_lt)
  have h₄ := h₃.unmapPage (c := x.c₃) hd₃ pftemp_lt
  rw [← hs'] at hr₄ h₄
  have hself : s'.frames.map (pageIx a va) = some ⟨p, true⟩ := by rw [hr₄.map_of_ne hne, hr₃.map_self]
  refine ⟨.resolve (e := y) (d := Entry.mk p true) hy hm.unused ?_ ?_ fun k z hk hz => ?_, h₄, p, hself⟩
  case refine_1 =>
    rw [hr₄.map, hr₃.map, hm.map]
    funext k
    by_cases hT : k = pageIx a pftemp
    case pos => rw [hT, update_self, update_of_ne hne.symm, ht]
    case neg =>
      by_cases hV : k = pageIx a va
      case pos => rw [hV, update_of_ne hne, update_self, update_self]
      case neg => rw [update_of_ne hT, update_of_ne hV, update_of_ne hT, update_of_ne hV]
  case refine_2 =>
    have hT : x.s₂.frames.map (pageIx a pftemp) = some ⟨p, true⟩ := by rw [hm.map, update_self]
    exact (hr₄.keep _ _ hr₃.map_self).trans <| (hr₃.keep _ _ hT).trans hm.copy
  case refine_3 =>
    have hT : k ≠ pageIx a pftemp := by
      rintro rfl
      cases ht.symm.trans hz
    have hz₂ : x.s₂.frames.map k = some z := by rw [hm.map, update_of_ne hT, hz]
    have hz₃ : x.s₃.frames.map k = some z := by rw [hr₃.map_of_ne hk, hz₂]
    exact (hr₄.keep _ _ hz₃).trans <| (hr₃.keep _ _ hz₂).trans (hm.keep _ _ hz)

end Resolve

end Jos
