import Jos.Kernel.Theorems.Blank

-- Which permissions the system calls accept, and which frames environments can map.

open Function Program

namespace Jos

open Kernel

variable {M : Set Ppn} {l : List Ppn} {s s' : Kernel} {c : CpuIx} {a e : EnvIx} {i j : Ptx} {p q : Ppn}
  {k : Call} {perm va r : Word} {envid : EnvId} {b : BootInfo}

-- No bit outside of `PTE_SYSCALL` is set.
def InSyscall (perm : Word) : Prop :=
  perm &&& ~~~pteSyscall = 0#32

-- The permissions an environment may ask for, as the comments of kern/syscall.c have it.
structure LegalPerm (perm : Word) : Prop where
  user    : has perm pteU = true
  present : has perm pteP = true
  only    : InSyscall perm

instance : DecidablePred InSyscall :=
  fun _ => inferInstanceAs (Decidable (_ = _))

theorem InSyscall.flagsOnly (h : InSyscall perm) : FlagsOnly perm := by
  have hm : ∀ perm : Word, perm &&& 0xFFFFF000#32 = (perm &&& ~~~pteSyscall) &&& 0xFFFFF000#32 := by
    intro perm
    rw [BitVec.and_assoc]
    rfl
  rw [FlagsOnly, hm, h]
  decide

-- The mask `none` is zero, so that only two of the three tests are effective.
theorem permOk_iff : permOk perm = true ↔ has perm pteU = true ∧ has perm pteP = true := by
  have hn : lnot (pteU ||| pteP ||| pteAvail ||| pteW) = 0#32 := by decide
  simp [permOk, hn, has]

section Accepted

-- The call maps a page with the permissions it is given.
def Kernel.Transfers (s : Kernel) (a : EnvIx) (k : Call) : Prop :=
  k.sysno = some .pageAlloc ∨ k.sysno = some .pageMap ∨
    k.sysno = some .ipcTrySend ∧
      ∃ e, s.findEnv a k.a₁ false = some e ∧ k.a₃ < utop ∧ (s.envs e).ipcDstva < utop

-- A call that succeeds has passed the test of its permissions.
def Accepted (perm r : Word) (_ : Kernel) : Prop :=
  r.slt 0#32 = false → permOk perm = true

theorem Accepted.fail (h : r.slt 0#32 = true) : Accepted perm r s :=
  fun hn => absurd (h.symm.trans hn) (by decide)

theorem Accepted.of_permOk {m : K Word} (h : permOk perm = true) :
    wp m (Accepted perm) (fun _ _ => True) s :=
  wp_mono wp_trivial (fun _ _ _ _ => h) fun _ _ => id

variable (ha : s.cur c = some a)

include ha in
theorem sysPageAlloc_accepted :
    wp (sysPageAlloc c envid va perm) (Accepted perm) (fun _ _ => True) s := by
  rw [sysPageAlloc, wp_bind_of_ok (envid2env_run ha)]
  cases s.findEnv a envid true
  case none => exact Accepted.fail (s := s) (by decide)
  case some e =>
    simp only
    split
    case isTrue => exact Accepted.fail (s := s) (by decide)
    case isFalse =>
      split
      case isTrue => exact Accepted.fail (s := s) (by decide)
      case isFalse hp => exact Accepted.of_permOk (by simpa using hp)

include ha in
theorem sysPageMap_accepted {srcva dstva : Word} {dstid : EnvId} :
    wp (sysPageMap c envid srcva dstid dstva perm) (Accepted perm) (fun _ _ => True) s := by
  rw [sysPageMap, wp_bind_of_ok (envid2env_run ha)]
  cases s.findEnv a envid true
  case none => exact Accepted.fail (s := s) (by decide)
  case some src =>
    simp only
    rw [wp_bind_of_ok (envid2env_run ha)]
    cases s.findEnv a dstid true
    case none => exact Accepted.fail (s := s) (by decide)
    case some dst =>
      simp only
      split
      case isTrue => exact Accepted.fail (s := s) (by decide)
      case isFalse =>
        split
        case isTrue => exact Accepted.fail (s := s) (by decide)
        case isFalse =>
          split
          case isTrue => exact Accepted.fail (s := s) (by decide)
          case isFalse hp => exact Accepted.of_permOk (by simpa using hp)

theorem ipcSendPage_accepted {srcva : Word} :
    wp (ipcSendPage c e srcva perm) (Accepted perm) (fun _ _ => True) s := by
  simp only [ipcSendPage]
  split
  case isTrue => exact Accepted.fail (s := s) (by decide)
  case isFalse =>
    split
    case isTrue => exact Accepted.fail (s := s) (by decide)
    case isFalse hp => exact Accepted.of_permOk (by simpa using hp)

include ha in
theorem sysIpcTrySend_accepted {value srcva : Word} (he : s.findEnv a envid false = some e) (hv₀ : srcva < utop)
    (hv : (s.envs e).ipcDstva < utop) :
    wp (sysIpcTrySend c envid value srcva perm) (Accepted perm) (fun _ _ => True) s := by
  rw [sysIpcTrySend, wp_bind_of_ok (envid2env_run ha), he]
  simp only [wp_bind_get]
  split
  case isTrue => exact Accepted.fail (s := s) (by decide)
  case isFalse =>
    rw [if_pos ⟨hv₀, hv⟩]
    refine wp_seq ipcSendPage_accepted fun r s₁ hr => ?_
    split
    case isTrue hn => exact Accepted.fail (s := s₁) hn
    case isFalse hn => exact Accepted.of_permOk (hr (by simpa using hn))

include ha in
theorem syscall_accepted (ht : s.Transfers a k) : wp (k.run c) (Accepted k.perm) (fun _ _ => True) s := by
  obtain hk | hk | ⟨hk, e, he, hv₀, hv⟩ := ht
  all_goals
    have hk' : Sysno.ofWord k.no = _ := hk
    simp only [Call.run, syscall, Call.perm, hk, hk']
  case inl => exact sysPageAlloc_accepted ha
  case inr.inl => exact sysPageMap_accepted ha
  case inr.inr => exact sysIpcTrySend_accepted ha he hv₀ hv

end Accepted

section Frames

-- The mapping of the page which the call `k` of `a` looks up is writable.
def Kernel.SourceWritable (s : Kernel) (a : EnvIx) (k : Call) : Prop :=
  match k.sysno with
  | some .pageMap    => ∃ e, s.findEnv a k.a₁ true = some e ∧ has (s.pteOf e (pdx k.a₂) (ptx k.a₂)) pteW = true
  | some .ipcTrySend => has (s.pteOf a (pdx k.a₃) (ptx k.a₃)) pteW = true
  | _                => False

-- An entry that the call `k` of `a` has made for the page `p`, with the permissions it was given.
structure Kernel.Made (s : Kernel) (a : EnvIx) (k : Call) (p : Ppn) (w : Word) : Prop where
  source : s.source a k = some p
  entry  : w = page2pa p ||| k.perm ||| pteP
  write  : has k.perm pteW = true → k.sysno = some .pageAlloc ∨ s.SourceWritable a k

-- A present entry is an old one, or it refers to the page which the call has allocated or looked up.
theorem Kernel.Effect.frame {L : List EnvIx} (h : PageInv M ∅ l s) (hL : EnvInv L s) (hx : Effect c a k s s')
    (hp : FlagsOnly k.perm) (hi : i.val < pdxUtop) (ht : s'.target (.pte e i j) = some p) :
    s'.pteOf e i j = s.pteOf e i j ∨ s.Made a k p (s'.pteOf e i j) := by
  rw [target_pte hi] at ht
  have hmap : ∀ {pp : Ppn} (e₁ : EnvIx) (va : Word), s.source a k = some pp →
      (has k.perm pteW = true → k.sysno = some .pageAlloc ∨ s.SourceWritable a k) →
      s'.pteOf e i j = (if e = e₁ ∧ i = pdx va ∧ j = ptx va then page2pa pp ||| k.perm ||| pteP
        else s.pteOf e i j) → s'.pteOf e i j = s.pteOf e i j ∨ s.Made a k p (s'.pteOf e i j) := by
    intro pp e₁ va hs hw he
    split at he
    case isTrue =>
      rw [he, entryPage_insert hp] at ht
      cases ht
      exact .inr ⟨hs, he, hw⟩
    case isFalse => exact .inl he
  cases hx
  case skip => exact .inl rfl
  case alloc e₁ pd pp hk _ hd hv _ hl hn =>
    obtain ⟨l', hl'⟩ := h.free_of_head hl
    subst hl'
    have hx : PageInv.Held (insert pp ∅) ∅ (s.popFree pp) pp := .flight rfl (by simp)
    have hk' : k.perm = k.a₃ := by simp [Call.perm, hk]
    have hs : s.source a k = some pp := by simp [source, hk, hl]
    refine hmap e₁ k.a₂ hs (fun _ => .inl hk) ?_
    rw [hk']
    exact h.popFree.pteOf_mapPage hd (pdx_lt (lt_utop_of_badVa hv)) hn hx hi
  case map e₀ e₁ pd pp hk he₀ _ hd _ hv _ hr hw hn =>
    have hk' : k.perm = k.a₅ := by simp [Call.perm, hk]
    have hs : s.source a k = some pp := by simp [source, hk, he₀, hr]
    have hw' : has k.perm pteW = true → s.SourceWritable a k := by
      intro hpw
      rw [hk'] at hpw
      simpa [SourceWritable, hk] using ⟨e₀, he₀, hw hpw⟩
    refine hmap e₁ k.a₄ hs (fun hpw => .inr (hw' hpw)) ?_
    rw [hk']
    exact h.pteOf_mapPage hd (pdx_lt (lt_utop_of_badVa hv)) hn (.mapped rfl hr) hi
  case send e₁ pd pp hk _ _ hd _ hv _ hr hw hn =>
    have hk' : k.perm = k.a₄ := by simp [Call.perm, hk]
    have hs : s.source a k = some pp := by simp [source, hk, hr]
    have hw' : has k.perm pteW = true → s.SourceWritable a k := by
      intro hpw
      rw [hk'] at hpw
      simpa [SourceWritable, hk] using hw hpw
    refine hmap e₁ (s.envs e₁).ipcDstva hs (fun hpw => .inr (hw' hpw)) ?_
    rw [hk']
    exact h.pteOf_mapPage hd (pdx_lt hv) hn (.mapped rfl hr) hi
  case unmap e₁ pd _ _ hd hv =>
    have hi₁ := pdx_lt (lt_utop_of_badVa hv)
    by_cases hc : e = e₁ ∧ i = pdx k.a₂ ∧ j = ptx k.a₂
    case pos =>
      obtain ⟨rfl, rfl, rfl⟩ := hc
      rw [← target_pte hi, h.target_unmapPage hd hi₁, update_self] at ht
      cases ht
    case neg => exact .inl (h.pteOf_unmapPage hd hi₁ hi hc)
  case fork e₁ q _ he hl =>
    obtain ⟨l', hl'⟩ := h.free_of_head hl
    obtain ⟨L', hL'⟩ := hL.of_head he
    subst hl' hL'
    exact .inl (h.pteOf_newEnv (hL.mem.mp (by simp)) hi)
  case free e₁ pd _ hd =>
    by_cases hne : e = e₁
    case pos =>
      have hz : (s.freeEnv c e₁ pd).pgdirOf e = none := by
        subst hne
        refine pgdirOf_free ?_
        rw [h.envs_freeEnv hd]
        simp
      rw [pteOf_no_table (by simp [tableOf, hz]), entryPage_zero] at ht
      cases ht
    case neg => exact .inl (h.pteOf_freeEnv hd hne hi)

-- The IO hole, the kernel, and what `boot_alloc` has handed out.
def BootInfo.Reserved (b : BootInfo) (p : Ppn) : Prop :=
  b.npagesBasemem ≤ p.toNat ∧ p.toNat < b.low

theorem BootInfo.Valid.not_reserved (hb : b.Valid) (hp : p ∈ b.managed) : ¬b.Reserved p := by
  obtain ⟨i, hi, rfl⟩ := List.mem_map.mp hp
  have hlt := (hb.mappable.lt_of_mem hi).2.1
  have ht : (BitVec.ofNat 20 i).toNat = i := by rw [BitVec.toNat_ofNat]; omega
  simp only [List.mem_append, List.mem_filter, List.mem_range'_1] at hi
  rintro ⟨h₁, h₂⟩
  rw [ht] at h₁ h₂
  omega

theorem syscall_frame (h : MemInv M s) (ha : s.cur c = some a) (hl : (s.envs a).status ≠ .free)
    (hp : FlagsOnly k.perm) (hr : Leaves (k.run c) s s') (hi : i.val < pdxUtop)
    (ht : s'.target (.pte e i j) = some p) : s'.pteOf e i j = s.pteOf e i j ∨ s.Made a k p (s'.pteOf e i j) := by
  obtain ⟨l, L, h, hL⟩ := h
  obtain ⟨_, s₁, ⟨y, rfl⟩, hx, hs⟩ := hr.after h ha hl
  have hu : UpToAddr s { s with userMemCheckAddr := y } := ⟨y, rfl⟩
  rw [hs.target] at ht
  rw [hs.pteOf]
  obtain hf | hf := hx.frame (hu.sameMem.pageInv h) (hu.sameMem.envInv hL) hp hi ht
  case inl => exact .inl hf
  case inr => exact .inr ⟨hf.source, hf.entry, hf.write⟩

-- In every run in which no permission argument has a bit outside of `PTE_SYSCALL`, the pages that
-- environments map are pages of the allocator, and none of them is a page table or a page directory. In
-- every state of such a run, a call that succeeds has been given legal permissions if these have no such bit,
-- and then the entries it makes refer to the page it has allocated or looked up.
theorem user_frames {s₀ s₁ s₂ : Kernel} (hb : b.Valid) (hm : (memInit b c).run s₀ = .ok () s₁)
    (he : envInit.run s₁ = .ok () s₂) (hr : MemRun InSyscall s₂ s) :
    (∀ {e i j p}, s.target (.pte e i j) = some p → p ∈ b.managed ∧ ¬b.Reserved p ∧ ¬s.Table p) ∧
    ∀ {c a k s'}, s.cur c = some a → (s.envs a).status ≠ .free →
      (∀ {r}, (k.run c).run s = .ok r s' → r.slt 0#32 = false → s.Transfers a k →
        (LegalPerm k.perm ↔ InSyscall k.perm)) ∧
      (InSyscall k.perm → Leaves (k.run c) s s' → ∀ {e i j p}, i.val < pdxUtop → s'.target (.pte e i j) = some p →
        s'.pteOf e i j = s.pteOf e i j ∨
          (s.source a k = some p ∧ s'.pteOf e i j = page2pa p ||| k.perm ||| pteP)) := by
  have h := hr.memInv (fun _ => InSyscall.flagsOnly) (boot_memInv hb hm he)
  refine ⟨fun ht => ?_, fun {c a k s'} ha hl => ⟨fun hx hn ht => ?_, fun hp hx {e i j p} hi ht => ?_⟩⟩
  case refine_1 =>
    have ⟨l, L, hi, _⟩ := h
    have hp := hi.page_mem ht
    exact ⟨hp, hb.not_reserved hp, hi.page_not_table ht⟩
  case refine_2 =>
    have hok := permOk_iff.mp (wp_ok (syscall_accepted ha ht) hx hn)
    exact ⟨LegalPerm.only, fun hp => ⟨hok.1, hok.2, hp⟩⟩
  case refine_3 => exact (syscall_frame h ha hl hp.flagsOnly hx hi ht).imp_right fun hm => ⟨hm.source, hm.entry⟩

end Frames

-- The booted machine creates an environment.
theorem user_frames_pc :
    ∃ s₁ s₂ x s, (memInit pc 0).run powerOn = .ok () s₁ ∧ envInit.run s₁ = .ok () s₂ ∧
      (envAlloc 0#32).run s₂ = .ok x s ∧
      ∀ {e i j p}, s.target (.pte e i j) = some p → p ∈ pc.managed ∧ ¬pc.Reserved p ∧ ¬s.Table p := by
  have ⟨s₁, h₁⟩ := memInit_ok (c := 0) (s := powerOn) pc_valid pc_enough
  have ⟨s₂, h₂⟩ : ∃ s₂, envInit.run s₁ = .ok () s₂ := ⟨_, envInit_run⟩
  have hi := boot_memInv pc_valid h₁ h₂
  have ⟨x, s, h₃⟩ := envAlloc_ok 0#32 hi
  have hi' := wp_ok (Q := fun _ => MemInv pc.managed) (envAlloc_memInv hi) h₃
  exact ⟨s₁, s₂, x, s, h₁, h₂, h₃, (user_frames pc_valid h₁ h₂ (.single ⟨.envAlloc h₃, hi'.refsFit⟩)).1⟩

-- The permissions 0x1007 are accepted, and the environment gets to see its own page table, where the page
-- which has been allocated should be.
theorem user_frames_stray :
    MemInv { p | p ∈ freshPages 8 } (soleEnv 8) ∧
    ∃ s', (Call.run 0 ⟨4#32, 0#32, 0x1000#32, 0x1007#32, 0#32, 0#32⟩).run (soleEnv 8) = .ok 0#32 s' ∧
      ¬LegalPerm 0x1007#32 ∧ (soleEnv 8).pageFreeList = some 2#20 ∧
      s'.target (.pte 0 (pdx 0x1000#32) (ptx 0x1000#32)) = some 3#20 ∧
      s'.target (.pde 0 (pdx 0x1000#32)) = some 3#20 := by
  have hv : returns (Call.run 0 ⟨4#32, 0#32, 0x1000#32, 0x1007#32, 0#32, 0#32⟩) (soleEnv 8) = some 0#32 := by
    decide +kernel
  have ⟨s', hr⟩ := returns_eq_some.mp hv
  refine ⟨soleEnv_inv (by decide) (by decide), s', hr, fun h => absurd h.only (by decide), by decide +kernel, ?_⟩
  rw [← final_of_ok hr]
  exact ⟨by decide +kernel, by decide +kernel⟩

end Jos
