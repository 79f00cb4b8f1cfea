import Jos.Kernel.Theorems.Crowd

-- Who may write to a page, over whole runs.

open Function Program Relation

namespace Jos

open Kernel

variable {M : Set Ppn} {l : List Ppn} {s s' : Kernel} {c : CpuIx} {a e : EnvIx} {i j : Ptx} {p : Ppn} {k : Call}
  {b : BootInfo}

namespace Kernel

-- Some environment maps the page with `PTE_W`.
def Writable (s : Kernel) (p : Ppn) : Prop :=
  ∃ e i j, s.target (.pte e i j) = some p ∧ has (s.pteOf e i j) pteW = true

-- The page is not on `page_free_list`.
def OffList (s : Kernel) (p : Ppn) : Prop :=
  ∀ l, s.FreeList l → p ∉ l

theorem OffList.of_list (hl : s.FreeList l) (hp : p ∉ l) : s.OffList p := by
  intro l' hl'
  rwa [hl'.unique hl]

end Kernel

-- A call with legal permissions that does not map a page too often.
def Legal (s : Kernel) (a : EnvIx) (k : Call) : Prop :=
  InSyscall k.perm ∧ ¬s.Fills a k

theorem Legal.counted (h : Legal s a k) : Counted s a k :=
  ⟨h.1.flagsOnly, h.2⟩

-- The write bit of an entry is that of the permissions it was made with.
theorem Kernel.Made.has_write {w : Word} (h : s.Made a k p w) : has w pteW = has k.perm pteW := by
  have hp : has pteP pteW = false := by decide
  rw [h.entry, has_or, has_or, has_aligned toNat_page2pa (by decide), hp, Bool.false_or, Bool.or_false]

-- A call that gives a page away hands on the right to write at most.
theorem Kernel.Made.writable {w : Word} (h : s.Made a k p w) (hw : has w pteW = true) :
    (k.sysno = some .pageAlloc ∧ s.pageFreeList = some p) ∨ (s.source a k = some p ∧ s.SourceWritable a k) := by
  obtain hk | hs := h.write (h.has_write ▸ hw)
  case inl =>
    refine .inl ⟨hk, ?_⟩
    have hs := h.source
    simpa [Kernel.source, hk] using hs
  case inr => exact .inr ⟨h.source, hs⟩

theorem Kernel.SourceWritable.writable (h : s.SourceWritable a k) (hp : s.source a k = some p) : s.Writable p := by
  unfold SourceWritable at h
  split at h
  case h_1 hk =>
    obtain ⟨e, he, hw⟩ := h
    have ht : s.target (.pte e (pdx k.a₂) (ptx k.a₂)) = some p := by simpa [source, hk, he] using hp
    exact ⟨e, _, _, ht, hw⟩
  case h_2 hk =>
    have ht : s.target (.pte a (pdx k.a₃) (ptx k.a₃)) = some p := by simpa [source, hk] using hp
    exact ⟨a, _, _, ht, h⟩
  case h_3 => exact h.elim

-- A page that nobody may write to stays so, unless it has been free.
theorem CallStep.not_writable (hs : CallStep Legal s s') (h : MemInv M s) (hp : s.OffList p) (hw : ¬s.Writable p) :
    ¬s'.Writable p := by
  cases hs
  case switch => exact hw
  case syscall c a k ha hl hk hr =>
    rintro ⟨e, i, j, ht, hpw⟩
    have hi := PageInv.lt_of_page ht
    obtain hold | hnew := syscall_frame h ha hl hk.1.flagsOnly hr hi ht
    case inl =>
      refine hw ⟨e, i, j, ?_, hold ▸ hpw⟩
      rwa [target_pte hi, ← hold, ← target_pte hi]
    case inr =>
      obtain ⟨-, hf⟩ | ⟨hsrc, hsw⟩ := hnew.writable hpw
      case inl =>
        obtain ⟨l, L, h, -⟩ := h
        obtain ⟨l', rfl⟩ := h.free_of_head hf
        exact hp _ h.chain (by simp)
      case inr => exact hw (hsw.writable hsrc)

-- In every run in which no call asks for one more mapping of a page that has 2^16 - 1 references, nobody gets the
-- right to write to a page, once it is lost, before the page has been on the free list; and a call that makes a
-- writable mapping has allocated the page, or has found it mapped writable.
theorem write_never_recreated {s₀ s₁ s₂ s₃ : Kernel} (hb : b.Valid) (hm : (memInit b c).run s₀ = .ok () s₁)
    (he : envInit.run s₁ = .ok () s₂) (hs : SetupRun s₂ s₃) (hr : ReflTransGen (CallStep Legal) s₃ s) :
    (∀ p s', s.OffList p → ¬s.Writable p → ReflTransGen (fun s s' => CallStep Legal s s' ∧ s'.OffList p) s s' →
      ¬s'.Writable p) ∧
    ∀ c a k s', s.cur c = some a → (s.envs a).status ≠ .free → Legal s a k → Leaves (k.run c) s s' →
      ∀ e i j p, s'.target (.pte e i j) = some p → has (s'.pteOf e i j) pteW = true →
      s'.pteOf e i j ≠ s.pteOf e i j →
      (k.sysno = some .pageAlloc ∧ s.pageFreeList = some p) ∨ (s.source a k = some p ∧ s.SourceWritable a k) := by
  have h := CallStep.run_memInv hr (fun _ _ _ => Legal.counted) (hs.memInv (boot_memInv hb hm he))
  refine ⟨fun p s' hp hw hrun => ?_, fun c a k s' ha hl hk hx e i j p ht hpw hne => ?_⟩
  case refine_1 =>
    have hinv : MemInv b.managed s' ∧ s'.OffList p ∧ ¬s'.Writable p := by
      induction hrun
      case refl => exact ⟨h, hp, hw⟩
      case tail hst ih =>
        obtain ⟨ih, hp, hw⟩ := ih
        exact ⟨hst.1.memInv (fun _ _ _ => Legal.counted) ih, hst.2, hst.1.not_writable ih hp hw⟩
    exact hinv.2.2
  case refine_2 =>
    obtain hold | hnew := syscall_frame h ha hl hk.1.flagsOnly hx (PageInv.lt_of_page ht) ht
    case inl => exact absurd hold hne
    case inr => exact hnew.writable hpw

-- The first environment of the booted machine allocates a page.
theorem write_never_recreated_alloc :
    ∃ s₁ s₂ e s₃ s, (memInit pc 0).run powerOn = .ok () s₁ ∧ envInit.run s₁ = .ok () s₂ ∧
      (envAlloc 0#32).run s₂ = .ok (.ok e) s₃ ∧ s = (s₃.setCpu 0 fun i => { i with env := some e }) ∧
      ∀ s', Leaves (Call.run 0 ⟨4#32, 0#32, 0x1000#32, 7#32, 0#32, 0#32⟩) s s' → ∀ e' i j p,
        s'.target (.pte e' i j) = some p → has (s'.pteOf e' i j) pteW = true → s'.pteOf e' i j ≠ s.pteOf e' i j →
        s.pageFreeList = some p := by
  obtain ⟨s₁, s₂, e, s₃, h₁, h₂, hr, hl, -⟩ := pc_envAlloc
  have hsw : CallStep Legal s₃ (s₃.setCpu 0 fun i => { i with env := some e }) := .switch hl
  have hk : Legal (s₃.setCpu 0 fun i => { i with env := some e }) e ⟨4#32, 0#32, 0x1000#32, 7#32, 0#32, 0#32⟩ := by
    refine ⟨by decide, ?_⟩
    rintro ⟨p, r, -, hd, -⟩
    cases hd
  refine ⟨s₁, s₂, e, s₃, _, h₁, h₂, hr, rfl, fun s' hs e' i j p ht hw hne => ?_⟩
  have h := (write_never_recreated pc_valid h₁ h₂ (.single (.envAlloc hr)) (.single hsw)).2 0 e _ s'
    (by simp [Kernel.cur, setCpu]) hl hk hs e' i j p ht hw hne
  obtain ⟨-, hf⟩ | ⟨-, hf⟩ := h
  case inl => exact hf
  case inr => exact hf.elim

section Recreated

-- The free list when the page 5 has been mapped everywhere.
def crowdFree : List Ppn :=
  (List.range' 70 59).map (BitVec.ofNat 20)

-- The calls after the counter has wrapped around. The page 5 is freed although it is mapped, becomes the page directory
-- of a child, and is freed again; as a page table of the parent it then receives the entry for the page 4, whose first
-- word is an entry for the page 2.
def recreate : List (Call × List Ppn) :=
  [(⟨5#32, 0#32, slot 0, 0#32, pgaddr 64 2, pteP ||| pteU⟩, crowdFree),
    (⟨6#32, 0#32, pgaddr 64 2, 0#32, 0#32, 0#32⟩, 5#20 :: crowdFree),
    (⟨7#32, 0#32, 0#32, 0#32, 0#32, 0#32⟩, crowdFree),
    (⟨6#32, 0#32, slot 0, 0#32, 0#32, 0#32⟩, 5#20 :: crowdFree),
    (⟨5#32, 0#32, pgaddr 64 1, 0#32, pgaddr 65 0, pteP ||| pteU ||| pteW⟩, crowdFree)]

-- Makes the calls of the first environment one after the other. With each call comes the free list after it, which
-- must not contain the page `p`.
def callsWithout (p : Ppn) : List (Call × List Ppn) → Kernel → Option Kernel
  | [], s => some s
  | (k, l) :: ks, s =>
    match (k.run 0).run s with
    | .ok _ s' =>
      if s.cur 0 = some 0 ∧ (s.envs 0).status ≠ .free ∧ InSyscall k.perm ∧ s'.FreeList l ∧ p ∉ l then
        callsWithout p ks s'
      else
        none
    | .error _ _ => none

abbrev RunWithout (p : Ppn) : Kernel → Kernel → Prop :=
  ReflTransGen fun s s' => CallStep (fun _ _ k => InSyscall k.perm) s s' ∧ s'.OffList p

theorem RunWithout.of_calls {ks : List (Call × List Ppn)} (h : callsWithout p ks s = some s') : RunWithout p s s' := by
  induction ks generalizing s
  case nil =>
    cases h
    exact .refl
  case cons x ks ih =>
    obtain ⟨k, l⟩ := x
    simp only [callsWithout] at h
    split at h
    case h_1 r s₁ hr =>
      split at h
      case isTrue hc =>
        obtain ⟨hcur, hlive, hk, hl, hp⟩ := hc
        exact .head ⟨.syscall hcur hlive hk (.inl ⟨r, hr⟩), .of_list hl hp⟩ (ih h)
      case isFalse => cases h
    case h_2 => cases h

variable {n T : Nat}

theorem target_readonly (hT : T ≤ 64) : (crowd T n).target (.pte 0 64 0) = some 2#20 := by
  have hb : crowdBase.mem 1#20 64 = page2pa 3#20 ||| pteP ||| pteU ||| pteW := by decide +kernel
  have hm : crowdBase.mem 3#20 0 = page2pa 2#20 ||| (pteP ||| pteU) ||| pteP := by decide +kernel
  have ht : (crowd T n).table 1#20 64 = some 3#20 := by
    have hn : ¬(64 : Ptx).val < T := by omega
    simp only [Kernel.table, crowd, hn, and_false, if_false]
    rw [if_neg (by simp), hb, entryPage_table]
  rw [target_pte (by decide), pteOf_eq pgdirOf_crowd, entry, ht]
  simp only [crowd]
  rw [if_neg (by simp), if_neg (by simp), hm]
  decide

theorem offList_crowd (h₁ : 1 ≤ n) (hn : n ≤ 2 ^ 16) : (crowd (tables n) n).OffList 2#20 := by
  by_cases hlt : n < 2 ^ 16
  case pos =>
    obtain ⟨l, L, h, -⟩ := crowd_inv h₁ hlt
    exact .of_list h.chain (h.pool.not_free_of_ref (target_readonly (tables_le hn)))
  case neg =>
    have he : n = 2 ^ 16 := by omega
    subst he
    have hl : (crowd (tables (2 ^ 16)) (2 ^ 16)).FreeList crowdFree := by decide +kernel
    exact .of_list hl (by decide)

-- Nobody can write to the page 2 in the beginning.
theorem not_writable_crowdBase : ¬crowdBase.Writable 2#20 := by
  have hd : ∀ e : EnvIx, e ≠ 0 → crowdBase.pgdirOf e = none := by decide +kernel
  have ht : ∀ i : Ptx, i.val < pdxUtop →
      crowdBase.tableOf 0 i = none ∨ crowdBase.tableOf 0 i = some 3#20 ∨ crowdBase.tableOf 0 i = some 6#20 := by
    decide +kernel
  have hm : ∀ j : Ptx, (entryPage (crowdBase.mem 3#20 j) = some 2#20 → has (crowdBase.mem 3#20 j) pteW = false) ∧
      (entryPage (crowdBase.mem 6#20 j) = some 2#20 → has (crowdBase.mem 6#20 j) pteW = false) := by decide +kernel
  rintro ⟨e, i, j, hp, hw⟩
  have hi := PageInv.lt_of_page hp
  rw [target_pte hi] at hp
  by_cases he : e = 0
  case pos =>
    subst he
    obtain h | h | h := ht i hi
    case inl =>
      rw [pteOf_no_table h] at hp
      cases hp
    case inr.inl =>
      rw [pteOf_table h] at hp hw
      simp [(hm j).1 hp] at hw
    case inr.inr =>
      rw [pteOf_table h] at hp hw
      simp [(hm j).2 hp] at hw
  case neg =>
    rw [pteOf_no_table (by simp [tableOf, hd e he])] at hp
    cases hp

end Recreated

-- A page which nobody can write to, and which is mapped all the time, becomes writable.
theorem write_recreated :
    MemInv { p | p ∈ freshPages 128 } crowdBase ∧ crowdBase.OffList 2#20 ∧ ¬crowdBase.Writable 2#20 ∧
    ∃ s, ReflTransGen (fun s s' => CallStep (fun _ _ k => InSyscall k.perm) s s' ∧ s'.OffList 2#20) crowdBase s ∧
      s.Writable 2#20 := by
  have hrun := crowd_run (Q := fun s => s.OffList 2#20) (fun _ => offList_crowd) (2 ^ 16 - 1) (by decide)
  have hv : (callsWithout 2#20 recreate (crowd (tables (2 ^ 16)) (2 ^ 16))).map
      (fun s => (s.target (.pte 1 0 0), has (s.pteOf 1 0 0) pteW)) = some (some 2#20, true) := by decide +kernel
  obtain ⟨s, hs, hv⟩ := Option.map_eq_some_iff.mp hv
  simp only [Prod.mk.injEq] at hv
  have h₁ := offList_crowd (n := 1) (by decide) (by decide)
  rw [show tables 1 = 1 from rfl, crowd_one] at h₁
  exact ⟨crowdBase_inv, h₁, not_writable_crowdBase, s, hrun.trans (RunWithout.of_calls hs), 1, 0, 0, hv.1, hv.2⟩

end Jos
