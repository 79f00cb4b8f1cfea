import Jos.Kernel.Theorems.Blank

-- A system call that fails leaves the kernel's state as it was.

open Function RefCount Program

namespace Jos

open Kernel

variable {M : Set Ppn} {l : List Ppn} {s s' : Kernel} {c : CpuIx} {e a : EnvIx} {pd : Ppn}
  {va perm : Word} {envid : EnvId} {check : Bool} {k : Call}

-- The postcondition of a system call that was entered in the state `s`.
def FailsClean (s : Kernel) (r : Word) (s' : Kernel) : Prop :=
  r.slt 0#32 = true → UpToAddr s s'

theorem FailsClean.refl {r : Word} : FailsClean s r s :=
  fun _ => .refl s

theorem FailsClean.nonneg {r : Word} (h : r.slt 0#32 = false) : FailsClean s r s' :=
  fun hn => absurd (h.symm.trans hn) (by decide)

theorem Kernel.Post.failsClean {r : Word} (h : Post c a k s r s') : FailsClean s r s' := by
  obtain ⟨-, hs⟩ | ⟨hn, -⟩ := h
  case inl => exact fun _ => hs
  case inr => exact .nonneg hn

theorem failsClean_seq {α : Type} {m : K α} {f : α → K Word}
    (h : ∀ x s₁, wp (f x) (FailsClean s) (fun _ _ => True) s₁) :
    wp (m >>= f) (FailsClean s) (fun _ _ => True) s' :=
  wp_seq (wp_mono wp_trivial (fun _ _ => id) fun _ _ => id) fun x s₁ _ => h x s₁

theorem envPgdir_none (hd : (s.envs e).pgdir = none) : (envPgdir e).run s = .error (.fault 0#32) s := by
  simp [envPgdir, hd]

theorem curenv_none (hc : s.cur c = none) : (curenv c).run s = .error (.fault 0#32) s := by
  simp [curenv, hc]

-- Without a current environment nobody passes the permission check.
theorem envid2env_none (hc : s.cur c = none) :
    wp (envid2env c envid check) (fun o s' => (check = true → o = none) ∧ s' = s) (fun _ _ => True) s := by
  simp only [envid2env]
  split
  case isTrue => exact (wp_bind_of_error (curenv_none hc)).mpr trivial
  case isFalse =>
    simp only [wp_bind_get]
    split
    case isTrue => exact ⟨fun _ => rfl, rfl⟩
    case isFalse =>
      split
      case isTrue => exact (wp_bind_of_error (curenv_none hc)).mpr trivial
      case isFalse hn => exact ⟨fun hc' => absurd ⟨hc', by simp [hc]⟩ hn, rfl⟩

theorem envid2env_state :
    wp (envid2env c envid check) (fun _ s' => s' = s) (fun _ _ => True) s := by
  cases hc : s.cur c
  case none => exact wp_mono (envid2env_none hc) (fun _ _ h => h.2) fun _ _ => id
  case some a => exact wp_of_ok (envid2env_run hc) rfl

-- A system call that cannot fail any more once it has found its environment.
theorem found_clean {f : EnvIx → K Word}
    (hf : ∀ e s₁, wp (f e) (FailsClean s) (fun _ _ => True) s₁) :
    wp (do
      match ← envid2env c envid true with
      | none => return ebadenv
      | some e => f e) (FailsClean s) (fun _ _ => True) s := by
  refine wp_seq envid2env_state ?_
  rintro o _ rfl
  cases o
  case none => exact .refl
  case some e => exact hf e _

-- The environments a caller without page directory can find either have one or make the call fault.
theorem PageInv.pgdirOf_or (h : PageInv M ∅ l s) (e : EnvIx) :
    (∃ pd, s.pgdirOf e = some pd) ∨ (s.envs e).pgdir = none := by
  by_cases he : (s.envs e).status = .free
  case pos => exact .inr (h.dir.mp he)
  case neg => exact .inl (h.pgdirOf_live he)

section

variable (h : PageInv M ∅ l s)

include h in
theorem sysPageAlloc_clean (hk : k.sysno = some .pageAlloc) :
    wp (sysPageAlloc c k.a₁ k.a₂ k.a₃) (FailsClean s) (fun _ _ => True) s := by
  cases hc : s.cur c
  case none =>
    refine wp_seq (envid2env_none hc) ?_
    rintro o s' ⟨ho, rfl⟩
    cases ho rfl
    exact .refl
  case some a =>
    cases he : s.findEnv a k.a₁ true
    case none =>
      rw [sysPageAlloc, wp_bind_of_ok (envid2env_run hc), he]
      exact .refl
    case some e =>
      obtain ⟨pd, hd⟩ | hd := h.pgdirOf_or e
      case inl =>
        exact wp_mono (wp_of_run (sysPageAlloc_found h hc hk he hd)) (fun _ _ => Post.failsClean) fun _ _ => id
      case inr =>
        rw [sysPageAlloc, wp_bind_of_ok (envid2env_run hc), he]
        cases hv : badVa k.a₂
        case true => exact .refl
        case false =>
          cases hp : permOk k.a₃
          case false => exact .refl
          case true =>
            cases hf : s.pageFreeList
            case none =>
              simp only [Bool.false_eq_true, Bool.not_true, if_false]
              rw [wp_bind_of_ok (pageAlloc_none hf)]
              exact .refl
            case some pp =>
              simp only [Bool.false_eq_true, Bool.not_true, if_false]
              rw [wp_bind_of_ok (pageAlloc_some hf)]
              exact (wp_bind_of_error (envPgdir_none (s := s.popFree pp) hd)).mpr trivial

include h in
theorem sysPageUnmap_clean (hk : k.sysno = some .pageUnmap) :
    wp (sysPageUnmap c k.a₁ k.a₂) (FailsClean s) (fun _ _ => True) s := by
  cases hc : s.cur c
  case none =>
    refine wp_seq (envid2env_none hc) ?_
    rintro o s' ⟨ho, rfl⟩
    cases ho rfl
    exact .refl
  case some a =>
    cases he : s.findEnv a k.a₁ true
    case none =>
      rw [sysPageUnmap, wp_bind_of_ok (envid2env_run hc), he]
      exact .refl
    case some e =>
      obtain ⟨pd, hd⟩ | hd := h.pgdirOf_or e
      case inl =>
        exact wp_mono (wp_of_run (sysPageUnmap_found h hc hk he hd)) (fun _ _ => Post.failsClean)
          fun _ _ => id
      case inr =>
        rw [sysPageUnmap, wp_bind_of_ok (envid2env_run hc), he]
        cases hv : badVa k.a₂
        case true => exact .refl
        case false => exact (wp_bind_of_error (envPgdir_none hd)).mpr trivial

-- `page_insert` is not reached for a destination without page directory.
theorem mapShared_clean {pt : PtePtr} {pp : Ppn} (hd : (s.envs e).pgdir = none) :
    wp (mapShared c e pp pt va perm) (FailsClean s) (fun _ _ => True) s := by
  simp only [mapShared, wp_bind_get]
  split
  case isTrue => exact .refl
  case isFalse => exact (wp_bind_of_error (envPgdir_none hd)).mpr trivial

include h in
theorem sysPageMap_clean {srcva dstva : Word} {dstid : EnvId} :
    wp (sysPageMap c envid srcva dstid dstva perm) (FailsClean s) (fun _ _ => True) s := by
  cases hc : s.cur c
  case none =>
    refine wp_seq (envid2env_none hc) ?_
    rintro o s' ⟨ho, rfl⟩
    cases ho rfl
    exact .refl
  case some a =>
    rw [sysPageMap, wp_bind_of_ok (envid2env_run hc)]
    cases he₀ : s.findEnv a envid true
    case none => exact .refl
    case some src =>
      simp only
      rw [wp_bind_of_ok (envid2env_run hc)]
      cases he : s.findEnv a dstid true
      case none => exact .refl
      case some dst =>
        simp only
        split
        case isTrue => exact .refl
        case isFalse hv₀ =>
          split
          case isTrue => exact .refl
          case isFalse hv =>
            split
            case isTrue => exact .refl
            case isFalse =>
              obtain ⟨pd₀, hd₀⟩ | hd₀ := h.pgdirOf_or src
              case inr => exact (wp_bind_of_error (envPgdir_none hd₀)).mpr trivial
              case inl =>
                rw [Bool.not_eq_true] at hv₀ hv
                rw [wp_bind_of_ok (envPgdir_run hd₀)]
                obtain hlk | ⟨pp, pt, hlk, hr, hpt⟩ := pageLookup_cases h hd₀ (lt_utop_of_badVa hv₀)
                case inl =>
                  rw [wp_bind_of_ok hlk]
                  exact .refl
                case inr =>
                  rw [wp_bind_of_ok hlk]
                  obtain ⟨pd, hd⟩ | hd := h.pgdirOf_or dst
                  case inr => exact mapShared_clean hd
                  case inl =>
                    obtain ⟨r, hrun, -⟩ | ⟨hrun, -⟩ :=
                      mapShared_run (c := c) pp perm h hpt hd (lt_utop_of_badVa hv)
                    case inl => exact wp_of_ok hrun .refl
                    case inr => exact wp_of_ok hrun (.nonneg rfl)

theorem ipcSendPage_clean {srcva : Word} (hc : ∀ a, s.cur c = some a → (s.envs a).pgdir = none) :
    wp (ipcSendPage c e srcva perm) (FailsClean s) (fun _ _ => True) s := by
  simp only [ipcSendPage]
  split
  case isTrue => exact .refl
  case isFalse =>
    split
    case isTrue => exact .refl
    case isFalse =>
      cases ha : s.cur c
      case none => exact (wp_bind_of_error (curenv_none ha)).mpr trivial
      case some a =>
        rw [wp_bind_of_ok (curenv_run ha)]
        exact (wp_bind_of_error (envPgdir_none (hc a ha))).mpr trivial

-- The caller's page directory is needed to send a page; otherwise the send cannot fail any more.
theorem sysIpcTrySend_clean {value srcva : Word}
    (hc : ∀ a, s.cur c = some a → (s.envs a).pgdir = none) :
    wp (sysIpcTrySend c envid value srcva perm) (FailsClean s) (fun _ _ => True) s := by
  refine wp_seq envid2env_state ?_
  rintro o _ rfl
  cases o
  case none => exact .refl
  case some e =>
    simp only [wp_bind_get]
    split
    case isTrue => exact .refl
    case isFalse =>
      split
      case isTrue =>
        refine wp_seq (ipcSendPage_clean hc) fun r s₁ hr => ?_
        split
        case isTrue => exact hr
        case isFalse => exact failsClean_seq fun _ _ => .nonneg rfl
      case isFalse => exact failsClean_seq fun _ _ => .nonneg rfl

theorem sysEnvSetStatus_clean {status : Word} :
    wp (sysEnvSetStatus c envid status) (FailsClean s) (fun _ _ => True) s := by
  rw [sysEnvSetStatus]
  cases settableStatus status
  case none => exact .refl
  case some => exact found_clean fun _ _ => .nonneg rfl

include h in
theorem sysExofork_clean (hk : k.sysno = some .exofork) :
    wp (sysExofork c) (FailsClean s) (fun _ _ => True) s := by
  cases hc : s.cur c
  case none => exact (wp_bind_of_error (curenv_none hc)).mpr trivial
  case some a =>
    exact wp_mono (wp_of_run (sysExofork_post h hc hk)) (fun _ _ => Post.failsClean) fun _ _ => id

theorem sysIpcRecv_clean : wp (sysIpcRecv c va) (FailsClean s) (fun _ _ => True) s := by
  rw [sysIpcRecv]
  split
  case isTrue => exact .refl
  case isFalse =>
    refine failsClean_seq fun _ _ => ?_
    simp only [wp_bind_modify]
    exact failsClean_seq fun _ _ => .nonneg rfl

theorem sysGetenvid_clean : wp (sysGetenvid c) (FailsClean s) (fun _ _ => True) s := by
  cases hc : s.cur c
  case none => exact (wp_bind_of_error (curenv_none hc)).mpr trivial
  case some a =>
    rw [sysGetenvid, wp_bind_of_ok (curenv_run hc)]
    exact .refl

include h in
theorem syscall_clean : wp (k.run c) (FailsClean s) (fun _ _ => True) s := by
  by_cases hc : ∃ a, s.cur c = some a ∧ (s.envs a).status ≠ .free
  case pos =>
    have ⟨a, ha, hl⟩ := hc
    exact wp_mono (syscall_post h ha hl) (fun _ _ => Post.failsClean) fun _ _ _ => trivial
  case neg =>
    have hd : ∀ a, s.cur c = some a → (s.envs a).pgdir = none := by
      intro a ha
      by_contra hd
      exact hc ⟨a, ha, mt h.dir.mp hd⟩
    simp only [Call.run, syscall]
    cases hno : Sysno.ofWord k.no
    case none => exact .refl
    case some x =>
      cases x
      case cputs => exact failsClean_seq fun _ _ => .nonneg (slt_sysno hno)
      case cgetc => exact wp_mono consGetc_nonneg (fun _ _ => .nonneg) fun _ _ => id
      case getenvid => exact sysGetenvid_clean
      case envDestroy => exact found_clean fun _ _ => failsClean_seq fun _ _ => .nonneg rfl
      case pageAlloc => exact sysPageAlloc_clean h hno
      case pageMap => exact sysPageMap_clean h
      case pageUnmap => exact sysPageUnmap_clean h hno
      case exofork => exact sysExofork_clean h hno
      case envSetStatus => exact sysEnvSetStatus_clean
      case envSetPgfaultUpcall => exact found_clean fun _ _ => .nonneg rfl
      case yield => exact failsClean_seq fun _ _ => .nonneg rfl
      case ipcTrySend => exact sysIpcTrySend_clean hd
      case ipcRecv => exact sysIpcRecv_clean

end

-- Nothing but `user_mem_check_addr` has changed when a system call returns an error, whatever the
-- call and its arguments are.
theorem syscall_error_unchanged {no a₁ a₂ a₃ a₄ a₅ r : Word} (h : PageInv M ∅ l s)
    (hr : (syscall c no a₁ a₂ a₃ a₄ a₅).run s = .ok r s') (hn : r.slt 0#32 = true) :
    ∃ x, s' = { s with userMemCheckAddr := x } :=
  wp_ok (syscall_clean (k := ⟨no, a₁, a₂, a₃, a₄, a₅⟩) h) hr hn

-- With a single page left, `sys_page_alloc` finds no memory for a page table, and gives the page back.
theorem syscall_error_unchanged_nomem :
    ∃ s', (syscall 0 4#32 0#32 0x1000#32 7#32 0#32 0#32).run (soleEnv 2) = .ok enomem s' ∧
      ∃ x, s' = { soleEnv 2 with userMemCheckAddr := x } := by
  have hv : returns (syscall 0 4#32 0#32 0x1000#32 7#32 0#32 0#32) (soleEnv 2) = some enomem := by
    decide +kernel
  have ⟨s', hr⟩ := returns_eq_some.mp hv
  have ⟨_, _, h, _⟩ := soleEnv_inv (n := 2) (by decide) (by decide)
  exact ⟨s', hr, syscall_error_unchanged h hr (by decide)⟩

end Jos
