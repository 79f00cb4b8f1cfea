import Jos.Kernel.Theorems.Calls

-- What all functions of the kernel keep, as soon as the updates of the state keep it of which they are made.

open Function Program

namespace Jos

open Kernel

variable {α β : Type} {T : Kernel → Kernel → Prop} {I E : Kernel → Prop} {c : CpuIx} {e : EnvIx} {pd pp : Ppn}
  {va len perm : Word} {zero create : Bool} {envid : EnvId} {m : K α} {x : Exit}

namespace Kernel

-- `T` admits what the functions that deal with pages do.
structure PageClosed (T : Kernel → Kernel → Prop) : Prop where
  pages : ∀ {s pages free mem}, T s { s with pages, pageFreeList := free, mem }
  addr  : ∀ {s x}, T s { s with userMemCheckAddr := x }
  tlb   : ∀ {s c pgdir va}, T s (s.invalidate c pgdir va)

namespace PageClosed

variable [Std.Refl T] [IsTrans Kernel T] (h : PageClosed T)

include h

theorem pageAlloc : KeepsOr T (· = .panic) (pageAlloc zero) := by
  refine KeepsOr.get.bind fun s => ?_
  split
  case _ => exact .pure
  case _ =>
    refine (KeepsOr.modify fun _ => h.pages).bind fun _ => ?_
    split
    case isTrue => exact keepsOr_kaddr.bind fun _ => (KeepsOr.modify fun _ => h.pages).bind fun _ => .pure
    case isFalse => exact .pure

theorem pageFree : KeepsOr T (· = .panic) (pageFree pp) := by
  refine KeepsOr.get.bind fun s => ?_
  dsimp only
  split
  case isTrue => exact .throw rfl
  case isFalse =>
    split
    case isTrue => exact .throw rfl
    case isFalse => exact .modify fun _ => h.pages

theorem pageDecref : KeepsOr T (· = .panic) (pageDecref pp) := by
  refine (KeepsOr.modify fun _ => h.pages).bind fun _ => KeepsOr.get.bind fun s => ?_
  split
  case isTrue => exact h.pageFree
  case isFalse => exact .pure

theorem pgdirWalk : KeepsOr T (· = .panic) (pgdirWalk pd va create) := by
  refine KeepsOr.get.bind fun s => ?_
  split
  case isTrue => exact KeepsOr.get.bind fun s => keepsOr_kaddr.bind fun _ => .pure
  case isFalse =>
    split
    case isTrue =>
      refine h.pageAlloc.bind fun o => ?_
      cases o
      case none => exact .pure
      case some pp =>
        refine (KeepsOr.modify fun _ => h.pages).bind fun _ => (KeepsOr.modify fun _ => h.pages).bind fun _ => ?_
        exact KeepsOr.get.bind fun s => keepsOr_kaddr.bind fun _ => .pure
    case isFalse => exact .pure

theorem pageLookup : KeepsOr T (· = .panic) (pageLookup pd va) := by
  refine h.pgdirWalk.bind fun o => ?_
  cases o
  case none => exact .pure
  case some p =>
    refine KeepsOr.get.bind fun s => ?_
    split
    case isTrue => exact KeepsOr.get.bind fun s => keepsOr_pa2page.bind fun _ => .pure
    case isFalse => exact .pure

omit [Std.Refl T] [IsTrans Kernel T] in
theorem tlbInvalidate : KeepsOr T (· = .panic) (tlbInvalidate c pd va) :=
  .modify fun _ => h.tlb

theorem pageRemove : KeepsOr T (· = .panic) (pageRemove c pd va) := by
  refine h.pageLookup.bind fun o => ?_
  cases o
  case none => exact .pure
  case some q =>
    refine h.pageDecref.bind fun _ => h.pgdirWalk.bind fun o => ?_
    cases o
    case none => exact h.tlbInvalidate
    case some x => exact (KeepsOr.modify fun _ => h.pages).bind fun _ => h.tlbInvalidate

theorem pageInsert : KeepsOr T (· = .panic) (pageInsert c pd pp va perm) := by
  refine h.pgdirWalk.bind fun o => ?_
  cases o
  case none => exact .pure
  case some x =>
    refine h.pageRemove.bind fun _ => KeepsOr.get.bind fun s => ?_
    have hs : ∀ q, KeepsOr T (· = .panic) (do
        modify (·.setMem x.1 x.2 (page2pa q ||| perm ||| pteP))
        modify (·.incRef q)
        return 0#32 : K Word) :=
      fun q => (KeepsOr.modify fun _ => h.pages).bind fun _ => (KeepsOr.modify fun _ => h.pages).bind fun _ => .pure
    split
    case isTrue => exact h.pageAlloc.map.bind hs
    case isFalse => exact KeepsOr.pure.bind hs

theorem envFreePages {i : Ptx} {pt : Ppn} : KeepsOr T (· = .panic) (envFreePages c pd i pt) := by
  unfold Jos.envFreePages
  generalize List.finRange 1024 = js
  refine KeepsOr.forM fun j => KeepsOr.get.bind fun s => ?_
  split
  case isTrue => exact h.pageRemove
  case isFalse => exact .pure

theorem envFreeTable {i : Ptx} : KeepsOr T (· = .panic) (envFreeTable c pd i) := by
  refine KeepsOr.get.bind fun s => ?_
  dsimp only
  split
  case isTrue =>
    refine keepsOr_kaddr.bind fun pt => h.envFreePages.bind fun _ => ?_
    exact (KeepsOr.modify fun _ => h.pages).bind fun _ => keepsOr_pa2page.bind fun _ => h.pageDecref
  case isFalse => exact .pure

omit [Std.Refl T] [IsTrans Kernel T] in
theorem userMemCheck : KeepsOr T (· = .panic) (userMemCheck pd va len perm) :=
  keeps_userMemCheck.mono fun _ _ ⟨_, hs⟩ => hs ▸ h.addr

end PageClosed

end Kernel

-- `I` goes on to hold while `m` runs, and `E` holds if it leaves the kernel.
def Within (I E : Kernel → Prop) (m : K α) : Prop :=
  ∀ s, I s → wp m (fun _ => I) (fun _ => E) s

namespace Within

theorem pure {a : α} : Within I E (pure a : K α) :=
  fun _ hi => hi

theorem throw (h : ∀ {s}, I s → E s) : Within I E (throw x : K α) :=
  fun _ hi => h hi

theorem get : Within I E (get : K Kernel) :=
  fun _ hi => hi

theorem modify {u : Kernel → Kernel} (hu : ∀ {s}, I s → I (u s)) : Within I E (modify u : K Unit) :=
  fun _ hi => hu hi

theorem bind {u : α → K β} (hm : Within I E m) (hu : ∀ a, Within I E (u a)) : Within I E (m >>= u) :=
  fun s hi => wp_seq (hm s hi) fun a s' hi' => hu a s' hi'

theorem forM {l : List β} {u : β → K Unit} (hu : ∀ b, Within I E (u b)) : Within I E (l.forM u) := by
  intro s hi
  refine wp_mono (wp_forM (I := fun _ => I) ?_ hi) (fun _ _ => id) fun _ _ => id
  exact fun b _ s' hi' => hu b s' hi'

theorem of_keeps {X : Exit → Prop} (hm : KeepsOr (fun s s' => I s → I s') X m) (h : ∀ {s}, I s → E s) :
    Within I E m :=
  fun s hi => wp_mono (hm s) (fun _ _ hs => hs hi) fun _ _ hs => h (hs.2 hi)

end Within

-- `I` and `E` admit what the system calls do on the processor `c`.
structure CallClosed (c : CpuIx) (I E : Kernel → Prop) : Prop where
  leave   : ∀ {s}, I s → E s
  page    : PageClosed fun s s' => I s → I s'
  envs    : ∀ {s envs free}, I s → I { s with envs, envFreeList := free }
  cons    : ∀ {s cons}, I s → I { s with cons }
  yield   : Within I E (schedYield c)
  destroy : ∀ {e}, Within I E (envDestroy c e)

namespace CallClosed

instance : Std.Refl fun s s' : Kernel => I s → I s' :=
  ⟨fun _ => id⟩

instance : IsTrans Kernel fun s s' : Kernel => I s → I s' :=
  ⟨fun _ _ _ h h' hi => h' (h hi)⟩

variable (h : CallClosed c I E)

include h

theorem of_page (hm : KeepsOr (fun s s' => I s → I s') (· = .panic) m) : Within I E m :=
  .of_keeps hm h.leave

theorem setEnv {u : Env → Env} : Within I E (modify (·.setEnv e u)) :=
  .modify h.envs

theorem curenv : Within I E (curenv c) := by
  refine Within.get.bind fun s => ?_
  split
  case _ => exact .throw h.leave
  case _ => exact .pure

theorem envPgdir : Within I E (envPgdir e) := by
  refine Within.get.bind fun s => ?_
  split
  case _ => exact .throw h.leave
  case _ => exact .pure

theorem envid2env {check : Bool} : Within I E (envid2env c envid check) := by
  simp only [Jos.envid2env]
  split
  case isTrue => exact h.curenv.bind fun _ => .pure
  case isFalse =>
    refine Within.get.bind fun s => ?_
    split
    case isTrue => exact .pure
    case isFalse =>
      split
      case isTrue =>
        refine h.curenv.bind fun _ => ?_
        split <;> exact .pure
      case isFalse => exact .pure

theorem userMemAssert : Within I E (userMemAssert c e va len perm) := by
  refine h.envPgdir.bind fun pd => (h.of_page h.page.userMemCheck).bind fun r => ?_
  split
  case isTrue => exact h.destroy
  case isFalse => exact .pure

theorem cputsLoop {n : Nat} {precision : Int} : Within I E (cputsLoop c n va precision) := by
  induction n generalizing va precision
  case zero => exact .pure
  case succ n ih =>
    have hb : Within I E (loadByte c va) := by
      refine Within.get.bind fun s => ?_
      split
      case _ => exact .throw h.leave
      case _ => exact .pure
    refine hb.bind fun ch => ?_
    split
    case isTrue => exact .pure
    case isFalse =>
      split
      case isTrue => exact ih
      case isFalse =>
        split
        case isTrue => exact ih
        case isFalse => exact .pure

theorem sysCputs : Within I E (sysCputs c va len) := by
  refine h.curenv.bind fun cur => h.userMemAssert.bind fun _ => ?_
  split
  case isTrue => exact h.cputsLoop
  case isFalse => exact .pure

theorem consGetc : Within I E consGetc := by
  refine Within.bind (.modify h.cons) fun _ => Within.get.bind fun s => ?_
  dsimp only
  split
  case isTrue => exact Within.bind (.modify h.cons) fun _ => .pure
  case isFalse => exact .pure

theorem sysGetenvid : Within I E (sysGetenvid c) :=
  h.curenv.bind fun _ => Within.get.bind fun _ => .pure

theorem sysEnvDestroy : Within I E (sysEnvDestroy c envid) := by
  refine h.envid2env.bind fun r => ?_
  cases r
  case none => exact .pure
  case some e => exact h.destroy.bind fun _ => .pure

theorem envSetupVm : Within I E (envSetupVm e) := by
  have hp : ∀ {s pages free mem}, I s → I { s with pages, pageFreeList := free, mem } := h.page.pages
  refine (h.of_page h.page.pageAlloc).bind fun r => ?_
  cases r
  case none => exact .pure
  case some p =>
    refine Within.bind (.modify hp) fun _ => (h.of_page keepsOr_kaddr).bind fun pgdir => ?_
    refine h.setEnv.bind fun _ => Within.bind (.modify hp) fun _ => ?_
    exact Within.bind (.modify hp) fun _ => .pure

theorem envAlloc {parentId : EnvId} : Within I E (envAlloc parentId) := by
  refine Within.get.bind fun s => ?_
  split
  case _ => exact .pure
  case _ e _ =>
    refine h.envSetupVm.bind fun r => ?_
    split
    case isTrue => exact .pure
    case isFalse => exact h.setEnv.bind fun _ => Within.bind (.modify h.envs) fun _ => .pure

theorem sysExofork : Within I E (sysExofork c) := by
  refine h.curenv.bind fun cur => Within.get.bind fun s => h.envAlloc.bind fun r => ?_
  cases r
  case error => exact .pure
  case ok child =>
    refine h.setEnv.bind fun _ => Within.get.bind fun s => ?_
    exact h.setEnv.bind fun _ => Within.get.bind fun _ => .pure

theorem sysEnvSetStatus {status : Word} : Within I E (sysEnvSetStatus c envid status) := by
  simp only [Jos.sysEnvSetStatus]
  split
  case _ => exact .pure
  case _ =>
    refine h.envid2env.bind fun r => ?_
    cases r
    case none => exact .pure
    case some e => exact h.setEnv.bind fun _ => .pure

theorem sysEnvSetPgfaultUpcall {func : Word} : Within I E (sysEnvSetPgfaultUpcall c envid func) := by
  refine h.envid2env.bind fun r => ?_
  cases r
  case none => exact .pure
  case some e => exact h.setEnv.bind fun _ => .pure

theorem sysPageAlloc : Within I E (sysPageAlloc c envid va perm) := by
  refine h.envid2env.bind fun r => ?_
  cases r
  case none => exact .pure
  case some proc =>
    dsimp only
    split
    case isTrue => exact .pure
    case isFalse =>
      split
      case isTrue => exact .pure
      case isFalse =>
        refine (h.of_page h.page.pageAlloc).bind fun r => ?_
        cases r
        case none => exact .pure
        case some pp =>
          refine h.envPgdir.bind fun pd => (h.of_page h.page.pageInsert).bind fun r => ?_
          split
          case isTrue => exact (h.of_page h.page.pageFree).bind fun _ => .pure
          case isFalse => exact .pure

theorem mapShared {p : PtePtr} : Within I E (mapShared c e pp p va perm) := by
  refine Within.get.bind fun s => ?_
  split
  case isTrue => exact .pure
  case isFalse =>
    refine h.envPgdir.bind fun pd => (h.of_page h.page.pageInsert).bind fun r => ?_
    split <;> exact .pure

theorem sysPageMap {srcva : Word} {dstid : EnvId} : Within I E (sysPageMap c envid srcva dstid va perm) := by
  refine h.envid2env.bind fun r => ?_
  cases r
  case none => exact .pure
  case some src =>
    refine h.envid2env.bind fun r => ?_
    cases r
    case none => exact .pure
    case some dst =>
      dsimp only
      split
      case isTrue => exact .pure
      case isFalse =>
        split
        case isTrue => exact .pure
        case isFalse =>
          split
          case isTrue => exact .pure
          case isFalse =>
            refine h.envPgdir.bind fun pd => (h.of_page h.page.pageLookup).bind fun r => ?_
            cases r
            case none => exact .pure
            case some q => exact h.mapShared

theorem sysPageUnmap : Within I E (sysPageUnmap c envid va) := by
  refine h.envid2env.bind fun r => ?_
  cases r
  case none => exact .pure
  case some proc =>
    dsimp only
    split
    case isTrue => exact .pure
    case isFalse => exact h.envPgdir.bind fun pd => (h.of_page h.page.pageRemove).bind fun _ => .pure

theorem ipcSendPage {srcva : Word} : Within I E (ipcSendPage c e srcva perm) := by
  simp only [Jos.ipcSendPage]
  split
  case isTrue => exact .pure
  case isFalse =>
    split
    case isTrue => exact .pure
    case isFalse =>
      refine h.curenv.bind fun cur => h.envPgdir.bind fun pd => (h.of_page h.page.userMemCheck).bind fun r => ?_
      split
      case isTrue => exact .pure
      case isFalse =>
        refine (h.of_page h.page.pageLookup).bind fun r => ?_
        cases r
        case none => exact .pure
        case some q => exact Within.get.bind fun s => h.mapShared

theorem ipcDeliver {value : Word} : Within I E (ipcDeliver c e value perm) :=
  Within.get.bind fun _ => h.curenv.bind fun _ => h.setEnv

theorem sysIpcTrySend {value srcva : Word} : Within I E (sysIpcTrySend c envid value srcva perm) := by
  refine h.envid2env.bind fun r => ?_
  cases r
  case none => exact .pure
  case some target =>
    refine Within.get.bind fun s => ?_
    dsimp only
    split
    case isTrue => exact .pure
    case isFalse =>
      split
      case isTrue =>
        refine h.ipcSendPage.bind fun r => ?_
        split
        case isTrue => exact .pure
        case isFalse => exact h.ipcDeliver.bind fun _ => .pure
      case isFalse => exact h.ipcDeliver.bind fun _ => .pure

theorem sysIpcRecv : Within I E (sysIpcRecv c va) := by
  simp only [Jos.sysIpcRecv]
  split
  case isTrue => exact .pure
  case isFalse => exact h.curenv.bind fun cur => h.setEnv.bind fun _ => h.yield.bind fun _ => .pure

theorem syscall {no a₁ a₂ a₃ a₄ a₅ : Word} : Within I E (syscall c no a₁ a₂ a₃ a₄ a₅) := by
  simp only [Jos.syscall]
  split
  case _ => exact h.sysCputs.bind fun _ => .pure
  case _ => exact h.consGetc
  case _ => exact h.sysGetenvid
  case _ => exact h.sysEnvDestroy
  case _ => exact h.yield.bind fun _ => .pure
  case _ => exact h.sysExofork
  case _ => exact h.sysEnvSetStatus
  case _ => exact h.sysPageAlloc
  case _ => exact h.sysPageMap
  case _ => exact h.sysPageUnmap
  case _ => exact h.sysEnvSetPgfaultUpcall
  case _ => exact h.sysIpcTrySend
  case _ => exact h.sysIpcRecv
  case _ => exact .pure

end CallClosed

end Jos
