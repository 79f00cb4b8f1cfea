import Jos.Kernel.Theorems.Free
import Jos.Kernel.Sched

-- The scheduler does not touch memory, nor which environments exist.

open Function RefCount Program

namespace Jos

open Kernel

variable {M F F' : Set Ppn} {l l' : List Ppn} {L : List EnvIx} {s s' : Kernel} {c : CpuIx}
  {e e' a : EnvIx} {i i' j j' : Ptx} {pd t p q pp : Ppn} {va perm w : Word} {r : Ref}

-- All that the invariants of pages and of environments depend on is the same.
structure Kernel.SameMem (s s' : Kernel) : Prop where
  alloc : SameAlloc s s'
  mem   : s'.mem = s.mem
  pgdir : ∀ e, (s'.envs e).pgdir = (s.envs e).pgdir
  link  : ∀ e, (s'.envs e).link = (s.envs e).link
  live  : ∀ e, (s'.envs e).status = .free ↔ (s.envs e).status = .free
  free  : s'.envFreeList = s.envFreeList

namespace Kernel.SameMem

theorem refl (s : Kernel) : SameMem s s :=
  ⟨⟨rfl, rfl, rfl, rfl⟩, rfl, fun _ => rfl, fun _ => rfl, fun _ => Iff.rfl, rfl⟩

theorem trans {s₁ s₂ s₃ : Kernel} (h : SameMem s₁ s₂) (h' : SameMem s₂ s₃) : SameMem s₁ s₃ where
  alloc := ⟨h'.alloc.pages.trans h.alloc.pages, h'.alloc.free.trans h.alloc.free,
    h'.alloc.npages.trans h.alloc.npages, h'.alloc.kernPgdir.trans h.alloc.kernPgdir⟩
  mem := h'.mem.trans h.mem
  pgdir e := (h'.pgdir e).trans (h.pgdir e)
  link e := (h'.link e).trans (h.link e)
  live e := (h'.live e).trans (h.live e)
  free := h'.free.trans h.free

instance : Std.Refl SameMem :=
  ⟨refl⟩

instance : IsTrans Kernel SameMem :=
  ⟨fun _ _ _ => trans⟩

theorem setCpu {f : CpuInfo → CpuInfo} : SameMem s (s.setCpu c f) :=
  ⟨⟨rfl, rfl, rfl, rfl⟩, rfl, fun _ => rfl, fun _ => rfl, fun _ => Iff.rfl, rfl⟩

theorem setEnv {f : Env → Env} (hp : (f (s.envs e)).pgdir = (s.envs e).pgdir)
    (hl : (f (s.envs e)).link = (s.envs e).link)
    (hs : (f (s.envs e)).status = .free ↔ (s.envs e).status = .free) : SameMem s (s.setEnv e f) := by
  refine ⟨⟨rfl, rfl, rfl, rfl⟩, rfl, fun e' => ?_, fun e' => ?_, fun e' => ?_, rfl⟩
  all_goals by_cases hc : e' = e
  all_goals simp [Kernel.setEnv, hc, hp, hl, hs]

theorem pgdirOf (h : SameMem s s') : s'.pgdirOf = s.pgdirOf := by
  funext e
  simp only [Kernel.pgdirOf, h.pgdir, h.live]

theorem target (h : SameMem s s') : s'.target = s.target :=
  target_congr h.pgdirOf h.alloc.kernPgdir fun _ _ => by rw [h.mem]

theorem pteOf (h : SameMem s s') : s'.pteOf = s.pteOf := by
  funext e i j
  simp only [Kernel.pteOf, Kernel.tableOf, h.pgdirOf, table, h.mem]

theorem refs (h : SameMem s s') : s'.refs = s.refs := by
  funext p
  simp only [Kernel.refs, h.target]

theorem pageInv (h : SameMem s s') (hi : PageInv M F l s) : PageInv M F l s' :=
  hi.congr h.alloc h.target fun {e} => by
    rw [h.live, h.pgdir]
    exact hi.dir

theorem envInv (h : SameMem s s') (hi : EnvInv L s) : EnvInv L s' where
  chain := h.free ▸ hi.chain.congr fun e _ => h.link e
  nodup := hi.nodup
  mem := hi.mem.trans (h.live _).symm

end Kernel.SameMem

theorem keeps_lcr3 : Keeps SameMem (lcr3 c p) :=
  .modify fun _ => .setCpu

theorem sameMem_preempt : SameMem s (s.preempt c) := by
  simp only [preempt]
  split
  case _ => exact .refl s
  case _ x _ =>
    split
    case isTrue hr => exact .setEnv rfl rfl (by simp [hr])
    case isFalse => exact .refl s

theorem envRun_sameMem (he : (s.envs e).status ≠ .free) :
    wp (envRun c e) (fun _ => SameMem s) (fun _ => SameMem s) s := by
  have h₁ : SameMem s ((s.preempt c).setCpu c fun i => { i with env := some e }) :=
    sameMem_preempt.trans .setCpu
  have h₂ := h₁.trans <| .setEnv (e := e) (f := fun v => { v with status := .running, runs := v.runs + 1#32 })
    rfl rfl (by simp [h₁.live, he])
  simp only [envRun, wp_bind_modify, wp_bind_get]
  split
  case _ => exact h₂
  case _ pd _ =>
    simp only [lcr3, wp_bind_modify, wp_throw]
    exact h₂.trans <| SameMem.setCpu.trans <| .setEnv rfl rfl Iff.rfl

theorem keeps_schedHalt : Keeps SameMem (schedHalt c) := by
  intro s
  simp only [schedHalt, wp_bind_get]
  split
  case isTrue =>
    simp only [lcr3, wp_bind_modify, wp_throw]
    exact SameMem.setCpu.trans <| SameMem.setCpu.trans .setCpu
  case isFalse => exact SameMem.refl s

theorem keeps_schedLoop {n : Nat} {k : EnvIx} : Keeps SameMem (schedLoop c n k) := by
  induction n generalizing k
  case zero => exact keeps_schedHalt
  case succ n ih =>
    intro s
    simp only [schedLoop, wp_bind_get]
    split
    case isTrue =>
      split
      case isTrue hr => exact envRun_sameMem (by simp [hr])
      case isFalse => exact keeps_schedHalt s
    case isFalse =>
      split
      case isTrue hr => exact envRun_sameMem (by simp [hr])
      case isFalse => exact ih s

theorem keeps_schedYield : Keeps SameMem (schedYield c) := by
  intro s
  simp only [schedYield, wp_bind_get]
  split
  case _ => exact keeps_schedLoop s
  case _ => exact keeps_schedLoop s

end Jos
