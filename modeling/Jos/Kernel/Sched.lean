import Jos.Kernel.Env

-- The scheduler (kern/sched.c), and destroying environments, which may enter it.

namespace Jos

def EnvStatus.schedulable : EnvStatus → Bool
  | .runnable | .running | .dying => true
  | _ => false

-- The search through `envs` at the start of `sched_halt`.
@[irreducible]
def Kernel.hasWork (s : Kernel) : Bool :=
  (List.finRange 1024).any fun i => (s.envs i).status.schedulable

def schedHalt (c : CpuIx) : K Unit := do
  let s ← get
  if s.hasWork then
    modify (·.setCpu c fun i => { i with env := none })
    lcr3 c s.kernPgdir
    modify (·.setCpu c fun i => { i with status := .halted })
    throw .halt
  else
    throw .monitor

-- The search of `sched_yield` from slot `i` on, with `n` slots left to look at.
def schedLoop (c : CpuIx) : Nat → EnvIx → K Unit
  | 0, _ => schedHalt c
  | n + 1, i => do
    let s ← get
    if s.cur c = some i then
      if (s.envs i).status = .running then
        envRun c i
      else
        schedHalt c
    else if (s.envs i).status = .runnable then
      envRun c i
    else
      schedLoop c n (i + 1)

def schedYield (c : CpuIx) : K Unit := do
  match (← get).cur c with
  | none   => schedLoop c 1024 0
  | some e => schedLoop c 1024 (e + 1)

def envDestroy (c : CpuIx) (e : EnvIx) : K Unit := do
  let s ← get
  if (s.envs e).status = .running ∧ s.cur c ≠ some e then
    modify (·.setEnv e fun v => { v with status := .dying })
  else
    envFree c e
    if (← get).cur c = some e then
      modify (·.setCpu c fun i => { i with env := none })
      schedYield c

def userMemAssert (c : CpuIx) (e : EnvIx) (va len perm : Word) : K Unit := do
  let pgdir ← envPgdir e
  let r ← userMemCheck pgdir va len (perm ||| pteU)
  if r.slt 0#32 then
    envDestroy c e

end Jos
