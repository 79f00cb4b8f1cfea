import Jos.Kernel.Refs
import Jos.Kernel.Syscall
import Jos.Library.Client

-- User programs, and the library function `fork` (lib/fork.c, lib/pgfault.c, lib/syscall.c). A program is known by the
-- words it reads and the system calls it makes; its own variables are those of the model.

open Client

namespace Jos

inductive UserOp
  -- Reads a word of its memory.
  | load (va : Word)
  -- Reads `envs[e]`, which the kernel shows to all programs at `UENVS`.
  | env (e : EnvIx)
  | syscall (k : Call)

abbrev UserOp.Result : UserOp → Type
  | load _    => Word
  | env _     => Env
  | syscall _ => Word

abbrev User := Prog UserOp UserOp.Result

-- What the environment `a` gets to see. `mode` says whether its loads are checked for the user bit, and `Moves` is what
-- happens to the machine in between.
def userServer (a : EnvIx) (mode : Access) (Moves : Kernel → Kernel → Prop) : Server UserOp UserOp.Result Kernel where
  Answers
    | .load va, s, r, s'   => ∃ pd p, s.pgdirOf a = some pd ∧ s.translate pd va mode = some p ∧ r = s.mem p (wordIx va) ∧
        s' = s
    | .env e, s, r, s'     => r = s.envs e ∧ s' = s
    | .syscall k, s, r, s' => ∃ c, s.cur c = some a ∧ (k.run c).run s = .ok r s'
  Moves := Moves

namespace User

def load (va : Word) : User Word :=
  .ask (.load va) .done

def env (e : EnvIx) : User Env :=
  .ask (.env e) .done

-- The library's `syscall`.
def syscall (check : Bool) (k : Call) : User Word :=
  .ask (.syscall k) fun ret => if check && (0#32).slt ret then .stop else .done ret

def sysGetenvid : User EnvId :=
  syscall false ⟨2#32, 0#32, 0#32, 0#32, 0#32, 0#32⟩

def sysPageAlloc (envid : EnvId) (va perm : Word) : User Word :=
  syscall true ⟨4#32, envid, va, perm, 0#32, 0#32⟩

def sysPageMap (srcenv : EnvId) (srcva : Word) (dstenv : EnvId) (dstva perm : Word) : User Word :=
  syscall true ⟨5#32, srcenv, srcva, dstenv, dstva, perm⟩

def sysEnvSetStatus (envid : EnvId) (status : Word) : User Word :=
  syscall true ⟨8#32, envid, status, 0#32, 0#32, 0#32⟩

def sysEnvSetPgfaultUpcall (envid : EnvId) (upcall : Word) : User Word :=
  syscall true ⟨9#32, envid, upcall, 0#32, 0#32, 0#32⟩

-- The other registers are not set.
def exoforkCall (regs : PushRegs) : Call :=
  ⟨7#32, regs.edx, regs.ecx, regs.ebx, regs.edi, regs.esi⟩

end User

def uvpd : Word := uvpt + (uvpt >>> 12) * 4#32

def pteCow : Word := 0x800#32

-- The page number of the exception stack.
def uxstackPn : Word := (uxstacktop - pgsize) >>> 12

-- The message for page 979969 is left out: this page lies above `UTOP`, where `fork` finds none.
def duppage (envid : EnvId) (pn : Word) : User Unit := do
  let pgEntry ← User.load (uvpt + 4#32 * pn)
  let perm := pteP ||| pteU
  let perm := if has pgEntry pteW || has pgEntry pteCow then perm ||| pteCow else perm
  let r ← User.sysPageMap 0#32 (pn * pgsize) envid (pn * pgsize) perm
  if r.slt 0#32 then
    .stop
  else
    let r ← User.sysPageMap envid (pn * pgsize) 0#32 (pn * pgsize) perm
    if r ≠ 0#32 then
      .stop

-- `(i << 10) | j`.
def pageNo (i j : Ptx) : Word :=
  BitVec.ofNat 32 i <<< 10 ||| BitVec.ofNat 32 j

-- The bodies of the inner and of the outer loop of `fork`; `dup` is called for the pages found.
def forkPage (dup : Word → User Unit) (i j : Ptx) : User Unit := do
  let pn := pageNo i j
  if pn ≠ uxstackPn then
    let pte ← User.load (uvpt + 4#32 * pn)
    if has pte pteP then
      dup pn

def forkTable (dup : Word → User Unit) (i : Ptx) : User Unit := do
  let pde ← User.load (uvpd + 4#32 * BitVec.ofNat 32 i)
  if has pde pteP then
    (List.finRange 1024).forM (forkPage dup i)

def forkLoop (dup : Word → User Unit) : User Unit :=
  userPdxs.forM (forkTable dup)

-- `installed` is `_pgfault_handler != 0`, and `upcall` is `_pgfault_upcall`.
def setPgfaultHandler (thisenv : EnvIx) (installed : Bool) (upcall : Word) : User Unit := do
  if !installed then
    let id := (← User.env thisenv).id
    let r ← User.sysPageAlloc id (uxstacktop - pgsize) (pteU ||| pteP ||| pteW)
    if !r.slt 0#32 then
      discard <| User.sysEnvSetPgfaultUpcall id upcall

-- What the parent does before the child is made runnable.
def forkCopy (thisenv : EnvIx) (pid : EnvId) : User Unit := do
  forkLoop (duppage pid)
  let r ← User.sysPageAlloc pid (uxstacktop - pgsize) (pteW ||| pteU ||| pteP)
  if r.slt 0#32 then
    .stop
  else
    let upcall := (← User.env thisenv).pgfaultUpcall
    let r ← User.sysEnvSetPgfaultUpcall pid upcall
    if r ≠ 0#32 then
      .stop

-- `fork` after `sys_exofork` has returned `pid`. The result is what `fork` returns, and `thisenv` afterwards.
def forkRest (thisenv : EnvIx) (pid : EnvId) : User (EnvId × EnvIx) := do
  if (0#32).slt pid then
    forkCopy thisenv pid
    let r ← User.sysEnvSetStatus pid 2#32
    if r ≠ 0#32 then
      .stop
    else
      return (pid, thisenv)
  else
    let selfId ← User.sysGetenvid
    return (0#32, envx selfId)

-- `regs` are the registers with which `sys_exofork` is called.
def fork (thisenv : EnvIx) (installed : Bool) (upcall : Word) (regs : PushRegs) : User (EnvId × EnvIx) := do
  setPgfaultHandler thisenv installed upcall
  let pid ← .ask (.syscall (User.exoforkCall regs)) .done
  forkRest thisenv pid

end Jos
