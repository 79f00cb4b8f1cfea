import Jos.Kernel.Sched
import Jos.Kernel.Console

-- The system calls (kern/syscall.c).

namespace Jos

def einval : Word := -3#32
def eipcnotrecv : Word := -8#32

inductive Sysno
  | cputs
  | cgetc
  | getenvid
  | envDestroy
  | pageAlloc
  | pageMap
  | pageUnmap
  | exofork
  | envSetStatus
  | envSetPgfaultUpcall
  | yield
  | ipcTrySend
  | ipcRecv
  deriving DecidableEq, Repr

def Sysno.ofWord (no : Word) : Option Sysno :=
  [cputs, cgetc, getenvid, envDestroy, pageAlloc, pageMap, pageUnmap, exofork, envSetStatus,
    envSetPgfaultUpcall, yield, ipcTrySend, ipcRecv][no.toNat]?

-- The reads `cprintf("%.*s", len, s)` makes, one character at a time; a negative precision means
-- that there is none.
def cputsLoop (c : CpuIx) : Nat → Word → Int → K Unit
  | 0, _, _ => return
  | n + 1, p, precision => do
    let ch ← loadByte c p
    if ch = 0#8 then
      return
    else if precision < 0 then
      cputsLoop c n (p + 1#32) precision
    else if precision - 1 ≥ 0 then
      cputsLoop c n (p + 1#32) (precision - 1)
    else
      return

def sysCputs (c : CpuIx) (s len : Word) : K Unit := do
  let cur ← curenv c
  userMemAssert c cur s len pteU
  -- A null pointer is printed as "(null)".
  if s ≠ 0#32 then
    cputsLoop c (2 ^ 32) s len.toInt

def sysCgetc : K Word :=
  consGetc

def sysGetenvid (c : CpuIx) : K EnvId := do
  let cur ← curenv c
  return ((← get).envs cur).id

def sysEnvDestroy (c : CpuIx) (envid : EnvId) : K Word := do
  match ← envid2env c envid true with
  | none => return ebadenv
  | some e =>
    envDestroy c e
    return 0#32

def sysYield (c : CpuIx) : K Unit :=
  schedYield c

def sysExofork (c : CpuIx) : K Word := do
  let cur ← curenv c
  match ← envAlloc ((← get).envs cur).id with
  | .error ret => return ret
  | .ok child =>
    modify (·.setEnv child fun v => { v with status := .notRunnable })
    let tf := ((← get).envs cur).tf
    modify (·.setEnv child fun v => { v with tf := { tf with regs.eax := 0#32 } })
    return ((← get).envs child).id

-- The two statuses `sys_env_set_status` accepts, by their numbers.
def settableStatus (status : Word) : Option EnvStatus :=
  if status = 2#32 then some .runnable else if status = 4#32 then some .notRunnable else none

def sysEnvSetStatus (c : CpuIx) (envid : EnvId) (status : Word) : K Word := do
  match settableStatus status with
  | none => return einval
  | some st =>
    match ← envid2env c envid true with
    | none => return ebadenv
    | some e =>
      modify (·.setEnv e fun v => { v with status := st })
      return 0#32

def sysEnvSetPgfaultUpcall (c : CpuIx) (envid : EnvId) (func : Word) : K Word := do
  match ← envid2env c envid true with
  | none => return ebadenv
  | some e =>
    modify (·.setEnv e fun v => { v with pgfaultUpcall := func })
    return 0#32

-- `(int)va >= UTOP || ((int)va)%PGSIZE > 0`: the comparison is unsigned, the remainder is signed.
def badVa (va : Word) : Bool :=
  va ≥ utop || (0#32).slt (va.srem pgsize)

-- The value of C's `!w`.
def lnot (w : Word) : Word :=
  if w = 0#32 then 1#32 else 0#32

-- The test of the permission argument, which the system calls share. The mask of forbidden bits is
-- built with `!` rather than `~`.
def permOk (perm : Word) : Bool :=
  let none := lnot (pteU ||| pteP ||| pteAvail ||| pteW)
  has perm pteU && has perm pteP && !has perm none

def sysPageAlloc (c : CpuIx) (envid : EnvId) (va perm : Word) : K Word := do
  match ← envid2env c envid true with
  | none => return ebadenv
  | some proc =>
    if badVa va then
      return einval
    else if !permOk perm then
      return einval
    else
      match ← pageAlloc false with
      | none => return enomem
      | some pp =>
        let r ← pageInsert c (← envPgdir proc) pp va perm
        if r.slt 0#32 then
          pageFree pp
          return enomem
        else
          return 0#32

-- The end of `sys_page_map`, which `sys_ipc_try_send` repeats: `pp` was found through the entry `p`.
def mapShared (c : CpuIx) (dst : EnvIx) (pp : Ppn) (p : PtePtr) (dstva perm : Word) : K Word := do
  if !has ((← get).pte p) pteW && has perm pteW then
    return einval
  else
    let r ← pageInsert c (← envPgdir dst) pp dstva perm
    if r.slt 0#32 then
      return enomem
    else
      return 0#32

def sysPageMap (c : CpuIx) (srcenvid : EnvId) (srcva : Word) (dstenvid : EnvId) (dstva perm : Word) :
    K Word := do
  match ← envid2env c srcenvid true with
  | none => return ebadenv
  | some src =>
    match ← envid2env c dstenvid true with
    | none => return ebadenv
    | some dst =>
      if badVa srcva then
        return einval
      else if badVa dstva then
        return einval
      else if !permOk perm then
        return einval
      else
        match ← pageLookup (← envPgdir src) srcva with
        | none => return einval
        | some (pp, p) => mapShared c dst pp p dstva perm

def sysPageUnmap (c : CpuIx) (envid : EnvId) (va : Word) : K Word := do
  match ← envid2env c envid true with
  | none => return ebadenv
  | some proc =>
    if badVa va then
      return einval
    else
      pageRemove c (← envPgdir proc) va
      return 0#32

-- The page transfer of `sys_ipc_try_send`; the result is zero or an error code.
def ipcSendPage (c : CpuIx) (target : EnvIx) (srcva perm : Word) : K Word := do
  if roundDown srcva pgsize ≠ srcva then
    return einval
  else if !permOk perm then
    return einval
  else
    let pgdir ← envPgdir (← curenv c)
    let r ← userMemCheck pgdir srcva pgsize perm
    if r.slt 0#32 then
      return einval
    else
      match ← pageLookup pgdir srcva with
      | none => return einval
      | some (pp, p) => mapShared c target pp p ((← get).envs target).ipcDstva perm

-- Hands the message over and makes the target runnable.
def ipcDeliver (c : CpuIx) (target : EnvIx) (value perm : Word) : K Unit := do
  let id := ((← get).envs (← curenv c)).id
  modify (·.setEnv target fun v =>
    { v with
      ipcPerm := perm
      ipcRecving := false
      ipcFrom := id
      ipcValue := value
      tf.regs.eax := 0#32
      status := .runnable })

def sysIpcTrySend (c : CpuIx) (envid : EnvId) (value srcva perm : Word) : K Word := do
  match ← envid2env c envid false with
  | none => return ebadenv
  | some target =>
    let t := (← get).envs target
    if !t.ipcRecving then
      return eipcnotrecv
    else if srcva < utop ∧ t.ipcDstva < utop then
      let r ← ipcSendPage c target srcva perm
      if r.slt 0#32 then
        return r
      else
        ipcDeliver c target value perm
        return 0#32
    else
      ipcDeliver c target value 0#32
      return 0#32

def sysIpcRecv (c : CpuIx) (dstva : Word) : K Word := do
  if dstva < utop ∧ roundDown dstva pgsize ≠ dstva then
    return einval
  else
    let cur ← curenv c
    modify (·.setEnv cur fun v =>
      { v with
        ipcDstva := if dstva < utop then dstva else utop
        ipcRecving := true
        status := .notRunnable })
    sysYield c
    return 0#32

def syscall (c : CpuIx) (no a₁ a₂ a₃ a₄ a₅ : Word) : K Word := do
  match Sysno.ofWord no with
  | some .cputs =>
    sysCputs c a₁ a₂
    return no
  | some .cgetc => sysCgetc
  | some .getenvid => sysGetenvid c
  | some .envDestroy => sysEnvDestroy c a₁
  | some .yield =>
    sysYield c
    return 0#32
  | some .exofork => sysExofork c
  | some .envSetStatus => sysEnvSetStatus c a₁ a₂
  | some .pageAlloc => sysPageAlloc c a₁ a₂ a₃
  | some .pageMap => sysPageMap c a₁ a₂ a₃ a₄ a₅
  | some .pageUnmap => sysPageUnmap c a₁ a₂
  | some .envSetPgfaultUpcall => sysEnvSetPgfaultUpcall c a₁ a₂
  | some .ipcTrySend => sysIpcTrySend c a₁ a₂ a₃ a₄
  | some .ipcRecv => sysIpcRecv c a₁
  | none => return einval

-- The registers with which a system call is made.
structure Call where
  no : Word
  a₁ : Word
  a₂ : Word
  a₃ : Word
  a₄ : Word
  a₅ : Word

namespace Call

def sysno (k : Call) : Option Sysno :=
  Sysno.ofWord k.no

-- The permission argument, for the calls that have one.
def perm (k : Call) : Word :=
  match k.sysno with
  | some .pageAlloc  => k.a₃
  | some .pageMap    => k.a₅
  | some .ipcTrySend => k.a₄
  | _                => 0#32

def run (c : CpuIx) (k : Call) : K Word :=
  syscall c k.no k.a₁ k.a₂ k.a₃ k.a₄ k.a₅

end Call

end Jos
