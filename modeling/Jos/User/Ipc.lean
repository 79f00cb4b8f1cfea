import Jos.User.Fork

-- Messages between programs (lib/ipc.c).

namespace Jos

namespace User

def sysYield : User Word :=
  syscall false ⟨10#32, 0#32, 0#32, 0#32, 0#32, 0#32⟩

def sysIpcTrySend (envid : EnvId) (value srcva perm : Word) : User Word :=
  syscall false ⟨11#32, envid, value, srcva, perm, 0#32⟩

def sysIpcRecv (dstva : Word) : User Word :=
  syscall true ⟨12#32, dstva, 0#32, 0#32, 0#32, 0#32⟩

end User

-- What `ipc_recv` returns, and what it stores through the pointers that are not null.
structure Receipt where
  ret     : Word
  fromEnv : Option EnvId
  perm    : Option Word
  deriving DecidableEq

-- Reads a field of the environment, if there is a place to store it.
def User.envField (thisenv : EnvIx) (store : Bool) (f : Env → Word) : User (Option Word) :=
  if store then
    .ask (.env thisenv) fun v => .done (some (f v))
  else
    .done none

-- `fromEnvStore` and `permStore` say whether the pointers are not null. It is an error if the system call fails.
def ipcRecv (thisenv : EnvIx) (fromEnvStore : Bool) (pg : Word) (permStore : Bool) : User (Except Receipt Receipt) := do
  let pg := if pg = 0#32 then utop else pg
  let ret ← User.sysIpcRecv pg
  if ret.slt 0#32 then
    return .error ⟨ret, if fromEnvStore then some 0#32 else none, if permStore then some 0#32 else none⟩
  else
    let fromEnv ← User.envField thisenv fromEnvStore Env.ipcFrom
    let perm ← User.envField thisenv permStore Env.ipcPerm
    return .ok ⟨(← User.env thisenv).ipcValue, fromEnv, perm⟩

-- The loop of `ipc_send`, which tries at most `n` times.
def ipcSendLoop (toEnv : EnvId) (val pg perm : Word) : Nat → User Unit
  | 0 => .stop
  | n + 1 => do
    let ret ← User.sysIpcTrySend toEnv val pg perm
    if ret.slt 0#32 ∧ ret ≠ eipcnotrecv then
      .stop
    else if ret = 0#32 then
      return ()
    else
      discard <| User.sysYield
      ipcSendLoop toEnv val pg perm n

def ipcSend (toEnv : EnvId) (val pg perm : Word) (n : Nat) : User Unit :=
  let pg := if pg = 0#32 then utop else pg
  ipcSendLoop toEnv val pg perm n

end Jos
