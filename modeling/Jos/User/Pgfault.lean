import Jos.User.Fork

-- The page fault handler of `fork` (lib/fork.c), with the functions of the user library it calls (lib/string.c,
-- lib/syscall.c). Other than `fork`, it writes to memory.

open Client

namespace Jos

inductive HandlerOp
  | user (q : UserOp)
  -- Writes a word.
  | store (va w : Word)
  | loadByte (va : Word)
  | storeByte (va : Word) (b : BitVec 8)

abbrev HandlerOp.Result : HandlerOp → Type
  | user q        => q.Result
  | store _ _     => Unit
  | loadByte _    => BitVec 8
  | storeByte _ _ => Unit

abbrev Handler := Prog HandlerOp HandlerOp.Result

-- What the environment `a` gets to see, and what it can do to its memory. Nothing happens in between.
def handlerServer (a : EnvIx) : Server HandlerOp HandlerOp.Result Kernel where
  Answers
    | .user q, s, r, s'         => (userServer a ⟨true, false⟩ Eq).Answers q s r s'
    | .store va w, s, _, s'     => ∃ pd p, s.pgdirOf a = some pd ∧ s.translate pd va ⟨true, true⟩ = some p ∧
        s' = s.setMem p (wordIx va) w
    | .loadByte va, s, r, s'    => ∃ pd p, s.pgdirOf a = some pd ∧ s.translate pd va ⟨true, false⟩ = some p ∧
        r = s.byteAt p va ∧ s' = s
    | .storeByte va b, s, _, s' => ∃ pd p, s.pgdirOf a = some pd ∧ s.translate pd va ⟨true, true⟩ = some p ∧
        s' = s.setByteAt p va b
  Moves := Eq

namespace Handler

def load (va : Word) : Handler Word :=
  .ask (.user (.load va)) .done

def store (va w : Word) : Handler Unit :=
  .ask (.store va w) .done

def loadByte (va : Word) : Handler (BitVec 8) :=
  .ask (.loadByte va) .done

def storeByte (va : Word) (b : BitVec 8) : Handler Unit :=
  .ask (.storeByte va b) .done

def syscall (check : Bool) (k : Call) : Handler Word :=
  .ask (.user (.syscall k)) fun (ret : Word) => if check && (0#32).slt ret then .stop else .done ret

def sysPageAlloc (envid : EnvId) (va perm : Word) : Handler Word :=
  syscall true ⟨4#32, envid, va, perm, 0#32, 0#32⟩

def sysPageMap (srcenv : EnvId) (srcva : Word) (dstenv : EnvId) (dstva perm : Word) : Handler Word :=
  syscall true ⟨5#32, srcenv, srcva, dstenv, dstva, perm⟩

def sysPageUnmap (envid : EnvId) (va : Word) : Handler Word :=
  syscall true ⟨6#32, envid, va, 0#32, 0#32, 0#32⟩

def movsl (edi esi : Word) : Handler Unit := do
  store edi (← load esi)

def movsb (edi esi : Word) : Handler Unit := do
  storeByte edi (← loadByte esi)

-- `op` with a `rep` prefix, `n` times; `%edi` and `%esi` advance by `w` bytes.
def rep (op : Word → Word → Handler Unit) (w : Word) : Nat → Word → Word → Handler Unit
  | 0, _, _ => pure ()
  | n + 1, edi, esi => do
    op edi esi
    rep op w n (edi + w) (esi + w)

def memmove (dst src n : Word) : Handler Unit :=
  let s := src
  let d := dst
  if s < d ∧ s + n > d then
    let s := s + n
    let d := d + n
    -- The direction flag is set.
    if s.srem 4#32 = 0#32 ∧ d.srem 4#32 = 0#32 ∧ n % 4#32 = 0#32 then
      rep movsl (-4#32) (n / 4#32).toNat (d - 4#32) (s - 4#32)
    else
      rep movsb (-1#32) n.toNat (d - 1#32) (s - 1#32)
  else
    if s.srem 4#32 = 0#32 ∧ d.srem 4#32 = 0#32 ∧ n % 4#32 = 0#32 then
      rep movsl 4#32 (n / 4#32).toNat d s
    else
      rep movsb 1#32 n.toNat d s

end Handler

-- The bit of the error code for a write.
def fecWr : Word := 0x2#32

-- `PGNUM`.
def pageNum (va : Word) : Word :=
  va >>> 12

-- `faultVa` and `err` are those of the trap frame. The results of the system calls are not looked at.
def pgfault (faultVa err : Word) : Handler Unit := do
  if !has err fecWr then
    .stop
  else
    let pte ← Handler.load (uvpt + 4#32 * pageNum faultVa)
    if !has pte pteCow then
      .stop
    else
      let pgAddr := pageNum faultVa * pgsize
      discard <| Handler.sysPageAlloc 0#32 pftemp (pteP ||| pteU ||| pteW)
      Handler.memmove pftemp pgAddr pgsize
      discard <| Handler.sysPageMap 0#32 pftemp 0#32 pgAddr (pteU ||| pteP ||| pteW)
      discard <| Handler.sysPageUnmap 0#32 pftemp

end Jos
