import Jos.Machine.Mmu
import Mathlib.Logic.Function.Basic

-- The console input ring with the positions as they are stored (kern/console.c).

open Function

namespace Jos

-- `buf` continues behind the array `cons.buf`.
structure Cons where
  buf  : Word → BitVec 8
  rpos : Word
  wpos : Word

namespace Cons

def put (k : Cons) (c : Word) : Cons :=
  let k := { k with buf := update k.buf k.wpos (c.setWidth 8), wpos := k.wpos + 1#32 }
  if k.wpos = 512#32 then { k with wpos := 0#32 } else k

-- `cons_intr`, where `proc` returns the characters `cs` one after the other and then -1.
def intr : List Word → Cons → Cons
  | [], k => k
  | c :: cs, k => if c = 0#32 then intr cs k else intr cs (k.put c)

def serialIntr (serialExists : Bool) (cs : List Word) (k : Cons) : Cons :=
  if serialExists then k.intr cs else k

def kbdIntr (cs : List Word) (k : Cons) : Cons :=
  k.intr cs

-- `serial` and `kbd` are the characters the devices have for `cons_intr`.
def getc (serialExists : Bool) (serial kbd : List Word) (k : Cons) : Word × Cons :=
  let k := (k.serialIntr serialExists serial).kbdIntr kbd
  if k.rpos ≠ k.wpos then
    let c := (k.buf k.rpos).setWidth 32
    let k := { k with rpos := k.rpos + 1#32 }
    (c, if k.rpos = 512#32 then { k with rpos := 0#32 } else k)
  else
    (0#32, k)

end Cons

end Jos
