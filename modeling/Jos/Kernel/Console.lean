import Jos.Machine.State

-- The console input ring (kern/console.c).

open Function

namespace Jos

-- One iteration of `cons_intr`. The write position wraps at `CONSBUFSIZE`.
def Console.put (k : Console) (c : BitVec 8) : Console :=
  if c = 0 then k else { k with buf := update k.buf k.wpos c, wpos := k.wpos + 1 }

def serialIntr (k : Console) : Console :=
  { k.serial.foldl Console.put k with serial := [] }

def kbdIntr (k : Console) : Console :=
  { k.kbd.foldl Console.put k with kbd := [] }

def consGetc : K Word := do
  modify fun s => { s with cons := kbdIntr (serialIntr s.cons) }
  let k := (← get).cons
  if k.rpos ≠ k.wpos then
    modify fun s => { s with cons := { k with rpos := k.rpos + 1 } }
    return (k.buf k.rpos).setWidth 32
  else
    return 0#32

end Jos
