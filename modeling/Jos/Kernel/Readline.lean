import Jos.Printf.Console

-- Reading a line from the console (lib/readline.c).

open Function

namespace Jos

def buflen : Nat := 1024

inductive ReadlineError
  -- A store outside of `buf`.
  | bounds
  -- `getchar` has not returned yet.
  | waiting
  | print (e : PrintError)

-- `buf` continues behind the array, and `out` is what has been written to the console.
structure Readline where
  buf : Nat → Byte
  i   : Nat
  out : Output

namespace Readline

variable (k : Readline)

def store (ch : Byte) : Except ReadlineError Readline :=
  if k.i < buflen then return { k with buf := update k.buf k.i ch } else throw .bounds

def cputchar (echoing : Bool) (c : Word) : Readline :=
  if echoing then { k with out := k.out ++ [c] } else k

def cprintf (fmt : List Byte) (ap : List Arg) : Except ReadlineError Readline := do
  let (out, _) ← (Kernel.vcprintf fmt ap).mapError .print
  return { k with out := k.out ++ out }

end Readline

-- The list has what `getchar` returns, one call after the other. The result is false for a null pointer, and true for
-- the pointer to `buf`.
def readlineLoop (echoing : Bool) : List Word → Readline → Except ReadlineError (Bool × Readline)
  | [], _ => throw .waiting
  | c :: cs, k =>
    if c.slt 0#32 then do
      return (false, ← k.cprintf (bytes "read error: %e\n") [.word c])
    else if (c = 0x08#32 ∨ c = 0x7F#32) ∧ k.i > 0 then
      readlineLoop echoing cs { k.cputchar echoing 0x08#32 with i := k.i - 1 }
    else if (0x20#32).sle c ∧ k.i < buflen - 1 then do
      let k ← (k.cputchar echoing c).store (c.setWidth 8)
      readlineLoop echoing cs { k with i := k.i + 1 }
    else if c = 0x0A#32 ∨ c = 0x0D#32 then do
      return (true, ← (k.cputchar echoing 0x0A#32).store 0#8)
    else
      readlineLoop echoing cs k

def readline (echoing : Bool) (prompt : Option (List Byte)) (cs : List Word) (buf : Nat → Byte) :
    Except ReadlineError (Bool × Readline) := do
  let k : Readline := { buf, i := 0, out := [] }
  match prompt with
  | none => readlineLoop echoing cs k
  | some p => readlineLoop echoing cs (← k.cprintf (bytes "%s") [.str p])

end Jos
