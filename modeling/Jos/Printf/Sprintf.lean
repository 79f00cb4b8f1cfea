import Jos.Library.Bytes
import Jos.Printf.Printfmt
import Mathlib.Logic.Function.Basic

-- Output into a buffer (`vsnprintf` in lib/printfmt.c).

open Function Bytes

namespace Jos

def eInval : Word := 3#32

structure SprintBuf where
  buf  : Word
  ebuf : Word
  cnt  : Word := 0#32

def sprintputch (b : SprintBuf × Mem) (ch : Word) : SprintBuf × Mem :=
  let cnt := b.1.cnt + 1#32
  if b.1.buf < b.1.ebuf then
    ({ b.1 with buf := b.1.buf + 1#32, cnt }, update b.2 b.1.buf (ch.setWidth 8))
  else
    ({ b.1 with cnt }, b.2)

-- The format and the strings among the arguments are not in the buffer.
def vsnprintf (m : Mem) (buf n : Word) (fmt : List Byte) (ap : List Arg) : P (Word × Mem) := do
  let b : SprintBuf := { buf, ebuf := buf + n - 1#32 }
  if buf = 0#32 || n.slt 1#32 then
    return (-eInval, m)
  else
    let (b, m) := (← vprintfmt fmt ap).foldl sprintputch (b, m)
    return (b.cnt, update m b.buf 0#8)

end Jos
