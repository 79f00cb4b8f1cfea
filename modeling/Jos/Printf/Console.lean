import Jos.Printf.Printfmt
import Mathlib.Logic.Function.Basic

-- `cprintf` in the kernel (kern/printf.c) and in user programs (lib/printf.c).

open Function

namespace Jos

-- What the devices show: `cons_putc` writes the low byte of its argument.
def shown (out : Output) : List Byte :=
  out.map (·.setWidth 8)

namespace Kernel

-- The characters on the console, and the number of characters counted so far. The statement `*cnt++` increments the
-- pointer and not what it points to.
def putch (b : Output × Word) (ch : Word) : Output × Word :=
  (b.1 ++ [ch], b.2)

def vcprintf (fmt : List Byte) (ap : List Arg) : P (Output × Word) := do
  return (← vprintfmt fmt ap).foldl putch ([], 0#32)

end Kernel

namespace User

-- `sys_cputs`, called for memory the program may read.
def sysCputs (s : List Byte) (len : Nat) : P Output := do
  return (← Kernel.vcprintf (bytes "%.*s") [.word (BitVec.ofNat 32 len), .str s]).1

structure PrintBuf where
  idx : Nat := 0
  cnt : Word := 0#32
  buf : Fin 256 → Byte

def putch (b : PrintBuf × Output) (ch : Word) : P (PrintBuf × Output) := do
  let buf := update b.1.buf (Fin.ofNat 256 b.1.idx) (ch.setWidth 8)
  let idx := b.1.idx + 1
  if idx = 256 - 1 then
    return ({ idx := 0, cnt := b.1.cnt + 1#32, buf }, b.2 ++ (← sysCputs (List.ofFn buf) idx))
  else
    return ({ idx, cnt := b.1.cnt + 1#32, buf }, b.2)

-- `buf` is what the buffer holds before anything has been stored in it.
def vcprintf (buf : Fin 256 → Byte) (fmt : List Byte) (ap : List Arg) : P (Output × Word) := do
  let (b, out) ← (← vprintfmt fmt ap).foldlM putch ({ buf }, [])
  return (out ++ (← sysCputs (List.ofFn b.buf) b.idx), b.cnt)

end User

end Jos
