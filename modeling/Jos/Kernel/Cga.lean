import Jos.Machine.Mmu
import Mathlib.Logic.Function.Basic

-- Output to the console: the serial line, the parallel port and the text screen (kern/console.c).

open Function

namespace Jos

def crtRows : Nat := 25
def crtCols : Nat := 80
def crtSize : Nat := crtRows * crtCols

inductive CrtError
  -- A store outside of `crt_buf`.
  | bounds
  -- The calls have not come to an end yet.
  | running
  deriving DecidableEq

-- `cursor` is the position which the display has been told, and `serial` and `lpt` are what has been sent to the other
-- devices.
structure Crt where
  buf    : Nat → BitVec 16
  pos    : BitVec 16
  cursor : BitVec 16 := 0#16
  serial : List (BitVec 8) := []
  lpt    : List (BitVec 8) := []

namespace Crt

variable (k : Crt)

def serialPutc (c : Word) : Crt :=
  { k with serial := k.serial ++ [c.setWidth 8] }

def lptPutc (c : Word) : Crt :=
  { k with lpt := k.lpt ++ [c.setWidth 8] }

def store (i : Nat) (w : BitVec 16) : Except CrtError Crt :=
  if i < crtSize then return { k with buf := update k.buf i w } else throw .bounds

def carriageReturn : Crt :=
  { k with pos := k.pos - k.pos % BitVec.ofNat 16 crtCols }

-- The rows are moved up, and the last one is cleared.
def scroll : Crt :=
  if k.pos.toNat ≥ crtSize then
    { k with
      buf := fun i =>
        if i < crtSize - crtCols then k.buf (i + crtCols) else if i < crtSize then 0x0720#16 else k.buf i
      pos := k.pos - BitVec.ofNat 16 crtCols }
  else
    k

def moveCursor : Crt :=
  { k with cursor := k.pos }

end Crt

-- `cons_putc`, with the function in the place of `cga_putc`.
def consPutcWith (cgaPutc : Word → Crt → Except CrtError Crt) (c : Word) (k : Crt) : Except CrtError Crt :=
  cgaPutc c ((k.serialPutc c).lptPutc c)

-- Black on white, if no attribute is given.
def withAttribute (c : Word) : Word :=
  if c &&& ~~~0xFF#32 = 0#32 then c ||| 0x0700#32 else c

-- The first argument bounds how deep the calls are nested.
def cgaPutc : Nat → Word → Crt → Except CrtError Crt
  | 0, _, _ => throw .running
  | n + 1, c, k => do
    let c := withAttribute c
    let ch := c &&& 0xFF#32
    let k ←
      if ch = 0x08#32 then
        if k.pos > 0#16 then
          Crt.store { k with pos := k.pos - 1#16 } (k.pos - 1#16).toNat ((c &&& ~~~0xFF#32 ||| 0x20#32).setWidth 16)
        else
          pure k
      else if ch = 0x0A#32 then
        pure (Crt.carriageReturn { k with pos := k.pos + BitVec.ofNat 16 crtCols })
      else if ch = 0x0D#32 then
        pure k.carriageReturn
      else if ch = 0x09#32 then
        let k ← consPutcWith (cgaPutc n) 0x20#32 k
        let k ← consPutcWith (cgaPutc n) 0x20#32 k
        let k ← consPutcWith (cgaPutc n) 0x20#32 k
        let k ← consPutcWith (cgaPutc n) 0x20#32 k
        consPutcWith (cgaPutc n) 0x20#32 k
      else
        Crt.store { k with pos := k.pos + 1#16 } k.pos.toNat (c.setWidth 16)
    return k.scroll.moveCursor

-- A tab calls `cga_putc` for a space.
def consPutc : Word → Crt → Except CrtError Crt :=
  consPutcWith (cgaPutc 2)

end Jos
