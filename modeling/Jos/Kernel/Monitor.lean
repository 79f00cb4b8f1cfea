import Jos.Printf.Printfmt
import Mathlib.Logic.Function.Basic

-- The command interpreter of the kernel monitor (kern/monitor.c).

open Function

namespace Jos

-- `strchr` (lib/string.c): the rest of the string from the character on. Behind the list there is a NUL.
def strchr : List Byte → Byte → Option (List Byte)
  | [], _ => none
  | s@(ch :: s'), c => if ch = 0#8 then none else if ch = c then some s else strchr s' c

-- `strcmp` (lib/string.c).
def strcmp : List Byte → List Byte → Word
  | [], q => 0#32 - (q.headD 0#8).setWidth 32
  | ch :: p, q =>
    if ch ≠ 0#8 ∧ ch = q.headD 0#8 then strcmp p q.tail else ch.setWidth 32 - (q.headD 0#8).setWidth 32

def whitespace : List Byte :=
  bytes "\t\r\n "

def maxargs : Nat := 16

inductive RuncmdError
  -- An access behind the NUL of the buffer.
  | buf
  -- An access outside of `argv`.
  | argv
  -- The loops have not come to an end yet.
  | running
  deriving DecidableEq

abbrev R := Except RuncmdError

-- `text` is the buffer up to its NUL, `buf` the position of the pointer, and the elements of `argv` are positions as
-- well or null pointers.
structure Runcmd where
  text : List Byte
  buf  : Nat
  argc : Nat
  argv : Nat → Option Nat

namespace Runcmd

variable (k : Runcmd)

def read : R Byte :=
  if h : k.buf < k.text.length then return k.text[k.buf] else throw .buf

def clear : R Runcmd :=
  if k.buf < k.text.length then return { k with text := k.text.set k.buf 0#8 } else throw .buf

def setArg (p : Option Nat) : R Runcmd :=
  if k.argc < maxargs then return { k with argv := update k.argv k.argc p } else throw .argv

-- `while (*buf && strchr(WHITESPACE, *buf)) *buf++ = 0`.
def gobble : Nat → Runcmd → R Runcmd
  | 0, _ => throw .running
  | n + 1, k => do
    let ch ← k.read
    if ch ≠ 0#8 ∧ (strchr whitespace ch).isSome then
      let k ← k.clear
      gobble n { k with buf := k.buf + 1 }
    else
      return k

-- `while (*buf && !strchr(WHITESPACE, *buf)) buf++`.
def scan : Nat → Runcmd → R Runcmd
  | 0, _ => throw .running
  | n + 1, k => do
    let ch ← k.read
    if ch ≠ 0#8 ∧ (strchr whitespace ch).isNone then scan n { k with buf := k.buf + 1 } else return k

-- The loop over the arguments. The result is false if there are too many of them.
def parse : Nat → Runcmd → R (Bool × Runcmd)
  | 0, _ => throw .running
  | n + 1, k => do
    let k ← gobble (k.text.length + 1) k
    if (← k.read) = 0#8 then
      return (true, k)
    else if k.argc = maxargs - 1 then
      return (false, k)
    else
      let k ← k.setArg (some k.buf)
      parse n (← scan (k.text.length + 1) { k with argc := k.argc + 1 })

end Runcmd

inductive Ran
  | tooMany
  | nothing
  | command (i : Nat)
  | unknown
  deriving DecidableEq

-- The loop over `commands`, of which `names` are left: the function to be called is given by its index.
def lookup (arg : List Byte) : Nat → List (List Byte) → Ran
  | _, [] => .unknown
  | i, name :: names => if strcmp arg name = 0#32 then .command i else lookup arg (i + 1) names

-- Which function is called, and what it is called with.
def runcmd (commands : List (List Byte)) (text : List Byte) (argv : Nat → Option Nat) : R (Ran × Runcmd) := do
  let k ← Runcmd.setArg { text, buf := 0, argc := 0, argv } none
  let (few, k) ← k.parse (text.length + 1)
  if !few then
    return (.tooMany, k)
  else
    let k ← k.setArg none
    if k.argc = 0 then
      return (.nothing, k)
    else
      match k.argv 0 with
      | none => throw .buf
      | some p => return (lookup (k.text.drop p) 0 commands, k)

end Jos
