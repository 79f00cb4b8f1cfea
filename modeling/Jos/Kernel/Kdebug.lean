import Jos.Library.Bisect
import Jos.Printf.Printfmt

-- Debugging information from symbol tables (kern/kdebug.c).

open Bisect (Span)

namespace Jos

structure Stab where
  strx  : Word
  type  : Byte
  desc  : BitVec 16
  value : Word
  deriving DecidableEq, Inhabited

def nFun : Byte := 0x24#8
def nSline : Byte := 0x44#8
def nSo : Byte := 0x64#8
def nSol : Byte := 0x84#8
def nPsym : Byte := 0xA0#8

-- What can go wrong while the tables are searched.
inductive DebugError
  -- A read outside of the entries.
  | stabs
  -- A read outside of the strings.
  | strings
  -- The loops have not come to an end yet.
  | running
  deriving DecidableEq, Repr

abbrev D := Except DebugError

section Search

variable (stabs : List Stab)

-- `stabs[i]`. There are less than 2^31 entries, so the indices do not overflow.
def readStab (i : Int) : D Stab :=
  match i, stabs[i.toNat]? with
  | .ofNat _, some s => return s
  | _, _ => throw .stabs

-- `while (m >= l && stabs[m].n_type != type) m--`.
def scanDown (type : Byte) (l : Int) : Nat → Int → D Int
  | 0, _ => throw .running
  | n + 1, m => do
    if m < l then
      return m
    else if (← readStab stabs m).type ≠ type then
      scanDown type l n (m - 1)
    else
      return m

def searchLoop (type : Byte) : Nat → Word → Int → Int → Span → Bool → D (Span × Bool)
  | 0, _, _, _, _, _ => throw .running
  | n + 1, addr, l, r, g, anyMatches => do
    if r < l then
      return (g, anyMatches)
    else
      let trueM := (l + r).tdiv 2
      let m ← scanDown stabs type l ((trueM - l + 1).toNat + 1) trueM
      if m < l then
        searchLoop type n addr (trueM + 1) r g anyMatches
      else
        let value := (← readStab stabs m).value
        if value < addr then
          searchLoop type n addr (trueM + 1) r { g with left := m } true
        else if addr < value then
          searchLoop type n addr l (m - 1) { g with right := m - 1 } true
        else
          searchLoop type n (addr + 1#32) m r { g with left := m } true

def stabBinsearch (g : Span) (type : Byte) (addr : Word) : D Span := do
  let fuel := 2 * (g.right - g.left + 1).toNat + 1
  let (g, anyMatches) ← searchLoop stabs type fuel addr g.left g.right g false
  if anyMatches then
    -- Here the loop has the condition `l > *region_left`.
    return { g with left := ← scanDown stabs type (g.left + 1) ((g.right - g.left).toNat + 1) g.right }
  else
    return { g with right := g.left - 1 }

end Search

-- A pointer to a string: the built-in "<unknown>", or the string at an offset of the string table.
inductive StrPtr
  | unknown
  | stabstr (off : Nat)
  deriving DecidableEq

structure Eipdebuginfo where
  eipFile      : StrPtr
  eipLine      : Nat
  eipFnName    : StrPtr
  eipFnNamelen : Nat
  eipFnAddr    : Word
  eipFnNarg    : Nat
  deriving DecidableEq

-- The entries from `stabs` to `stab_end`, and the bytes from `stabstr` to `stabstr_end`.
structure Tables where
  stabs   : List Stab
  stabstr : List Byte

-- The number of characters in front of the first `c`, or of the NUL.
def strfind : List Byte → Byte → D Nat
  | [], _ => throw .strings
  | ch :: s, c => do
    if ch = 0#8 ∨ ch = c then
      return 0
    else
      return (← strfind s c) + 1

namespace Tables

variable (t : Tables)

-- The string with the index of an entry, unless the index is too large.
def string (s : Stab) (default : StrPtr) : StrPtr :=
  if s.strx.toNat < t.stabstr.length then .stabstr s.strx.toNat else default

def namelen : StrPtr → D Nat
  | .unknown => strfind (bytes "<unknown>" ++ [0#8]) (Byte.ofChar ':')
  | .stabstr off => strfind (t.stabstr.drop off) (Byte.ofChar ':')

-- Going backwards to the entry of a source file.
def fileLoop (lfile : Int) : Nat → Int → D Int
  | 0, _ => throw .running
  | n + 1, lline => do
    if lline < lfile then
      return lline
    else
      let s ← readStab t.stabs lline
      if s.type ≠ nSol ∧ (s.type ≠ nSo ∨ s.value = 0#32) then
        fileLoop lfile n (lline - 1)
      else
        return lline

-- Counting the arguments of the function.
def nargLoop (rfun : Int) : Nat → Int → D Nat
  | 0, _ => throw .running
  | n + 1, lline => do
    if lline < rfun then
      if (← readStab t.stabs lline).type = nPsym then
        return (← nargLoop rfun n (lline + 1)) + 1
      else
        return 0
    else
      return 0

-- The function around `addr`: the information, the address that is looked for from now on, and where.
def function (info : Eipdebuginfo) (file fn : Span) (addr : Word) : D (Eipdebuginfo × Word × Span) := do
  if fn.left ≤ fn.right then
    let s ← readStab t.stabs fn.left
    return ({ info with eipFnName := t.string s info.eipFnName, eipFnAddr := s.value }, addr - s.value, fn)
  else
    return ({ info with eipFnAddr := addr }, addr, file)

-- What is done when the line has been found.
def source (info : Eipdebuginfo) (file fn : Span) (lline : Int) : D Eipdebuginfo := do
  let info := { info with eipLine := (← readStab t.stabs lline).desc.toNat }
  let lline ← t.fileLoop file.left ((lline - file.left + 1).toNat + 1) lline
  let info ← if file.left ≤ lline then
      do pure { info with eipFile := t.string (← readStab t.stabs lline) info.eipFile }
    else
      pure info
  if fn.left < fn.right then
    return { info with eipFnNarg := ← t.nargLoop fn.right ((fn.right - fn.left).toNat + 1) (fn.left + 1) }
  else
    return info

def search (info : Eipdebuginfo) (addr : Word) : D (Int × Eipdebuginfo) := do
  if t.stabstr.getLast? ≠ some 0#8 then
    return (-1, info)
  else
    let file ← stabBinsearch t.stabs ⟨0, t.stabs.length - 1⟩ nSo addr
    if file.left = 0 then
      return (-1, info)
    else
      let fn ← stabBinsearch t.stabs file nFun addr
      let (info, addr, line) ← t.function info file fn addr
      let info := { info with eipFnNamelen := ← t.namelen info.eipFnName }
      let line ← stabBinsearch t.stabs line nSline addr
      if line.left = line.right then
        return (0, ← t.source info file fn line.left)
      else
        return (-1, info)

end Tables

-- The tables of the user program are those at `USTABDATA`. There are none if `user_mem_check` fails. If
-- `user_mem_assert` fails, the function does not return.
def debuginfoEip (kern : Tables) (user : Option Tables) (addr : Word) : D (Int × Eipdebuginfo) :=
  let info : Eipdebuginfo :=
    { eipFile := .unknown, eipLine := 0, eipFnName := .unknown, eipFnNamelen := 9, eipFnAddr := addr, eipFnNarg := 0 }
  match if addr ≥ ulim then some kern else user with
  | some t => t.search info addr
  | none => return (-1, info)

end Jos
