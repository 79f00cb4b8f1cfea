import Jos.Machine.Mmu

-- Formatted output (lib/printfmt.c), which the kernel and the user programs share.

namespace Jos

abbrev Byte := BitVec 8

def Byte.ofChar (c : Char) : Byte :=
  BitVec.ofNat 8 c.toNat

def bytes (s : String) : List Byte :=
  s.toList.map Byte.ofChar

-- The characters that are passed to `putch`.
abbrev Output := List Word

-- What the caller has pushed for the format: words, and pointers to strings. Behind the bytes of a string there is a
-- NUL.
inductive Arg
  | word (w : Word)
  | str (s : List Byte)
  deriving DecidableEq

-- What can go wrong while a format is printed.
inductive PrintError
  -- A read outside of the format.
  | format
  -- An argument is missing or is not of the type the format asks for.
  | args
  -- The loops have not come to an end yet.
  | running
  deriving DecidableEq, Repr

abbrev P := Except PrintError

-- `va_arg(ap, int)`, and the other types with 32 bits.
def vaWord : List Arg → P (Word × List Arg)
  | .word w :: ap => return (w, ap)
  | _ => throw .args

-- `va_arg(ap, long long)`.
def vaLongLong (ap : List Arg) : P (BitVec 64 × List Arg) := do
  let (lo, ap) ← vaWord ap
  let (hi, ap) ← vaWord ap
  return (hi ++ lo, ap)

-- `va_arg(ap, char *)`, for the case `%s`.
def vaString : List Arg → P (List Byte × List Arg)
  | .str s :: ap => return (s, ap)
  | .word w :: ap => if w = 0#32 then return (bytes "(null)", ap) else throw .args
  | [] => throw .args

def getuint (lflag : Nat) (ap : List Arg) : P (BitVec 64 × List Arg) := do
  if lflag ≥ 2 then
    vaLongLong ap
  else
    let (w, ap) ← vaWord ap
    return (w.setWidth 64, ap)

def getint (lflag : Nat) (ap : List Arg) : P (BitVec 64 × List Arg) := do
  if lflag ≥ 2 then
    vaLongLong ap
  else
    let (w, ap) ← vaWord ap
    return (w.signExtend 64, ap)

-- Characters are signed.
def Byte.toInt32 (ch : Byte) : Word :=
  ch.signExtend 32

-- `for (; width > 0; width--) putch(c, putdat)`.
def pad (width : Word) (c : Byte) : Output :=
  List.replicate width.toInt.toNat c.toInt32

def digit (d : Nat) : Word :=
  ((bytes "0123456789abcdef").getD d 0#8).toInt32

-- The first argument bounds the number of digits: a number with 64 bits has at most 64 of them.
def printnumLoop : Nat → Nat → Nat → Word → Byte → Output
  | 0, _, _, _, _ => []
  | n + 1, num, base, width, padc =>
    (if num ≥ base then printnumLoop n (num / base) base (width - 1#32) padc else pad (width - 1#32) padc) ++
      [digit (num % base)]

def printnum (num : BitVec 64) (base : Nat) (width : Word) (padc : Byte) : Output :=
  printnumLoop 64 num.toNat base width padc

def maxerror : Nat := 10

-- The strings in `error_string`.
def errorString : Nat → Option String
  | 1 => some "unspecified error"
  | 2 => some "bad environment"
  | 3 => some "invalid parameter"
  | 4 => some "out of memory"
  | 5 => some "out of environments"
  | 6 => some "segmentation fault"
  | 8 => some "env is not recving"
  | 9 => some "unexpected end of file"
  | _ => none

-- The state of an escape sequence.
structure Escape where
  padc      : Byte := Byte.ofChar ' '
  width     : Word := -1#32
  precision : Word := -1#32
  lflag     : Nat := 0
  altflag   : Bool := false

-- What follows the label `process_precision`.
def Escape.processPrecision (e : Escape) (precision : Word) : Escape :=
  if e.width.slt 0#32 then { e with width := precision, precision := -1#32 } else { e with precision }

-- Reads `*fmt`, where the format is given by its characters up to the NUL.
def readFmt (fmt : List Byte) (i : Nat) : P Byte :=
  if i < fmt.length then
    return fmt.getD i 0#8
  else if i = fmt.length then
    return 0#8
  else
    throw .format

def isDigit (ch : Byte) : Bool :=
  (Byte.ofChar '0').sle ch && ch.sle (Byte.ofChar '9')

-- The loop over the digits of a number: its value, and the number of digits.
def digits : List Byte → Word → Word × Nat
  | [], precision => (precision, 0)
  | ch :: fmt, precision =>
    if isDigit ch then
      let (precision, n) := digits fmt (precision * 10#32 + ch.toInt32 - (Byte.ofChar '0').toInt32)
      (precision, n + 1)
    else
      (precision, 0)

-- The loop of `reswitch`, up to the character that is not a flag: the escape sequence, this character, the position
-- after it and the arguments left.
def reswitch (fmt : List Byte) : Nat → Nat → Escape → List Arg → P (Escape × Byte × Nat × List Arg)
  | 0, _, _, _ => throw .running
  | n + 1, i, e, ap => do
    let ch ← readFmt fmt i
    if ch = Byte.ofChar '-' then
      reswitch fmt n (i + 1) { e with padc := Byte.ofChar '-' } ap
    else if ch = Byte.ofChar '0' then
      reswitch fmt n (i + 1) { e with padc := Byte.ofChar '0' } ap
    else if isDigit ch then
      let (precision, k) := digits (fmt.drop (i + 1)) (ch.toInt32 - (Byte.ofChar '0').toInt32)
      reswitch fmt n (i + 1 + k) (e.processPrecision precision) ap
    else if ch = Byte.ofChar '*' then
      let (precision, ap) ← vaWord ap
      reswitch fmt n (i + 1) (e.processPrecision precision) ap
    else if ch = Byte.ofChar '.' then
      reswitch fmt n (i + 1) (if e.width.slt 0#32 then { e with width := 0#32 } else e) ap
    else if ch = Byte.ofChar '#' then
      reswitch fmt n (i + 1) { e with altflag := true } ap
    else if ch = Byte.ofChar 'l' then
      reswitch fmt n (i + 1) { e with lflag := e.lflag + 1 } ap
    else
      return (e, ch, i + 1, ap)

-- The position `fmt` is moved back to when the escape sequence is not known.
def backToPercent (fmt : List Byte) : Nat → P Nat
  | 0 => throw .format
  | i + 1 => do
    if (← readFmt fmt i) = Byte.ofChar '%' then return i + 1 else backToPercent fmt i

def strnlen (s : List Byte) (size : Word) : Nat :=
  ((s.takeWhile (· ≠ 0#8)).take size.toNat).length

-- The loop over the characters of a string.
def strLoop (altflag : Bool) : List Byte → Word → Output
  | [], _ => []
  | ch :: p, precision =>
    let out := if altflag && (ch.slt (Byte.ofChar ' ') || (Byte.ofChar '~').slt ch) then
      (Byte.ofChar '?').toInt32 else ch.toInt32
    if ch = 0#8 then
      []
    else if precision.slt 0#32 then
      out :: strLoop altflag p precision
    else if (0#32).sle (precision - 1#32) then
      out :: strLoop altflag p (precision - 1#32)
    else
      []

def printString (e : Escape) (p : List Byte) : Output :=
  let right := (0#32).slt e.width && e.padc ≠ Byte.ofChar '-'
  let width := if right then e.width - BitVec.ofNat 32 (strnlen p e.precision) else e.width
  let str := strLoop e.altflag p e.precision
  -- The padding in front of the string brings the width down to zero.
  let rest := if right && (0#32).slt width then 0#32 else width
  (if right then pad width e.padc else []) ++ str ++ pad (rest - BitVec.ofNat 32 str.length) (Byte.ofChar ' ')

-- The cases of the characters that end an escape sequence; `printfmt` is for the messages of `%e`.
def convert (printfmt : List Byte → List Arg → P Output) (e : Escape) (ch : Byte) (ap : List Arg) :
    P (Option (Output × List Arg)) := do
  if ch = Byte.ofChar 'c' then
    let (w, ap) ← vaWord ap
    return some ([w], ap)
  else if ch = Byte.ofChar 'e' then
    let (w, ap) ← vaWord ap
    let err := if w.slt 0#32 then -w else w
    if (BitVec.ofNat 32 maxerror).sle err then
      return some (← printfmt (bytes "error %d") [.word err], ap)
    else
      -- The address of the entry has 32 bits, and the negation of the least number is negative.
      match errorString (err.toNat % 2 ^ 30) with
      | none => return some (← printfmt (bytes "error %d") [.word err], ap)
      | some p => return some (← printfmt (bytes "%s") [.str (bytes p)], ap)
  else if ch = Byte.ofChar 's' then
    let (p, ap) ← vaString ap
    return some (printString e p, ap)
  else if ch = Byte.ofChar 'd' then
    let (num, ap) ← getint e.lflag ap
    if num.slt 0#64 then
      return some ((Byte.ofChar '-').toInt32 :: printnum (-num) 10 e.width e.padc, ap)
    else
      return some (printnum num 10 e.width e.padc, ap)
  else if ch = Byte.ofChar 'u' then
    let (num, ap) ← getuint e.lflag ap
    return some (printnum num 10 e.width e.padc, ap)
  else if ch = Byte.ofChar 'o' then
    let (num, ap) ← getuint e.lflag ap
    return some (printnum num 8 e.width e.padc, ap)
  else if ch = Byte.ofChar 'p' then
    let (w, ap) ← vaWord ap
    return some ((Byte.ofChar '0').toInt32 :: (Byte.ofChar 'x').toInt32 ::
      printnum (w.setWidth 64) 16 e.width e.padc, ap)
  else if ch = Byte.ofChar 'x' then
    let (num, ap) ← getuint e.lflag ap
    return some (printnum num 16 e.width e.padc, ap)
  else if ch = Byte.ofChar '%' then
    return some ([ch.setWidth 32], ap)
  else
    return none

-- The outer loop, from the position `i` of the format on.
def vprintfmtLoop (printfmt : List Byte → List Arg → P Output) (fmt : List Byte) : Nat → Nat → List Arg → P Output
  | 0, _, _ => throw .running
  | n + 1, i, ap => do
    let ch ← readFmt fmt i
    if ch ≠ Byte.ofChar '%' then
      if ch = 0#8 then
        return []
      else
        return ch.setWidth 32 :: (← vprintfmtLoop printfmt fmt n (i + 1) ap)
    else
      let (e, ch, i, ap) ← reswitch fmt (fmt.length + 1) (i + 1) {} ap
      match ← convert printfmt e ch ap with
      | some (out, ap) => return out ++ (← vprintfmtLoop printfmt fmt n i ap)
      | none =>
        let i ← backToPercent fmt (i - 1)
        return (Byte.ofChar '%').toInt32 :: (← vprintfmtLoop printfmt fmt n i ap)

-- The messages of `%e` contain no `%e`.
def printfmt (fmt : List Byte) (ap : List Arg) : P Output :=
  vprintfmtLoop (fun _ _ => throw .running) fmt (fmt.length + 1) 0 ap

-- The characters that `vprintfmt` passes to its callback, one after the other.
def vprintfmt (fmt : List Byte) (ap : List Arg) : P Output :=
  vprintfmtLoop printfmt fmt (fmt.length + 1) 0 ap

end Jos
