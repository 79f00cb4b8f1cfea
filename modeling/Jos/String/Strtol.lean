import Jos.Printf.Printfmt

-- Reading numbers (lib/string.c).

namespace Jos

-- The value of a digit, of which there may be more than those of the base.
def digitValue (ch : Byte) : Option Word :=
  if isDigit ch then
    some (ch.toInt32 - (Byte.ofChar '0').toInt32)
  else if (Byte.ofChar 'a').sle ch && ch.sle (Byte.ofChar 'z') then
    some (ch.toInt32 - (Byte.ofChar 'a').toInt32 + 10#32)
  else if (Byte.ofChar 'A').sle ch && ch.sle (Byte.ofChar 'Z') then
    some (ch.toInt32 - (Byte.ofChar 'A').toInt32 + 10#32)
  else
    none

-- The loop over the digits: the value, and what is left of the string.
def strtolLoop (base : Word) : List Byte → Word → Word × List Byte
  | [], val => (val, [])
  | ch :: s, val =>
    match digitValue ch with
    | none => (val, ch :: s)
    | some dig => if base.sle dig then (val, ch :: s) else strtolLoop base s (val * base + dig)

def isBlank (ch : Byte) : Bool :=
  ch = Byte.ofChar ' ' || ch = Byte.ofChar '\t'

-- The string is given by its characters up to the NUL, which is where `endptr` points to if nothing is left.
def strtol (s : List Byte) (base : Word) : Word × List Byte :=
  let s := s.dropWhile isBlank
  let (s, neg) :=
    if s.headD 0#8 = Byte.ofChar '+' then
      (s.tail, false)
    else if s.headD 0#8 = Byte.ofChar '-' then
      (s.tail, true)
    else
      (s, false)
  let (s, base) :=
    if (base = 0#32 ∨ base = 16#32) ∧ s.headD 0#8 = Byte.ofChar '0' ∧ s.tail.headD 0#8 = Byte.ofChar 'x' then
      (s.tail.tail, 16#32)
    else if base = 0#32 ∧ s.headD 0#8 = Byte.ofChar '0' then
      (s.tail, 8#32)
    else if base = 0#32 then
      (s, 10#32)
    else
      (s, base)
  let (val, s) := strtolLoop base s 0#32
  (if neg then -val else val, s)

end Jos
