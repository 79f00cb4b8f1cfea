import Jos.Printf.Printfmt

-- The pieces of a format, and the arguments that they ask for.

namespace Jos

-- The characters that may stand between `%` and the character that ends the escape sequence.
def isFlag (ch : Byte) : Bool :=
  isDigit ch || ch ∈ bytes "-*.#l"

-- The characters that end the escape sequences which are known.
def conversions : List Byte :=
  bytes "cesduopx%"

-- The last character of an escape sequence is missing if the format ends before it.
inductive Piece
  | char (ch : Byte)
  | escape (flags : List Byte) (ch : Option Byte)
  deriving DecidableEq

-- The pieces of a format from the given position on. Inside of an escape sequence the first argument is what has been
-- read of it.
def piecesFrom : Option (List Byte) → List Byte → List Piece
  | none, [] => []
  | none, ch :: fmt => if ch = Byte.ofChar '%' then piecesFrom (some []) fmt else .char ch :: piecesFrom none fmt
  | some flags, [] => [.escape flags none]
  | some flags, ch :: fmt =>
    if isFlag ch then piecesFrom (some (flags ++ [ch])) fmt else .escape flags (some ch) :: piecesFrom none fmt

def pieces (fmt : List Byte) : List Piece :=
  piecesFrom none fmt

inductive Kind
  | word
  | str

-- The arguments for the character that ends an escape sequence.
def conversionAsks (lflag : Nat) (ch : Byte) : List Kind :=
  if ch ∈ bytes "cep" then [.word]
  else if ch ∈ bytes "duox" then if lflag ≥ 2 then [.word, .word] else [.word]
  else if ch = Byte.ofChar 's' then [.str]
  else []

-- The arguments for the widths and precisions.
def stars (flags : List Byte) : List Kind :=
  List.replicate (flags.count (Byte.ofChar '*')) .word

namespace Piece

def text : Piece → List Byte
  | char ch => [ch]
  | escape flags ch => Byte.ofChar '%' :: flags ++ ch.toList

def asks : Piece → List Kind
  | char _ => []
  | escape flags none => stars flags
  | escape flags (some ch) => stars flags ++ conversionAsks (flags.count (Byte.ofChar 'l')) ch

structure Valid (flags : List Byte) (ch : Option Byte) : Prop where
  flags : ∀ c ∈ flags, isFlag c
  last  : ∀ c ∈ ch, ¬isFlag c

def WellFormed : Piece → Prop
  | char ch => ch ≠ Byte.ofChar '%'
  | escape flags ch => Valid flags ch

-- An escape sequence that is not known is printed as it stands in the format, like an ordinary character.
def Literal : Piece → Prop
  | char _ => True
  | escape _ ch => ∀ c ∈ ch, c ∉ conversions

def Shows (p : Piece) (out : Output) : Prop :=
  p.Literal → out = p.text.map (·.setWidth 32)

end Piece

-- The arguments begin with ones of the given kinds. A pointer to a string may be NULL.
def Supplied : List Kind → List Arg → Prop
  | [], _ => True
  | .word :: ks, .word _ :: ap => Supplied ks ap
  | .str :: ks, .str _ :: ap => Supplied ks ap
  | .str :: ks, .word w :: ap => w = 0#32 ∧ Supplied ks ap
  | _, _ => False

end Jos
