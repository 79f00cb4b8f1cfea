import Jos.Library.StringOps

-- Moving and setting memory (lib/string.c): with the string instructions of the x86, and the versions without them.

open Function Bytes Machine

namespace Jos

namespace Asm

def memset (v c n : Addr) (x : Machine) : Addr × Machine :=
  if n = 0#32 then
    (v, x)
  else if v.srem 4#32 = 0#32 ∧ n % 4#32 = 0#32 then
    let c := c &&& 0xFF#32
    let c := c <<< 24 ||| c <<< 16 ||| c <<< 8 ||| c
    (v, repeated (stosl c) 4#32 (n / 4#32).toNat v 0#32 x.cld)
  else
    (v, repeated (stosb c) 1#32 n.toNat v 0#32 x.cld)

def memmove (dst src n : Addr) (x : Machine) : Addr × Machine :=
  let s := src
  let d := dst
  if s < d ∧ s + n > d then
    let s := s + n
    let d := d + n
    if s.srem 4#32 = 0#32 ∧ d.srem 4#32 = 0#32 ∧ n % 4#32 = 0#32 then
      (dst, (repeated movsl 4#32 (n / 4#32).toNat (d - 4#32) (s - 4#32) x.std).cld)
    else
      (dst, (repeated movsb 1#32 n.toNat (d - 1#32) (s - 1#32) x.std).cld)
  else
    if s.srem 4#32 = 0#32 ∧ d.srem 4#32 = 0#32 ∧ n % 4#32 = 0#32 then
      (dst, repeated movsl 4#32 (n / 4#32).toNat d s x.cld)
    else
      (dst, repeated movsb 1#32 n.toNat d s x.cld)

end Asm

namespace Plain

-- `while (--m >= 0) *p++ = c`, for as many rounds as `m` says.
def memsetLoop (c : Addr) : Nat → Addr → Mem → Mem
  | 0, _, mem => mem
  | m + 1, p, mem => memsetLoop c m (p + 1#32) (update mem p (c.setWidth 8))

def memset (v c n : Addr) (mem : Mem) : Addr × Mem :=
  (v, memsetLoop c n.toInt.toNat v mem)

-- `while (n-- > 0) *--d = *--s`.
def moveDown : Nat → Addr → Addr → Mem → Mem
  | 0, _, _, mem => mem
  | n + 1, d, s, mem => moveDown n (d - 1#32) (s - 1#32) (update mem (d - 1#32) (mem (s - 1#32)))

-- `while (n-- > 0) *d++ = *s++`.
def moveUp : Nat → Addr → Addr → Mem → Mem
  | 0, _, _, mem => mem
  | n + 1, d, s, mem => moveUp n (d + 1#32) (s + 1#32) (update mem d (mem s))

def memmove (dst src n : Addr) (mem : Mem) : Addr × Mem :=
  let s := src
  let d := dst
  if s < d ∧ s + n > d then
    (dst, moveDown n.toNat (d + n) (s + n) mem)
  else
    (dst, moveUp n.toNat d s mem)

end Plain

end Jos
