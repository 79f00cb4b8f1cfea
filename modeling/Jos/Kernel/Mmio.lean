import Jos.Kernel.Boot

-- Device memory (kern/pmap.c).

namespace Jos

-- `addr` is the static variable `base`. What becomes of it is returned behind the address.
@[irreducible]
def mmioMapRegion (addr pa size : Word) : K (Word × Word) := do
  let roundedSize := roundUp size pgsize
  let base := addr + roundedSize
  if base > mmiolim then
    throw .panic
  else
    bootMapRegion (← get).kernPgdir addr roundedSize pa (ptePcd ||| ptePwt ||| pteW)
    return (addr, base)

end Jos
