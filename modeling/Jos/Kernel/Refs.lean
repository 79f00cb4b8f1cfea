import Jos.Kernel.Env
import Jos.Library.RefCount
import Jos.Library.Linked
import Mathlib.Data.Fintype.Sigma
import Mathlib.Data.Fintype.Sum
import Mathlib.Tactic.DeriveFintype

-- Who refers to which physical page, and the invariant of the page allocator.

open Function RefCount

namespace Jos

-- The places that hold a counted reference to a page: an entry of a page table or of a page
-- directory of an environment, an entry of the kernel's page directory, and the page directory
-- itself.
inductive Ref
  | pte   (e : EnvIx) (i j : Ptx)
  | pde   (e : EnvIx) (i : Ptx)
  | kpde  (i : Ptx)
  | pgdir (e : EnvIx)
  deriving DecidableEq, Fintype

-- References that make a page part of the translation structure.
def Ref.IsTable : Ref → Prop
  | pte .. => False
  | _      => True

namespace Kernel

variable (s : Kernel)

-- The page directory of a live environment.
def pgdirOf (e : EnvIx) : Option Ppn :=
  if (s.envs e).status = .free then none else (s.envs e).pgdir

def tableOf (e : EnvIx) (i : Ptx) : Option Ppn :=
  (s.pgdirOf e).bind (s.table · i)

-- The page table entry of a live environment for the page with the given indices.
def pteOf (e : EnvIx) (i j : Ptx) : Word :=
  (s.tableOf e i).elim 0#32 (s.mem · j)

-- The page a reference refers to. Only the part of an address space below `UTOP` counts.
def target : Ref → Option Ppn
  | .pte e i j => if i.val < pdxUtop then entryPage (s.pteOf e i j) else none
  | .pde e i   => if i.val < pdxUtop then s.tableOf e i else none
  | .kpde i    => s.table s.kernPgdir i
  | .pgdir e   => s.pgdirOf e

-- The number of references to a page.
def refs (p : Ppn) : Nat :=
  RefCount.refs s.target p

-- `l` is the list of pages which starts at `page_free_list`.
def FreeList (l : List Ppn) : Prop :=
  Linked.Chain (fun p => (s.pages p).link) s.pageFreeList l

instance (l : List Ppn) : Decidable (s.FreeList l) :=
  inferInstanceAs (Decidable (Linked.Chain _ _ _))

end Kernel

-- The invariant of the allocator for the pages `M` it manages, while the pages in `F` have been
-- taken off the list but are not mapped yet. `l` is the free list.
structure PageInv (M F : Set Ppn) (l : List Ppn) (s : Kernel) : Prop where
  chain    : s.FreeList l
  pool     : Pool M F s.target (fun p => (s.pages p).ref.toNat) l
  link     : ∀ {p}, p ∈ M → p ∉ l → (s.pages p).link = none
  bound    : ∀ {p}, p ∈ M → p.toNat < s.npages
  owned    : ∀ {r p}, s.target r = some p → p ∈ M ∨ (r = .kpde (pdx uvpt) ∧ p = s.kernPgdir)
  unique   : ∀ {r r' p}, r.IsTable → s.target r = some p → s.target r' = some p → r = r'
  kern     : s.kernPgdir ∉ M
  kernUser : ∀ {i}, i.val < pdxUtop → s.target (.kpde i) = none
  dir      : ∀ {e}, (s.envs e).status = .free ↔ (s.envs e).pgdir = none

end Jos
