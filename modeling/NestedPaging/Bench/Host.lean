import NestedPaging.Address

/-!
# Stand-ins for the host

`Pool` stands in for the host's allocator and knows blocks by handle only. Handles count the blocks
handed out so far, from 0. A limit on how many requests are still considered can be set and lifted.
A request for more memory than the host has uses one of them up as well.

`CleanLog` is a record of cleaned ranges.
-/

namespace NestedPaging

structure Pool where
  /-- handle and order of each block in use, oldest first -/
  live : List (Nat × Nat) := []
  /-- requests that are still considered -/
  budget : Option Nat := none
  /-- blocks handed out so far -/
  total : Nat := 0
  deriving DecidableEq, Inhabited

/-- what a request for a block comes to -/
inductive Grant where
  | block (handle : Nat)
  /-- there is no room for it -/
  | nothing
  /-- its size is not one that a block can have -/
  | badSize
  deriving DecidableEq

namespace Pool

/-- from this order on, a block and the room to align it pass half of what a word can count -/
def sizeOrder : Nat := 51

/-- the host's memory has fewer pages than a block of this order -/
def memoryOrder : Nat := 24

/-- hand out a block, if it fits -/
def take (p : Pool) (order : Nat) : Grant × Pool :=
  if p.budget = some 0 then (.nothing, p)
  else
    let p := { p with budget := p.budget.map (· - 1) }
    if sizeOrder ≤ order then (.badSize, p)
    else if memoryOrder ≤ order then (.nothing, p)
    else (.block p.total,
      { p with live := p.live ++ [(p.total, order)], total := p.total + 1 })

/-- take a block back, if it is in use with this order -/
def giveBack? (p : Pool) (handle order : Nat) : Option Pool :=
  if (handle, order) ∈ p.live then some { p with live := p.live.erase (handle, order) } else none

/-- consider only `n` more requests; the largest word stands for no limit -/
def limit (p : Pool) (n : Nat) : Pool :=
  { p with budget := if n = UInt64.size - 1 then none else some n }

def unlimited (p : Pool) : Pool := { p with budget := none }

/-- the handles of the blocks in use, ascending -/
def handles (p : Pool) : List Nat := p.live.map Prod.fst

end Pool

/-- the ranges that were cleaned, as address and length, oldest first -/
structure CleanLog where
  ranges : Array (PhysAddr × Nat) := #[]

namespace CleanLog

instance : Inhabited CleanLog := ⟨{}⟩

def clean (l : CleanLog) (a : PhysAddr) (len : Nat) : CleanLog := ⟨l.ranges.push (a, len)⟩

/-- did one request cover all `len` bytes from `a` up? -/
def covers (l : CleanLog) (a : PhysAddr) (len : Nat) : Bool :=
  l.ranges.any fun (b, n) => b.bits ≤ a.bits && a.bits.toNat + len ≤ b.bits.toNat + n

end CleanLog

end NestedPaging
