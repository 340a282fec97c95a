import NestedPaging.Remap.Entry
import NestedPaging.Remap.Contexts

/-!
# The interrupt-remap table

One page of 256 entries. An entry routes an interrupt, accepted from one requester only, to a
vector of a processor. The low word holds the present bit, the trigger mode in bit 4, the vector in
bits 23:16 and the destination from bit 40 up; the high word holds the requester and asks the unit
to check it.
-/

namespace NestedPaging

/-- the entries of the table -/
def interruptEntries : Nat := 256

/-- where an interrupt goes -/
structure InterruptRoute where
  source : RequesterId
  /-- the interrupt controller of the target processor -/
  target : UInt32
  vector : UInt8
  levelTriggered : Bool
  deriving DecidableEq

/-- the entry that stands for a route -/
def InterruptRoute.words (r : InterruptRoute) : EntryWords :=
  { lo := (r.target.toUInt64 <<< 40) ||| (r.vector.toUInt64 <<< 16)
      ||| Word.flag r.levelTriggered 4 ||| presentBit
    hi := Word.single 18 ||| r.source.toUInt64 }

structure InterruptTable where
  base : PhysAddr
  cleaner : Cleaner
  deriving DecidableEq

namespace InterruptTable
variable {σ ε : Type}

/-- a table without any entry -/
def create (c : Cleaner) : Act σ RemapError InterruptTable := do
  let base ← Act.allocOr .insufficientMemory 0
  Act.clean c base 4096
  pure ⟨base, c⟩

/-- what the table address register holds; the size field 7 stands for 256 entries -/
def register (t : InterruptTable) : Word := t.base.bits ||| 7

/-- write entry `i` -/
def set (t : InterruptTable) (i : Nat) (r : InterruptRoute) : Act σ ε Unit := do
  if interruptEntries ≤ i then Act.refuse
  (TableEntry.ofTable t.base i).set r.words t.cleaner

/-- entry `i` -/
def entry (t : InterruptTable) (i : Nat) : Act σ ε EntryWords := do
  if interruptEntries ≤ i then Act.refuse
  Act.view fun m => (TableEntry.ofTable t.base i).readWords m.memory

/-- give the page back -/
def drop (t : InterruptTable) : Act σ ε Unit := Act.freePage t.base

end InterruptTable

end NestedPaging
