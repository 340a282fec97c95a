import NestedPaging.Machine.Act

/-!
# 128-bit entries

Context, root and interrupt entries are pairs of words that a remapping unit reads with DMA. Bit 0
of the low word marks an entry present. Every write is cleaned to memory, and the order of the
stores keeps the unit from reading a present entry with halves of different writes.
-/

namespace NestedPaging

/-- an entry in memory -/
structure TableEntry where
  address : PhysAddr
  deriving DecidableEq

/-- the value of an entry -/
structure EntryWords where
  lo : Word
  hi : Word
  deriving DecidableEq

/-- bit 0 of the low word -/
def presentBit : Word := 1

/-- is an entry with the low word `lo` present? -/
def isPresentEntry (lo : Word) : Bool := lo &&& presentBit != 0

namespace TableEntry
variable {σ ε : Type}

/-- entry `i` of the table at `table` -/
def ofTable (table : PhysAddr) (i : Nat) : TableEntry := ⟨table.add (i * 16).toUInt64⟩

def hiAddress (e : TableEntry) : PhysAddr := e.address.add 8

def readWords (e : TableEntry) (memory : Memory) : EntryWords :=
  ⟨memory.read e.address, memory.read e.hiAddress⟩

def clean (e : TableEntry) (c : Cleaner) : Act σ ε Unit := Act.clean c e.address 16

/-- write a present entry, the present bit last -/
def set (e : TableEntry) (w : EntryWords) (c : Cleaner) : Act σ ε Unit := do
  Act.store e.hiAddress w.hi
  Act.store e.address w.lo
  e.clean c

/-- write a present entry over any other: a present one is first made absent and cleaned -/
def replace (e : TableEntry) (w : EntryWords) (c : Cleaner) : Act σ ε Unit := do
  if isPresentEntry (← Act.load e.address) then
    Act.store e.address 0
    e.clean c
  e.set w c

/-- make the entry absent, the present bit first -/
def clear (e : TableEntry) (c : Cleaner) : Act σ ε Unit := do
  Act.store e.address 0
  Act.store e.hiAddress 0
  e.clean c

/-- set the low word if it is still zero; the result is what was there -/
def publishLo (e : TableEntry) (lo : Word) (c : Cleaner) : Act σ ε Word := do
  let found ← Act.publish e.address 0 lo
  if found = 0 then e.clean c
  pure found

end TableEntry

end NestedPaging
