import NestedPaging.Remap.Emulated

/-!
# A unit on the bus

A `Device` is an emulated unit as the bus reaches it. Reads of an offset may be answered from a
list of words instead of by the unit, a stalled unit may be set to wake after a number of reads of
its queue head, and the accesses that are still allowed may be limited.
-/

namespace NestedPaging

structure Device where
  /-- the number that the trace shows -/
  label : Nat := 0
  unit : Emulated := {}
  /-- words that answer the next reads of an offset -/
  answers : Std.HashMap Nat (List Word) := {}
  /-- reads of the queue head that remain until a stalled unit wakes -/
  wakeAfter : Option Nat := none
  /-- accesses that may still be made, if they are limited -/
  allowance : Option Nat := none

namespace Device

instance : Inhabited Device := ⟨{}⟩

/-- answer the next reads of `offset` with `ws`, after the answers that wait already -/
def script (d : Device) (offset : Nat) (ws : List Word) : Device :=
  { d with answers := d.answers.alter offset fun old => some (old.getD [] ++ ws) }

/-- the word that waits to answer a read of `offset` -/
def nextAnswer? (d : Device) (offset : Nat) : Option Word := (d.answers.getD offset []).head?

def dropAnswer (d : Device) (offset : Nat) : Device :=
  { d with answers := d.answers.alter offset fun old => some (old.getD []).tail }

/-- stall the unit until the read of its queue head with the number `reads`, counted from 1 -/
def stall (d : Device) (reads : Nat) : Device :=
  { d with unit := d.unit.stall, wakeAfter := if reads = 0 then none else some reads }

def release (memory : Memory) (d : Device) : Device :=
  { d with unit := d.unit.release memory, wakeAfter := none }

/-- a read of `offset` is about to be answered -/
def noticeRead (memory : Memory) (d : Device) (offset : Nat) : Device :=
  if offset = Register.queueHead then
    match d.wakeAfter with
    | none => d
    | some n => if n ≤ 1 then d.release memory else { d with wakeAfter := some (n - 1) }
  else d

/-- what the unit acted on since it was `old` -/
def newActs (old d : Device) : List Request :=
  (d.unit.acted.extract old.unit.acted.size d.unit.acted.size).toList

end Device

end NestedPaging
