import NestedPaging.Machine.Act

/-!
# The invalidation queue

A ring of descriptors in one page of memory. Software appends at the tail, the unit consumes at
the head. The pointers lie in a cell of the machine, since several processors submit to one queue.
-/

namespace NestedPaging

structure InvalidationQueue where
  /-- the cell that keeps the pointers -/
  cell : Nat
  base : PhysAddr
  deriving DecidableEq

namespace InvalidationQueue
variable {σ ε : Type}

/-- an empty queue in the page at `base` -/
def create (base : PhysAddr) : Act σ ε InvalidationQueue := fun _ m =>
  let (cell, rings) := m.rings.fresh {}
  .ok ⟨cell, base⟩ { m with rings }

def state (q : InvalidationQueue) (m : Machine σ) : RingState := m.rings.get q.cell

def pointers (q : InvalidationQueue) : Act σ ε RingState := Act.view q.state

/-- the address of slot `i` -/
def slotAddress (q : InvalidationQueue) (i : Nat) : PhysAddr := q.base.add (i * 16).toUInt64

/-- the descriptor in slot `i` -/
def descriptor (q : InvalidationQueue) (memory : Memory) (i : Nat) : Descriptor :=
  ⟨memory.read (q.slotAddress i), memory.read ((q.slotAddress i).add 8)⟩

/-- take `head`, as the unit reports it, for the head -/
def moveHead (q : InvalidationQueue) (head : Nat) : Act σ RemapError Unit := do
  let r ← q.pointers
  let r ← Act.ofExcept (r.moveHead head)
  Act.change fun m => { m with rings := m.rings.modify q.cell fun _ => r }

/-- append a descriptor, if there is room -/
def push (q : InvalidationQueue) (d : Descriptor) : Act σ RemapError Unit := do
  let r ← q.pointers
  if r.isFull then Act.fail .queueFull
  let slot := q.slotAddress r.tail
  Act.store slot d.lo
  Act.store (slot.add 8) d.hi
  Act.change fun m => { m with rings := m.rings.modify q.cell (·.advance) }

/-- the descriptors from `i` on, `n` of them around the ring -/
def descriptorsFrom (q : InvalidationQueue) (memory : Memory) (i : Nat) : Nat → List Descriptor
  | 0 => []
  | n + 1 => q.descriptor memory i :: descriptorsFrom q memory ((i + 1) % ringSlots) n

/-- the descriptors that wait to be consumed, oldest first -/
def waiting (q : InvalidationQueue) (m : Machine σ) : List Descriptor :=
  q.descriptorsFrom m.memory (q.state m).head (q.state m).outstanding

end InvalidationQueue

end NestedPaging
