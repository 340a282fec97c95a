import NestedPaging.Remap.Basic

/-!
# Rings of invalidation descriptors

A descriptor asks a remapping unit to drop cached context entries, mappings or interrupt
entries. The kind is in bits 3:0 of the low word, the scope in bits 5:4 and the domain in bits
31:16.

The descriptors stand in a ring of 256 slots between a head, where the unit consumes, and a tail,
where software appends. One slot stays free, so that equal pointers mean an empty ring.
-/

namespace NestedPaging

/-! ## descriptors -/

/-- how much an invalidation covers; descriptors and command registers share the numbers -/
inductive Scope where
  | global
  | domain
  | device
  deriving DecidableEq, Inhabited

namespace Scope

def code : Scope → Nat
  | global => 1
  | domain => 2
  | device => 3

def ofCode? : Nat → Option Scope
  | 1 => some global
  | 2 => some domain
  | 3 => some device
  | _ => none

end Scope

structure Descriptor where
  lo : Word
  hi : Word := 0
  deriving DecidableEq, Inhabited

namespace Descriptor

def contextKind : Nat := 1
def iotlbKind : Nat := 2
def interruptKind : Nat := 4

def make (kind scope : Nat) (domain : UInt16) : Descriptor :=
  { lo := kind.toUInt64 ||| (scope.toUInt64 <<< 4) ||| (domain.toUInt64 <<< 16) }

/-- drop cached context entries -/
def context (s : Scope) (domain : UInt16) : Descriptor := make contextKind s.code domain

/-- drop cached second-level mappings -/
def iotlb (s : Scope) (domain : UInt16) : Descriptor := make iotlbKind s.code domain

/-- drop every cached interrupt entry -/
def interruptEntries : Descriptor := make interruptKind 0 0

def kind (d : Descriptor) : Nat := d.lo.field 0 4
def scope (d : Descriptor) : Nat := d.lo.field 4 2
def domain (d : Descriptor) : UInt16 := (d.lo >>> 16).toUInt16

end Descriptor

/-! ## ring pointers -/

/-- the slots of a ring -/
def ringSlots : Nat := 256

/-- the software side of a ring -/
structure RingState where
  head : Nat := 0
  tail : Nat := 0
  deriving DecidableEq, Inhabited

namespace RingState

def isEmpty (r : RingState) : Bool := r.head == r.tail

def isFull (r : RingState) : Bool := (r.tail + 1) % ringSlots == r.head

/-- what the tail register holds -/
def tailRegister (r : RingState) : Word := r.tail.toUInt64 <<< 4

/-- move the head to `h`, which has to lie between head and tail, both included -/
def moveHead (r : RingState) (h : Nat) : Except RemapError RingState :=
  if ringSlots ≤ h ∨ (r.head ≤ r.tail ∧ (r.tail < h ∨ h < r.head))
      ∨ (r.tail < r.head ∧ r.tail < h ∧ h < r.head) then
    .error (.invalidQueuePointer h)
  else
    .ok { r with head := h }

/-- move the tail past the slot it points to -/
def advance (r : RingState) : RingState := { r with tail := (r.tail + 1) % ringSlots }

/-- how many descriptors wait between head and tail -/
def outstanding (r : RingState) : Nat := (r.tail + ringSlots - r.head) % ringSlots

end RingState

/-- the slot a head or tail register points to -/
def slotOfPointer (reg : Word) : Nat := reg.toNat / 16 % ringSlots

/-- does the slot just before `stop` lie between `head` and `tail`? -/
def isPending (stop head tail : Nat) : Bool :=
  (stop + (ringSlots - 1) + ringSlots - head) % ringSlots < (tail + ringSlots - head) % ringSlots

end NestedPaging
