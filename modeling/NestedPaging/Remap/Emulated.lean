import NestedPaging.Machine.Memory
import NestedPaging.Remap.Basic
import NestedPaging.Remap.Ring
import Std.Data.HashMap

/-!
# An emulated remapping unit

`Emulated` is the register file of a unit together with what the unit does when registers are
written.

* Global commands complete at once. A write that triggers more than one of them is a violation.
* Queued descriptors are consumed from memory as soon as the tail is written, unless the unit is
  stalled.
* `acted` lists all that the unit acted on, oldest first.
-/

namespace NestedPaging

/-- what a unit can do, and where its movable registers lie (in bytes) -/
structure Capabilities where
  queued : Bool := true
  interrupts : Bool := true
  coherent : Bool := true
  faultRecords : Nat := 4
  /-- supported table depths: bit `n` stands for `n + 2` levels -/
  widths : Word := 0b0110
  faultOffset : Nat := 0x200
  iotlbOffset : Nat := 0x100

namespace Capabilities

/-- the capability register -/
def word (c : Capabilities) : Word :=
  (c.widths <<< 8) ||| ((c.faultOffset / 16).toUInt64 <<< 24)
    ||| ((c.faultRecords - 1).toUInt64 <<< 40)

/-- the extended capability register -/
def extendedWord (c : Capabilities) : Word :=
  Word.flag c.coherent 0 ||| Word.flag c.queued 1 ||| Word.flag c.interrupts 3
    ||| ((c.iotlbOffset / 16).toUInt64 <<< 8)

/-- the fault record that holds `offset`, and whether it is the upper word -/
def faultSlot? (c : Capabilities) (offset : Nat) : Option (Nat × Bool) :=
  if c.faultOffset ≤ offset ∧ offset < c.faultOffset + c.faultRecords * 16 then
    some ((offset - c.faultOffset) / 16, (offset - c.faultOffset) % 16 == 8)
  else none

end Capabilities

/-- a request that a unit acted on -/
inductive Request where
  | global (bit : UInt32)
  /-- a context-cache invalidation through the command register -/
  | context (scope : Nat) (domain : UInt16)
  /-- an IOTLB invalidation through the command register -/
  | iotlb (scope : Nat) (domain : UInt16)
  /-- a descriptor consumed from the queue -/
  | queued (d : Descriptor)
  deriving DecidableEq

def Request.text : Request → String
  | global bit => "global " ++ hex bit.toNat
  | context scope domain => "context " ++ toString scope ++ " " ++ hex domain.toNat
  | iotlb scope domain => "iotlb " ++ toString scope ++ " " ++ hex domain.toNat
  | queued d => "queued " ++ hex d.lo.toNat ++ " " ++ hex d.hi.toNat

structure Emulated where
  caps : Capabilities := {}
  /-- the global status register -/
  status : UInt32 := 0
  /-- registers that only keep what is written -/
  registers : Std.HashMap Nat Word := {}
  /-- the slot to consume next -/
  head : Nat := 0
  /-- the queue tail register -/
  tail : Word := 0
  stalled : Bool := false
  acted : Array Request := #[]
  violations : Nat := 0
  /-- the fault records, lower and upper word -/
  faults : Array (Word × Word) := #[]
  /-- the record that was written when none was pending -/
  firstFault : Nat := 0
  /-- fault status bits that stay until acknowledged -/
  faultEvents : UInt32 := 0

namespace Emulated

instance : Inhabited Emulated := ⟨{}⟩

def create (c : Capabilities) : Emulated :=
  { caps := c, faults := Array.replicate c.faultRecords (0, 0) }

def register (u : Emulated) (offset : Nat) : Word := u.registers.getD offset 0

def setRegister (u : Emulated) (offset : Nat) (v : Word) : Emulated :=
  { u with registers := u.registers.insert offset v }

def act (u : Emulated) (r : Request) : Emulated := { u with acted := u.acted.push r }

/-- the fault records that are not cleared yet -/
def pendingFaults (u : Emulated) : Nat := (u.faults.filter fun f => f.2.bit 63).size

/-- the fault status register -/
def faultStatus (u : Emulated) : UInt32 :=
  if u.faults.any fun f => f.2.bit 63 then
    u.faultEvents ||| FaultStatus.pending ||| (u.firstFault.toUInt32 <<< 8)
  else u.faultEvents

/-- the queue head register -/
def headRegister (u : Emulated) : Word := u.head.toUInt64 <<< 4

/-- one command of a global command write -/
def trigger (u : Emulated) (bit : UInt32) : Emulated :=
  let u := u.act (.global bit)
  { u with
    status := if bit &&& Command.oneShot != 0 then u.status ||| bit else u.status ^^^ bit
    head := if bit = Command.queuedInvalidation then 0 else u.head }

/-- the commands that writing `v` triggers: state bits that change and one-shot bits that are set -/
def triggered (u : Emulated) (v : UInt32) : List UInt32 :=
  Command.bits (((v ^^^ u.status) &&& Command.persistent) ||| (v &&& Command.oneShot))

def globalCommand (u : Emulated) (v : UInt32) : Emulated :=
  let commands := u.triggered v
  let u := if 1 < commands.length then { u with violations := u.violations + 1 } else u
  commands.foldl trigger u

/-- the descriptor in slot `i` of the queue at `base` -/
def descriptorAt (memory : Memory) (base : PhysAddr) (i : Nat) : Descriptor :=
  let slot := base.add (i * 16).toUInt64
  ⟨memory.read slot, memory.read (slot.add 8)⟩

/-- consume the next `n` descriptors of the queue at `base` -/
def consumeFrom (memory : Memory) (base : PhysAddr) : Nat → Emulated → Emulated
  | 0, u => u
  | n + 1, u =>
    let u := u.act (.queued (descriptorAt memory base u.head))
    consumeFrom memory base n { u with head := (u.head + 1) % ringSlots }

/-- consume all descriptors up to the tail, if the queue is on and the unit is not stalled -/
def consume (memory : Memory) (u : Emulated) : Emulated :=
  if u.stalled || u.status &&& Command.queuedInvalidation == 0 then u
  else
    let base : PhysAddr := ⟨u.register Register.queueAddress &&& ~~~0xfff⟩
    consumeFrom memory base ((slotOfPointer u.tail + ringSlots - u.head) % ringSlots) u

def stall (u : Emulated) : Emulated := { u with stalled := true }

/-- consume again, first what was published meanwhile -/
def release (memory : Memory) (u : Emulated) : Emulated :=
  consume memory { u with stalled := false }

def read32 (u : Emulated) (offset : Nat) : UInt32 :=
  if offset = Register.version then 0x10
  else if offset = Register.globalStatus then u.status
  else if offset = Register.faultStatus then u.faultStatus
  else (u.register offset).toUInt32

def read64 (u : Emulated) (offset : Nat) : Word :=
  if offset = Register.capability then u.caps.word
  else if offset = Register.extended then u.caps.extendedWord
  else match u.caps.faultSlot? offset with
    | some (i, upper) =>
      let record := u.faults.getD i (0, 0)
      if upper then record.2 else record.1
    | none =>
      if offset = Register.queueHead then u.headRegister
      else if offset = Register.queueTail then u.tail
      else u.register offset

def write32 (u : Emulated) (offset : Nat) (v : UInt32) : Emulated :=
  if offset = Register.globalCommand then u.globalCommand v
  else if offset = Register.faultStatus then
    { u with faultEvents :=
        u.faultEvents &&& ~~~(v &&& FaultStatus.events &&& ~~~FaultStatus.pending) }
  else u.setRegister offset v.toUInt64

def write64 (memory : Memory) (u : Emulated) (offset : Nat) (v : Word) : Emulated :=
  match u.caps.faultSlot? offset with
  | some (i, upper) =>
    if upper then
      { u with faults := u.faults.modify i fun f => (f.1, f.2 &&& ~~~(v &&& Word.single 63)) }
    else u
  | none =>
    if offset = Register.queueTail then consume memory { u with tail := v }
    else if offset = Register.contextCommand then
      (u.act (.context (v.field 61 2) v.toUInt16)).setRegister offset (v &&& ~~~Word.single 63)
    else if offset = u.caps.iotlbOffset + Register.iotlbCommand then
      (u.act (.iotlb (v.field 60 2) (v >>> 32).toUInt16)).setRegister offset
        (v &&& ~~~Word.single 63)
    else u.setRegister offset v

/-- latch `i` as the first fault if no other is pending -/
def latchFault (u : Emulated) (i : Nat) : Emulated :=
  if u.faults.any fun f => f.2.bit 63 then u else { u with firstFault := i }

/-- put a record into slot `i` -/
def recordFault (u : Emulated) (i : Nat) (address upper : Word) : Emulated :=
  { u with faults := u.faults.modify i fun _ => (address, upper) }

/-- raise fault status bits -/
def raise (u : Emulated) (bits : UInt32) : Emulated :=
  { u with faultEvents := u.faultEvents ||| bits }

/-- the descriptors consumed so far -/
def queuedDescriptors (u : Emulated) : List Descriptor :=
  u.acted.toList.filterMap fun
    | .queued d => some d
    | _ => none

end Emulated

end NestedPaging
