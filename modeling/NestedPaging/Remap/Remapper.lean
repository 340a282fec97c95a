import NestedPaging.Machine.Act
import NestedPaging.Remap.Bus
import NestedPaging.Remap.Queue

/-!
# Remapping units

A remapper drives one unit through its registers. Global commands are issued one at a time, each
until the status register shows it. Invalidations go through the queue if there is one, and
through the command registers otherwise; either way they return when the unit is done.
-/

namespace NestedPaging

structure Remapper where
  /-- the physical address of the registers -/
  base : Word
  registers : RegisterFile
  /-- the capability register -/
  capability : Word
  /-- the extended capability register -/
  extended : Word
  /-- there if invalidations go through it -/
  queue : Option InvalidationQueue
  cleaner : Cleaner
  deriving DecidableEq

namespace Remapper
variable {σ ε : Type}

/-- does the unit snoop caches when it walks tables? -/
def isCoherent (u : Remapper) : Bool := u.extended.bit 0

def remapsInterrupts (u : Remapper) : Bool := u.extended.bit 3

def isQueued (u : Remapper) : Bool := u.queue.isSome

/-- does the unit walk tables of so many levels? -/
def supportsLevels (u : Remapper) (levels : Nat) : Bool :=
  2 ≤ levels && levels ≤ 6 && u.capability.bit (8 + (levels - 2))

/-- the number of fault records -/
def faultRecords (u : Remapper) : Nat := u.capability.field 40 8 + 1

/-- where fault record `i` is -/
def faultOffset (u : Remapper) (i : Nat) : Nat := u.capability.field 24 10 * 16 + i * 16

/-- where the IOTLB command register is -/
def iotlbOffset (u : Remapper) : Nat := u.extended.field 8 10 * 16 + Register.iotlbCommand

/-- the unit at `base`; it takes a page for its queue if it is to have one and can -/
def create (base : Word) (registers : RegisterFile) (queued : Bool) (cleaner : Cleaner) :
    Act σ RemapError Remapper := do
  let capability ← registers.read64 Register.capability
  let extended ← registers.read64 Register.extended
  if !capability.bit 10 then Act.fail .missingLevels
  let queue ← if queued && extended.bit 1 then do
      let page ← Act.allocOr .insufficientMemory 0
      pure (some (← InvalidationQueue.create page))
    else pure none
  pure ⟨base, registers, capability, extended, queue, cleaner⟩

/-- give the queue page back -/
def drop (u : Remapper) : Act σ ε Unit :=
  match u.queue with
  | some q => Act.freePage q.base
  | none => pure ()

/-- issue the global command `bit` and wait until it is done. One-shot bits of the status are not
written back, since that would trigger them again. -/
def command (u : Remapper) (bit : UInt32) : Act σ ε Unit := do
  if (Command.bits bit).length ≠ 1 then Act.refuse
  let status ← u.registers.read32 Register.globalStatus
  u.registers.write32 Register.globalCommand ((status &&& ~~~Command.oneShot) ||| bit)
  let _ ← Act.poll (u.registers.read32 Register.globalStatus) fun s => s &&& bit != 0

/-- wait for a free slot, taking the unit's word for the head -/
def awaitRoom (u : Remapper) (q : InvalidationQueue) : Nat → Act σ RemapError Unit
  | 0 => Act.stuck
  | tries + 1 => do
    if (← q.pointers).isFull then
      q.moveHead (slotOfPointer (← u.registers.read64 Register.queueHead))
      awaitRoom u q tries

/-- append `d` and publish the tail -/
def append (u : Remapper) (q : InvalidationQueue) (d : Descriptor) : Act σ RemapError Unit := do
  Act.withPatience (u.awaitRoom q)
  let slot := q.slotAddress (← q.pointers).tail
  q.push d
  Act.clean u.cleaner slot 16
  u.registers.write64 Register.queueTail (← q.pointers).tailRegister

/-- the slots that the head and tail registers point to -/
def readPointers (u : Remapper) : Act σ ε (Nat × Nat) := do
  let head ← u.registers.read64 Register.queueHead
  let tail ← u.registers.read64 Register.queueTail
  pure (slotOfPointer head, slotOfPointer tail)

/-- append `ds` and wait until the unit has consumed them -/
def submit (u : Remapper) (q : InvalidationQueue) (ds : List Descriptor) :
    Act σ RemapError Unit := do
  ds.forM (u.append q)
  let stop := (← q.pointers).tail
  let _ ← Act.poll u.readPointers fun (head, tail) => !isPending stop head tail

/-- write a command with its busy bit 63 set, and wait until the unit clears it -/
def commandRegister (u : Remapper) (offset : Nat) (command : Word) : Act σ ε Unit := do
  u.registers.write64 offset (Word.single 63 ||| command)
  let _ ← Act.poll (u.registers.read64 offset) fun v => !v.bit 63

/-- drop cached context entries and mappings, all of them or those of a domain -/
def invalidate (u : Remapper) (s : Scope) (domain : UInt16) : Act σ RemapError Unit :=
  match u.queue with
  | some q => u.submit q [.context s domain, .iotlb s domain]
  | none => do
    u.commandRegister Register.contextCommand ((s.code.toUInt64 <<< 61) ||| domain.toUInt64)
    u.commandRegister u.iotlbOffset ((s.code.toUInt64 <<< 60) ||| (domain.toUInt64 <<< 32))

/-- drop all cached context entries and mappings -/
def invalidateContexts (u : Remapper) : Act σ RemapError Unit := u.invalidate .global 0

/-- drop what is cached about a domain -/
def invalidateDomain (u : Remapper) (domain : UInt16) : Act σ RemapError Unit :=
  u.invalidate .domain domain

/-- drop cached interrupt entries, which takes interrupt remapping and a queue -/
def invalidateInterrupts (u : Remapper) (remapping : Bool) : Act σ RemapError Unit :=
  match u.queue with
  | some q => if remapping then u.submit q [.interruptEntries] else Act.refuse
  | none => Act.refuse

/-- say where fault interrupts go, or mask them -/
def routeFaults (u : Remapper) (event : Option FaultEvent) : Act σ ε Unit := do
  u.registers.write32 Register.faultControl FaultControl.masked
  if let some e := event then
    u.registers.write32 Register.faultData e.data
    u.registers.write32 Register.faultAddress e.address
    u.registers.write32 Register.faultControl 0

/-- the line that reports a unit brought up -/
def reportLine (u : Remapper) (version : UInt32) (interrupts : Bool) : String :=
  let v := version.toNat
  "Remapping unit " ++ hex u.base.toNat ++ ": version " ++ toString (v / 16 % 16) ++ "."
    ++ toString (v % 16) ++ ", " ++ (if u.isQueued then "queued" else "register")
    ++ " invalidation, interrupt remapping " ++ (if interrupts then "on" else "off")

/-- bring the unit up: context tables under `root`, the interrupt table `interrupts` if interrupts
are remapped, the queue, clean caches, and last of all DMA remapping itself -/
def start (u : Remapper) (root : PhysAddr) (interrupts : Option Word)
    (event : Option FaultEvent) : Act σ RemapError Unit := do
  u.routeFaults event
  u.registers.write64 Register.rootTable root.bits
  u.command Command.setRootTable
  if let some table := interrupts then
    u.registers.write64 Register.interruptTable table
    u.command Command.setInterruptTable
    u.command Command.interruptRemapping
  if let some q := u.queue then
    u.registers.write64 Register.queueTail (← q.pointers).tailRegister
    u.registers.write64 Register.queueAddress q.base.bits
    u.command Command.queuedInvalidation
  u.invalidateContexts
  u.command Command.dmaRemapping
  let version ← u.registers.read32 Register.version
  Act.log .info (u.reportLine version interrupts.isSome)

/-- read fault record `i` and clear it, if it holds a fault -/
def takeFault (u : Remapper) (i : Nat) : Act σ ε (Option FaultRecord) := do
  let lo ← u.registers.read64 (u.faultOffset i)
  let hi ← u.registers.read64 (u.faultOffset i + 8)
  match FaultRecord.decode? lo hi with
  | none => pure none
  | some r =>
    u.registers.write64 (u.faultOffset i + 8) (Word.single 63)
    pure (some r)

/-- take and report the faults in the slots `is`; the result is how many there were -/
def drainSlots (u : Remapper) : List Nat → Act σ ε Nat
  | [] => pure 0
  | i :: is => do
    match ← u.takeFault i with
    | none => drainSlots u is
    | some r =>
      Act.log .warn ("Remapping unit " ++ hex u.base.toNat ++ ": DMA fault " ++ r.text)
      pure ((← drainSlots u is) + 1)

/-- every slot of a ring of `n`, from `first` around -/
def ringFrom (n first : Nat) : List Nat := (List.range n).drop first ++ (List.range n).take first

/-- drain faults and acknowledge events until none is left; the result is how many there were -/
def drainFaults (u : Remapper) : Nat → Act σ ε Nat
  | 0 => Act.stuck
  | tries + 1 => do
    let status ← u.registers.read32 Register.faultStatus
    if status &&& FaultStatus.events = 0 then return 0
    let drained ← if status &&& FaultStatus.pending != 0 then
        u.drainSlots (ringFrom u.faultRecords ((status.toNat / 256 % 256) % u.faultRecords))
      else pure 0
    u.registers.write32 Register.faultStatus
      (status &&& FaultStatus.events &&& ~~~FaultStatus.pending)
    pure (drained + (← drainFaults u tries))

/-- handle a fault interrupt; the result is the number of records drained -/
def handleFaults (u : Remapper) : Act σ ε Nat := Act.withPatience u.drainFaults

end Remapper

end NestedPaging
