import NestedPaging.Machine.Act

/-!
# Register access

The registers of a unit are a page of memory or a device on the bus. A device answers accesses as
long as they are allowed; the trace shows them and what the unit does about them.
-/

namespace NestedPaging

/-- where the registers of a unit are -/
inductive RegisterFile where
  /-- mapped at a page of memory -/
  | mapped (base : PhysAddr)
  /-- a device, by its cell -/
  | device (cell : Nat)
  deriving DecidableEq

/-- the half of a word that lies at `a` -/
def halfAt (a : PhysAddr) (w : Word) : UInt32 :=
  if a.bits &&& (4 : Word) == 0 then w.toUInt32 else (w >>> 32).toUInt32

/-- `w` with the half at `a` replaced -/
def withHalfAt (a : PhysAddr) (w : Word) (v : UInt32) : Word :=
  if a.bits &&& (4 : Word) == 0 then (w &&& (0xffffffff00000000 : Word)) ||| v.toUInt64
  else (w &&& (0xffffffff : Word)) ||| (v.toUInt64 <<< 32)

namespace Act
variable {σ ε : Type}

/-- change a device by `f`, noting what its unit acts on meanwhile -/
def changeDevice (cell : Nat) (f : Memory → Device → Device) : Act σ ε Unit :=
  change fun m =>
    let old := m.devices.get cell
    let new := f m.memory old
    (Device.newActs old new).foldl (fun m r => m.note (.acted cell r))
      { m with devices := m.devices.modify cell fun _ => new }

/-- make one of the accesses that are allowed; beyond them the unit never answers -/
def countAccess (cell : Nat) : Act σ ε Unit := do
  match (← view fun m => m.devices.get cell).allowance with
  | none => pure ()
  | some 0 => stuck
  | some (n + 1) =>
    change fun m => { m with
      devices := m.devices.modify cell fun d => { d with allowance := some n } }

/-- a read of a device register, by a word that waits or by the unit itself -/
def readDevice (cell offset : Nat) (wide : Bool) : Act σ ε Word := do
  countAccess cell
  changeDevice cell fun memory d => d.noticeRead memory offset
  let d ← view fun m => m.devices.get cell
  let answer := match d.nextAnswer? offset with
    | some w => if wide then w else w.toUInt32.toUInt64
    | none => if wide then d.unit.read64 offset else (d.unit.read32 offset).toUInt64
  changeDevice cell fun _ d => d.dropAnswer offset
  note (.accessed cell d.label ⟨wide, false, offset, answer⟩)
  pure answer

/-- a unit notices the fault `r` and puts it into record `i`; the number is latched before the record is
looked for -/
def injectFault (cell i : Nat) (r : FaultRecord) : Act σ ε Unit := do
  let records ← view fun m => (m.devices.get cell).unit.faults.size
  changeDevice cell fun _ d => { d with unit := d.unit.latchFault i }
  if records ≤ i then refuse
  let upper := FaultRecord.upper r.source r.reason r.isRead
  changeDevice cell fun _ d => { d with unit := d.unit.recordFault i r.address upper }

/-- fault status bits of a unit are raised -/
def raiseFaults (cell : Nat) (bits : UInt32) : Act σ ε Unit :=
  changeDevice cell fun _ d => { d with unit := d.unit.raise bits }

end Act

namespace RegisterFile
variable {σ ε : Type}

def read32 (r : RegisterFile) (offset : Nat) : Act σ ε UInt32 :=
  match r with
  | mapped base => do
    let a := base.add offset.toUInt64
    pure (halfAt a (← Act.load a))
  | device cell => do pure (← Act.readDevice cell offset false).toUInt32

def read64 (r : RegisterFile) (offset : Nat) : Act σ ε Word :=
  match r with
  | mapped base => Act.load (base.add offset.toUInt64)
  | device cell => Act.readDevice cell offset true

def write32 (r : RegisterFile) (offset : Nat) (v : UInt32) : Act σ ε Unit :=
  match r with
  | mapped base => do
    let a := base.add offset.toUInt64
    let old ← Act.load a
    Act.store a (withHalfAt a old v)
  | device cell => do
    Act.countAccess cell
    let label ← Act.view fun m => (m.devices.get cell).label
    Act.note (.accessed cell label ⟨false, true, offset, v.toUInt64⟩)
    Act.changeDevice cell fun _ d => { d with unit := d.unit.write32 offset v }

def write64 (r : RegisterFile) (offset : Nat) (v : Word) : Act σ ε Unit :=
  match r with
  | mapped base => Act.store (base.add offset.toUInt64) v
  | device cell => do
    Act.countAccess cell
    let label ← Act.view fun m => (m.devices.get cell).label
    Act.note (.accessed cell label ⟨true, true, offset, v⟩)
    Act.changeDevice cell fun memory d => { d with unit := d.unit.write64 memory offset v }

end RegisterFile

end NestedPaging
