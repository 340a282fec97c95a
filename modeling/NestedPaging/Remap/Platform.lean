import NestedPaging.Space.Basic
import NestedPaging.Remap.Contexts
import NestedPaging.Remap.Interrupts
import NestedPaging.Remap.Remapper

/-!
# The platform's remapping units

All units share one set of context tables and one interrupt table. Interrupts are remapped if the
platform asks for it and every unit can, with queued invalidation.
-/

namespace NestedPaging

/-- the units a platform can have -/
def maxUnits : Nat := 8

/-- what the platform asks of its units -/
structure RemapConfig where
  /-- remap interrupts if every unit can -/
  interrupts : Bool := false
  /-- use the invalidation queue where there is one -/
  queued : Bool := false
  /-- where units signal faults; without it fault interrupts stay masked -/
  event : Option FaultEvent := none
  deriving DecidableEq

structure Platform where
  config : RemapConfig
  cleaner : Cleaner
  contexts : ContextTables
  interruptTable : InterruptTable
  /-- in the order of discovery -/
  units : List Remapper := []
  /-- are interrupts remapped? -/
  remapping : Bool := false
  deriving DecidableEq

namespace Platform
variable {σ ε : Type}

/-- the shared tables, without any unit yet -/
def create (config : RemapConfig) (cleaner : Cleaner) : Act σ RemapError Platform := do
  let contexts ← ContextTables.create cleaner
  let interruptTable ← Act.orElseRun (InterruptTable.create cleaner) contexts.drop
  pure { config, cleaner, contexts, interruptTable }

/-- give back every page of the units and the tables -/
def drop (p : Platform) : Act σ ε Unit := do
  p.units.forM Remapper.drop
  p.contexts.drop
  p.interruptTable.drop

/-- add the unit with registers at `base` -/
def addUnit (p : Platform) (base : Word) (registers : RegisterFile) :
    Act σ RemapError Platform := do
  if maxUnits ≤ p.units.length then Act.fail .tooManyUnits
  let u ← Remapper.create base registers p.config.queued p.cleaner
  Act.log .debug ("Remapping unit " ++ hex base.toNat ++ " uses "
    ++ (if u.isQueued then "queued" else "register") ++ " invalidation")
  pure { p with units := p.units ++ [u] }

/-- does some unit walk tables without snooping caches? -/
def isNoncoherent (p : Platform) : Bool := p.units.any fun u => !u.isCoherent

/-- can interrupts be remapped with the units there are? -/
def canRemapInterrupts (p : Platform) : Bool :=
  p.config.interrupts && !p.units.isEmpty && p.units.all fun u => u.remapsInterrupts && u.isQueued

/-- the platform with interrupt remapping decided for the units there are -/
def decideRemapping (p : Platform) : Platform := { p with remapping := p.canRemapInterrupts }

/-- bring up every unit -/
def startUnits (p : Platform) : Act σ RemapError Unit :=
  let interrupts := if p.remapping then some p.interruptTable.register else none
  p.units.forM fun u => u.start p.contexts.root interrupts p.config.event

/-- handle a fault interrupt of any unit; the result is the number of records drained -/
def handleFaults (p : Platform) : Act σ ε Nat :=
  p.units.foldlM (fun n u => do pure (n + (← u.handleFaults))) 0

/-- the unit with registers at `base` -/
def unit? (p : Platform) (base : Word) : Option Remapper := p.units.find? fun u => u.base == base

/-- attach requester `rid` behind the unit at `base` to a second-level table, or block it if
`enable` is false. Cached context entries are gone on return. -/
def configure (p : Platform) (base : Word) (a : Attachment) (rid : Nat) (enable : Bool) :
    Act σ RemapError Unit := do
  match p.unit? base with
  | none => Act.fail (.unitNotFound base)
  | some u =>
    if UInt16.size ≤ rid then Act.fail (.invalidRequester rid)
    let r : RequesterId := rid.toUInt16
    if enable then
      if !u.supportsLevels a.levels then Act.fail (.unsupportedAddressWidth a.levels)
      p.contexts.attach r a
    else
      p.contexts.detach r
    u.invalidateContexts

/-- write interrupt entry `i` and drop every unit's copy, if interrupts are remapped -/
def routeInterrupt (p : Platform) (i : Nat) (r : InterruptRoute) : Act σ RemapError Unit := do
  if p.remapping then
    p.interruptTable.set i r
    p.units.forM fun u => u.invalidateInterrupts true

/-- drop what every unit cached about a domain -/
def invalidateDomain (p : Platform) (domain : UInt16) : Act σ RemapError Unit :=
  p.units.forM fun u => u.invalidateDomain domain

end Platform

/-- a device domain is attached by the root, depth and tag of its space -/
def Space.attachment (s : Space) : Attachment :=
  ⟨s.tree.root, s.tree.format.levels, s.tag.bits⟩

end NestedPaging
