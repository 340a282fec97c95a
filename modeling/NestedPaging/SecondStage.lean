import NestedPaging.Remap.Platform

/-!
# The second stage of a host

`SecondStage` ties trees and remapping units together: bring-up, processors that come online,
spaces for guests and device domains, and the assignment of devices. A bring-up that fails gives
back every page it took. `BootConfig` is what a platform chooses at boot.
-/

namespace NestedPaging

structure BootConfig where
  /-- tell user from supervisor execution in stage 2 -/
  splitExecute : Bool := false
  /-- remap device interrupts where every unit can -/
  interrupts : Bool := true
  /-- use queued invalidation where there is a queue -/
  queued : Bool := true
  /-- where remapping units signal faults -/
  event : Option FaultEvent := none
  deriving DecidableEq

namespace BootConfig

/-- take `splitExecute` from bits 31:28 of the processor's memory model feature register -/
def withFeatures (c : BootConfig) (features : Word) : BootConfig :=
  { c with splitExecute := features.field 28 4 != 0 }

/-- the part that the remapping units need -/
def remap (c : BootConfig) : RemapConfig := ⟨c.interrupts, c.queued, c.event⟩

end BootConfig

/-- an error of the tables or of the remapping units -/
inductive SecondStageError where
  | table (e : TableError)
  | remap (e : RemapError)
  deriving DecidableEq

namespace SecondStageError

def kind : SecondStageError → String
  | table _ => "PageTable"
  | remap _ => "Iommu"

def message (e : SecondStageError) : String :=
  match e with
  | table inner => e.kind ++ "(" ++ inner.message ++ ")"
  | remap inner => e.kind ++ "(" ++ inner.message ++ ")"

end SecondStageError

/-- a unit that was discovered -/
structure UnitSite where
  base : Word
  registers : RegisterFile

structure SecondStage where
  config : BootConfig
  cleaner : Cleaner
  platform : Platform

namespace SecondStage
variable {σ ε : Type}

/-- add units one after the other; if one cannot be added all are dropped -/
def addUnits (p : Platform) : List UnitSite → Act σ RemapError Platform
  | [] => pure p
  | site :: sites => do
    let p ← Act.orElseRun (p.addUnit site.base site.registers) p.drop
    addUnits p sites

/-- the line that reports a bring-up -/
def reportLine (config : BootConfig) (p : Platform) : String :=
  "Stage-2 translation: xnx " ++ toString config.splitExecute ++ ", " ++ toString p.units.length
    ++ " remapping units, interrupt remapping " ++ (if p.remapping then "on" else "off")

/-- apply `config` and bring up the units at `sites`, in that order -/
def bringUp (config : BootConfig) (cleaner : Cleaner) (sites : List UnitSite) :
    Act σ SecondStageError SecondStage := do
  Act.change fun m => { m with splitExecute := config.splitExecute }
  let platform ← Act.mapError .remap do
    let p ← addUnits (← Platform.create config.remap cleaner) sites
    let p := p.decideRemapping
    Act.orElseRun p.startUnits p.drop
    pure p
  Act.log .info (reportLine config platform)
  pure ⟨config, cleaner, platform⟩

/-- forget what `c` had loaded, as it comes online or resumes -/
def processorOnline (c : CpuId) : Act σ ε Unit := do
  Act.forgetLoaded .vttbr c
  Act.forgetLoaded .eptp c

/-- an empty space for a guest -/
def createGuest (tag : RegimeTag) : Act σ SecondStageError Space :=
  Act.mapError .table (Space.create .vttbr none tag)

/-- an empty space for a device domain, cleaned to memory if some unit does not snoop caches -/
def createDomain (s : SecondStage) (tag : RegimeTag) : Act σ SecondStageError Space :=
  Act.mapError .table
    (Space.create .eptp (if s.platform.isNoncoherent then some s.cleaner else none) tag)

/-- attach a device to a domain, or block it -/
def assign (s : SecondStage) (base : Word) (a : Attachment) (rid : Nat) (enable : Bool) :
    Act σ SecondStageError Unit :=
  Act.mapError .remap (s.platform.configure base a rid enable)

/-- route a remapped interrupt -/
def routeInterrupt (s : SecondStage) (i : Nat) (r : InterruptRoute) :
    Act σ SecondStageError Unit :=
  Act.mapError .remap (s.platform.routeInterrupt i r)

/-- handle a fault interrupt; the result is the number of records drained -/
def handleFaults (s : SecondStage) : Act σ ε Nat := s.platform.handleFaults

/-- give back every page of the units and the tables -/
def drop (s : SecondStage) : Act σ ε Unit := s.platform.drop

end SecondStage

end NestedPaging
