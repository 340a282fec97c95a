import NestedPaging.SecondStage
import NestedPaging.Bench.Host

/-!
# Commands of the bench

The bench keeps objects of several kinds by number and runs steps on them. A step is a command,
how often to repeat it, and whether its trace is only counted. Steps may hold steps: those that run
inside an allocation (`hook`) and those that run inside a shootdown.

Steps whose answer needs no machine hold the answer (`ready`), of a type `α` that the bench does
not look at.
-/

namespace NestedPaging.Bench

/-- the number of an object among those of its kind -/
abbrev Id := Nat

/-- the host's stand-ins -/
inductive HostCommand where
  | newPool (id : Id)
  | take (id : Id) (order : Nat) (ones : Bool)
  | giveBack (id : Id) (handle order : Nat)
  | limit (id : Id) (n : Nat)
  | unlimited (id : Id)
  | poolUsage (id : Id)
  | newCleanLog (id : Id)
  | clean (id : Id) (a : PhysAddr) (len : Nat)
  | covers (id : Id) (a : PhysAddr) (len : Nat)

/-- processor sets, loaded values and regimes -/
inductive ProcessorCommand where
  | newSet (id : Id)
  | insert (id : Id) (cpu : Nat)
  | erase (id : Id) (cpu : Nat)
  | contains (id : Id) (cpu : Nat)
  /-- remove a processor; was it there? -/
  | takeOut (id : Id) (cpu : Nat)
  | insertAll (id : Id)
  | members (id : Id)
  | newLoaded (id : Id)
  | current (id : Id) (cpu : Nat)
  | replace (id : Id) (cpu : Nat) (value : Word)
  | reset (id : Id) (cpu : Nat)
  | forgetLoaded (kind : Regime) (cpu : Nat)
  | loadedOn (kind : Regime) (cpu : Nat)
  /-- what the counting regime counted, starting over if `clear` -/
  | tally (clear : Bool)
  | encode (f : Format) (level : Nat) (a : Attrs)
  | setSplitExecute (split : Bool)
  | splitExecute

inductive TreeCommand where
  | create (id : Id) (f : Format) (cleaned : Bool)
  | update (id : Id) (p : Mapping) (order : Nat)
  | install (id : Id) (p : Mapping) (pages : Nat)
  | lookup (id : Id) (a : GuestAddr)
  /-- walk to a level, keeping the entry under a number if there is one -/
  | walk (id : Id) (a : GuestAddr) (level : Nat) (hold : Option Id)
  | readHeld (hold : Id)
  | letGo (hold : Id)
  | retired (id : Id)
  | reclaim (id : Id)
  | drop (id : Id)

inductive RootCommand where
  | create (id : Id) (kind : Regime) (cleaned : Bool)
  | makeCurrent (id : Id) (cpu : Nat) (tag : RegimeTag)
  | invalidate (id : Id) (cpu : Nat) (tag : RegimeTag)
  | update (id : Id) (p : Mapping) (order : Nat)
  | lookup (id : Id) (a : GuestAddr)
  | drop (id : Id)

/-- what a device is attached to -/
inductive DmaTarget where
  | space (id : Id)
  | plain (a : Attachment)

inductive SpaceCommand where
  | create (id : Id) (kind : Regime) (cleaned : Bool) (tag : RegimeTag)
  | update (id : Id) (p : Mapping) (order : Nat)
  | install (id : Id) (p : Mapping) (pages : Nat)
  | lookup (id : Id) (a : GuestAddr)
  | invalidate (id : Id) (cpu : Nat)
  | activate (id : Id) (cpu : Nat)
  | flushLocal (id : Id) (cpu : Nat)
  | markDirty (id : Id) (cpu : Nat)
  | dirty (id : Id)
  | state (id : Id)
  | attachment (target : DmaTarget)
  | drop (id : Id)

/-- queues, context tables and interrupt tables on their own -/
inductive TableCommand where
  | newQueue (id : Id)
  /-- push `count` descriptors, the low word growing by `step` -/
  | push (id : Id) (d : Descriptor) (count : Nat) (step : Word)
  | moveHead (id : Id) (head : Nat)
  | pointers (id : Id)
  | slot (id : Id) (i : Nat)
  | newContexts (id : Id)
  | attach (id : Id) (r : RequesterId) (a : Attachment)
  | detach (id : Id) (r : RequesterId)
  | contextEntry (id : Id) (r : RequesterId)
  | dropContexts (id : Id)
  | newInterrupts (id : Id)
  | setInterrupt (id : Id) (i : Nat) (r : InterruptRoute)
  | interruptEntry (id : Id) (i : Nat)
  | dropInterrupts (id : Id)

/-- a register access, with a value to write or without -/
structure RegisterCommand where
  offset : Nat
  wide : Bool
  value : Option Word

/-- register pages and emulated units -/
inductive DeviceCommand where
  | newPage (id : Id) (ones : Bool)
  | accessPage (id : Id) (c : RegisterCommand)
  /-- drive the page as a unit, report it and drop it -/
  | pageUnit (id : Id) (base : Word) (queued : Bool)
  | create (id : Id) (caps : Capabilities)
  | script (id : Id) (answers : List (Nat × Word))
  | stall (id : Id) (reads : Nat)
  | release (id : Id)
  | forgetActs (id : Id)
  | fault (id : Id) (i : Nat) (r : FaultRecord)
  | raise (id : Id) (bits : UInt32)
  | access (id : Id) (c : RegisterCommand)
  | state (id : Id)

inductive UnitCommand where
  | create (id : Id) (device : Id) (base : Word) (queued : Bool)
  | start (id : Id) (root : PhysAddr) (interrupts : Option Word) (event : Option FaultEvent)
  | command (id : Id) (bits : UInt32)
  | invalidateContexts (id : Id)
  | invalidateDomain (id : Id) (domain : UInt16)
  | invalidateInterrupts (id : Id) (remapping : Bool)
  | handleFaults (id : Id)
  | drop (id : Id)

inductive PlatformCommand where
  | create (id : Id) (config : RemapConfig)
  | addUnit (id : Id) (device : Id) (base : Word)
  | startAll (id : Id)
  | handleFaults (id : Id)
  | unit (id : Id) (base : Word)
  | configure (id : Id) (base : Word) (target : DmaTarget) (rid : Nat) (enable : Bool)
  | routeInterrupt (id : Id) (i : Nat) (r : InterruptRoute)
  | invalidateDomain (id : Id) (domain : UInt16)
  | state (id : Id)
  | contextEntry (id : Id) (r : RequesterId)
  | interruptEntry (id : Id) (i : Nat)
  | drop (id : Id)

inductive StageCommand where
  | bringUp (id : Id) (config : BootConfig) (units : List (Word × Id)) (onCpu : Bool)
  | processorOnline (id : Id) (cpu : Nat)
  | createGuest (id : Id) (tag : RegimeTag) (space : Id)
  | createDomain (id : Id) (tag : RegimeTag) (space : Id)
  | assign (id : Id) (base : Word) (target : DmaTarget) (rid : Nat) (enable : Bool)
  | routeInterrupt (id : Id) (i : Nat) (r : InterruptRoute)
  | handleFaults (id : Id)
  | contextEntry (id : Id) (r : RequesterId)
  | interruptEntry (id : Id) (i : Nat)
  | state (id : Id)
  | drop (id : Id)

/-- a command without steps of its own, or the answer of one that needs no machine -/
inductive Plain (α : Type) where
  | ready (a : α)
  /-- the pages that may still be taken -/
  | budget (n : Option Nat)
  | usage
  | dump (page : Option PhysAddr)
  | host (c : HostCommand)
  | processor (c : ProcessorCommand)
  | tree (c : TreeCommand)
  | root (c : RootCommand)
  | space (c : SpaceCommand)
  | table (c : TableCommand)
  | device (c : DeviceCommand)
  | unit (c : UnitCommand)
  | platform (c : PlatformCommand)
  | stage (c : StageCommand)

mutual

inductive Command (α : Type) where
  | plain (c : Plain α)
  /-- run `steps` inside the `nth` allocation from now, counted from 1 -/
  | hook (nth : Nat) (steps : List (Step α))
  /-- synchronise a space; `steps` run inside the shootdown -/
  | sync (id : Id) (online : Nat) (steps : List (Step α))
  /-- destroy a space; `steps` run inside the shootdown -/
  | destroy (id : Id) (online : Nat) (steps : List (Step α))

inductive Step (α : Type) where
  | mk (command : Command α) (times : Nat) (quiet : Bool)

end

namespace Step
variable {α : Type}

def command : Step α → Command α
  | mk c _ _ => c

def times : Step α → Nat
  | mk _ n _ => n

/-- are the events only counted? -/
def quiet : Step α → Bool
  | mk _ _ q => q

end Step

mutual

/-- how deep steps lie inside a command -/
def Command.depth {α : Type} : Command α → Nat
  | .plain _ => 0
  | .hook _ steps => Step.depths steps + 1
  | .sync _ _ steps => Step.depths steps + 1
  | .destroy _ _ steps => Step.depths steps + 1

/-- how deep steps lie inside a step -/
def Step.depth {α : Type} : Step α → Nat
  | .mk c _ _ => c.depth

/-- how deep steps lie inside any of several -/
def Step.depths {α : Type} : List (Step α) → Nat
  | [] => 0
  | s :: rest => max s.depth (Step.depths rest)

end

end NestedPaging.Bench
