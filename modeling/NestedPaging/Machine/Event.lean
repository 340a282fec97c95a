import NestedPaging.Address
import NestedPaging.Processor.Regime
import NestedPaging.Remap.Emulated

/-!
# The trace of a machine

All that happens to the machine is an event: pages taken and given back, single stores, cache
cleaning, accesses to device registers and what units do about them, regime loads and flushes,
tables detached, spaces marked dirty, log lines. `Event.text?` is the line shown for an event that
is shown: what happens inside processors, units and trees is not.
-/

namespace NestedPaging

inductive LogLevel where
  | debug
  | info
  | warn
  deriving DecidableEq

def LogLevel.name : LogLevel → String
  | debug => "debug"
  | info => "info"
  | warn => "warn"

/-- what a cleaned range holds: all its words if they are few, else how many are not zero -/
inductive Contents where
  | words (ws : List Word)
  | nonzero (count : Nat)
  deriving DecidableEq

/-- the contents of a range of `len` bytes with words `ws` -/
def Contents.ofWords (len : Nat) (ws : List Word) : Contents :=
  if len ≤ 16 then words ws else nonzero (ws.countP (· != 0))

/-- a register access of 32 or 64 bits -/
structure RegisterAccess where
  wide : Bool
  isWrite : Bool
  offset : Nat
  value : Word
  deriving DecidableEq

inductive Event where
  /-- a page was handed out with every word set to `fill` -/
  | allocated (page : PhysAddr) (fill : Word)
  /-- a page was asked for in vain -/
  | exhausted
  | freed (page : PhysAddr)
  | stored (a : PhysAddr) (w : Word)
  /-- `len` bytes from `a` up were written back -/
  | cleaned (a : PhysAddr) (len : Nat) (contents : Contents)
  /-- a line of `size` bytes of the processor's own cache was written back -/
  | lineCleaned (line size : Nat)
  | logged (level : LogLevel) (line : String)
  /-- a register of the device with the cell `device` was accessed; `label` is shown for it -/
  | accessed (device label : Nat) (access : RegisterAccess)
  /-- the unit of a device acted on a request -/
  | acted (device : Nat) (r : Request)
  /-- `cpu` loaded a regime value -/
  | loaded (kind : Regime) (cpu : CpuId) (value : Word)
  /-- `cpu` dropped what it cached under a regime value -/
  | flushed (kind : Regime) (cpu : CpuId) (value : Word)
  /-- what `cpu` had loaded was forgotten -/
  | forgot (kind : Regime) (cpu : CpuId)
  /-- the table `table` was detached from the tree with the cell `tree` -/
  | detached (tree : Nat) (table : PhysAddr)
  /-- all processors were marked dirty for the space with the cell `space` -/
  | allDirty (space : Nat)
  deriving DecidableEq

namespace Event

private def contentsText : Contents → String
  | .words ws => ws.foldl (fun s w => s ++ " " ++ hex w.toNat) ""
  | .nonzero n => " nonzero " ++ toString n

/-- the line shown for an event, if it is shown -/
def text? : Event → Option String
  | allocated page _ => some ("alloc " ++ hex page.bits.toNat)
  | exhausted => some "alloc fail"
  | freed page => some ("free " ++ hex page.bits.toNat)
  | cleaned a len contents =>
    some ("clean " ++ hex a.bits.toNat ++ " " ++ toString len ++ contentsText contents)
  | logged level line => some ("log " ++ level.name ++ " " ++ line)
  | accessed _ label access =>
    some ("io" ++ toString label ++ (if access.isWrite then " w" else " r")
      ++ (if access.wide then "64 " else "32 ") ++ hex access.offset ++ " "
      ++ hex access.value.toNat)
  | _ => none

end Event

end NestedPaging
