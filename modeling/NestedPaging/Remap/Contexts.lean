import NestedPaging.Remap.Entry
import NestedPaging.Remap.Basic

/-!
# Context tables

The root table has an entry for each bus, pointing to a context table with an entry for each
device and function. A context entry points its requester at a second-level table. Context tables
are taken when a device on their bus is first attached, and stay until all is dropped.
-/

namespace NestedPaging

/-- a requester: bus in the high byte, device and function in the low byte -/
abbrev RequesterId := UInt16

def RequesterId.bus (r : RequesterId) : Nat := r.toNat / 256
def RequesterId.devfn (r : RequesterId) : Nat := r.toNat % 256

/-- what a context entry points to -/
structure Attachment where
  root : PhysAddr
  levels : Nat
  domain : UInt16
  deriving DecidableEq

/-- the entry that stands for an attachment -/
def Attachment.words (a : Attachment) : EntryWords :=
  { lo := a.root.bits ||| presentBit
    hi := (a.levels.toUInt64 - (2 : Word)) ||| (a.domain.toUInt64 <<< 8) }

structure ContextTables where
  root : PhysAddr
  cleaner : Cleaner
  deriving DecidableEq

namespace ContextTables
variable {σ ε : Type}

/-- tables without any entry -/
def create (c : Cleaner) : Act σ RemapError ContextTables := do
  let root ← Act.allocOr .insufficientMemory 0
  Act.clean c root 4096
  pure ⟨root, c⟩

/-- the page that an entry points to -/
def pageOf (lo : Word) : PhysAddr := ⟨lo &&& ~~~0xfff⟩

/-- the context table of `bus` in `memory` -/
def table? (t : ContextTables) (memory : Memory) (bus : Nat) : Option PhysAddr :=
  let lo := memory.read (TableEntry.ofTable t.root bus).address
  if isPresentEntry lo then some (pageOf lo) else none

/-- the context table of `bus`, taken now if there is none -/
def tableFor (t : ContextTables) (bus : Nat) : Act σ RemapError PhysAddr := do
  match ← Act.view fun m => t.table? m.memory bus with
  | some table => pure table
  | none =>
    let page ← Act.allocOr .insufficientMemory 0
    Act.clean t.cleaner page 4096
    let found ← (TableEntry.ofTable t.root bus).publishLo (page.bits ||| presentBit) t.cleaner
    if found = 0 then pure page
    else
      Act.freePage page
      pure (pageOf found)

/-- point requester `r` at a second-level table, in place of what it had -/
def attach (t : ContextTables) (r : RequesterId) (a : Attachment) : Act σ RemapError Unit := do
  let table ← t.tableFor r.bus
  (TableEntry.ofTable table r.devfn).replace a.words t.cleaner

/-- block requester `r` -/
def detach (t : ContextTables) (r : RequesterId) : Act σ ε Unit := do
  match ← Act.view fun m => t.table? m.memory r.bus with
  | some table => (TableEntry.ofTable table r.devfn).clear t.cleaner
  | none => pure ()

/-- the entry of requester `r`, if its bus has a table -/
def entry? (t : ContextTables) (memory : Memory) (r : RequesterId) : Option EntryWords :=
  (t.table? memory r.bus).map fun table => (TableEntry.ofTable table r.devfn).readWords memory

/-- the pages of the tables, the root last -/
def pages (t : ContextTables) (memory : Memory) : List PhysAddr :=
  (List.range 256).filterMap (t.table? memory) ++ [t.root]

/-- give every page back -/
def drop (t : ContextTables) : Act σ ε Unit := do
  let pages ← Act.view fun m => t.pages m.memory
  pages.forM Act.freePage

end ContextTables

end NestedPaging
