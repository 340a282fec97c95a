import NestedPaging.Format.Basic
import NestedPaging.Machine.Act

/-!
# Trees of tables

A tree owns a root table and every table that its entries point to. Its own memory of detached
tables and walks lies in a cell of the machine, so that whoever holds the tree sees the same.

A lookup reads memory and nothing else: `leafBelow` follows tables down to the first entry that is
none. `TableError` is what trees and spaces refuse.
-/

namespace NestedPaging

inductive TableError where
  /-- no page for a table -/
  | insufficientMemory
  /-- an address inside a page -/
  | misaligned (address : Word)
  /-- the range that starts here leaves the input space -/
  | outOfRange (address : Word)
  /-- a single update covers no such order -/
  | orderTooLarge (order : Nat)
  /-- the space is destroyed, or is being destroyed -/
  | spaceDestroyed
  deriving DecidableEq

namespace TableError

def kind : TableError → String
  | insufficientMemory => "InsufficientMemory"
  | misaligned _ => "MisalignedAddress"
  | outOfRange _ => "AddressOutOfRange"
  | orderTooLarge _ => "OrderTooLarge"
  | spaceDestroyed => "SpaceDestroyed"

/-- the kind, then the offending number if there is one -/
def message (e : TableError) : String :=
  match e with
  | misaligned a | outOfRange a => e.kind ++ "(" ++ toString a.toNat ++ ")"
  | orderTooLarge n => e.kind ++ "(" ++ toString n ++ ")"
  | _ => e.kind

end TableError

structure Tree where
  /-- the cell that keeps the tree's state -/
  cell : Nat
  format : Format
  root : PhysAddr
  /-- how writes reach a walker that does not snoop caches, if there is one -/
  cleaner : Option Cleaner
  deriving DecidableEq

/-- an entry of a table -/
structure Slot where
  table : PhysAddr
  index : Nat
  level : Nat
  deriving DecidableEq

namespace Slot

def address (s : Slot) : PhysAddr := s.table.add (s.index * 8).toUInt64

/-- the entry after `s` -/
def next (s : Slot) : Slot := { s with index := s.index + 1 }

/-- the entry of the table `table` at `level` through which `a` goes -/
def through (table : PhysAddr) (a : GuestAddr) (level : Nat) : Slot :=
  ⟨table, tableIndex a level, level⟩

end Slot

namespace Format

/-- the leaf of `a` in the table `table` at `level` or in those below -/
def leafBelow (f : Format) (memory : Memory) (a : GuestAddr) : Nat → PhysAddr → Option Leaf
  | 0, table =>
    let raw := memory.read (Slot.through table a 0).address
    if f.isPresent raw then some (f.leaf 0 raw) else none
  | level + 1, table =>
    let raw := memory.read (Slot.through table a (level + 1)).address
    if f.isTable raw (level + 1) then leafBelow f memory a level (entryAddress raw)
    else if f.isPresent raw then some (f.leaf (level + 1) raw)
    else none

end Format

namespace Tree
variable {σ ε : Type}

/-- the leaf that maps `a` in `memory` -/
def leaf? (t : Tree) (memory : Memory) (a : GuestAddr) : Option Leaf :=
  if t.format.inRange a then t.format.leafBelow memory a t.format.rootLevel t.root else none

/-- an empty tree -/
def create (f : Format) (cleaner : Option Cleaner) : Act σ TableError Tree := do
  let root ← Act.allocOr .insufficientMemory 0
  if let some c := cleaner then Act.clean c root 4096
  fun _ m =>
    let (cell, trees) := m.trees.fresh {}
    .ok ⟨cell, f, root, cleaner⟩ { m with trees }

/-- the leaf that maps `a` -/
def lookup (t : Tree) (a : GuestAddr) : Act σ ε (Option Leaf) :=
  Act.view fun m => t.leaf? m.memory a

def state (t : Tree) (m : Machine σ) : TreeState := m.trees.get t.cell

def changeState (t : Tree) (f : TreeState → TreeState) (m : Machine σ) : Machine σ :=
  { m with trees := m.trees.modify t.cell f }

/-- the number of detached tables that wait to be freed -/
def retiredCount (t : Tree) : Act σ ε Nat := Act.view fun m => (t.state m).retired.size

/-- let a walker that does not snoop caches see `len` bytes from `a` up -/
def clean (t : Tree) (a : PhysAddr) (len : Nat) : Act σ ε Unit :=
  match t.cleaner with
  | some c => Act.clean c a len
  | none => pure ()

/-- one more walk is under way -/
def enterWalk (t : Tree) (m : Machine σ) : Machine σ :=
  t.changeState (fun s => { s with walkers := s.walkers + 1 }) m

/-- one walk is over -/
def leaveWalk (t : Tree) (m : Machine σ) : Machine σ :=
  t.changeState (fun s => { s with walkers := s.walkers - 1 }) m

/-- run `body` as a walk: what it detaches meanwhile stays allocated -/
def walking {α : Type} (t : Tree) (body : Act σ ε α) : Act σ ε α := do
  Act.change t.enterWalk
  Act.ensuring t.leaveWalk body

end Tree

end NestedPaging
