import NestedPaging.Processor.Switch
import NestedPaging.Tree.Update

/-!
# Address spaces

A space is the second-stage address space of one guest or one device domain: a root under a tag,
the set of processors that may hold old mappings, and a life that ends with `destroy`. While
an operation is in flight the tables stay; a space that is no longer active refuses operations.

`sync` takes the detached tables, marks every processor dirty, has the online processors flush,
and frees the tables it took. Tables detached meanwhile wait for the next `sync`. `destroy` locks
out further operations, does the same, and gives back the whole tree.
-/

namespace NestedPaging

structure Space where
  /-- the cell that keeps the space's state -/
  cell : Nat
  root : RegimeRoot
  tag : RegimeTag
  deriving DecidableEq

namespace Space
variable {σ ε α : Type}

def tree (s : Space) : Tree := s.root.tree

/-- the value that processors load for this space -/
def value (s : Space) : Word := s.root.value s.tag

def state (s : Space) (m : Machine σ) : SpaceState := m.spaces.get s.cell

def changeState (s : Space) (f : SpaceState → SpaceState) (m : Machine σ) : Machine σ :=
  { m with spaces := m.spaces.modify s.cell f }

/-- an empty space -/
def create (k : Regime) (cleaner : Option Cleaner) (tag : RegimeTag) : Act σ TableError Space := do
  let root ← RegimeRoot.create k cleaner
  Act.log .debug ("Created space " ++ tag.text ++ " with root " ++ root.tree.root.text)
  fun _ m =>
    let (cell, spaces) := m.spaces.fresh {}
    .ok ⟨cell, root, tag⟩ { m with spaces }

def enter (s : Space) (m : Machine σ) : Machine σ :=
  s.changeState (fun st => { st with inFlight := st.inFlight + 1 }) m

def leave (s : Space) (m : Machine σ) : Machine σ :=
  s.changeState (fun st => { st with inFlight := st.inFlight - 1 }) m

/-- run `body` in flight, if the space is active -/
def whileActive (s : Space) (body : Act σ TableError α) : Act σ TableError α := do
  Act.change s.enter
  Act.ensuring s.leave do
    if (← Act.view fun m => (s.state m).phase) ≠ .active then Act.fail .spaceDestroyed
    body

/-- map or unmap up to `2 ^ order` pages -/
def update (s : Space) (p : Mapping) (order : Nat) : Act σ TableError Nat :=
  s.whileActive (s.tree.update p order)

/-- map or unmap `pages` pages -/
def install (s : Space) (p : Mapping) (pages : Nat) : Act σ TableError Unit :=
  s.whileActive (s.tree.install p pages)

/-- the leaf that maps `a`; a space that is not active maps nothing -/
def lookup (s : Space) (a : GuestAddr) : Act σ ε (Option Leaf) :=
  Act.view fun m =>
    if (s.state m).phase = .active then s.tree.leaf? m.memory a else none

/-- the processors that may hold old mappings -/
def dirty (s : Space) : Act σ ε CpuSet := Act.view fun m => (s.state m).dirty

def changeDirty (s : Space) (f : CpuSet → CpuSet) : Act σ ε Unit :=
  Act.change (s.changeState fun st => { st with dirty := f st.dirty })

/-- mark `c` as holding old mappings -/
def markDirty (s : Space) (c : CpuId) : Act σ ε Unit := s.changeDirty (·.insert c)

/-- drop what `c` cached of this space, on `c` itself -/
def flushLocal (s : Space) (c : CpuId) : Act σ ε Unit := do
  s.changeDirty (·.erase c)
  s.root.invalidate c s.tag

/-- drop what `c` cached of this space, if it is active -/
def invalidate (s : Space) (c : CpuId) : Act σ TableError Unit :=
  s.whileActive (s.flushLocal c)

/-- switch `c` to this space before it enters the guest; a dirty processor flushes first -/
def activate (s : Space) (c : CpuId) : Act σ TableError Unit :=
  s.whileActive do
    let dirty ← s.dirty
    s.changeDirty (·.erase c)
    if dirty.contains c then s.root.invalidate c s.tag else s.root.makeCurrent c s.tag

end Space

/-! ## synchronisation and destruction -/

/-- how processors are made to flush -/
structure Shootdown (σ : Type) where
  /-- what other processors do before the flushes -/
  before : Machine σ → Machine σ := id
  /-- processors below this number are online; the others flush when they come back -/
  online : Nat

namespace Space
variable {σ ε : Type}

/-- every online processor that is dirty flushes; the result is how many did -/
def shootDown (s : Space) (d : Shootdown σ) : Act σ ε Nat := do
  Act.change d.before
  let cpus := (← s.dirty).toList.filter fun c => c.val < d.online
  cpus.forM s.flushLocal
  pure cpus.length

/-- make all updates visible everywhere and free what they detached -/
def settle (s : Space) (d : Shootdown σ) : Act σ ε Nat := do
  let retired ← s.tree.takeRetired
  Act.note (.allDirty s.cell)
  s.changeDirty fun _ => .all
  let flushed ← s.shootDown d
  s.tree.freeRetired retired
  pure flushed

/-- `settle`, if the space is active; the result is the number of flushes -/
def sync (s : Space) (d : Shootdown σ) : Act σ TableError Nat := s.whileActive (s.settle d)

/-- end the space and give back all its pages; the result is the number of flushes -/
def destroy (s : Space) (d : Shootdown σ) : Act σ TableError Nat := do
  let phase ← Act.view fun m => (s.state m).phase
  if phase ≠ .active then Act.fail .spaceDestroyed
  Act.change (s.changeState fun st => { st with phase := .destroying })
  if (← Act.view fun m => (s.state m).inFlight) ≠ 0 then Act.stuck
  let flushed ← s.settle d
  s.tree.release
  Act.change (s.changeState fun st => { st with phase := .destroyed })
  Act.log .debug ("Destroyed space " ++ s.tag.text)
  pure flushed

end Space

end NestedPaging
