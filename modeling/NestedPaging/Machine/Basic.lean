import NestedPaging.Machine.Memory
import NestedPaging.Machine.Event
import NestedPaging.Remap.Device

/-!
# The host machine

Objects that change keep their mutable parts in numbered cells of the machine (`Cells`): a tree the
tables that updates detached, how many software walks are under way and whether it was released; a
space its life and the processors that may hold old mappings. `fresh` hands out a number that was
never used before, and a number without a cell reads as the default.

`Machine` holds word memory, the pages in use, the state of processors and devices, the mutable
parts of trees, spaces and queues, and the trace. The field `client` belongs to whoever runs the
machine and means nothing to the library.

`Env` is the world around one processor. Whenever a page is asked for, other processors may run
first, and then the host's allocator offers a page or none; `supply` does both. A sound allocator
offers only whole pages that are not in use, and other processors get in the way at most `rank`
times more.
-/

namespace NestedPaging

/-! ## numbered cells -/

structure Cells (α : Type) where
  entries : Std.HashMap Nat α := {}
  next : Nat := 0

namespace Cells
variable {α : Type} [Inhabited α]

instance : Inhabited (Cells α) := ⟨{}⟩

def get (c : Cells α) (i : Nat) : α := c.entries.getD i default

def modify (c : Cells α) (i : Nat) (f : α → α) : Cells α :=
  { c with entries := c.entries.alter i fun a => some (f (a.getD default)) }

/-- put `a` into a cell of its own; the number is that of the cell -/
def fresh (c : Cells α) (a : α) : Nat × Cells α :=
  (c.next, { entries := c.entries.insert c.next a, next := c.next + 1 })

theorem get_modify (c : Cells α) (i j : Nat) (f : α → α) :
    (c.modify i f).get j = if i = j then f (c.get j) else c.get j := by
  unfold get modify
  rw [Std.HashMap.getD_alter]
  by_cases h : i = j
  · subst h
    simp [Std.HashMap.getD_eq_getD_getElem?]
  · simp [h]

theorem get_fresh (c : Cells α) (a : α) (j : Nat) :
    (c.fresh a).2.get j = if c.next = j then a else c.get j := by
  simp [get, fresh, Std.HashMap.getD_insert]

end Cells

/-! ## what trees and spaces remember -/

/-- a table and its level -/
structure TableRef where
  table : PhysAddr
  level : Nat
  deriving DecidableEq

structure TreeState where
  /-- detached tables that wait to be freed, oldest first -/
  retired : Array TableRef := #[]
  /-- walks that may still hold a pointer into a detached table -/
  walkers : Nat := 0
  released : Bool := false

instance : Inhabited TreeState := ⟨{}⟩

/-- the life of a space -/
inductive Phase where
  /-- takes updates -/
  | active
  /-- refuses updates while its tables are taken down -/
  | destroying
  /-- every table is freed -/
  | destroyed
  deriving DecidableEq

def Phase.name : Phase → String
  | active => "Active"
  | destroying => "Destroying"
  | destroyed => "Destroyed"

structure SpaceState where
  /-- processors that may hold mappings older than the latest update -/
  dirty : CpuSet := .empty
  phase : Phase := .active
  /-- operations that need the tables to stay -/
  inFlight : Nat := 0
  deriving DecidableEq

instance : Inhabited SpaceState := ⟨{}⟩

/-! ## the machine -/

structure Machine (σ : Type) where
  memory : Memory := {}
  /-- the numbers of the pages in use -/
  live : Std.HashSet Nat := {}
  /-- are user and supervisor execution told apart? -/
  splitExecute : Bool := true
  loaded : PerRegime LoadedRoots := default
  tally : Tally := {}
  trees : Cells TreeState := {}
  spaces : Cells SpaceState := {}
  rings : Cells RingState := {}
  devices : Cells Device := {}
  /-- all that happened, oldest first -/
  trace : Array Event := #[]
  client : σ

namespace Machine
variable {σ : Type}

def note (m : Machine σ) (e : Event) : Machine σ := { m with trace := m.trace.push e }

/-- is the page at `p` in use? -/
def isLive (m : Machine σ) (p : PhysAddr) : Bool := m.live.contains p.frame

/-- take the page at `p` and set its words to `fill` -/
def take (m : Machine σ) (p : PhysAddr) (fill : Word) : Machine σ :=
  { m with
    memory := m.memory.fill p.frame fill
    live := m.live.insert p.frame
    trace := m.trace.push (.allocated p fill) }

/-- give the page at `p` back; its contents stay -/
def giveBack (m : Machine σ) (p : PhysAddr) : Machine σ :=
  { m with live := m.live.erase p.frame, trace := m.trace.push (.freed p) }

def store (m : Machine σ) (a : PhysAddr) (w : Word) : Machine σ :=
  { m with memory := m.memory.write a w, trace := m.trace.push (.stored a w) }

end Machine

/-- the world around one processor -/
structure Env (σ : Type) where
  /-- let other processors run, then offer a page -/
  supply : Machine σ → Machine σ × Option PhysAddr
  /-- a bound on how often other processors will still get in the way -/
  rank : σ → Nat
  /-- how often a register is asked again before the wait counts as endless -/
  patience : Nat

end NestedPaging
