import NestedPaging.Bench.Reply
import Std.Data.TreeMap

/-!
# The state of the bench

`Objects` keeps what commands created, in a shelf for each kind. `State` adds the allocator's
budget, the steps that wait for an allocation, and the replies of steps that ran inside others.
-/

namespace NestedPaging.Bench

/-- objects of one kind by number -/
abbrev Shelf (β : Type) := Std.TreeMap Id β

structure Objects where
  pools : Shelf Pool := {}
  cleanLogs : Shelf CleanLog := {}
  sets : Shelf CpuSet := {}
  loaded : Shelf LoadedRoots := {}
  /-- entries that walks keep -/
  held : Shelf (Tree × Slot) := {}
  trees : Shelf Tree := {}
  spaces : Shelf Space := {}
  roots : Shelf RegimeRoot := {}
  queues : Shelf InvalidationQueue := {}
  contexts : Shelf ContextTables := {}
  interrupts : Shelf InterruptTable := {}
  pages : Shelf PhysAddr := {}
  /-- the cells of devices -/
  devices : Shelf Nat := {}
  units : Shelf Remapper := {}
  platforms : Shelf Platform := {}
  stages : Shelf SecondStage := {}

/-- steps that wait for an allocation -/
structure Hook (α : Type) where
  /-- allocations until they run, that one included -/
  countdown : Nat
  steps : List (Step α)

structure State (α : Type) where
  objects : Objects := {}
  /-- pages that may still be taken, if there is a limit -/
  budget : Option Nat := none
  /-- pages taken so far -/
  taken : Nat := 0
  hook : Option (Hook α) := none
  /-- replies of steps inside the present one, in order of completion -/
  inner : Array (Reply α) := #[]

/-- register accesses that one step may make to one device; a step that makes more waits without
end -/
def accessLimit : Nat := 4000

/-- why a command gave no value -/
inductive Refusal where
  | noSuchObject
  | table (e : TableError)
  | remap (e : RemapError)
  | stage (e : SecondStageError)

/-- a command on the bench's machine -/
abbrev BenchAct (α : Type) := Act (State α) Refusal

/-- the shelf of one kind of object -/
structure Place (β : Type) where
  shelf : Objects → Shelf β
  setShelf : Shelf β → Objects → Objects

namespace Place
variable {α β : Type}

def pools : Place Pool := ⟨(·.pools), fun s o => { o with pools := s }⟩
def cleanLogs : Place CleanLog := ⟨(·.cleanLogs), fun s o => { o with cleanLogs := s }⟩
def sets : Place CpuSet := ⟨(·.sets), fun s o => { o with sets := s }⟩
def loaded : Place LoadedRoots := ⟨(·.loaded), fun s o => { o with loaded := s }⟩
def held : Place (Tree × Slot) := ⟨(·.held), fun s o => { o with held := s }⟩
def trees : Place Tree := ⟨(·.trees), fun s o => { o with trees := s }⟩
def spaces : Place Space := ⟨(·.spaces), fun s o => { o with spaces := s }⟩
def roots : Place RegimeRoot := ⟨(·.roots), fun s o => { o with roots := s }⟩
def queues : Place InvalidationQueue := ⟨(·.queues), fun s o => { o with queues := s }⟩
def contexts : Place ContextTables := ⟨(·.contexts), fun s o => { o with contexts := s }⟩
def interrupts : Place InterruptTable := ⟨(·.interrupts), fun s o => { o with interrupts := s }⟩
def pages : Place PhysAddr := ⟨(·.pages), fun s o => { o with pages := s }⟩
def devices : Place Nat := ⟨(·.devices), fun s o => { o with devices := s }⟩
def units : Place Remapper := ⟨(·.units), fun s o => { o with units := s }⟩
def platforms : Place Platform := ⟨(·.platforms), fun s o => { o with platforms := s }⟩
def stages : Place SecondStage := ⟨(·.stages), fun s o => { o with stages := s }⟩

/-- the object with this number, if there is one -/
def find? (p : Place β) (id : Id) : BenchAct α (Option β) :=
  Act.view fun m => (p.shelf m.client.objects)[id]?

/-- the object with this number -/
def find (p : Place β) (id : Id) : BenchAct α β := do
  match ← p.find? id with
  | some b => pure b
  | none => Act.fail .noSuchObject

def change (p : Place β) (f : Shelf β → Shelf β) : BenchAct α Unit :=
  Act.change fun m =>
    let o := m.client.objects
    { m with client := { m.client with objects := p.setShelf (f (p.shelf o)) o } }

def put (p : Place β) (id : Id) (b : β) : BenchAct α Unit := p.change (·.insert id b)

/-- put an object in the place of another, which is dropped -/
def replace (p : Place β) (drop : β → BenchAct α Unit) (id : Id) (b : β) : BenchAct α Unit := do
  let old ← p.find? id
  p.put id b
  if let some old := old then drop old

/-- take an object out and drop it; the result is whether there was one -/
def drop (p : Place β) (drop : β → BenchAct α Unit) (id : Id) : BenchAct α Bool := do
  match ← p.find? id with
  | some b =>
    p.change (·.erase id)
    drop b
    pure true
  | none => pure false

/-- drop every object, in ascending order -/
def dropAll (p : Place β) (drop : β → BenchAct α Unit) : BenchAct α Unit := do
  let all ← Act.view fun m => (p.shelf m.client.objects).toList
  p.change fun _ => {}
  all.forM fun (_, b) => drop b

end Place

/-- a processor, if it is one -/
def processor {σ ε : Type} (cpu : Nat) : Act σ ε CpuId :=
  if h : cpu < maxProcessors then pure ⟨cpu, h⟩ else Act.refuse

/-- `body` with its error as a value -/
def attempt {σ ε δ α : Type} (body : Act σ ε α) : Act σ δ (Except ε α) := fun env m =>
  match body env m with
  | .ok a m => .ok (.ok a) m
  | .error (.failed e) m => .ok (.error e) m
  | .error .refused m => .error .refused m
  | .error .stuck m => .error .stuck m

namespace Reply
variable {α : Type}

def ofTableError (e : TableError) : Reply α := .failed e.kind e.message

def ofRemapError (e : RemapError) : Reply α := .failed e.kind e.message

def ofRefusal : Refusal → Reply α
  | .noSuchObject => .noSuchObject
  | .table e => ofTableError e
  | .remap e => ofRemapError e
  | .stage e => .failed e.kind e.message

def ofTableResult {β : Type} (f : β → Reply α) : Except TableError β → Reply α
  | .ok b => f b
  | .error e => ofTableError e

end Reply

end NestedPaging.Bench
