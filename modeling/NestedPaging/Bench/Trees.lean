import NestedPaging.Bench.State

/-!
# Tree, root and space commands
-/

namespace NestedPaging.Bench
variable {α : Type}

/-- the cleaner of an object that is cleaned, or none -/
def cleanerIf (cleaned : Bool) : Option Cleaner := if cleaned then some .platform else none

/-- `r` with the tables of `t` that wait to be freed after it -/
def retiring (t : Tree) (r : Reply α) : BenchAct α (Reply α) := do
  pure (.retiring r (← t.retiredCount))

def TreeCommand.perform : TreeCommand → BenchAct α (Reply α)
  | create id f cleaned => do
    let t ← Act.mapError .table (Tree.create f (cleanerIf cleaned))
    Place.trees.replace Tree.release id t
    pure (.word t.root.bits)
  | update id p order => do
    let t ← Place.trees.find id
    retiring t (.ofTableResult .covered (← attempt (t.update p order)))
  | install id p pages => do
    let t ← Place.trees.find id
    retiring t (.ofTableResult (fun _ => .done) (← attempt (t.install p pages)))
  | lookup id a => do
    let t ← Place.trees.find id
    pure (.leaf a (← t.lookup a))
  | walk id a level hold => do
    let t ← Place.trees.find id
    let s ← Act.mapError .table (t.walk a level)
    let raw ← Act.load s.address
    match hold with
    | some n => Place.held.replace (fun (u, _) => u.letGo) n (t, s)
    | none => t.letGo
    pure (.entry t.format s.level raw)
  | readHeld hold => do
    let (t, s) ← Place.held.find hold
    pure (.entry t.format s.level (← Act.load s.address))
  | letGo hold => do pure (.flag (← Place.held.drop (fun (t, _) => t.letGo) hold))
  | retired id => do
    let t ← Place.trees.find id
    pure (.count (← t.retiredCount))
  | reclaim id => do
    let t ← Place.trees.find id
    t.reclaim
    pure (.count (← t.retiredCount))
  | drop id => do pure (.flag (← Place.trees.drop Tree.release id))

def RootCommand.perform : RootCommand → BenchAct α (Reply α)
  | create id kind cleaned => do
    let r ← Act.mapError .table (RegimeRoot.create kind (cleanerIf cleaned))
    Place.roots.replace (fun r => r.tree.release) id r
    pure (.word r.tree.root.bits)
  | makeCurrent id cpu tag => do
    let r ← Place.roots.find id
    r.makeCurrent (← processor cpu) tag
    pure .done
  | invalidate id cpu tag => do
    let r ← Place.roots.find id
    r.invalidate (← processor cpu) tag
    pure .done
  | update id p order => do
    let r ← Place.roots.find id
    pure (.covered (← Act.mapError .table (r.tree.update p order)))
  | lookup id a => do
    let r ← Place.roots.find id
    pure (.leaf a (← r.tree.lookup a))
  | drop id => do pure (.flag (← Place.roots.drop (fun r => r.tree.release) id))

/-- what a target attaches to: device domains are spaces of the pointer kind -/
def DmaTarget.resolve : DmaTarget → BenchAct α Attachment
  | plain a => pure a
  | space id => do
    let s ← Place.spaces.find id
    if s.root.kind = .eptp then pure s.attachment else Act.fail .noSuchObject

def SpaceCommand.perform : SpaceCommand → BenchAct α (Reply α)
  | create id kind cleaned tag => do
    let s ← Act.mapError .table (Space.create kind (cleanerIf cleaned) tag)
    Place.spaces.replace (fun s => s.tree.release) id s
    pure (.word s.tree.root.bits)
  | update id p order => do
    let s ← Place.spaces.find id
    pure (.covered (← Act.mapError .table (s.update p order)))
  | install id p pages => do
    let s ← Place.spaces.find id
    Act.mapError .table (s.install p pages)
    pure .done
  | lookup id a => do
    let s ← Place.spaces.find id
    pure (.leaf a (← s.lookup a))
  | invalidate id cpu => do
    let s ← Place.spaces.find id
    let c ← processor cpu
    Act.mapError .table (s.invalidate c)
    pure .done
  | activate id cpu => do
    let s ← Place.spaces.find id
    let c ← processor cpu
    Act.mapError .table (s.activate c)
    pure .done
  | flushLocal id cpu => do
    let s ← Place.spaces.find id
    s.flushLocal (← processor cpu)
    pure .done
  | markDirty id cpu => do
    let s ← Place.spaces.find id
    s.markDirty (← processor cpu)
    pure .done
  | dirty id => do
    let s ← Place.spaces.find id
    pure (.cpus (← s.dirty))
  | state id => do
    let s ← Place.spaces.find id
    Act.view fun m => .space (s.state m).phase s.tag s.tree.root
  | attachment target => do pure (.attachment (← target.resolve))
  | drop id => do pure (.flag (← Place.spaces.drop (fun s => s.tree.release) id))

/-- the reply of an action that flushes processors -/
def flushing (body : Act (State α) TableError Nat) : BenchAct α (Reply α) := do
  match ← attempt body with
  | .ok flushed => pure (.flushing .done 1 flushed)
  | .error e => pure (.flushing (.ofTableError e) 0 0)

end NestedPaging.Bench
