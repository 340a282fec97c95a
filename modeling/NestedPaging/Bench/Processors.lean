import NestedPaging.Bench.State

/-!
# Host and processor commands
-/

namespace NestedPaging.Bench
variable {α : Type}

def HostCommand.perform : HostCommand → BenchAct α (Reply α)
  | newPool id => do
    Place.pools.put id {}
    pure .done
  | take id order ones => do
    let (grant, p) := (← Place.pools.find id).take order
    Place.pools.put id p
    match grant with
    | .block handle => pure (.block handle ones)
    | .nothing => pure .nothing
    | .badSize => Act.refuse
  | giveBack id handle order => do
    match (← Place.pools.find id).giveBack? handle order with
    | none => Act.refuse
    | some p =>
      Place.pools.put id p
      pure .done
  | limit id n => do
    Place.pools.put id ((← Place.pools.find id).limit n)
    pure .done
  | unlimited id => do
    Place.pools.put id (← Place.pools.find id).unlimited
    pure .done
  | poolUsage id => do pure (.pool (← Place.pools.find id))
  | newCleanLog id => do
    Place.cleanLogs.put id {}
    pure (.lineSize Cleaner.platform.lineSize)
  | clean id a len => do
    let l := (← Place.cleanLogs.find id).clean a len
    Place.cleanLogs.put id l
    pure (.count l.ranges.size)
  | covers id a len => do pure (.flag ((← Place.cleanLogs.find id).covers a len))

/-- change the set `id` by `f` of a processor -/
def changeSet (id : Id) (cpu : Nat) (f : CpuSet → CpuId → CpuSet) : BenchAct α CpuSet := do
  let s ← Place.sets.find id
  Place.sets.put id (f s (← processor cpu))
  pure s

def ProcessorCommand.perform : ProcessorCommand → BenchAct α (Reply α)
  | newSet id => do
    Place.sets.put id .empty
    pure .done
  | insert id cpu => do
    let _ ← changeSet id cpu .insert
    pure .done
  | erase id cpu => do
    let _ ← changeSet id cpu .erase
    pure .done
  | contains id cpu => do
    let s ← Place.sets.find id
    pure (.flag (s.contains (← processor cpu)))
  | takeOut id cpu => do
    let s ← changeSet id cpu .erase
    pure (.flag (s.contains (← processor cpu)))
  | insertAll id => do
    let _ ← Place.sets.find id
    Place.sets.put id .all
    pure .done
  | members id => do pure (.members (← Place.sets.find id))
  | newLoaded id => do
    Place.loaded.put id {}
    pure .done
  | current id cpu => do
    let l ← Place.loaded.find id
    pure (.word (l.current (← processor cpu)))
  | replace id cpu value => do
    let l ← Place.loaded.find id
    let c ← processor cpu
    Place.loaded.put id (l.replace c value)
    pure (.flag (l.current c != value))
  | reset id cpu => do
    let l ← Place.loaded.find id
    Place.loaded.put id (l.reset (← processor cpu))
    pure .done
  | forgetLoaded kind cpu => do
    Act.forgetLoaded kind (← processor cpu)
    pure .done
  | loadedOn kind cpu => do
    let c ← processor cpu
    Act.view fun m => .word ((m.loaded.get kind).current c)
  | tally clear => do
    let t ← Act.view (·.tally)
    if clear then Act.change fun m => { m with tally := {} }
    pure (.tally t)
  | encode f level a => Act.view fun m => .encoded f level (f.leafBits m.splitExecute level a)
  | setSplitExecute split => do
    Act.change fun m => { m with splitExecute := split }
    pure (.flag split)
  | splitExecute => Act.view fun m => .flag m.splitExecute

end NestedPaging.Bench
