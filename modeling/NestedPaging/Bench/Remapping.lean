import NestedPaging.Bench.Trees

/-!
# Commands on remapping structures, units and platforms
-/

namespace NestedPaging.Bench
variable {α : Type}

/-- a reply that an entry may be missing from -/
def entryReply : Option EntryWords → Reply α
  | some w => .words w
  | none => .nothing

/-- push `count` descriptors, the low word growing by `step` -/
def pushMany (q : InvalidationQueue) (d : Descriptor) (step : Word) :
    Nat → Act (State α) RemapError Unit
  | 0 => pure ()
  | count + 1 => do
    q.push d
    pushMany q { d with lo := d.lo + step } step count

def TableCommand.perform : TableCommand → BenchAct α (Reply α)
  | newQueue id => do
    let base ← Act.allocOr (.remap .insufficientMemory) 0
    let q ← InvalidationQueue.create base
    Place.queues.put id q
    pure (.word base.bits)
  | push id d count step => do
    let q ← Place.queues.find id
    Act.mapError .remap (pushMany q d step count)
    pure .done
  | moveHead id head => do
    let q ← Place.queues.find id
    Act.mapError .remap (q.moveHead head)
    pure .done
  | pointers id => do
    let q ← Place.queues.find id
    pure (.pointers (← q.pointers))
  | slot id i => do
    let q ← Place.queues.find id
    if ringSlots ≤ i then Act.refuse
    Act.view fun m => .slot (q.descriptor m.memory i) (q.slotAddress i)
  | newContexts id => do
    let t ← Act.mapError .remap (ContextTables.create .platform)
    Place.contexts.replace ContextTables.drop id t
    pure (.word t.root.bits)
  | attach id r a => do
    let t ← Place.contexts.find id
    Act.mapError .remap (t.attach r a)
    pure .done
  | detach id r => do
    let t ← Place.contexts.find id
    t.detach r
    pure .done
  | contextEntry id r => do
    let t ← Place.contexts.find id
    Act.view fun m => entryReply (t.entry? m.memory r)
  | dropContexts id => do pure (.flag (← Place.contexts.drop ContextTables.drop id))
  | newInterrupts id => do
    let t ← Act.mapError .remap (InterruptTable.create .platform)
    Place.interrupts.replace InterruptTable.drop id t
    pure (.interrupts t)
  | setInterrupt id i r => do
    let t ← Place.interrupts.find id
    t.set i r
    pure .done
  | interruptEntry id i => do
    let t ← Place.interrupts.find id
    pure (.words (← t.entry i))
  | dropInterrupts id => do pure (.flag (← Place.interrupts.drop InterruptTable.drop id))

/-- one access to a register -/
def RegisterCommand.perform (c : RegisterCommand) (r : RegisterFile) : BenchAct α (Reply α) :=
  match c.value, c.wide with
  | none, false => do pure (.word (← r.read32 c.offset).toUInt64)
  | none, true => do pure (.word (← r.read64 c.offset))
  | some v, false => do
    r.write32 c.offset v.toUInt32
    pure .done
  | some v, true => do
    r.write64 c.offset v
    pure .done

/-- change the device `id` -/
def changeDevice (id : Id) (f : Memory → Device → Device) : BenchAct α (Reply α) := do
  Act.changeDevice (← Place.devices.find id) f
  pure .done

def DeviceCommand.perform : DeviceCommand → BenchAct α (Reply α)
  | newPage id ones => do
    let page ← Act.allocOr (.remap .insufficientMemory) (if ones then 0xffffffffffffffff else 0)
    Place.pages.put id page
    pure (.word page.bits)
  | accessPage id c => do c.perform (.mapped (← Place.pages.find id))
  | pageUnit id base queued => do
    let registers := RegisterFile.mapped (← Place.pages.find id)
    let u ← Act.mapError .remap (Remapper.create base registers queued .platform)
    let version ← registers.read32 Register.version
    let tail ← registers.read64 Register.queueTail
    u.drop
    pure (.pageUnit u version tail)
  | create id caps => do
    let cell ← fun _ m =>
      let (cell, devices) := m.devices.fresh
        { label := id, unit := .create caps, allowance := some accessLimit }
      .ok cell { m with devices }
    Place.devices.put id cell
    pure .done
  | script id answers =>
    changeDevice id fun _ d => answers.foldl (fun d (offset, w) => d.script offset [w]) d
  | stall id reads => changeDevice id fun _ d => d.stall reads
  | release id => changeDevice id fun memory d => d.release memory
  | forgetActs id => changeDevice id fun _ d => { d with unit := { d.unit with acted := #[] } }
  | fault id i r => do
    Act.injectFault (← Place.devices.find id) i r
    pure .done
  | raise id bits => do
    Act.raiseFaults (← Place.devices.find id) bits
    pure .done
  | access id c => do c.perform (.device (← Place.devices.find id))
  | state id => do
    let cell ← Place.devices.find id
    Act.view fun m => .device (m.devices.get cell).unit

def UnitCommand.perform : UnitCommand → BenchAct α (Reply α)
  | create id device base queued => do
    let registers := RegisterFile.device (← Place.devices.find device)
    let u ← Act.mapError .remap (Remapper.create base registers queued .platform)
    Place.units.replace Remapper.drop id u
    pure (.unit u)
  | start id root interrupts event => do
    let u ← Place.units.find id
    Act.mapError .remap (u.start root interrupts event)
    pure .done
  | command id bits => do
    let u ← Place.units.find id
    u.command bits
    pure .done
  | invalidateContexts id => do
    let u ← Place.units.find id
    Act.mapError .remap u.invalidateContexts
    pure .done
  | invalidateDomain id domain => do
    let u ← Place.units.find id
    Act.mapError .remap (u.invalidateDomain domain)
    pure .done
  | invalidateInterrupts id remapping => do
    let u ← Place.units.find id
    Act.mapError .remap (u.invalidateInterrupts remapping)
    pure .done
  | handleFaults id => do
    let u ← Place.units.find id
    pure (.count (← u.handleFaults))
  | drop id => do pure (.flag (← Place.units.drop Remapper.drop id))

def PlatformCommand.perform : PlatformCommand → BenchAct α (Reply α)
  | create id config => do
    let p ← Act.mapError .remap (Platform.create config .platform)
    Place.platforms.replace Platform.drop id p
    pure (.platform p)
  | addUnit id device base => do
    let p ← Place.platforms.find id
    let registers := RegisterFile.device (← Place.devices.find device)
    Place.platforms.put id (← Act.mapError .remap (p.addUnit base registers))
    pure .done
  | startAll id => do
    let p := (← Place.platforms.find id).decideRemapping
    Place.platforms.put id p
    Act.mapError .remap p.startUnits
    pure .done
  | handleFaults id => do
    let p ← Place.platforms.find id
    pure (.count (← p.handleFaults))
  | unit id base => do
    match (← Place.platforms.find id).unit? base with
    | some u => pure (.unit u)
    | none => pure .nothing
  | configure id base target rid enable => do
    let p ← Place.platforms.find id
    let a ← target.resolve
    Act.mapError .remap (p.configure base a rid enable)
    pure .done
  | routeInterrupt id i r => do
    let p ← Place.platforms.find id
    Act.mapError .remap (p.routeInterrupt i r)
    pure .done
  | invalidateDomain id domain => do
    let p ← Place.platforms.find id
    Act.mapError .remap (p.invalidateDomain domain)
    pure .done
  | state id => do pure (.platform (← Place.platforms.find id))
  | contextEntry id r => do
    let p ← Place.platforms.find id
    Act.view fun m => entryReply (p.contexts.entry? m.memory r)
  | interruptEntry id i => do
    let p ← Place.platforms.find id
    pure (.words (← p.interruptTable.entry i))
  | drop id => do pure (.flag (← Place.platforms.drop Platform.drop id))

/-- the sites of the units that a bring-up finds -/
def findSites : List (Word × Id) → BenchAct α (List UnitSite)
  | [] => pure []
  | (base, device) :: rest => do
    let registers := RegisterFile.device (← Place.devices.find device)
    pure (⟨base, registers⟩ :: (← findSites rest))

def StageCommand.perform : StageCommand → BenchAct α (Reply α)
  | bringUp id config units onCpu => do
    let sites ← findSites units
    let cleaner := if onCpu then Cleaner.conservative else .platform
    let s ← Act.mapError .stage (SecondStage.bringUp config cleaner sites)
    Place.stages.replace SecondStage.drop id s
    Act.view fun m => .stage s m.splitExecute
  | processorOnline id cpu => do
    let _ ← Place.stages.find id
    SecondStage.processorOnline (← processor cpu)
    pure .done
  | createGuest id tag space => do
    let _ ← Place.stages.find id
    let s ← Act.mapError .stage (SecondStage.createGuest tag)
    Place.spaces.replace (fun s => s.tree.release) space s
    pure (.word s.tree.root.bits)
  | createDomain id tag space => do
    let stage ← Place.stages.find id
    let s ← Act.mapError .stage (stage.createDomain tag)
    Place.spaces.replace (fun s => s.tree.release) space s
    pure (.word s.tree.root.bits)
  | assign id base target rid enable => do
    let s ← Place.stages.find id
    let a ← target.resolve
    Act.mapError .stage (s.assign base a rid enable)
    pure .done
  | routeInterrupt id i r => do
    let s ← Place.stages.find id
    Act.mapError .stage (s.routeInterrupt i r)
    pure .done
  | handleFaults id => do
    let s ← Place.stages.find id
    pure (.count (← s.handleFaults))
  | contextEntry id r => do
    let s ← Place.stages.find id
    Act.view fun m => entryReply (s.platform.contexts.entry? m.memory r)
  | interruptEntry id i => do
    let s ← Place.stages.find id
    pure (.words (← s.platform.interruptTable.entry i))
  | state id => do pure (.platform (← Place.stages.find id).platform)
  | drop id => do pure (.flag (← Place.stages.drop SecondStage.drop id))

end NestedPaging.Bench
