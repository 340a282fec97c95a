import NestedPaging.Bench.Processors
import NestedPaging.Bench.Remapping

/-!
# Running steps

`run` performs a list of steps on an empty machine. Its environment is the bench's arena: the
lowest free page, as long as the budget lasts, after the steps of a hook that comes due.

Steps inside steps are bounded by how deep a step nests (`Step.depths`). Steps go down into those
inside them, and the steps of a hook may run below the lowest of these; a hook that is set
meanwhile lies inside the one that runs, and is less deep (`nestingBound`). Depth also bounds how
often hooks can still get in the way of a walk.
-/

namespace NestedPaging.Bench
variable {α : Type}

/-- the number of the first page of the arena -/
def arenaStart : Nat := 0x100000

/-- the pages of the arena -/
def arenaPages : Nat := 8192

/-- the lowest free page of the last `n` pages of the arena -/
def lowestFree (live : Std.HashSet Nat) : Nat → Option PhysAddr
  | 0 => none
  | n + 1 =>
    let frame := arenaStart + arenaPages - (n + 1)
    if live.contains frame then lowestFree live n else some (.ofFrame frame)

def changeClient (f : State α → State α) (m : Machine (State α)) : Machine (State α) :=
  { m with client := f m.client }

/-- count an allocation; steps of a hook that comes due run now -/
def countDown (inner : List (Step α) → Machine (State α) → Machine (State α))
    (m : Machine (State α)) : Machine (State α) :=
  match m.client.hook with
  | none => m
  | some h =>
    if h.countdown ≤ 1 then inner h.steps (changeClient (fun s => { s with hook := none }) m)
    else changeClient (fun s => { s with hook := some { h with countdown := h.countdown - 1 } }) m

/-- offer the lowest free page, if the budget allows -/
def offer (m : Machine (State α)) : Machine (State α) × Option PhysAddr :=
  if m.client.budget = some 0 then (m, none)
  else match lowestFree m.live arenaPages with
    | none => (m, none)
    | some p =>
      (changeClient (fun s =>
        { s with budget := s.budget.map (· - 1), taken := s.taken + 1 }) m, some p)

/-- how often hooks can still come due: a hook may set another that lies inside it -/
def hookRank (s : State α) : Nat :=
  match s.hook with
  | none => 0
  | some h => Step.depths h.steps + 1

/-- the bench's world; `inner` runs steps inside the present one -/
def environment (inner : List (Step α) → Machine (State α) → Machine (State α)) :
    Env (State α) :=
  { supply := fun m => offer (countDown inner m)
    rank := hookRank
    patience := accessLimit + 1 }

def Plain.perform : Plain α → BenchAct α (Reply α)
  | ready a => pure (.ready a)
  | budget n => do
    Act.change (changeClient fun s => { s with budget := n })
    pure .done
  | usage => Act.view fun m => .usage m.live.size m.client.taken
  | dump page => Act.view fun m =>
    let dumpOf (n : Nat) : PageDump := .ofMemory m.memory (.ofFrame n)
    match page with
    | some a => .page (dumpOf a.frame)
    | none => .dump ((m.live.toArray.qsort (· < ·)).toList.map dumpOf)
  | host c => c.perform
  | processor c => c.perform
  | tree c => c.perform
  | root c => c.perform
  | space c => c.perform
  | table c => c.perform
  | device c => c.perform
  | unit c => c.perform
  | platform c => c.perform
  | stage c => c.perform

def Command.perform (inner : List (Step α) → Machine (State α) → Machine (State α)) :
    Command α → BenchAct α (Reply α)
  | plain c => c.perform
  | hook nth steps => do
    Act.change (changeClient fun s =>
      { s with hook := if nth = 0 then none else some ⟨nth, steps⟩ })
    pure .done
  | sync id online steps => do
    let s ← Place.spaces.find id
    flushing (s.sync ⟨inner steps, online⟩)
  | destroy id online steps => do
    let s ← Place.spaces.find id
    flushing (s.destroy ⟨inner steps, online⟩)

/-- perform a command once -/
def Command.run (inner : List (Step α) → Machine (State α) → Machine (State α)) (c : Command α)
    (m : Machine (State α)) : Reply α × Machine (State α) :=
  match c.perform inner (environment inner) m with
  | .ok r m => (r, m)
  | .error (.failed e) m => (.ofRefusal e, m)
  | .error .refused m => (.refused, m)
  | .error .stuck m => (.stuck, m)

/-- perform a command `times` times, also after one that waits without end; the reply is the last
one -/
def Command.runTimes (inner : List (Step α) → Machine (State α) → Machine (State α))
    (c : Command α) : Nat → Reply α → Machine (State α) → Reply α × Machine (State α)
  | 0, r, m => (r, m)
  | times + 1, _, m =>
    let (r, m) := c.run inner m
    runTimes inner c times r m

def Step.run (inner : List (Step α) → Machine (State α) → Machine (State α)) (s : Step α)
    (m : Machine (State α)) : Reply α × Machine (State α) :=
  s.command.runTimes inner s.times .nothing m

/-- how many lists of steps can run inside one that nests at most `depth` deep: one for each level
down, then that of a hook, which nests less deep, and what can run inside that one -/
def nestingBound : Nat → Nat
  | 0 => 0
  | depth + 1 => (depth + 1) + 1 + nestingBound depth

/-- run steps with at most `bound` lists of steps inside each other, this one included, and note
their replies -/
def runInner : Nat → List (Step α) → Machine (State α) → Machine (State α)
  | 0, _, m => m
  | bound + 1, steps, m => steps.foldl (fun m s =>
      let (r, m) := s.run (runInner bound) m
      changeClient (fun s => { s with inner := s.inner.push r }) m) m

/-- what a step of a list gave -/
structure Answer (α : Type) where
  reply : Reply α
  /-- the replies of steps inside it, in order of completion -/
  inner : List (Reply α)
  /-- the events while it ran -/
  events : List Event
  /-- are the events only counted? -/
  quiet : Bool

/-- did the step wait without end? -/
def Answer.isStuck (a : Answer α) : Bool := a.reply matches .stuck

/-- forget what belongs to the last step -/
def startStep (m : Machine (State α)) : Machine (State α) :=
  let devices := m.devices.entries.map fun _ d => { d with allowance := some accessLimit }
  changeClient (fun s => { s with inner := #[] })
    { m with devices := { m.devices with entries := devices } }

/-- the events after the first `n` that are shown -/
def shownSince (n : Nat) (m : Machine (State α)) : List Event :=
  (m.trace.extract n m.trace.size).toList.filter fun e => e.text?.isSome

/-- run one step of a list -/
def Step.answer (bound : Nat) (s : Step α) (m : Machine (State α)) :
    Answer α × Machine (State α) :=
  let m := startStep m
  let n := m.trace.size
  let (r, m) := s.run (runInner bound) m
  (⟨r, m.client.inner.toList, shownSince n m, s.quiet⟩, m)

/-- run steps one after the other; one that waits without end is the last -/
def answers (bound : Nat) : List (Step α) → Machine (State α) →
    List (Answer α) × Machine (State α)
  | [], m => ([], m)
  | s :: rest, m =>
    let (a, m) := s.answer bound m
    if a.isStuck then ([a], m)
    else
      let (as, m) := answers bound rest m
      (a :: as, m)

/-- drop all objects that hold pages or walks -/
def dropEverything : BenchAct α Unit := do
  Place.held.dropAll fun (t, _) => t.letGo
  Place.trees.dropAll Tree.release
  Place.spaces.dropAll fun s => s.tree.release
  Place.roots.dropAll fun r => r.tree.release
  Place.contexts.dropAll ContextTables.drop
  Place.interrupts.dropAll InterruptTable.drop
  Place.units.dropAll Remapper.drop
  Place.platforms.dropAll Platform.drop
  Place.stages.dropAll SecondStage.drop

/-- what a list of steps gave -/
structure Outcome (α : Type) where
  answers : List (Answer α)
  /-- the events while everything was dropped -/
  dropped : List Event
  /-- the pages still in use after that -/
  live : Nat

/-- run steps on an empty machine, then drop everything -/
def run (steps : List (Step α)) : Outcome α :=
  let bound := nestingBound (Step.depths steps)
  let (as, m) := answers bound steps { client := {} }
  let n := m.trace.size
  let m := match dropEverything (environment (runInner bound)) m with
    | .ok _ m => m
    | .error _ m => m
  ⟨as, shownSince n m, m.live.size⟩

end NestedPaging.Bench
