import NestedPaging.Tree.Basic

/-!
# Walking down for an update

A walk for an update goes from the root to the level where entries will be written. On its way it
replaces a large leaf by a table of smaller leaves that map the same region (`split`). An absent
entry ends the walk when the update unmaps, and gets an empty table when it maps (`grow`).

Both take a page first and publish it only if the entry is unchanged. When another processor was
faster the page goes back, and the walk looks at the entry again. The number of tries is bounded
by how often other processors can still interfere.
-/

namespace NestedPaging

/-- what a walk does at an absent entry -/
inductive AtGap where
  /-- nothing is mapped below: stop -/
  | stop
  /-- put an empty table there -/
  | grow
  deriving DecidableEq

namespace Format

/-- the leaves, one level down from `level`, that map what the leaf `raw` maps -/
def splitEntries (f : Format) (split : Bool) (level : Nat) (raw : Word) : List Word :=
  let bits := f.leafBits split (level - 1) (f.attrs raw)
  let step := orderBytes (levelOrder (level - 1))
  (List.range 512).map fun i =>
    (((raw &&& addressMask) + i.toUInt64 * step) &&& addressMask) ||| bits

end Format

namespace Tree
variable {σ ε : Type}

/-- store `entries` in `s` and the slots after it -/
def initTable (s : Slot) : List Word → Act σ ε Unit
  | [] => pure ()
  | w :: ws => do
    Act.store s.address w
    initTable s.next ws

/-- let `s` point to the table `page` if it still holds `old`; else `page` goes back -/
def publishTable (t : Tree) (s : Slot) (old : Word) (page : PhysAddr) : Act σ ε Unit := do
  let found ← Act.publish s.address old (page.bits ||| t.format.tableBits)
  if found = old then t.clean s.address 8 else Act.freePage page

/-- publish an empty table in the absent entry `s` -/
def fillGap (t : Tree) (s : Slot) : Act σ TableError Unit := do
  let page ← Act.allocOr .insufficientMemory 0
  t.clean page 4096
  t.publishTable s 0 page

/-- replace the large leaf `raw` in `s` by a table of smaller leaves -/
def splitLeaf (t : Tree) (s : Slot) (raw : Word) : Act σ TableError Unit := do
  let page ← Act.allocOr .insufficientMemory 0
  let split ← Act.view (·.splitExecute)
  initTable ⟨page, 0, s.level - 1⟩ (t.format.splitEntries split s.level raw)
  t.clean page 4096
  t.publishTable s raw page

/-- the table that `s` points to after at most `tries` looks at it -/
def childWithin (t : Tree) (s : Slot) (gap : AtGap) : Nat → Act σ TableError (Option PhysAddr)
  | 0 => Act.stuck
  | tries + 1 => do
    let raw ← Act.load s.address
    if t.format.isTable raw s.level then return some (entryAddress raw)
    if t.format.isPresent raw then
      t.splitLeaf s raw
      childWithin t s gap tries
    else
      match gap with
      | .stop => return none
      | .grow =>
        t.fillGap s
        childWithin t s gap tries

/-- the table that `s` points to; each look but the last two loses a race -/
def child (t : Tree) (s : Slot) (gap : AtGap) : Act σ TableError (Option PhysAddr) := fun env m =>
  t.childWithin s gap (env.rank m.client + 2) env m

/-- the entry for `a` at `target`, from the table `table` that is `depth` levels above -/
def descend (t : Tree) (a : GuestAddr) (target : Nat) (gap : AtGap) :
    Nat → PhysAddr → Act σ TableError (Option Slot)
  | 0, table => pure (some (.through table a target))
  | depth + 1, table => do
    match ← t.child (.through table a (target + depth + 1)) gap with
    | some next => descend t a target gap depth next
    | none => pure none

/-- the entry for `a` at the level `target` -/
def reach (t : Tree) (a : GuestAddr) (target : Nat) (gap : AtGap) :
    Act σ TableError (Option Slot) :=
  t.descend a target gap (t.format.rootLevel - target) t.root

/-- the entry for `a` at `level`, with all tables above it in place. A walk stays under way until
the caller lets the entry go. -/
def walk (t : Tree) (a : GuestAddr) (level : Nat) : Act σ TableError Slot := do
  if t.format.levels ≤ level then Act.fail (.orderTooLarge (levelOrder level))
  if !t.format.inRange a then Act.fail (.outOfRange a.bits)
  Act.change t.enterWalk
  Act.orUndo t.leaveWalk do
    match ← t.reach a level .grow with
    | some s => pure s
    | none => Act.fail .insufficientMemory

/-- let an entry go that `walk` found -/
def letGo (t : Tree) : Act σ ε Unit := Act.change t.leaveWalk

end Tree

end NestedPaging
