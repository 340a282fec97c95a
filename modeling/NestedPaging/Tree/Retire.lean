import NestedPaging.Tree.Basic

/-!
# Detached tables

A table that an update detaches stays allocated, in the tree's list, until it is certain that
nobody walks through it any more. `takeRetired` empties the list; `freeRetired` gives the pages of
its tables back once every software walk is over. `release` ends a tree: later calls do nothing.
-/

namespace NestedPaging

/-- the pages of the table `table` at `level`, each table after those below it -/
def Format.subtree (f : Format) (memory : Memory) : Nat → PhysAddr → List PhysAddr
  | 0, table => [table]
  | level + 1, table =>
    let below := (List.range 512).flatMap fun i =>
      let raw := memory.read (Slot.address ⟨table, i, level + 1⟩)
      if f.isTable raw (level + 1) then f.subtree memory level (entryAddress raw) else []
    below ++ [table]

namespace Tree
variable {σ ε : Type}

/-- put a detached table on the list -/
def retire (t : Tree) (r : TableRef) : Act σ ε Unit := do
  Act.note (.detached t.cell r.table)
  Act.change (t.changeState fun s => { s with retired := s.retired.push r })

/-- the detached tables; later ones start a new list -/
def takeRetired (t : Tree) : Act σ ε (List TableRef) := do
  let retired ← Act.view fun m => (t.state m).retired.toList
  Act.change (t.changeState fun s => { s with retired := #[] })
  pure retired

/-- give back every page of the table `table` at `level` and of those below -/
def freeSubtree (t : Tree) (level : Nat) (table : PhysAddr) : Act σ ε Unit := do
  let pages ← Act.view fun m => t.format.subtree m.memory level table
  pages.forM Act.freePage

/-- free detached tables once the walks that may reach them are over -/
def freeRetired (t : Tree) (retired : List TableRef) : Act σ ε Unit := do
  if retired.isEmpty then return
  if (← Act.view fun m => (t.state m).walkers) ≠ 0 then Act.stuck
  retired.forM fun r => t.freeSubtree r.level r.table

/-- free every table detached so far -/
def reclaim (t : Tree) : Act σ ε Unit := do
  let retired ← t.takeRetired
  t.freeRetired retired

/-- give back every page of the tree, the first time only -/
def release (t : Tree) : Act σ ε Unit := do
  let released ← Act.view fun m => (t.state m).released
  Act.change (t.changeState fun s => { s with released := true })
  if released then return
  t.reclaim
  t.freeSubtree t.format.rootLevel t.root

end Tree

end NestedPaging
