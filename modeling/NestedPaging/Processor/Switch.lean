import NestedPaging.Tree.Basic

/-!
# Loading and flushing regimes

A processor loads a regime value only if it differs from what it loaded last. A flush of a regime
first makes it current, since some processors flush by the current tag.
-/

namespace NestedPaging

/-- a tree and the kind of regime that walks it -/
structure RegimeRoot where
  kind : Regime
  tree : Tree
  deriving DecidableEq

namespace Act
variable {σ ε : Type}

/-- make `v` the current regime of `c` -/
def loadRegime (k : Regime) (c : CpuId) (v : Word) : Act σ ε Unit := do
  note (.loaded k c v)
  if k = .counting then
    change fun m => { m with tally := { m.tally with loads := m.tally.loads + 1 } }

/-- drop what `c` cached for `v` -/
def flushRegime (k : Regime) (c : CpuId) (v : Word) : Act σ ε Unit := do
  note (.flushed k c v)
  if k = .counting then
    change fun m =>
      { m with tally := { m.tally with flushes := m.tally.flushes + 1, lastFlush := v } }

/-- load `v` on `c` unless it is loaded there -/
def makeCurrent (k : Regime) (c : CpuId) (v : Word) : Act σ ε Unit := do
  let old ← view fun m => (m.loaded.get k).current c
  change fun m => { m with loaded := m.loaded.modify k (·.replace c v) }
  if old ≠ v then loadRegime k c v

/-- forget what `c` had loaded -/
def forgetLoaded (k : Regime) (c : CpuId) : Act σ ε Unit := do
  note (.forgot k c)
  change fun m => { m with loaded := m.loaded.modify k (·.reset c) }

end Act

namespace RegimeRoot
variable {σ ε : Type}

/-- an empty tree for regimes of kind `k` -/
def create (k : Regime) (cleaner : Option Cleaner) : Act σ TableError RegimeRoot := do
  pure ⟨k, ← Tree.create k.format cleaner⟩

/-- the value that stands for this root under `tag` -/
def value (r : RegimeRoot) (tag : RegimeTag) : Word := r.kind.compose tag r.tree.root

/-- make this root, under `tag`, current on `c` -/
def makeCurrent (r : RegimeRoot) (c : CpuId) (tag : RegimeTag) : Act σ ε Unit :=
  Act.makeCurrent r.kind c (r.value tag)

/-- drop what `c` cached of this root under `tag` -/
def invalidate (r : RegimeRoot) (c : CpuId) (tag : RegimeTag) : Act σ ε Unit := do
  r.makeCurrent c tag
  Act.flushRegime r.kind c (r.value tag)

end RegimeRoot

end NestedPaging
