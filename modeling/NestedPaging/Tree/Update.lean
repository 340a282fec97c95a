import NestedPaging.Tree.Walk
import NestedPaging.Tree.Retire

/-!
# Updates

An update maps or unmaps the naturally aligned run of up to `2 ^ order` pages at an address. It
writes entries at the highest level whose granule fits the alignment of the addresses and the
order, and never past the end of one table. The result is the order that was covered. `install` maps
or unmaps a range of any length, by updates of the largest order that the rest of the range allows.
-/

namespace NestedPaging

/-- a request to map pages at `gpa` to `phys`, or to unmap them if `attrs` grant no access -/
structure Mapping where
  gpa : GuestAddr
  phys : PhysAddr
  attrs : Attrs
  deriving DecidableEq

namespace Mapping

/-- does the request map, rather than unmap? -/
def maps (p : Mapping) : Bool := p.attrs.perms.grantsAccess

/-- can entries at `level` serve the request at `order`? -/
def fits (p : Mapping) (order level : Nat) : Bool :=
  let bytes := orderBytes (levelOrder level)
  levelOrder level ≤ order && p.gpa.isAligned bytes && (!p.maps || p.phys.isAligned bytes)

/-- the highest level up to `top` that fits, and 0 if none does -/
def leafLevel (p : Mapping) (order : Nat) : Nat → Nat
  | 0 => 0
  | top + 1 => if p.fits order (top + 1) then top + 1 else leafLevel p order top

/-- the order that one update covers with entries at `level`: the run is aligned to its own size
and stays inside one table -/
def covered (p : Mapping) (order level : Nat) : Nat :=
  min order (levelOrder level + alignUpTo indexBits (tableIndex p.gpa level))

/-- the `count` entries at `level` that serve the request -/
def entries (p : Mapping) (f : Format) (split : Bool) (level count : Nat) : List Word :=
  if p.maps then
    let bits := f.leafBits split level p.attrs
    let granule := orderBytes (levelOrder level)
    (List.range count).map fun i =>
      ((p.phys.bits + i.toUInt64 * granule) &&& addressMask) ||| bits
  else List.replicate count 0

end Mapping

namespace Format

/-- what is wrong with a request, if anything -/
def refusal? (f : Format) (p : Mapping) (order : Nat) : Option TableError :=
  if !p.gpa.isPageAligned then some (.misaligned p.gpa.bits)
  else if p.maps && !p.phys.isPageAligned then some (.misaligned p.phys.bits)
  else if f.maxOrder < order then some (.orderTooLarge order)
  else if !f.inRange p.gpa then some (.outOfRange p.gpa.bits)
  else none

end Format

namespace Tree
variable {σ ε : Type}

/-- store `entries` from `s` up; tables that they replace are retired -/
def overwrite (t : Tree) (s : Slot) : List Word → Act σ ε Unit
  | [] => pure ()
  | w :: ws => do
    let old ← Act.swap s.address w
    if t.format.isTable old s.level then t.retire ⟨entryAddress old, s.level - 1⟩
    overwrite t s.next ws

/-- an update whose arguments are in order -/
def apply (t : Tree) (p : Mapping) (order : Nat) : Act σ TableError Nat := do
  let level := p.leafLevel order t.format.topLeafLevel
  let covered := p.covered order level
  let count := 1 <<< (covered - levelOrder level)
  match ← t.reach p.gpa level (if p.maps then .grow else .stop) with
  | none => pure covered
  | some s =>
    let split ← Act.view (·.splitExecute)
    t.overwrite s (p.entries t.format split level count)
    t.clean s.address (count * 8)
    pure covered

/-- map or unmap up to `2 ^ order` pages; the result is the order covered -/
def update (t : Tree) (p : Mapping) (order : Nat) : Act σ TableError Nat :=
  match t.format.refusal? p order with
  | some e => Act.fail e
  | none => t.walking (t.apply p order)

end Tree

/-! ## ranges of any length -/

/-- the request `pages` pages further on -/
def Mapping.advance (p : Mapping) (pages : Nat) : Mapping :=
  let bytes := (pages * 4096).toUInt64
  { p with gpa := p.gpa.add bytes, phys := p.phys.add bytes }

/-- do `pages` pages from `a` up lie in the input space? -/
def Format.holds (f : Format) (a : GuestAddr) (pages : Nat) : Bool :=
  a.bits.toNat + pages * 4096 ≤ 1 <<< f.inputBits

namespace Tree
variable {σ : Type}

/-- serve the request for the remaining `pages` pages -/
def installFrom (t : Tree) (p : Mapping) (pages : Nat) : Act σ TableError Unit :=
  if _h : pages = 0 then pure ()
  else do
    let covered ← t.update p (min pages.log2 t.format.maxOrder)
    installFrom t (p.advance (1 <<< covered)) (pages - 1 <<< covered)
termination_by pages
decreasing_by
  have := Nat.two_pow_pos covered
  rw [Nat.one_shiftLeft]
  omega

/-- map or unmap `pages` pages with the largest leaves that alignment allows -/
def install (t : Tree) (p : Mapping) (pages : Nat) : Act σ TableError Unit :=
  if t.format.holds p.gpa pages then t.installFrom p pages
  else Act.fail (.outOfRange p.gpa.bits)

end Tree

end NestedPaging
