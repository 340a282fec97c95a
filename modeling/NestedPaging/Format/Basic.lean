import NestedPaging.Address
import NestedPaging.Granule
import NestedPaging.Format.Stage2
import NestedPaging.Format.Extended

/-!
# Table formats

A tree has `levels` levels of 512-entry tables, numbered from 0 (4 kB leaves) to the root. An
entry at level `l` covers `2 ^ levelOrder l` pages. All formats keep the output address in bits
47:12.

The encoders take `split`, whether user and supervisor execution are told apart. Only stage-2
entries depend on it.
-/

namespace NestedPaging

/-- address bits that select an entry of one level -/
def indexBits : Nat := 9

/-- the pages covered by one entry, as an order, which has 32 bits -/
def levelOrder (level : Nat) : Nat := level * indexBits % UInt32.size

/-- the output address bits of an entry -/
def addressMask : Word := 0x0000fffffffff000

/-- the address that an entry holds -/
def entryAddress (raw : Word) : PhysAddr := ⟨raw &&& addressMask⟩

/-- the layouts of entries -/
inductive Format where
  | stage2
  | extended
  deriving DecidableEq, Inhabited

namespace Format

def levels : Format → Nat
  | stage2 => Stage2.levels
  | extended => Extended.levels

/-- the highest level at which a leaf may be written -/
def topLeafLevel : Format → Nat
  | stage2 => Stage2.topLeafLevel
  | extended => Extended.topLeafLevel

/-- the level of the root table -/
def rootLevel (f : Format) : Nat := f.levels - 1

/-- the bits of an entry that points to a table, apart from the address -/
def tableBits : Format → Word
  | stage2 => Stage2.tableBits
  | extended => Extended.tableBits

/-- the bits of a leaf apart from its address, and zero if `a` grants no access -/
def leafBits (f : Format) (split : Bool) (level : Nat) (a : Attrs) : Word :=
  match f with
  | stage2 => Stage2.leafBits split level a
  | extended => Extended.leafBits level a

/-- what a leaf grants -/
def attrs : Format → Word → Attrs
  | stage2 => Stage2.attrs
  | extended => Extended.attrs

/-- does an entry map anything? -/
def isPresent : Format → Word → Bool
  | stage2 => Stage2.isPresent
  | extended => Extended.isPresent

/-- does an entry found at `level` point to a table? -/
def isTable : Format → Word → Nat → Bool
  | stage2 => Stage2.isTable
  | extended => Extended.isTable

/-- the bits of an input address -/
def inputBits (f : Format) : Nat := 12 + f.levels * indexBits

/-- the largest order of a single update -/
def maxOrder (f : Format) : Nat := f.levels * indexBits

/-- is `a` in the input space? -/
def inRange (f : Format) (a : GuestAddr) : Bool := a.bits.toNat < 1 <<< f.inputBits

theorem levels_le (f : Format) : f.levels ≤ 4 := by cases f <;> decide

theorem levelOrder_eq (f : Format) {level : Nat} (h : level ≤ f.levels) :
    levelOrder level = level * indexBits :=
  Nat.mod_eq_of_lt (by have := f.levels_le; simp only [indexBits, UInt32.size]; omega)

theorem levels_eq (f : Format) : f.levels = f.rootLevel + 1 := by cases f <;> rfl

theorem topLeafLevel_lt (f : Format) : f.topLeafLevel < f.rootLevel := by cases f <;> decide

end Format

/-- the entry of a table at `level` that `a` selects -/
def tableIndex (a : GuestAddr) (level : Nat) : Nat :=
  (a.bits >>> (12 + levelOrder level).toUInt64).toNat % 512

/-- a leaf, as a lookup finds it -/
structure Leaf where
  /-- the output address of its first page -/
  base : PhysAddr
  /-- the pages it covers -/
  order : Nat
  attrs : Attrs
  /-- its entry -/
  raw : Word
  deriving DecidableEq

namespace Leaf

/-- the output address of `a` -/
def physAddr (l : Leaf) (a : GuestAddr) : PhysAddr :=
  l.base.add (a.bits &&& (orderBytes l.order - 1))

end Leaf

/-- the leaf with the entry `raw` at `level` -/
def Format.leaf (f : Format) (level : Nat) (raw : Word) : Leaf :=
  ⟨entryAddress raw, levelOrder level, f.attrs raw, raw⟩

end NestedPaging
