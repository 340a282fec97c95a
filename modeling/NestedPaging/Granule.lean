import NestedPaging.Word

/-!
# Orders and granules

An order is the base-2 logarithm of a number of 4 kB pages. A granule is an order that one entry
of a table can cover.
-/

namespace NestedPaging

/-- the pages of a block; bits past the word are lost -/
def orderPages (order : Nat) : Word := 1 <<< order.toUInt64

/-- the bytes of a block; bits past the word are lost -/
def orderBytes (order : Nat) : Word := 4096 <<< order.toUInt64

/-- the blocks that one entry maps, with nine bits of the address a level -/
inductive Granule where
  | page4K
  | page2M
  | page1G
  | page512G
  deriving DecidableEq

namespace Granule

def ofOrder? : Nat → Option Granule
  | 0 => some page4K
  | 9 => some page2M
  | 18 => some page1G
  | 27 => some page512G
  | _ => none

def order : Granule → Nat
  | page4K => 0
  | page2M => 9
  | page1G => 18
  | page512G => 27

def bytes (g : Granule) : Word := orderBytes g.order

def isAligned (g : Granule) (n : Word) : Bool := n &&& (g.bytes - 1) == 0

/-- the least multiple from `n` up, wrapping around -/
def roundUp (g : Granule) (n : Word) : Word := (n + g.bytes - 1) &&& ~~~(g.bytes - 1)

/-- the greatest multiple up to `n` -/
def roundDown (g : Granule) (n : Word) : Word := n &&& ~~~(g.bytes - 1)

def isHuge (g : Granule) : Bool := g != page4K

def name : Granule → String
  | page4K => "Size4k"
  | page2M => "Size2M"
  | page1G => "Size1G"
  | page512G => "Size512G"

theorem ofOrder?_order (g : Granule) : ofOrder? g.order = some g := by cases g <;> rfl

theorem order_of_ofOrder? {n : Nat} {g : Granule} (h : ofOrder? n = some g) : g.order = n := by
  unfold ofOrder? at h
  split at h <;> simp_all [order] <;> subst h <;> rfl

end Granule

end NestedPaging
