import NestedPaging.Word

/-!
# Addresses

Host addresses and the addresses a guest or device uses are kept apart by a tag on the type.
Host memory is identity mapped, so a host address is also the pointer to what it names.
-/

namespace NestedPaging

/-- the two address spaces of second-stage paging -/
inductive AddrSpace where
  /-- output: host physical memory -/
  | host
  /-- input: guest-physical memory, or the I/O addresses of a device -/
  | guest
  deriving DecidableEq

/-- a byte address of the space `s` -/
structure Addr (s : AddrSpace) where
  bits : Word
  deriving DecidableEq, Hashable, Inhabited

/-- a host physical address -/
abbrev PhysAddr := Addr .host

/-- an address a guest or a device uses -/
abbrev GuestAddr := Addr .guest

/-- the bytes of a page -/
def pageSize : Word := 4096

namespace Addr
variable {s : AddrSpace}

/-- `align` is a power of two -/
def isAligned (a : Addr s) (align : Word) : Bool := a.bits &&& (align - 1) == 0

def isPageAligned (a : Addr s) : Bool := a.isAligned pageSize

/-- the address `n` bytes up, wrapping around -/
def add (a : Addr s) (n : Word) : Addr s := ⟨a.bits + n⟩

/-- the address `n` bytes up, unless there is none -/
def checkedAdd (a : Addr s) (n : Word) : Option (Addr s) :=
  if a.bits.toNat + n.toNat < UInt64.size then some (a.add n) else none

instance : Ord (Addr s) := ⟨fun a b => compare a.bits b.bits⟩

/-- the number of the page that holds `a` -/
def frame (a : Addr s) : Nat := a.bits.toNat / 4096

/-- the word of its page that holds `a` -/
def wordIndex (a : Addr s) : Fin 512 := ⟨a.bits.toNat / 8 % 512, Nat.mod_lt _ (by decide)⟩

end Addr

namespace PhysAddr

/-- the first byte of the page with number `n` -/
def ofFrame (n : Nat) : PhysAddr := ⟨(n * 4096).toUInt64⟩

/-- the identity-mapped pointer to `a` -/
def pointer (a : PhysAddr) : Word := a.bits

/-- the address of what an identity-mapped pointer points to -/
def ofPointer (p : Word) : PhysAddr := ⟨p⟩

theorem ofPointer_pointer (a : PhysAddr) : ofPointer (pointer a) = a := rfl

def text (a : PhysAddr) : String := "PhysAddr(" ++ hex a.bits.toNat ++ ")"

end PhysAddr

namespace GuestAddr

def text (a : GuestAddr) : String := "GuestPhysAddr(" ++ hex a.bits.toNat ++ ")"

end GuestAddr

end NestedPaging
