import NestedPaging.Rights

/-!
# Extended page table entries

Four levels with a 4 kB granule take 48 address bits. A leaf may stand at levels 0, 1 and 2.
DMA remapping units walk the same layout. An entry without any access bit is absent, shareability
is not stored, and all device types are stored alike.
-/

namespace NestedPaging.Extended

def levels : Nat := 4
def topLeafLevel : Nat := 2

def readable : Word := Word.single 0
def writable : Word := Word.single 1
def execSuper : Word := Word.single 2
/-- a leaf above level 0 -/
def large : Word := Word.single 7
def accessed : Word := Word.single 8
def execUser : Word := Word.single 10
/-- a bit the hardware ignores: the mapping belongs to the hypervisor -/
def hypervisor : Word := Word.single 52

def tableBits : Word := readable ||| writable ||| execSuper ||| execUser

def memoryField : MemType → Nat
  | .writeBack => 6
  | .writeThrough => 4
  | .nonCacheable => 1
  | _ => 0

/-- the bits of a leaf apart from its address, and nothing if no access is granted -/
def leafBits (level : Nat) (a : Attrs) : Word :=
  if a.perms.grantsAccess then
    accessed ||| ((memoryField a.memory).toUInt64 <<< 3)
      ||| (if 0 < level then large else 0)
      ||| (if a.perms.read then readable else 0)
      ||| (if a.perms.write then writable else 0)
      ||| (if a.perms.execSuper then execSuper else 0)
      ||| (if a.perms.execUser then execUser else 0)
      ||| (if a.perms.hypervisor then hypervisor else 0)
  else 0

def isPresent (raw : Word) : Bool := raw.bit 0 || raw.bit 1 || raw.bit 2 || raw.bit 10

def perms (raw : Word) : Perms :=
  if isPresent raw then
    { read := raw.bit 0
      write := raw.bit 1
      execUser := raw.bit 10
      execSuper := raw.bit 2
      hypervisor := raw.bit 52 }
  else .none

def memType (raw : Word) : MemType :=
  match raw.field 3 3 with
  | 6 => .writeBack
  | 4 => .writeThrough
  | 1 => .nonCacheable
  | _ => .deviceNGnRnE

def attrs (raw : Word) : Attrs := ⟨perms raw, memType raw, .inner⟩

def isTable (raw : Word) (level : Nat) : Bool := 0 < level && isPresent raw && !raw.bit 7

end NestedPaging.Extended
