import NestedPaging.Rights

/-!
# AArch64 stage-2 entries

Three levels with a 4 kB granule take 39 address bits. A leaf may stand at level 0 or 1.

The two execute-never bits tell user from supervisor mode only on a processor that separates them
(`split`). Elsewhere the upper bit alone counts, and it denies execution only when both modes lose
it.
-/

namespace NestedPaging.Stage2

def levels : Nat := 3
def topLeafLevel : Nat := 1

def valid : Word := Word.single 0
/-- a table above level 0, and a page at level 0 -/
def notBlock : Word := Word.single 1
def readable : Word := Word.single 6
def writable : Word := Word.single 7
def accessed : Word := Word.single 10
def neverLow : Word := Word.single 53
def neverHigh : Word := Word.single 54
/-- a bit the processor ignores: the mapping belongs to the hypervisor -/
def hypervisor : Word := Word.single 55

def tableBits : Word := notBlock ||| valid

/-- the execute-never bits -/
def executeNever (p : Perms) (split : Bool) : Word :=
  let deniedSuper := !p.execSuper
  let deniedUser := !p.execUser
  (if deniedUser && (deniedSuper || split) then neverHigh else 0)
    ||| (if split && deniedSuper != deniedUser then neverLow else 0)

/-- normal types repeat their policy for inner and outer caches, device types start at zero -/
def memoryField (t : MemType) : Nat :=
  if t.isDevice then t.code - MemType.deviceNGnRnE.code else t.code * 4 + t.code

/-- the bits of a leaf apart from its address, and nothing if no access is granted -/
def leafBits (split : Bool) (level : Nat) (a : Attrs) : Word :=
  if a.perms.grantsAccess then
    accessed ||| valid ||| ((memoryField a.memory).toUInt64 <<< 2)
      ||| (a.share.code.toUInt64 <<< 8) ||| executeNever a.perms split
      ||| (if level = 0 then notBlock else 0)
      ||| (if a.perms.read then readable else 0)
      ||| (if a.perms.write then writable else 0)
      ||| (if a.perms.hypervisor then hypervisor else 0)
  else 0

def perms (raw : Word) : Perms :=
  if raw.bit 0 then
    { read := raw.bit 6
      write := raw.bit 7
      execUser := !raw.bit 54
      execSuper := raw.bit 54 == raw.bit 53
      hypervisor := raw.bit 55 }
  else .none

def memType (raw : Word) : MemType :=
  let field := raw.field 2 4
  let code := if field / 4 = 0 then MemType.deviceNGnRnE.code + field % 4 else field % 4
  (MemType.ofCode? code).getD .deviceNGnRnE

def attrs (raw : Word) : Attrs :=
  ⟨perms raw, memType raw, .ofCode (raw.field 8 2)⟩

def isPresent (raw : Word) : Bool := raw.bit 0

def isTable (raw : Word) (level : Nat) : Bool := 0 < level && raw.bit 0 && raw.bit 1

end NestedPaging.Stage2
