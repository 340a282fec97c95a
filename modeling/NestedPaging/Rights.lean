import NestedPaging.Word

/-!
# What a mapping grants

`Attrs` describes a leaf apart from the format that stores it: the accesses it grants, the memory
type and the shareability domain. Attributes that grant no access stand for the absence of a
mapping.
-/

namespace NestedPaging

/-- the accesses a mapping grants, and who owns it -/
structure Perms where
  read : Bool := false
  write : Bool := false
  /-- executable in the guest's user mode -/
  execUser : Bool := false
  /-- executable in the guest's supervisor mode -/
  execSuper : Bool := false
  /-- owned by the hypervisor rather than the guest -/
  hypervisor : Bool := false
  deriving DecidableEq, Inhabited

namespace Perms

def none : Perms := {}
def readOnly : Perms := { read := true }
def writeOnly : Perms := { write := true }
def userExec : Perms := { execUser := true }
def superExec : Perms := { execSuper := true }
def owned : Perms := { hypervisor := true }
def readWrite : Perms := { read := true, write := true }

/-- every access from both guest modes -/
def full : Perms := { read := true, write := true, execUser := true, execSuper := true }

/-- bits from the fifth up are dropped -/
def ofBits (n : Nat) : Perms :=
  ⟨n.testBit 0, n.testBit 1, n.testBit 2, n.testBit 3, n.testBit 4⟩

def bits (p : Perms) : Nat :=
  p.read.toNat + 2 * p.write.toNat + 4 * p.execUser.toNat + 8 * p.execSuper.toNat
    + 16 * p.hypervisor.toNat

instance : OrOp Perms where
  or a b := ⟨a.read || b.read, a.write || b.write, a.execUser || b.execUser,
    a.execSuper || b.execSuper, a.hypervisor || b.hypervisor⟩

instance : AndOp Perms where
  and a b := ⟨a.read && b.read, a.write && b.write, a.execUser && b.execUser,
    a.execSuper && b.execSuper, a.hypervisor && b.hypervisor⟩

/-- does `a` have all that `b` has? -/
def contains (a b : Perms) : Bool := a &&& b == b

/-- a mapping without any of the four accesses is absent -/
def grantsAccess (p : Perms) : Bool := p.read || p.write || p.execUser || p.execSuper

/-- one letter for each part that is there, a dash for each that is not -/
def text (p : Perms) : String :=
  let letter (b : Bool) (c : Char) := if b then c else '-'
  String.ofList [letter p.read 'R', letter p.write 'W', letter p.execUser 'U',
    letter p.execSuper 'S', letter p.hypervisor 'K']

theorem ofBits_bits (p : Perms) : ofBits p.bits = p := by
  obtain ⟨r, w, u, s, k⟩ := p
  cases r <;> cases w <;> cases u <;> cases s <;> cases k <;> decide

end Perms

/-- memory types, normal memory first -/
inductive MemType where
  | nonCacheable
  | writeThrough
  | writeBack
  | deviceNGnRnE
  | deviceNGnRE
  | deviceNGRE
  | deviceGRE
  deriving DecidableEq, Inhabited

namespace MemType

/-- the number a memory type has in every format, from 1 up -/
def code : MemType → Nat
  | nonCacheable => 1
  | writeThrough => 2
  | writeBack => 3
  | deviceNGnRnE => 4
  | deviceNGnRE => 5
  | deviceNGRE => 6
  | deviceGRE => 7

def ofCode? : Nat → Option MemType
  | 1 => some nonCacheable
  | 2 => some writeThrough
  | 3 => some writeBack
  | 4 => some deviceNGnRnE
  | 5 => some deviceNGnRE
  | 6 => some deviceNGRE
  | 7 => some deviceGRE
  | _ => none

def isDevice (t : MemType) : Bool := deviceNGnRnE.code ≤ t.code

def name : MemType → String
  | nonCacheable => "MemNc"
  | writeThrough => "MemWt"
  | writeBack => "MemWb"
  | deviceNGnRnE => "DevNgnrne"
  | deviceNGnRE => "DevNgnre"
  | deviceNGRE => "DevNgre"
  | deviceGRE => "DevGre"

theorem ofCode?_code (t : MemType) : ofCode? t.code = some t := by cases t <;> rfl

end MemType

/-- shareability domains -/
inductive Shareability where
  | nonShareable
  | outer
  | inner
  deriving DecidableEq, Inhabited

namespace Shareability

def code : Shareability → Nat
  | nonShareable => 0
  | outer => 2
  | inner => 3

/-- only the low two bits count, and the reserved code 1 is non-shareable -/
def ofCode (n : Nat) : Shareability :=
  match n % 4 with
  | 2 => outer
  | 3 => inner
  | _ => nonShareable

def name : Shareability → String
  | nonShareable => "NonShareable"
  | outer => "Outer"
  | inner => "Inner"

theorem ofCode_code (s : Shareability) : ofCode s.code = s := by cases s <;> rfl

end Shareability

/-- a leaf mapping, apart from its addresses -/
structure Attrs where
  perms : Perms
  memory : MemType := .writeBack
  share : Shareability := .inner
  deriving DecidableEq, Inhabited

namespace Attrs

/-- ordinary memory: write-back and inner shareable -/
def ofPerms (p : Perms) : Attrs := { perms := p }

/-- what removes a mapping -/
def unmapped : Attrs := ofPerms .none

def text (a : Attrs) : String :=
  "PageAttrs \x7b perms: " ++ a.perms.text ++ ", ca: " ++ a.memory.name ++ ", sh: "
    ++ a.share.name ++ " \x7d"

end Attrs

end NestedPaging
