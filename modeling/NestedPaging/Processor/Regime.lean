import NestedPaging.Format.Basic
import NestedPaging.Processor.Set

/-!
# Regimes

A regime value joins a tag (the virtual machine or the device domain) and the address of a root
table. A processor loads such a value, and what it caches of the tables carries it. `LoadedRoots`
records the value each processor loaded last, where zero stands for nothing.
-/

namespace NestedPaging

/-- the kinds of regime -/
inductive Regime where
  /-- stage 2 of AArch64: the tag above a stage-2 root -/
  | vttbr
  /-- extended page tables: the pointer alone is the tag -/
  | eptp
  /-- stage 2 without hardware, for counting what would have been done -/
  | counting
  deriving DecidableEq, Inhabited

/-- a virtual machine or a device domain -/
structure RegimeTag where
  bits : UInt16
  deriving DecidableEq, Inhabited

def RegimeTag.text (t : RegimeTag) : String := "RegimeId(" ++ toString t.bits.toNat ++ ")"

namespace Regime

/-- the tables that the regime's hardware walks -/
def format : Regime → Format
  | vttbr => .stage2
  | eptp => .extended
  | counting => .stage2

/-- the value that is loaded for `root` under `tag` -/
def compose : Regime → RegimeTag → PhysAddr → Word
  | eptp, _, root => root.bits ||| ((Format.extended.rootLevel.toUInt64 <<< 3) ||| 6)
  | _, tag, root => (tag.bits.toUInt64 <<< 48) ||| root.bits

end Regime

/-- the value loaded on each processor -/
structure LoadedRoots where
  slots : Vector Word maxProcessors := Vector.replicate _ 0

namespace LoadedRoots

instance : Inhabited LoadedRoots := ⟨{}⟩

def current (l : LoadedRoots) (c : CpuId) : Word := l.slots[c]

/-- record `v` for `c` -/
def replace (l : LoadedRoots) (c : CpuId) (v : Word) : LoadedRoots := ⟨l.slots.set c v⟩

/-- forget what `c` had loaded, so that the next switch loads again -/
def reset (l : LoadedRoots) (c : CpuId) : LoadedRoots := l.replace c 0

theorem current_replace (l : LoadedRoots) (c d : CpuId) (v : Word) :
    (l.replace c v).current d = if c = d then v else l.current d := by
  simp [current, replace, Vector.getElem_set, Fin.ext_iff]

end LoadedRoots

/-- a value for each kind of regime -/
structure PerRegime (α : Type) where
  vttbr : α
  eptp : α
  counting : α

namespace PerRegime
variable {α : Type}

instance [Inhabited α] : Inhabited (PerRegime α) := ⟨⟨default, default, default⟩⟩

def get (p : PerRegime α) : Regime → α
  | .vttbr => p.vttbr
  | .eptp => p.eptp
  | .counting => p.counting

def modify (p : PerRegime α) (k : Regime) (f : α → α) : PerRegime α :=
  match k with
  | .vttbr => { p with vttbr := f p.vttbr }
  | .eptp => { p with eptp := f p.eptp }
  | .counting => { p with counting := f p.counting }

theorem get_modify (p : PerRegime α) (k l : Regime) (f : α → α) :
    (p.modify k f).get l = if k = l then f (p.get l) else p.get l := by
  cases k <;> cases l <;> rfl

end PerRegime

/-- the loads and flushes of the counting regime -/
structure Tally where
  loads : Nat := 0
  flushes : Nat := 0
  lastFlush : Word := 0
  deriving DecidableEq, Inhabited

end NestedPaging
