/-!
# Processors and sets of them
-/

namespace NestedPaging

/-- the processors the library supports -/
def maxProcessors : Nat := 128

/-- a processor -/
abbrev CpuId := Fin maxProcessors

/-- a set of processors, one bit each -/
structure CpuSet where
  mask : BitVec maxProcessors := 0
  deriving DecidableEq, Inhabited

namespace CpuSet

def empty : CpuSet := {}

def all : CpuSet := ⟨BitVec.allOnes _⟩

def contains (s : CpuSet) (c : CpuId) : Bool := s.mask.getLsbD c

def insert (s : CpuSet) (c : CpuId) : CpuSet := ⟨s.mask ||| BitVec.twoPow _ c⟩

def erase (s : CpuSet) (c : CpuId) : CpuSet := ⟨s.mask &&& ~~~BitVec.twoPow _ c⟩

def isEmpty (s : CpuSet) : Bool := s.mask == 0

/-- the members in ascending order -/
def toList (s : CpuSet) : List CpuId := (List.finRange _).filter s.contains

@[simp] theorem contains_empty (c : CpuId) : empty.contains c = false := by
  simp [empty, contains]

@[simp] theorem contains_all (c : CpuId) : all.contains c = true := by
  simp [all, contains]

@[simp] theorem contains_insert (s : CpuSet) (c d : CpuId) :
    (s.insert c).contains d = (s.contains d || decide (c = d)) := by
  simp only [contains, insert, BitVec.getLsbD_or, BitVec.getLsbD_twoPow, Fin.ext_iff]
  have := d.isLt
  simp [c.isLt]

@[simp] theorem contains_erase (s : CpuSet) (c d : CpuId) :
    (s.erase c).contains d = (s.contains d && !decide (c = d)) := by
  simp only [contains, erase, BitVec.getLsbD_and, BitVec.getLsbD_not, BitVec.getLsbD_twoPow,
    Fin.ext_iff]
  have := d.isLt
  simp [c.isLt, d.isLt]

@[simp] theorem mem_toList (s : CpuSet) (c : CpuId) : c ∈ s.toList ↔ s.contains c = true := by
  simp [toList]

end CpuSet

end NestedPaging
