import NestedPaging.Address
import Std.Data.HashMap

/-!
# Word memory

Memory is a map from addresses to words, kept by pages of 512 words. A page that was never
written holds zeros. Addresses inside a word name that word.
-/

namespace NestedPaging

/-- the words of a page -/
abbrev Page := Vector Word 512

/-- a page of which every word is `w` -/
def Page.filled (w : Word) : Page := Vector.replicate 512 w

structure Memory where
  pages : Std.HashMap Nat Page := {}

namespace Memory

instance : Inhabited Memory := ⟨{}⟩

/-- page number `n` -/
def page (m : Memory) (n : Nat) : Page := m.pages.getD n (Page.filled 0)

def read (m : Memory) (a : PhysAddr) : Word := (m.page a.frame)[a.wordIndex]

def write (m : Memory) (a : PhysAddr) (w : Word) : Memory :=
  ⟨m.pages.alter a.frame fun p => some ((p.getD (Page.filled 0)).set a.wordIndex w)⟩

/-- let every word of page `n` be `w` -/
def fill (m : Memory) (n : Nat) (w : Word) : Memory := ⟨m.pages.insert n (Page.filled w)⟩

/-- the `n` words from `a` up -/
def words (m : Memory) (a : PhysAddr) (n : Nat) : List Word :=
  (List.range n).map fun i => m.read (a.add (i * 8).toUInt64)

/-- two addresses of one word -/
def SameWord (a b : PhysAddr) : Prop := a.frame = b.frame ∧ a.wordIndex = b.wordIndex

theorem page_write (m : Memory) (a : PhysAddr) (w : Word) (n : Nat) :
    (m.write a w).page n = if a.frame = n then (m.page n).set a.wordIndex w else m.page n := by
  unfold page write
  rw [Std.HashMap.getD_alter]
  by_cases h : a.frame = n
  · subst h
    simp [Std.HashMap.getD_eq_getD_getElem?]
  · simp [h]

theorem page_fill (m : Memory) (k n : Nat) (w : Word) :
    (m.fill k w).page n = if k = n then Page.filled w else m.page n := by
  simp [page, fill, Std.HashMap.getD_insert]

theorem read_write_same {a b : PhysAddr} (h : SameWord a b) (m : Memory) (w : Word) :
    (m.write a w).read b = w := by
  simp [read, page_write, h.1, h.2]

theorem read_write_other {a b : PhysAddr} (h : ¬ SameWord a b) (m : Memory) (w : Word) :
    (m.write a w).read b = m.read b := by
  unfold read
  rw [page_write]
  split
  · rename_i hf
    have hi : a.wordIndex ≠ b.wordIndex := fun hi => h ⟨hf, hi⟩
    have hv : a.wordIndex.val ≠ b.wordIndex.val := fun e => hi (Fin.ext e)
    simp [hv]
  · rfl

theorem read_fill (m : Memory) (k : Nat) (w : Word) (a : PhysAddr) :
    (m.fill k w).read a = if k = a.frame then w else m.read a := by
  unfold read
  rw [page_fill]
  split <;> simp [Page.filled]

end Memory

end NestedPaging
