import NestedPaging.Proofs.Tree.Blocks

/-!
# Paths through a tree

`Format.path m a level p` lists the tables that `a` goes through in the memory `m`, from the table
`p` at `level` down to the one whose entry is none. A lookup depends on the entries along the path
and on nothing else:

* `path_congr`, `leafBelow_congr`   memories that agree along the path give the same path and leaf;
* `mem_path_congr`   a table stays on the path if the entries above it stay;
* `leafBelow_of_mem`   the leaf of the whole is that below any table of the path;
* `mem_path_of_block`   two addresses of one block share the path above it.
-/

namespace NestedPaging

open PhysAddr (IsPage)

namespace Format
variable (f : Format) {m n : Memory} {a b : GuestAddr} {p : PhysAddr} {level : Nat}
  {r r' : TableRef}

/-- what a lookup makes of the entry `raw`, found at `level`, that is no table -/
def leafOf (level : Nat) (raw : Word) : Option Leaf :=
  if f.isPresent raw then some (f.leaf level raw) else none

/-- the tables that `a` goes through, from the table `p` at `level` down -/
def path (m : Memory) (a : GuestAddr) : Nat → PhysAddr → List TableRef
  | 0, p => [⟨p, 0⟩]
  | level + 1, p =>
    let raw := m.entry p (tableIndex a (level + 1))
    ⟨p, level + 1⟩ ::
      if f.isTable raw (level + 1) then path m a level (entryAddress raw) else []

theorem isTable_level_zero (raw : Word) : f.isTable raw 0 = false := by cases f <;> rfl

theorem leafBelow_zero : f.leafBelow m a 0 p = f.leafOf 0 (m.entry p (tableIndex a 0)) := rfl

theorem leafBelow_succ : f.leafBelow m a (level + 1) p =
    if f.isTable (m.entry p (tableIndex a (level + 1))) (level + 1)
      then f.leafBelow m a level (entryAddress (m.entry p (tableIndex a (level + 1))))
      else f.leafOf (level + 1) (m.entry p (tableIndex a (level + 1))) := rfl

theorem leafBelow_of_not_table (h : f.isTable (m.entry p (tableIndex a level)) level = false) :
    f.leafBelow m a level p = f.leafOf level (m.entry p (tableIndex a level)) := by
  cases level with
  | zero => rfl
  | succ level => rw [leafBelow_succ, h]; rfl

theorem mem_path_zero : r ∈ f.path m a 0 p ↔ r = ⟨p, 0⟩ := List.mem_singleton

theorem mem_path_succ : r ∈ f.path m a (level + 1) p ↔ r = ⟨p, level + 1⟩ ∨
    f.isTable (m.entry p (tableIndex a (level + 1))) (level + 1) = true ∧
      r ∈ f.path m a level (entryAddress (m.entry p (tableIndex a (level + 1)))) := by
  rw [path, List.mem_cons]
  split
  · rename_i h
    simp [h]
  · rename_i h
    simp [h]

theorem head_mem_path (m : Memory) (a : GuestAddr) (level : Nat) (p : PhysAddr) :
    ⟨p, level⟩ ∈ f.path m a level p := by
  cases level with
  | zero => exact f.mem_path_zero.mpr rfl
  | succ level => exact f.mem_path_succ.mpr (.inl rfl)

theorem level_le_of_mem_path (h : r ∈ f.path m a level p) : r.level ≤ level := by
  induction level generalizing p with
  | zero =>
    rw [f.mem_path_zero.mp h]
  | succ level ih =>
    rcases f.mem_path_succ.mp h with rfl | ⟨_, h⟩
    · exact Nat.le_refl _
    · exact Nat.le_succ_of_le (ih h)

theorem level_le_of_not_table (hr : r ∈ f.path m a level p)
    (ht : f.isTable (m.entry r.table (tableIndex a r.level)) r.level = false)
    (h' : r' ∈ f.path m a level p) : r.level ≤ r'.level := by
  induction level generalizing p with
  | zero => rw [f.mem_path_zero.mp hr]; exact Nat.zero_le _
  | succ level ih =>
    rcases f.mem_path_succ.mp h' with rfl | ⟨hn, h'⟩
    · exact f.level_le_of_mem_path hr
    · rcases f.mem_path_succ.mp hr with rfl | ⟨_, hr⟩
      · rw [hn] at ht
        exact absurd ht.symm Bool.false_ne_true
      · exact ih hr h'

theorem leafBelow_of_mem (h : r ∈ f.path m a level p) :
    f.leafBelow m a level p = f.leafBelow m a r.level r.table := by
  induction level generalizing p with
  | zero => rw [f.mem_path_zero.mp h]
  | succ level ih =>
    rcases f.mem_path_succ.mp h with rfl | ⟨ht, h⟩
    · rfl
    · rw [leafBelow_succ, if_pos ht, ih h]

theorem child_mem_path {k : Nat} (h : r ∈ f.path m a level p) (hk : r.level = k + 1)
    (ht : f.isTable (m.entry r.table (tableIndex a (k + 1))) (k + 1) = true) :
    ⟨entryAddress (m.entry r.table (tableIndex a (k + 1))), k⟩ ∈ f.path m a level p := by
  induction level generalizing p with
  | zero =>
    rw [f.mem_path_zero.mp h] at hk
    exact absurd hk (Nat.succ_ne_zero k).symm
  | succ level ih =>
    rw [f.mem_path_succ]
    rcases f.mem_path_succ.mp h with rfl | ⟨hr, h⟩
    · obtain rfl : level = k := Nat.succ.inj hk
      exact .inr ⟨ht, f.head_mem_path ..⟩
    · exact .inr ⟨hr, ih h⟩

theorem eq_head_of_mem_path {c : PhysAddr} (h : ⟨c, level⟩ ∈ f.path m a level p) : c = p := by
  cases level with
  | zero => exact congrArg TableRef.table (f.mem_path_zero.mp h)
  | succ level =>
    rcases f.mem_path_succ.mp h with e | ⟨_, h⟩
    · exact congrArg TableRef.table e
    · have hle : level + 1 ≤ level := f.level_le_of_mem_path h
      omega

theorem exists_mem_path_above {c : PhysAddr} {l : Nat} (h : ⟨c, l⟩ ∈ f.path m a level p)
    (hl : l < level) : ∃ q, ⟨q, l + 1⟩ ∈ f.path m a level p := by
  induction level generalizing p with
  | zero => exact absurd hl (Nat.not_lt_zero l)
  | succ level ih =>
    rcases f.mem_path_succ.mp h with e | ⟨ht, h⟩
    · cases e
      exact absurd hl (Nat.lt_irrefl _)
    · rcases Nat.lt_succ_iff_lt_or_eq.mp hl with hlt | rfl
      · obtain ⟨q, hq⟩ := ih h hlt
        exact ⟨q, f.mem_path_succ.mpr (.inr ⟨ht, hq⟩)⟩
      · exact ⟨p, f.head_mem_path ..⟩

/-- a path has a table at each level above any of its tables -/
theorem exists_mem_path_at {k : Nat} (h : r ∈ f.path m a level p) (hr : r.level ≤ k) (hk : k ≤ level) :
    ∃ q, ⟨q, k⟩ ∈ f.path m a level p := by
  induction hr with
  | refl => exact ⟨r.table, h⟩
  | step _ ih =>
    obtain ⟨c, hc⟩ := ih (Nat.le_of_succ_le hk)
    exact f.exists_mem_path_above hc hk

/-- a path ends at an entry that is no table -/
theorem exists_end (m : Memory) (a : GuestAddr) (level : Nat) (p : PhysAddr) :
    ∃ r ∈ f.path m a level p, f.isTable (m.entry r.table (tableIndex a r.level)) r.level = false := by
  induction level generalizing p with
  | zero => exact ⟨_, f.head_mem_path .., f.isTable_level_zero _⟩
  | succ level ih =>
    by_cases ht : f.isTable (m.entry p (tableIndex a (level + 1))) (level + 1) = true
    · obtain ⟨r, hr, hend⟩ := ih (entryAddress (m.entry p (tableIndex a (level + 1))))
      exact ⟨r, f.mem_path_succ.mpr (.inr ⟨ht, hr⟩), hend⟩
    · exact ⟨_, f.head_mem_path .., Bool.not_eq_true _ ▸ ht⟩

theorem entry_of_mem_path {c q : PhysAddr} {l : Nat} (hq : ⟨q, l + 1⟩ ∈ f.path m a level p)
    (hc : ⟨c, l⟩ ∈ f.path m a level p) :
    f.isTable (m.entry q (tableIndex a (l + 1))) (l + 1) = true ∧
      entryAddress (m.entry q (tableIndex a (l + 1))) = c := by
  induction level generalizing p with
  | zero => cases f.mem_path_zero.mp hq
  | succ level ih =>
    rcases f.mem_path_succ.mp hc with e | ⟨ht, hc⟩
    · -- the table at the top has none above it
      cases e
      have hle : level + 1 + 1 ≤ level + 1 := f.level_le_of_mem_path hq
      omega
    · rcases f.mem_path_succ.mp hq with e | ⟨_, hq⟩
      · cases e
        exact ⟨ht, (f.eq_head_of_mem_path hc).symm⟩
      · exact ih hq hc

/-! ## memories that agree along a path -/

theorem path_congr (h : ∀ r ∈ f.path m a level p,
      n.entry r.table (tableIndex a r.level) = m.entry r.table (tableIndex a r.level)) :
    f.path n a level p = f.path m a level p := by
  induction level generalizing p with
  | zero => rfl
  | succ level ih =>
    have h0 := h ⟨p, level + 1⟩ (f.head_mem_path ..)
    unfold path
    rw [h0]
    by_cases ht : f.isTable (m.entry p (tableIndex a (level + 1))) (level + 1) = true
    · simp only [ht, if_true]
      rw [ih fun r hr => h r (f.mem_path_succ.mpr (.inr ⟨ht, hr⟩))]
    · simp only [ht, if_false, Bool.false_eq_true]

theorem leafBelow_congr (h : ∀ r ∈ f.path m a level p,
      n.entry r.table (tableIndex a r.level) = m.entry r.table (tableIndex a r.level)) :
    f.leafBelow n a level p = f.leafBelow m a level p := by
  induction level generalizing p with
  | zero =>
    have h0 := h ⟨p, 0⟩ (f.head_mem_path ..)
    rw [leafBelow_zero, leafBelow_zero, h0]
  | succ level ih =>
    have h0 := h ⟨p, level + 1⟩ (f.head_mem_path ..)
    rw [leafBelow_succ, leafBelow_succ, h0]
    by_cases ht : f.isTable (m.entry p (tableIndex a (level + 1))) (level + 1) = true
    · rw [if_pos ht, if_pos ht, ih fun r hr => h r (f.mem_path_succ.mpr (.inr ⟨ht, hr⟩))]
    · rw [if_neg ht, if_neg ht]

theorem mem_path_congr (hr : r ∈ f.path m a level p)
    (h : ∀ r' ∈ f.path m a level p, r.level < r'.level →
      n.entry r'.table (tableIndex a r'.level) = m.entry r'.table (tableIndex a r'.level)) :
    r ∈ f.path n a level p := by
  induction level generalizing p with
  | zero => exact f.mem_path_zero.mpr (f.mem_path_zero.mp hr)
  | succ level ih =>
    rw [f.mem_path_succ]
    rcases f.mem_path_succ.mp hr with rfl | ⟨ht, hr⟩
    · exact .inl rfl
    · have hl := f.level_le_of_mem_path hr
      have h0 := h ⟨p, level + 1⟩ (f.head_mem_path ..) (Nat.lt_succ_of_le hl)
      rw [h0]
      exact .inr ⟨ht, ih hr fun r' hr' => h r' (f.mem_path_succ.mpr (.inr ⟨ht, hr'⟩))⟩

theorem mem_path_of_block (hl : level ≤ 4) (hb : a.block (r.level + 1) = b.block (r.level + 1))
    (hr : r ∈ f.path m a level p) : r ∈ f.path m b level p := by
  induction level generalizing p with
  | zero => exact f.mem_path_zero.mpr (f.mem_path_zero.mp hr)
  | succ level ih =>
    rw [f.mem_path_succ]
    rcases f.mem_path_succ.mp hr with rfl | ⟨ht, hr⟩
    · exact .inl rfl
    · have hle := f.level_le_of_mem_path hr
      rw [← tableIndex_congr hl (Nat.succ_le_succ hle) hb]
      exact .inr ⟨ht, ih (Nat.le_of_succ_le hl) hr⟩

end Format

namespace Tree
variable (t : Tree)

/-- the tables of the tree that `a` goes through, the root first -/
def path (m : Memory) (a : GuestAddr) : List TableRef :=
  t.format.path m a t.format.rootLevel t.root

theorem root_mem_path (m : Memory) (a : GuestAddr) :
    ⟨t.root, t.format.rootLevel⟩ ∈ t.path m a := t.format.head_mem_path ..

theorem child_mem_path {m : Memory} {a : GuestAddr} {p : PhysAddr} {k : Nat}
    (h : ⟨p, k + 1⟩ ∈ t.path m a)
    (ht : t.format.isTable (m.entry p (tableIndex a (k + 1))) (k + 1) = true) :
    ⟨entryAddress (m.entry p (tableIndex a (k + 1))), k⟩ ∈ t.path m a := by
  unfold path at h ⊢
  exact t.format.child_mem_path (r := ⟨p, k + 1⟩) h rfl ht

theorem leaf?_of_mem {m : Memory} {a : GuestAddr} {r : TableRef}
    (ha : t.format.inRange a = true) (h : r ∈ t.path m a) :
    t.leaf? m a = t.format.leafBelow m a r.level r.table := by
  unfold leaf?
  rw [if_pos ha, t.format.leafBelow_of_mem h]

end Tree

end NestedPaging
