import NestedPaging.Proofs.Tree.Overwriting
import NestedPaging.Proofs.Tree.Requests

/-!
# The effect of a request on a tree

What the run of a request does to the tree when it is written to the table `q` that has the block
of the request's address. If `q` is on the path of the address, the view becomes the effect of the
request (`view_run_on`); if `q` was detached, nothing that is mapped changes (`view_run_off`). A
table leaves a path only if the request covers all that the table maps (`path_run`).
-/

namespace NestedPaging

theorem Mapping.inRange_of_covers {f : Format} {p : Mapping} {order level : Nat} {a : GuestAddr}
    (hl : level ≤ f.topLeafLevel) (hf : p.Fits order level) (hr : f.inRange p.gpa = true)
    (h : p.Covers (p.covered order level) a) : f.inRange a = true := by
  have hl4 := Nat.le_trans hl f.topLeafLevel_le
  obtain ⟨hb, _⟩ := (p.covers_iff hl4 hf a).mp h
  have htop := f.topLeafLevel_lt
  have e : a.block (f.rootLevel + 1) = p.gpa.block (f.rootLevel + 1) :=
    a.block_le_of_le (show level + 1 ≤ f.rootLevel + 1 by omega) hb
  rw [f.inRange_iff_root] at hr ⊢
  rw [e, hr]

namespace Tree
variable {t : Tree} {others : Nat → Prop} {own : Layout} {T : Tables} {q : PhysAddr} {x level : Nat}
  {a b : GuestAddr} {r : TableRef}

theorem mem_path_of_block {m : Memory}
    (hb : a.block (r.level + 1) = b.block (r.level + 1)) (hr : r ∈ t.path m a) :
    r ∈ t.path m b :=
  t.format.mem_path_of_block (Nat.le_succ_of_le t.format.rootLevel_le) hb hr

theorem Owns.mem_path_iff (h : t.Owns others own T) (hq : own q = some ⟨level, x⟩)
    (hb : b.block (level + 1) = x) (hon : ⟨q, level⟩ ∈ t.path T.memory b)
    (ha : t.format.inRange a = true) :
    ⟨q, level⟩ ∈ t.path T.memory a ↔ a.block (level + 1) = x := by
  constructor
  · intro hr
    exact (h.block_of_mem_path ha hq hr).symm
  · intro e
    exact mem_path_of_block (r := ⟨q, level⟩) (hb.trans e.symm) hon

theorem view_eq_none {m : Memory} (ha : ¬ t.format.inRange a = true) : t.view m a = none := by
  unfold view leaf?
  rw [if_neg ha, Option.map_none]

theorem inRun_iff {p : Mapping} {order : Nat} {split : Bool} (hl : level ≤ t.format.topLeafLevel)
    (hf : p.Fits order level) (ha : a.block (level + 1) = p.gpa.block (level + 1)) :
    Owns.InRun a level (tableIndex p.gpa level) (p.run t.format split order level)
      ↔ p.Covers (p.covered order level) a := by
  have hl4 := Nat.le_trans hl t.format.topLeafLevel_le
  unfold Owns.InRun
  rw [Mapping.length_run hl4, Mapping.covers_iff hl4 hf]
  exact ⟨fun e => ⟨ha, e⟩, fun e => e.2⟩

section
variable {p : Mapping} {order : Nat} (h : t.Owns others own T) (hl : level ≤ t.format.topLeafLevel)
  (hf : p.Fits order level) (hq : own q = some ⟨level, p.gpa.block (level + 1)⟩)
include h hl hf hq

theorem owns_run : t.Owns others own (T.overwrite t.format q level (tableIndex p.gpa level)
    (p.run t.format T.split order level)) := by
  have hl4 := Nat.le_trans hl t.format.topLeafLevel_le
  apply Owns.owns_overwrite hq h
  · rw [Mapping.length_run hl4]
    exact Mapping.run_le hl4 p order
  · exact fun w hw => Mapping.bare_run hl hf hw

theorem spares_run : T.Spares others (T.overwrite t.format q level (tableIndex p.gpa level)
    (p.run t.format T.split order level)) := by
  have hl4 := Nat.le_trans hl t.format.topLeafLevel_le
  apply Owns.spares_overwrite hq h
  · rw [Mapping.length_run hl4]
    exact Mapping.run_le hl4 p order
  · exact fun w hw => Mapping.bare_run hl hf hw

theorem view_run_off (hoff : ⟨q, level⟩ ∉ t.path T.memory p.gpa) :
    t.view (T.overwrite t.format q level (tableIndex p.gpa level)
      (p.run t.format T.split order level)).memory = t.view T.memory := by
  have hl4 := Nat.le_trans hl t.format.topLeafLevel_le
  funext a
  by_cases ha : t.format.inRange a = true
  · unfold view
    rw [Owns.leaf?_overwrite_off hq h _ (fun w hw => Mapping.bare_run hl hf hw) ha]
    · intro h'
      obtain ⟨hr, _⟩ := h'
      have e := h.block_of_mem_path ha hq hr
      exact hoff (mem_path_of_block (r := ⟨q, level⟩) e.symm hr)
    · rw [Mapping.length_run hl4]
      exact Mapping.run_le hl4 p order
  · rw [view_eq_none ha, view_eq_none ha]

theorem view_run_on (hr : t.format.inRange p.gpa = true)
    (hon : ⟨q, level⟩ ∈ t.path T.memory p.gpa) :
    t.view (T.overwrite t.format q level (tableIndex p.gpa level)
        (p.run t.format T.split order level)).memory
      = p.effect t.format T.split (p.covered order level) (t.view T.memory) := by
  have hl4 := Nat.le_trans hl t.format.topLeafLevel_le
  have hlen : tableIndex p.gpa level + (p.run t.format T.split order level).length ≤ 512 := by
    rw [Mapping.length_run hl4]
    exact Mapping.run_le hl4 p order
  have hbare : ∀ w ∈ p.run t.format T.split order level, t.format.Bare T.split level w :=
    fun w hw => Mapping.bare_run hl hf hw
  funext a
  unfold Mapping.effect
  by_cases hc : p.Covers (p.covered order level) a
  · have ha := Mapping.inRange_of_covers hl hf hr hc
    obtain ⟨hb, hle, _⟩ := (Mapping.covers_iff hl4 hf a).mp hc
    obtain ⟨w, hw, htr⟩ := Mapping.translation_run T.split hl hf hc
    rw [if_pos hc, ← htr]
    unfold view
    rw [Owns.leaf?_overwrite_on hq h hlen hbare ha ((h.mem_path_iff hq rfl hon ha).mpr hb) hle hw]
  · rw [if_neg hc]
    by_cases ha : t.format.inRange a = true
    · unfold view
      rw [Owns.leaf?_overwrite_off hq h hlen hbare ha]
      intro h'
      obtain ⟨hra, hin⟩ := h'
      have hb := (h.mem_path_iff hq rfl hon ha).mp hra
      exact hc ((inRun_iff hl hf hb).mp hin)
    · rw [view_eq_none ha, view_eq_none ha]

/-- a table leaves a path only if the request covers its block -/
theorem path_run (ha : t.format.inRange a = true) (hr : r ∈ t.path T.memory a) :
    r ∈ t.path (T.overwrite t.format q level (tableIndex p.gpa level)
        (p.run t.format T.split order level)).memory a ∨
      ∀ b : GuestAddr, b.block (r.level + 1) = a.block (r.level + 1) →
        p.Covers (p.covered order level) b := by
  have hl4 := Nat.le_trans hl t.format.topLeafLevel_le
  by_cases hgone : r.level < level ∧ ⟨q, level⟩ ∈ t.path T.memory a ∧
      Owns.InRun a level (tableIndex p.gpa level) (p.run t.format T.split order level)
  · right
    obtain ⟨hlt, hon, hin⟩ := hgone
    intro b hb
    have hbl : b.block level = a.block level := b.block_le_of_le hlt hb
    have hab := h.block_of_mem_path ha hq hon
    have hca := (inRun_iff hl hf hab.symm).mp hin
    rw [Mapping.covers_iff_block hl4 hf] at hca ⊢
    rw [hbl]
    exact hca
  · left
    apply Owns.mem_path_overwrite hq h _ (fun w hw => Mapping.bare_run hl hf hw) ha hr hgone
    rw [Mapping.length_run hl4]
    exact Mapping.run_le hl4 p order

/-- the table that is written stays on its paths -/
theorem self_mem_path_run (ha : t.format.inRange a = true) (hon : ⟨q, level⟩ ∈ t.path T.memory a) :
    ⟨q, level⟩ ∈ t.path (T.overwrite t.format q level (tableIndex p.gpa level)
      (p.run t.format T.split order level)).memory a := by
  have hl4 := Nat.le_trans hl t.format.topLeafLevel_le
  apply Owns.mem_path_overwrite hq h _ (fun w hw => Mapping.bare_run hl hf hw) ha hon
  · exact fun hgone => absurd hgone.1 (Nat.lt_irrefl level)
  · rw [Mapping.length_run hl4]
    exact Mapping.run_le hl4 p order

omit h hf hq in
/-- the table that the first of the entries points to is detached -/
theorem mem_retired_run
    (ht : t.format.isTable (T.memory.entry q (tableIndex p.gpa level)) level = true) :
    ⟨entryAddress (T.memory.entry q (tableIndex p.gpa level)), level - 1⟩
      ∈ (T.overwrite t.format q level (tableIndex p.gpa level)
        (p.run t.format T.split order level)).retired := by
  cases hrun : p.run t.format T.split order level with
  | nil =>
    have hlen := Mapping.length_run (Nat.le_trans hl t.format.topLeafLevel_le) p t.format T.split order
    rw [hrun] at hlen
    exact absurd hlen (Nat.two_pow_pos _).ne
  | cons w ws =>
    refine Owns.mem_retired_overwrite (T := T.replace ..) _ _ _ _ ws (List.mem_append_right _ ?_)
    unfold Tables.displaced
    rw [if_pos ht]
    exact List.mem_singleton.mpr rfl

end

/-- unmapping below an absent entry has no effect -/
theorem view_gap {p : Mapping} {order above : Nat} (hm : p.maps = false)
    (hl : level ≤ t.format.topLeafLevel) (hf : p.Fits order level) (hlt : level < above)
    (hr : t.format.inRange p.gpa = true) (hon : ⟨q, above⟩ ∈ t.path T.memory p.gpa)
    (h0 : T.memory.entry q (tableIndex p.gpa above) = 0) (hb : above ≤ 4) :
    p.effect t.format T.split (p.covered order level) (t.view T.memory) = t.view T.memory := by
  have hl4 := Nat.le_trans hl t.format.topLeafLevel_le
  funext a
  unfold Mapping.effect
  by_cases hc : p.Covers (p.covered order level) a
  · have ha := Mapping.inRange_of_covers hl hf hr hc
    obtain ⟨hbl, _⟩ := (Mapping.covers_iff hl4 hf a).mp hc
    have habove : a.block above = p.gpa.block above := a.block_le_of_le hlt hbl
    have hra : ⟨q, above⟩ ∈ t.path T.memory a :=
      mem_path_of_block (r := ⟨q, above⟩)
        (p.gpa.block_le_of_le (Nat.le_succ above) habove.symm) hon
    have he : T.memory.entry q (tableIndex a above) = 0 := by
      rw [tableIndex_congr hb (Nat.le_refl above) habove, h0]
    rw [if_pos hc, hm, if_neg Bool.false_ne_true]
    unfold view
    rw [t.leaf?_of_mem ha hra, t.format.leafBelow_of_not_table, he, t.format.leafOf_zero,
      Option.map_none]
    rw [he]
    exact t.format.isTable_zero above
  · rw [if_neg hc]

end Tree

end NestedPaging
