import NestedPaging.Proofs.Tree.Splitting
import NestedPaging.Tree.Update

/-!
# What a request asks for

An accepted request writes a run of entries of one table. `Mapping.coveredOrder` is the order that
it covers, `Mapping.Covers` says which addresses these are, and `Mapping.effect` what it makes of a
view: inside the run its own translations or none, outside the view as it was.

* `run_le`   the run stays inside one table;
* `covers_iff`   the addresses of the run are those that select one of its entries;
* `translation_run`   what the written entries map is what was asked for.
-/

namespace NestedPaging

/-- the order that one update covers -/
def Mapping.coveredOrder (p : Mapping) (f : Format) (order : Nat) : Nat :=
  p.covered order (p.leafLevel order f.topLeafLevel)

/-- is `a` one of the `2 ^ order` pages from `p.gpa` up? -/
def Mapping.Covers (p : Mapping) (order : Nat) (a : GuestAddr) : Prop :=
  p.gpa.bits.toNat ≤ a.bits.toNat ∧ a.bits.toNat < p.gpa.bits.toNat + 2 ^ (12 + order)

instance (p : Mapping) (order : Nat) (a : GuestAddr) : Decidable (p.Covers order a) :=
  inferInstanceAs (Decidable (_ ∧ _))

/-- where the request maps `a`; output addresses have 48 bits -/
def Mapping.output (p : Mapping) (a : GuestAddr) : PhysAddr :=
  ⟨(p.phys.bits + (a.bits - p.gpa.bits)) &&& 0x0000ffffffffffff⟩

/-- the view after an update of `2 ^ order` pages -/
def Mapping.effect (p : Mapping) (f : Format) (split : Bool) (order : Nat) (v : View) : View :=
  fun a => if p.Covers order a then
      if p.maps then some (p.output a, f.stored split p.attrs) else none
    else v a

/-- the entries that an update writes at `level` -/
def Mapping.run (p : Mapping) (f : Format) (split : Bool) (order level : Nat) : List Word :=
  p.entries f split level (1 <<< (p.covered order level - levelOrder level))

/-- entries at `level` can serve the request -/
structure Mapping.Fits (p : Mapping) (order level : Nat) : Prop where
  order : level * indexBits ≤ order
  gpa : 2 ^ blockBits level ∣ p.gpa.bits.toNat
  phys : p.maps = true → 2 ^ blockBits level ∣ p.phys.bits.toNat

namespace Format
variable {f : Format} {p : Mapping} {order : Nat}

/-- what the checks of an update let through -/
structure Accepts (f : Format) (p : Mapping) (order : Nat) : Prop where
  gpa : 2 ^ 12 ∣ p.gpa.bits.toNat
  phys : p.maps = true → 2 ^ 12 ∣ p.phys.bits.toNat
  order : order ≤ f.maxOrder
  inRange : f.inRange p.gpa = true

theorem accepts_of_refusal? (h : f.refusal? p order = none) : f.Accepts p order := by
  unfold refusal? at h
  split at h
  · cases h
  rename_i hg
  split at h
  · cases h
  rename_i hp
  split at h
  · cases h
  rename_i ho
  split at h
  · cases h
  rename_i hr
  constructor
  · exact p.gpa.isPageAligned_iff.mp (by simpa using hg)
  · intro hm
    exact p.phys.isPageAligned_iff.mp (by simpa [hm] using hp)
  · exact Nat.le_of_not_lt ho
  · simpa using hr

end Format

namespace Mapping
variable {f : Format} {p : Mapping} {order level : Nat}

/-! ## the level of the entries -/

theorem leafLevel_le (p : Mapping) (order top : Nat) : p.leafLevel order top ≤ top := by
  induction top with
  | zero => exact Nat.le_refl 0
  | succ top ih =>
    unfold leafLevel
    split
    · exact Nat.le_refl _
    · exact Nat.le_succ_of_le ih

theorem fits_iff (hl : level ≤ 4) : p.fits order level = true ↔ p.Fits order level := by
  have ho : levelOrder level < 52 := by
    rw [levelOrder_of_le hl]
    simp only [indexBits]
    omega
  have hb : 12 + levelOrder level = blockBits level := by rw [levelOrder_of_le hl, blockBits]
  unfold fits
  simp only [Bool.and_eq_true, Bool.or_eq_true, Bool.not_eq_true', decide_eq_true_iff]
  rw [Addr.isAligned_iff _ ho, Addr.isAligned_iff _ ho, hb, levelOrder_of_le hl]
  constructor
  · intro h'
    obtain ⟨⟨h1, h2⟩, h3⟩ := h'
    refine ⟨h1, h2, fun hm => h3.resolve_left fun hf => ?_⟩
    exact Bool.false_ne_true (hf.symm.trans hm)
  · intro h'
    obtain ⟨h1, h2, h3⟩ := h'
    refine ⟨⟨h1, h2⟩, ?_⟩
    cases hm : p.maps with
    | false => exact .inl rfl
    | true => exact .inr (h3 hm)

theorem fits_leafLevel (h : f.Accepts p order) {top : Nat} (ht : top ≤ 4) :
    p.Fits order (p.leafLevel order top) := by
  induction top with
  | zero => exact ⟨by simp [leafLevel], h.gpa, h.phys⟩
  | succ top ih =>
    unfold leafLevel
    split
    · rename_i hf
      exact (fits_iff ht).mp hf
    · exact ih (Nat.le_of_succ_le ht)

theorem le_leafLevel {top : Nat} (ht : top ≤ 4) (hf : p.Fits order level) (hl : level ≤ top) :
    level ≤ p.leafLevel order top := by
  induction top with
  | zero => exact hl
  | succ top ih =>
    unfold leafLevel
    split
    · exact hl
    · rename_i hno
      rcases Nat.lt_or_eq_of_le hl with hlt | rfl
      · exact ih (Nat.le_of_succ_le ht) (Nat.le_of_lt_succ hlt)
      · exact absurd ((fits_iff ht).mpr hf) hno

/-! ## the run of entries -/

section
variable (hl : level ≤ 4)
include hl

theorem covered_eq (p : Mapping) (order : Nat) : p.covered order level
    = min order (level * indexBits + alignUpTo indexBits (tableIndex p.gpa level)) := by
  rw [covered, levelOrder_of_le hl]

theorem le_covered (hf : p.Fits order level) : level * indexBits ≤ p.covered order level := by
  rw [covered_eq hl]
  exact Nat.le_min.mpr ⟨hf.order, Nat.le_add_right ..⟩

theorem covered_sub_le (p : Mapping) (order : Nat) :
    p.covered order level - level * indexBits ≤ alignUpTo indexBits (tableIndex p.gpa level) := by
  rw [covered_eq hl]
  omega

theorem run_dvd_index (p : Mapping) (order : Nat) :
    2 ^ (p.covered order level - level * indexBits) ∣ tableIndex p.gpa level :=
  (two_pow_dvd_iff indexBits _ _ (Nat.le_trans (covered_sub_le hl p order)
    (alignUpTo_le ..))).mpr (covered_sub_le hl p order)

theorem run_dvd_table (p : Mapping) (order : Nat) :
    2 ^ (p.covered order level - level * indexBits) ∣ 512 :=
  Nat.pow_dvd_pow (n := 9) 2 (Nat.le_trans (covered_sub_le hl p order) (alignUpTo_le ..))

theorem run_le (p : Mapping) (order : Nat) :
    tableIndex p.gpa level + 2 ^ (p.covered order level - level * indexBits) ≤ 512 :=
  add_le_of_dvd (run_dvd_index hl p order) (run_dvd_table hl p order) (tableIndex_lt _ _)

end

theorem covered_le (p : Mapping) (order level : Nat) : p.covered order level ≤ order :=
  Nat.min_le_left ..

section
variable (hl : level ≤ 4) (hf : p.Fits order level)
include hl hf

theorem two_pow_covered : 2 ^ (12 + p.covered order level)
    = 2 ^ (p.covered order level - level * indexBits) * 2 ^ blockBits level := by
  have hle := le_covered hl hf
  rw [← Nat.pow_add, blockBits]
  congr 1
  omega

theorem run_dvd_gpa : 2 ^ (12 + p.covered order level) ∣ p.gpa.bits.toNat := by
  have hb : 2 ^ (p.covered order level - level * indexBits) ∣ p.gpa.block level := by
    rw [block_eq_index p.gpa hl]
    exact Nat.dvd_add (Nat.dvd_mul_left_of_dvd (run_dvd_table hl p order) _)
      (run_dvd_index hl p order)
  rw [two_pow_covered hl hf, ← Nat.div_mul_cancel hf.gpa]
  exact Nat.mul_dvd_mul_right hb _

theorem covers_iff_block (a : GuestAddr) : p.Covers (p.covered order level) a ↔
    p.gpa.block level ≤ a.block level ∧
      a.block level < p.gpa.block level + 2 ^ (p.covered order level - level * indexBits) := by
  have hpos := Nat.two_pow_pos (blockBits level)
  have hg : p.gpa.bits.toNat = p.gpa.block level * 2 ^ blockBits level :=
    (Nat.div_mul_cancel hf.gpa).symm
  unfold Covers Addr.block
  rw [Nat.le_div_iff_mul_le hpos, Nat.div_lt_iff_lt_mul hpos, Nat.add_mul,
    ← two_pow_covered hl hf, Nat.div_mul_cancel hf.gpa]

/-- the run, by the entries that its addresses select -/
theorem covers_iff (a : GuestAddr) : p.Covers (p.covered order level) a ↔
    a.block (level + 1) = p.gpa.block (level + 1) ∧ tableIndex p.gpa level ≤ tableIndex a level ∧
      tableIndex a level < tableIndex p.gpa level
        + 2 ^ (p.covered order level - level * indexBits) := by
  have ha := block_eq_index a hl
  have hp := block_eq_index p.gpa hl
  have hrun := run_le hl p order
  have hi := tableIndex_lt a level
  rw [covers_iff_block hl hf]
  omega

theorem holds_covered (ha : f.Accepts p order) :
    f.holds p.gpa (2 ^ p.covered order level) = true := by
  have hlt : p.gpa.bits.toNat < 2 ^ f.inputBits := by
    rw [← Nat.one_shiftLeft]
    exact of_decide_eq_true ha.inRange
  have hle : p.covered order level ≤ f.levels * indexBits :=
    Nat.le_trans (covered_le ..) ha.order
  have hd : 2 ^ (12 + p.covered order level) ∣ 2 ^ f.inputBits :=
    Nat.pow_dvd_pow 2 (by unfold Format.inputBits; omega)
  have := add_le_of_dvd (run_dvd_gpa hl hf) hd hlt
  unfold Format.holds
  rw [decide_eq_true_iff, Nat.one_shiftLeft, show (4096 : Nat) = 2 ^ 12 from rfl, ← Nat.pow_add,
    Nat.add_comm _ 12]
  exact this

end

/-! ## what the entries map -/

section
variable {split : Bool} {count i : Nat}

theorem length_entries (p : Mapping) (f : Format) (split : Bool) (level count : Nat) :
    (p.entries f split level count).length = count := by
  unfold entries
  split
  · rw [List.length_map, List.length_range]
  · rw [List.length_replicate]

theorem getElem?_entries (p : Mapping) (f : Format) (split : Bool) (level : Nat) (h : i < count) :
    (p.entries f split level count)[i]? =
      some (if p.maps then f.leafWord split level (p.phys.part level i) p.attrs else 0) := by
  unfold entries
  split
  · rw [List.getElem?_map, List.getElem?_range h]
    rfl
  · rw [List.getElem?_replicate, if_pos h]

theorem dvd_part_phys (hl : level ≤ 4) (hf : p.Fits order level) (hm : p.maps = true)
    (hi : i < 2 ^ 64) : 2 ^ blockBits level ∣ (p.phys.part level i).bits.toNat :=
  dvd_part hl (hf.phys hm) hi

theorem run_eq (hl : level ≤ 4) (p : Mapping) (f : Format) (split : Bool) (order : Nat) :
    p.run f split order level
      = p.entries f split level (2 ^ (p.covered order level - level * indexBits)) := by
  rw [run, Nat.one_shiftLeft, levelOrder_of_le hl]

theorem length_run (hl : level ≤ 4) (p : Mapping) (f : Format) (split : Bool) (order : Nat) :
    (p.run f split order level).length = 2 ^ (p.covered order level - level * indexBits) := by
  rw [run_eq hl, length_entries]

theorem bare_run (hl : level ≤ f.topLeafLevel) (hf : p.Fits order level) {w : Word}
    (hw : w ∈ p.run f split order level) : f.Bare split level w := by
  have hl4 := Nat.le_trans hl f.topLeafLevel_le
  obtain ⟨i, hi⟩ := List.mem_iff_getElem?.mp hw
  obtain ⟨hlt, _⟩ := List.getElem?_eq_some_iff.mp hi
  have hrun := run_le hl4 p order
  rw [length_run hl4] at hlt
  rw [run_eq hl4, getElem?_entries p f split level hlt] at hi
  obtain rfl := Option.some.inj hi
  split
  · rename_i hm
    exact .leaf hl (p.phys.isPage_part level i) (dvd_part_phys hl4 hf hm (by omega)) hm
  · exact .absent

theorem toNat_output {a : GuestAddr} (h : p.gpa.bits.toNat ≤ a.bits.toNat) :
    (p.output a).bits.toNat
      = (p.phys.bits.toNat + (a.bits.toNat - p.gpa.bits.toNat)) % 2 ^ 48 := by
  have hs : (a.bits - p.gpa.bits).toNat = a.bits.toNat - p.gpa.bits.toNat :=
    UInt64.toNat_sub_of_le _ _ (UInt64.le_iff_toNat_le.mpr h)
  have hm : (0x0000ffffffffffff : Word).toNat = 2 ^ 48 - 1 := by decide
  unfold output
  rw [UInt64.toNat_and, hm, Nat.and_two_pow_sub_one_eq_mod, UInt64.toNat_add, hs,
    Nat.mod_mod_of_dvd _ (show 2 ^ 48 ∣ 2 ^ 64 by decide)]

/-- an offset inside a block carries nothing over the end of the address -/
theorem add_offset_mod {d n r : Nat} (hd : d ∣ n) (hm : d ∣ 2 ^ 48) (hr : r < d) :
    (n + r) % 2 ^ 48 = n % 2 ^ 48 + r := by
  have hlt : n % 2 ^ 48 < 2 ^ 48 := Nat.mod_lt _ (by decide)
  have hroom := add_le_of_dvd ((Nat.dvd_mod_iff hm).mpr hd) hm hlt
  rw [← Nat.mod_add_mod, Nat.mod_eq_of_lt (by omega)]

theorem toNat_output_part (hl : level ≤ 4) (hf : p.Fits order level) (hm : p.maps = true)
    {a : GuestAddr} (h : p.gpa.block level + i = a.block level) (hi : i < 2 ^ 64) :
    (p.output a).bits.toNat
      = (p.phys.part level i).bits.toNat + a.bits.toNat % 2 ^ blockBits level := by
  have hd := hf.phys hm
  have hpos := Nat.two_pow_pos (blockBits level)
  have hg : p.gpa.bits.toNat = p.gpa.block level * 2 ^ blockBits level :=
    (Nat.div_mul_cancel hf.gpa).symm
  have ha : a.bits.toNat
      = p.gpa.bits.toNat + i * 2 ^ blockBits level + a.bits.toNat % 2 ^ blockBits level := by
    rw [hg, ← Nat.add_mul, h]
    exact (Nat.div_add_mod' ..).symm
  have hsum : p.phys.bits.toNat + (a.bits.toNat - p.gpa.bits.toNat)
      = p.phys.bits.toNat + i * 2 ^ blockBits level + a.bits.toNat % 2 ^ blockBits level := by
    omega
  rw [toNat_output (by omega), PhysAddr.toNat_part (dvd_of_dvd_block hd) hl hi, hsum]
  exact add_offset_mod (Nat.dvd_add hd (Nat.dvd_mul_left ..)) (two_pow_blockBits_dvd hl)
    (Nat.mod_lt _ hpos)

/-- an address of the run maps to what was asked for -/
theorem translation_run (split : Bool) (hl : level ≤ f.topLeafLevel) (hf : p.Fits order level)
    {a : GuestAddr} (hc : p.Covers (p.covered order level) a) :
    ∃ w, (p.run f split order level)[tableIndex a level - tableIndex p.gpa level]? = some w ∧
      (f.leafOf level w).map (Leaf.translation a)
        = if p.maps then some (p.output a, f.stored split p.attrs) else none := by
  have hl4 := Nat.le_trans hl f.topLeafLevel_le
  obtain ⟨hb, h1, h2⟩ := (covers_iff hl4 hf a).mp hc
  have hi := tableIndex_lt a level
  refine ⟨_, by rw [run_eq hl4]; exact getElem?_entries p f split level (by omega), ?_⟩
  split
  · rename_i hm
    have hp := p.phys.isPage_part level (tableIndex a level - tableIndex p.gpa level)
    have hblock : p.gpa.block level + (tableIndex a level - tableIndex p.gpa level)
        = a.block level := by
      rw [block_eq_index a hl4, block_eq_index p.gpa hl4, hb]
      omega
    rw [f.leafOf_leafWord hp hm, Option.map_some,
      f.translation_leafWord hl4 hp (dvd_part_phys hl4 hf hm (by omega)) hm a
        (toNat_output_part hl4 hf hm hblock (by omega))]
  · rw [f.leafOf_zero, Option.map_none]

end

end Mapping

end NestedPaging
