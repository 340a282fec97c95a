import NestedPaging.Proofs.Tree.Requests

/-!
# Ranges of pages

`Mapping.ranged` is what a request for any number of pages makes of a view: the effect of a single
update is the range of the run that it covers, and ranges that follow one another are one range.

* `ranged_append`       a range, and then the request further on;
* `Serves.refusal?_eq_none`   a request in order is not refused, however far on.
-/

namespace NestedPaging

theorem Format.inputBits_le (f : Format) : f.inputBits ≤ 48 := by cases f <;> decide

namespace Mapping

/-- is `a` in one of the `pages` pages from `p.gpa` up? -/
def Within (p : Mapping) (pages : Nat) (a : GuestAddr) : Prop :=
  p.gpa.bits.toNat ≤ a.bits.toNat ∧ a.bits.toNat < p.gpa.bits.toNat + pages * 4096

instance (p : Mapping) (pages : Nat) (a : GuestAddr) : Decidable (p.Within pages a) :=
  inferInstanceAs (Decidable (_ ∧ _))

/-- the view after `pages` pages are mapped or unmapped -/
def ranged (p : Mapping) (f : Format) (split : Bool) (pages : Nat) (v : View) : View :=
  fun a => if p.Within pages a then
      if p.maps then some (p.output a, f.stored split p.attrs) else none
    else v a

/-- the request for `pages` pages is in order: aligned, unless it is for none, and in the input space -/
structure Serves (p : Mapping) (f : Format) (pages : Nat) : Prop where
  gpa : 0 < pages → 4096 ∣ p.gpa.bits.toNat
  phys : 0 < pages → p.maps = true → 4096 ∣ p.phys.bits.toNat
  holds : p.gpa.bits.toNat + pages * 4096 ≤ 2 ^ f.inputBits

variable {p : Mapping} {f : Format} {split : Bool} {pages order d k : Nat} {v : View} {a : GuestAddr}

theorem covers_iff_within : p.Covers order a ↔ p.Within (2 ^ order) a := by
  unfold Covers Within
  rw [Nat.pow_add, Nat.mul_comm]

theorem effect_eq_ranged (p : Mapping) (f : Format) (split : Bool) (order : Nat) (v : View) :
    p.effect f split order v = p.ranged f split (2 ^ order) v := by
  funext a
  unfold effect ranged
  by_cases h : p.Covers order a
  · rw [if_pos h, if_pos (covers_iff_within.mp h)]
  · rw [if_neg h, if_neg fun e => h (covers_iff_within.mpr e)]

theorem ranged_zero (p : Mapping) (f : Format) (split : Bool) (v : View) :
    p.ranged f split 0 v = v := by
  funext a
  refine if_neg fun h => ?_
  obtain ⟨hle, hlt⟩ := h
  omega

/-- serving a range again, and more of it -/
theorem ranged_ranged (p : Mapping) (f : Format) (split : Bool) (v : View) (h : d ≤ pages) :
    p.ranged f split pages (p.ranged f split d v) = p.ranged f split pages v := by
  funext a
  unfold ranged
  by_cases hp : p.Within pages a
  · rw [if_pos hp, if_pos hp]
  · have hd : ¬ p.Within d a := fun hd => hp ⟨hd.1, Nat.lt_of_lt_of_le hd.2
      (Nat.add_le_add_left (Nat.mul_le_mul_right _ h) _)⟩
    rw [if_neg hp, if_neg hp, if_neg hd]

/-! ## requests further on -/

theorem advance_zero (p : Mapping) : p.advance 0 = p := by
  have h : ∀ w : Word, w + (0 * 4096 : Nat).toUInt64 = w := UInt64.add_zero
  unfold advance Addr.add
  simp only [h]

theorem advance_add (p : Mapping) (d k : Nat) : (p.advance d).advance k = p.advance (d + k) := by
  have h : ∀ w : Word, w + (d * 4096).toUInt64 + (k * 4096).toUInt64 = w + ((d + k) * 4096).toUInt64 := by
    intro w
    rw [UInt64.add_assoc, Nat.add_mul]
    exact congrArg (w + ·) (UInt64.ofNat_add _ _).symm
  unfold advance Addr.add
  simp only [h]

/-- the next page lies where it should as long as addresses do not wrap around -/
theorem toNat_gpa_advance (h : p.gpa.bits.toNat + d * 4096 < 2 ^ 64) :
    (p.advance d).gpa.bits.toNat = p.gpa.bits.toNat + d * 4096 := by
  show (p.gpa.bits + UInt64.ofNat (d * 4096)).toNat = _
  rw [UInt64.toNat_add, UInt64.toNat_ofNat', Nat.add_mod_mod, Nat.mod_eq_of_lt h]

theorem output_advance (p : Mapping) (d : Nat) (a : GuestAddr) : (p.advance d).output a = p.output a := by
  have h : ∀ b : Word, p.phys.bits + b + (a.bits - (p.gpa.bits + b)) = p.phys.bits + (a.bits - p.gpa.bits) := by
    intro b
    grind
  unfold output advance Addr.add
  simp only [h]

theorem within_add (h : p.gpa.bits.toNat + d * 4096 < 2 ^ 64) :
    p.Within (d + k) a ↔ p.Within d a ∨ (p.advance d).Within k a := by
  unfold Within
  rw [toNat_gpa_advance h]
  omega

theorem ranged_append (p : Mapping) (f : Format) (split : Bool) (v : View) (k : Nat)
    (h : p.gpa.bits.toNat + d * 4096 < 2 ^ 64) :
    (p.advance d).ranged f split k (p.ranged f split d v) = p.ranged f split (d + k) v := by
  funext a
  have hadd := within_add (k := k) (a := a) h
  unfold ranged
  rw [output_advance]
  by_cases hk : (p.advance d).Within k a
  · rw [if_pos hk, if_pos (hadd.mpr (.inr hk))]
    rfl
  · rw [if_neg hk]
    by_cases hd : p.Within d a
    · rw [if_pos hd, if_pos (hadd.mpr (.inl hd))]
    · rw [if_neg hd, if_neg fun e => (hadd.mp e).elim hd hk]

theorem toNat_phys_advance (p : Mapping) (d : Nat) :
    (p.advance d).phys.bits.toNat = (p.phys.bits.toNat + d * 4096) % 2 ^ 64 := by
  show (p.phys.bits + UInt64.ofNat (d * 4096)).toNat = _
  rw [UInt64.toNat_add, UInt64.toNat_ofNat', Nat.add_mod_mod]

namespace Serves
variable (h : p.Serves f pages)
include h

/-- no page of the range wraps around -/
theorem gpa_lt (hd : d ≤ pages) : p.gpa.bits.toNat + d * 4096 < 2 ^ 64 := by
  have hbits : 2 ^ f.inputBits ≤ 2 ^ 48 := Nat.pow_le_pow_right (by decide) f.inputBits_le
  have hholds := h.holds
  omega

theorem refusal?_eq_none (hd : d < pages) (ho : order ≤ f.maxOrder) : f.refusal? (p.advance d) order = none := by
  have hgpa : (p.advance d).gpa.bits.toNat = p.gpa.bits.toNat + d * 4096 :=
    toNat_gpa_advance (h.gpa_lt (Nat.le_of_lt hd))
  have hpos : 0 < pages := Nat.lt_of_le_of_lt (Nat.zero_le d) hd
  have hstep : 4096 ∣ d * 4096 := Nat.dvd_mul_left ..
  have haligned : (p.advance d).gpa.isPageAligned = true :=
    (Addr.isPageAligned_iff _).mpr (hgpa ▸ Nat.dvd_add (h.gpa hpos) hstep)
  have hphys : ((p.advance d).maps && !(p.advance d).phys.isPageAligned) = false := by
    rw [Bool.and_eq_false_imp, Bool.not_eq_false', Addr.isPageAligned_iff, toNat_phys_advance]
    exact fun hm => (Nat.dvd_mod_iff (by decide)).mpr (Nat.dvd_add (h.phys hpos hm) hstep)
  have hrange : f.inRange (p.advance d).gpa = true := by
    have hholds := h.holds
    unfold Format.inRange
    rw [decide_eq_true_iff, Nat.one_shiftLeft, hgpa]
    omega
  unfold Format.refusal?
  rw [haligned, hphys, hrange, if_neg (Nat.not_lt.mpr ho)]
  rfl

end Serves

end Mapping

end NestedPaging
