import Mathlib.Tactic
import NestedPaging.Format.Basic

/-!
# Bits and bytes of words

Entries are or-combinations of single bits, small fields and an address. `Word.bit` tells the bits
of such a combination, `toNat` the number behind a mask or a shift:

* `Word.bit_or`, `Word.bit_single`, ...   one bit of a combination;
* `Word.field_congr`      a field depends on its own bits only;
* `two_pow_dvd_iff`       `alignUpTo` counts the powers of two;
* `toNat_addressMask`     what the address bits of an entry say;
* `toNat_orderBytes`, `isAligned_iff`     granules as powers of two.
-/

namespace NestedPaging

namespace Word

theorem bit_or (a b : Word) (i : Nat) : (a ||| b).bit i = (a.bit i || b.bit i) := by
  unfold bit
  rw [UInt64.toNat_or, Nat.testBit_or]

theorem bit_and (a b : Word) (i : Nat) : (a &&& b).bit i = (a.bit i && b.bit i) := by
  unfold bit
  rw [UInt64.toNat_and, Nat.testBit_and]

theorem bit_zero (i : Nat) : (0 : Word).bit i = false := by
  unfold bit
  rw [UInt64.toNat_zero, Nat.zero_testBit]

theorem bit_ite (c : Prop) [Decidable c] (a b : Word) (i : Nat) :
    (if c then a else b).bit i = if c then a.bit i else b.bit i := by
  split <;> rfl

theorem toNat_single {k : Nat} (h : k < 64) : (single k).toNat = 2 ^ k := by
  have hk : k.toUInt64.toNat = k := UInt64.toNat_ofNat_of_lt' (by simp [UInt64.size]; omega)
  unfold single
  rw [UInt64.toNat_shiftLeft, hk, Nat.mod_eq_of_lt h, UInt64.toNat_one, Nat.one_shiftLeft,
    Nat.mod_eq_of_lt (Nat.pow_lt_pow_right (by decide) h)]

theorem bit_single {k : Nat} (h : k < 64) (i : Nat) : (single k).bit i = decide (k = i) := by
  unfold bit
  rw [toNat_single h, Nat.testBit_two_pow]

theorem ext_bit {a b : Word} (h : ∀ i, a.bit i = b.bit i) : a = b :=
  UInt64.toNat_inj.mp (Nat.eq_of_testBit_eq h)

theorem field_eq (w : Word) (low width : Nat) :
    w.field low width = (w.toNat >>> low) % 2 ^ width := by
  unfold field
  rw [Nat.one_shiftLeft]

theorem field_congr {a b : Word} {low width : Nat}
    (h : ∀ i, low ≤ i → i < low + width → a.bit i = b.bit i) :
    a.field low width = b.field low width := by
  apply Nat.eq_of_testBit_eq
  intro i
  rw [field_eq, field_eq, Nat.testBit_mod_two_pow, Nat.testBit_mod_two_pow, Nat.testBit_shiftRight,
    Nat.testBit_shiftRight]
  by_cases hi : i < width
  · have hb : a.toNat.testBit (low + i) = b.toNat.testBit (low + i) :=
      h (low + i) (by omega) (by omega)
    rw [hb]
  · simp [hi]

end Word

/-! ## alignment -/

theorem two_pow_dvd_iff (k n j : Nat) (h : j ≤ k) : 2 ^ j ∣ n ↔ j ≤ alignUpTo k n := by
  induction k generalizing n j with
  | zero =>
    obtain rfl : j = 0 := Nat.le_zero.mp h
    simp
  | succ k ih =>
    cases j with
    | zero => simp
    | succ j =>
      unfold alignUpTo
      split
      · rename_i even
        rw [Nat.succ_le_succ_iff, ← ih (n / 2) j (Nat.le_of_succ_le_succ h), Nat.pow_succ]
        obtain ⟨q, rfl⟩ : 2 ∣ n := Nat.dvd_of_mod_eq_zero even
        rw [Nat.mul_comm (2 ^ j) 2, Nat.mul_div_cancel_left q (by decide)]
        exact Nat.mul_dvd_mul_iff_left (by decide)
      · rename_i odd
        constructor
        · intro hd
          exact absurd (Nat.mod_eq_zero_of_dvd
            (Nat.dvd_trans ⟨2 ^ j, by rw [Nat.pow_succ, Nat.mul_comm]⟩ hd)) odd
        · intro h0
          omega

/-! ## the address bits -/

theorem bit_addressMask (i : Nat) : addressMask.bit i = (decide (12 ≤ i) && decide (i < 48)) := by
  have e : addressMask.toNat = (2 ^ 36 - 1) * 2 ^ 12 := by decide
  unfold Word.bit
  rw [e, Nat.testBit_mul_two_pow, Nat.testBit_two_pow_sub_one]
  congr 1
  by_cases h : 12 ≤ i
  · exact decide_eq_decide.mpr (by omega)
  · exact decide_eq_decide.mpr (by omega)

theorem toNat_addressMask (w : Word) :
    (w &&& addressMask).toNat = w.toNat % 2 ^ 48 / 2 ^ 12 * 2 ^ 12 := by
  apply Nat.eq_of_testBit_eq
  intro i
  have hm := Word.bit_and w addressMask i
  rw [bit_addressMask] at hm
  rw [Nat.testBit_mul_two_pow, Nat.testBit_div_two_pow, Nat.testBit_mod_two_pow]
  refine hm.trans ?_
  by_cases h : 12 ≤ i
  · have e : i - 12 + 12 = i := by omega
    rw [e, Word.bit]
    simp [h, Bool.and_comm]
  · simp [h]

/-! ## granules -/

theorem toNat_orderBytes {n : Nat} (h : n < 52) : (orderBytes n).toNat = 2 ^ (12 + n) := by
  have hn : n.toUInt64.toNat = n := UInt64.toNat_ofNat_of_lt' (by simp [UInt64.size]; omega)
  have h4 : (4096 : UInt64).toNat = 2 ^ 12 := by decide
  have hp : 2 ^ (12 + n) < 2 ^ 64 := Nat.pow_lt_pow_right (by decide) (by omega)
  unfold orderBytes
  rw [UInt64.toNat_shiftLeft, hn, Nat.mod_eq_of_lt (show n < 64 by omega), h4, Nat.shiftLeft_eq,
    ← Nat.pow_add, Nat.mod_eq_of_lt hp]

theorem toNat_and_orderBytes (w : Word) {n : Nat} (h : n < 52) :
    (w &&& (orderBytes n - 1)).toNat = w.toNat % 2 ^ (12 + n) := by
  have hpos : 1 ≤ 2 ^ (12 + n) := Nat.one_le_two_pow
  have hle : (1 : Word) ≤ orderBytes n := by
    rw [UInt64.le_iff_toNat_le, toNat_orderBytes h]
    exact hpos
  rw [UInt64.toNat_and, UInt64.toNat_sub_of_le _ _ hle, toNat_orderBytes h, UInt64.toNat_one,
    Nat.and_two_pow_sub_one_eq_mod]

theorem Addr.isAligned_iff {s : AddrSpace} (a : Addr s) {n : Nat} (h : n < 52) :
    a.isAligned (orderBytes n) = true ↔ 2 ^ (12 + n) ∣ a.bits.toNat := by
  unfold Addr.isAligned
  rw [beq_iff_eq, ← UInt64.toNat_inj, toNat_and_orderBytes _ h, UInt64.toNat_zero,
    Nat.dvd_iff_mod_eq_zero]

theorem Addr.isPageAligned_iff {s : AddrSpace} (a : Addr s) :
    a.isPageAligned = true ↔ 2 ^ 12 ∣ a.bits.toNat :=
  a.isAligned_iff (n := 0) (by decide)

end NestedPaging
