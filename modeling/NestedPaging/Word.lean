/-!
# Machine words

Words have 64 bits and their arithmetic wraps.

* `hex`            the text of a number in base 16;
* `Word.bit`, `Word.field`   one bit and a run of bits;
* `alignUpTo k n`  the largest `j ≤ k` with `2 ^ j ∣ n`, so that zero is aligned to everything.
-/

namespace NestedPaging

/-- a word of memory or of a register -/
abbrev Word := UInt64

/-- base 16, lower case, no leading zeros -/
def hex (n : Nat) : String := "0x" ++ String.ofList (Nat.toDigits 16 n)

/-- base 16 in at least two digits, without the leading `0x` -/
def hexByte (n : Nat) : String :=
  String.ofList (if n < 16 then '0' :: Nat.toDigits 16 n else Nat.toDigits 16 n)

/-- bit `i` of `w` -/
def Word.bit (w : Word) (i : Nat) : Bool := w.toNat.testBit i

/-- the number in the `width` bits of `w` from bit `low` up -/
def Word.field (w : Word) (low width : Nat) : Nat := (w.toNat >>> low) % (1 <<< width)

/-- `2 ^ i` -/
def Word.single (i : Nat) : Word := 1 <<< i.toUInt64

/-- `2 ^ i` if `b` holds, else nothing -/
def Word.flag (b : Bool) (i : Nat) : Word := if b then Word.single i else 0

/-- how often two divides `n`, counted up to `k` -/
def alignUpTo : Nat → Nat → Nat
  | 0, _ => 0
  | k + 1, n => if n % 2 = 0 then alignUpTo k (n / 2) + 1 else 0

theorem alignUpTo_le (k n : Nat) : alignUpTo k n ≤ k := by
  induction k generalizing n with
  | zero => simp [alignUpTo]
  | succ k ih =>
    unfold alignUpTo
    split
    · exact Nat.succ_le_succ (ih _)
    · exact Nat.zero_le _

theorem alignUpTo_zero (k : Nat) : alignUpTo k 0 = k := by
  induction k with
  | zero => rfl
  | succ k ih => simp [alignUpTo, ih]

end NestedPaging
