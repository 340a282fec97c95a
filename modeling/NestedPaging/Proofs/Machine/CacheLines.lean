import NestedPaging.Proofs.Machine.Cleaning
import NestedPaging.Proofs.Tree.Splitting

/-!
# The lines of a range

To clean a range, a processor rounds its start down to a line and goes on line by line to its end.
`Sweep` is this loop in words, which wrap around.

* `sweep_ends_iff`     the loop ends exactly if the step after the last line does not wrap around;
* `exists_sweep`       then it visits what `linesFrom` lists;
* `sorted_linesFrom`   each line once, in ascending order;
* `exists_visited`     whatever larger line overlaps the range, some line that is visited lies in it.

So steps of the smallest line of any supported processor clean the range on all of them.
-/

namespace NestedPaging

variable {σ ε : Type}

/-- a loop at `line` visits `ls` in steps of `size`, and ends at the first line that is not below
`stop` -/
inductive Sweep (size stop : Word) : Word → List Word → Prop
  | done {line : Word} : stop ≤ line → Sweep size stop line []
  | visit {line : Word} {ls : List Word} : line < stop → Sweep size stop (line + size) ls →
      Sweep size stop line (line :: ls)

/-! ## the loop in words -/

section
variable {size stop line : Word} {ls ls' : List Word} {k : Nat}

theorem Sweep.unique (h : Sweep size stop line ls) (h' : Sweep size stop line ls') : ls' = ls := by
  induction h generalizing ls' with
  | done hle =>
    cases h' with
    | done => rfl
    | visit hlt => exact absurd hlt (UInt64.not_lt.mpr hle)
  | visit hlt _ ih =>
    cases h' with
    | done hle => exact absurd hlt (UInt64.not_lt.mpr hle)
    | visit _ h' => rw [ih h']

/-- as long as no step wraps around, words and numbers agree -/
theorem exists_sweep (size stop line : Word) (hs : 0 < size.toNat)
    (hroom : stop.toNat + size.toNat ≤ 2 ^ 64) :
    ∃ ls, Sweep size stop line ls ∧
      ls.map UInt64.toNat = linesFrom size.toNat stop.toNat line.toNat := by
  obtain ⟨d, hd⟩ : ∃ d, stop.toNat - line.toNat = d := ⟨_, rfl⟩
  induction d using Nat.strong_induction_on generalizing line with
  | _ d ih =>
    unfold linesFrom
    by_cases hlt : line < stop
    · have hlt' : line.toNat < stop.toNat := UInt64.lt_iff_toNat_lt.mp hlt
      have hnext : (line + size).toNat = line.toNat + size.toNat := by
        rw [UInt64.toNat_add, Nat.mod_eq_of_lt (by omega)]
      obtain ⟨ls, hls, hmap⟩ := ih _ (by omega) (line + size) rfl
      refine ⟨line :: ls, .visit hlt hls, ?_⟩
      rw [dif_pos ⟨hlt', hs⟩, List.map_cons, hmap, hnext]
    · have hle : stop ≤ line := UInt64.not_lt.mp hlt
      refine ⟨[], .done hle, ?_⟩
      rw [dif_neg fun h => hlt (UInt64.lt_iff_toNat_lt.mpr h.1), List.map_nil]

/-- the loop stays at whole lines, so it never gets past a `stop` in the last line of all -/
theorem Sweep.room (hk : k < 64) (h : Sweep (2 ^ k).toUInt64 stop line ls)
    (hline : 2 ^ k ∣ line.toNat) : stop.toNat + 2 ^ k ≤ 2 ^ 64 := by
  have hdvd : 2 ^ k ∣ 2 ^ 64 := Nat.pow_dvd_pow 2 (Nat.le_of_lt hk)
  induction h with
  | @done line hle =>
    have hlast := add_le_of_dvd hline hdvd line.toNat_lt
    have hle' : stop.toNat ≤ line.toNat := UInt64.le_iff_toNat_le.mp hle
    omega
  | visit _ _ ih =>
    apply ih
    rw [UInt64.toNat_add, Word.toNat_two_pow hk, Nat.dvd_mod_iff hdvd]
    exact Nat.dvd_add hline (Nat.dvd_refl _)

theorem sweep_ends_iff (hk : k < 64) (hline : 2 ^ k ∣ line.toNat) :
    (∃ ls, Sweep (2 ^ k).toUInt64 stop line ls) ↔ stop.toNat + 2 ^ k ≤ 2 ^ 64 := by
  constructor
  · rintro ⟨ls, h⟩
    exact h.room hk hline
  · intro hroom
    obtain ⟨ls, h, _⟩ := exists_sweep (2 ^ k).toUInt64 stop line
      (by rw [Word.toNat_two_pow hk]; exact Nat.two_pow_pos k)
      (by rw [Word.toNat_two_pow hk]; exact hroom)
    exact ⟨ls, h⟩

end

/-! ## the lines that are visited -/

section
variable {k j : Nat} {a : PhysAddr} {len line : Nat}

theorem sorted_linesFrom (size stop line : Nat) : (linesFrom size stop line).Pairwise (· < ·) := by
  induction line using linesFrom.induct size stop with
  | case1 line h ih =>
    unfold linesFrom
    rw [dif_pos h, List.pairwise_cons]
    refine ⟨fun y hy => ?_, ih⟩
    obtain ⟨i, rfl, _⟩ := (mem_linesFrom h.2).mp hy
    have := h.2
    omega
  | case2 line h =>
    unfold linesFrom
    rw [dif_neg h]
    exact .nil

/-- a line of the processor that overlaps the range has a line that is visited in it: its own start,
or the first of all if it starts before that -/
theorem exists_visited (hk : k < 64) (hkj : k ≤ j) (hlen : 0 < len) (hline : 2 ^ j ∣ line)
    (hlow : line < a.bits.toNat + len) (hhigh : a.bits.toNat < line + 2 ^ j) :
    ∃ y ∈ visitedLines (2 ^ k) a len, line ≤ y ∧ y < line + 2 ^ j := by
  have hpos := Nat.two_pow_pos j
  have hfirst : a.bits.toNat / 2 ^ k * 2 ^ k ≤ a.bits.toNat := Nat.div_mul_le_self ..
  rcases Nat.le_total (a.bits.toNat / 2 ^ k * 2 ^ k) line with hle | hle
  · refine ⟨line, (mem_visitedLines hk a len line).mpr ⟨?_, hle, hlow⟩, Nat.le_refl _, by omega⟩
    exact Nat.dvd_trans (Nat.pow_dvd_pow 2 hkj) hline
  · refine ⟨_, (mem_visitedLines hk a len _).mpr ⟨Nat.dvd_mul_left .., Nat.le_refl _, ?_⟩, hle, ?_⟩
    · omega
    · omega

/-- cleaning a range in lines of a power of two: the loop in words ends, and the lines that it visits
are the multiples of the line size from the one at or before the range up to its end, each once and in
ascending order; and every line of a processor with lines as large or larger that overlaps the range
has one of them in it -/
theorem clean_sweeps (hk : k < 64) (hroom : a.bits.toNat + len + 2 ^ k ≤ 2 ^ 64) :
    (∃ ls, (∀ ls', Sweep (2 ^ k).toUInt64 (a.bits + len.toUInt64)
        (a.bits &&& ~~~((2 ^ k).toUInt64 - 1)) ls' ↔ ls' = ls) ∧
      ls.map UInt64.toNat = visitedLines (2 ^ k) a len) ∧
    (∀ env m, ∃ n, (Act.clean (.lines (2 ^ k)) a len : Act σ ε Unit) env m = .ok () n ∧
      m.Logs ((visitedLines (2 ^ k) a len).map fun y => .lineCleaned y (2 ^ k)) n) ∧
    (visitedLines (2 ^ k) a len).Pairwise (· < ·) ∧
    (∀ y, y ∈ visitedLines (2 ^ k) a len ↔
      2 ^ k ∣ y ∧ a.bits.toNat / 2 ^ k * 2 ^ k ≤ y ∧ y < a.bits.toNat + len) ∧
    ∀ j line, k ≤ j → 0 < len → 2 ^ j ∣ line → line < a.bits.toNat + len →
      a.bits.toNat < line + 2 ^ j → ∃ y ∈ visitedLines (2 ^ k) a len, line ≤ y ∧ y < line + 2 ^ j := by
  have hsize := Word.toNat_two_pow hk
  have hpos := Nat.two_pow_pos k
  have hend : (a.bits + len.toUInt64).toNat = a.bits.toNat + len := by
    have hlen : len.toUInt64.toNat = len := UInt64.toNat_ofNat_of_lt' (show len < 2 ^ 64 by omega)
    rw [UInt64.toNat_add, hlen, Nat.mod_eq_of_lt (by omega)]
  obtain ⟨ls, hls, hmap⟩ := exists_sweep (2 ^ k).toUInt64 (a.bits + len.toUInt64)
    (a.bits &&& ~~~((2 ^ k).toUInt64 - 1)) (by rw [hsize]; exact hpos)
    (by rw [hsize, hend]; exact hroom)
  rw [hsize, hend] at hmap
  refine ⟨⟨ls, fun ls' => ⟨hls.unique, fun e => e ▸ hls⟩, hmap⟩,
    fun env m => ⟨_, Act.clean_apply .., m.logs_noteAll _⟩, sorted_linesFrom ..,
    mem_visitedLines hk a len, ?_⟩
  exact fun j line hkj hlen hline hlow hhigh => exists_visited hk hkj hlen hline hlow hhigh

/-- the smallest lines of all, for a range that ends inside the second of two lines of 128 bytes -/
theorem clean_sweeps_conservative : Cleaner.conservative = .lines (2 ^ 5) ∧
    visitedLines (2 ^ 5) ⟨0x1038⟩ 0x50 = [0x1020, 0x1040, 0x1060, 0x1080] ∧
    (∃ ls, Sweep 32 0x1088 0x1020 ls ∧ ls.map UInt64.toNat = visitedLines (2 ^ 5) ⟨0x1038⟩ 0x50) ∧
    ∃ y ∈ visitedLines (2 ^ 5) ⟨0x1038⟩ 0x50, 0x1080 ≤ y ∧ y < 0x1080 + 2 ^ 7 := by
  obtain ⟨⟨ls, hls, hmap⟩, _, _, _, hcovers⟩ :=
    @clean_sweeps Unit Unit 5 ⟨0x1038⟩ 0x50 (by decide) (by decide)
  refine ⟨rfl, by simp [visitedLines, linesFrom], ⟨ls, (hls ls).mpr rfl, hmap⟩, ?_⟩
  exact hcovers 7 0x1080 (by decide) (by decide) (by decide) (by decide) (by decide)

end

end NestedPaging
