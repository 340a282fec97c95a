import NestedPaging.Proofs.Machine.Bits
import NestedPaging.Proofs.Machine.Traces
import NestedPaging.Tree.Basic

/-!
# What a clean writes back

A clean changes nothing but the trace: `Cleaner.events` are the events that it adds. Each word of the
range is written back by one of them (`Cleaner.exists_covers`), if a line of the cache holds whole
words.
-/

namespace NestedPaging

variable {σ ε : Type}

/-- the machine after the events `es` that change nothing else -/
def Machine.noteAll (m : Machine σ) (es : List Event) : Machine σ := { m with trace := m.trace ++ es }

theorem Machine.logs_noteAll (m : Machine σ) (es : List Event) : m.Logs es (m.noteAll es) :=
  Array.toList_appendList

theorem Machine.foldl_note {α : Type} (f : α → Event) (xs : List α) (m : Machine σ) :
    xs.foldl (fun m x => m.note (f x)) m = m.noteAll (xs.map f) := by
  induction xs generalizing m with
  | nil => exact congrArg (fun trace => ({ m with trace } : Machine σ)) Array.appendList_nil.symm
  | cons x xs ih =>
    rw [List.foldl_cons, ih, List.map_cons]
    exact congrArg (fun trace => ({ m with trace } : Machine σ)) Array.appendList_cons.symm

/-! ## lines -/

theorem Word.bit_not (a : Word) {i : Nat} (h : i < 64) : (~~~a).bit i = !a.bit i := by
  unfold bit
  rw [← UInt64.toNat_toBitVec, UInt64.toBitVec_not, BitVec.testBit_toNat, BitVec.getLsbD_not,
    ← BitVec.testBit_toNat, UInt64.toNat_toBitVec]
  simp [h]

theorem Word.toNat_two_pow {k : Nat} (h : k < 64) : (2 ^ k).toUInt64.toNat = 2 ^ k :=
  UInt64.toNat_ofNat_of_lt' (Nat.pow_lt_pow_right (by decide) h)

/-- the greatest multiple of a power of two up to a word -/
theorem Word.toNat_roundDown (w : Word) {k : Nat} (h : k < 64) :
    (w &&& ~~~((2 ^ k).toUInt64 - 1)).toNat = w.toNat / 2 ^ k * 2 ^ k := by
  have hk := Word.toNat_two_pow h
  have hle : (1 : Word) ≤ (2 ^ k).toUInt64 := by
    rw [UInt64.le_iff_toNat_le, hk]
    exact Nat.one_le_two_pow
  have hmask : ((2 ^ k).toUInt64 - 1).toNat = 2 ^ k - 1 := by
    rw [UInt64.toNat_sub_of_le _ _ hle, hk, UInt64.toNat_one]
  apply Nat.eq_of_testBit_eq
  intro i
  by_cases hi : i < 64
  · refine (Word.bit_and w _ i).trans ?_
    rw [Word.bit_not _ hi, Nat.testBit_mul_two_pow, Nat.testBit_div_two_pow]
    unfold Word.bit
    rw [hmask, Nat.testBit_two_pow_sub_one]
    by_cases hik : k ≤ i
    · have e : i - k + k = i := by omega
      simp [e, hik, Nat.not_lt.mpr hik]
    · simp [hik, Nat.lt_of_not_le hik]
  · have hpow : 2 ^ 64 ≤ 2 ^ i := Nat.pow_le_pow_right (by decide) (Nat.le_of_not_lt hi)
    have hw := w.toNat_lt
    have hle : w.toNat / 2 ^ k * 2 ^ k ≤ w.toNat := Nat.div_mul_le_self ..
    rw [Nat.testBit_lt_two_pow (Nat.lt_of_lt_of_le (UInt64.toNat_lt _) hpow),
      Nat.testBit_lt_two_pow (by omega)]

theorem mem_linesFrom {size stop line y : Nat} (hs : 0 < size) :
    y ∈ linesFrom size stop line ↔ ∃ j, y = line + j * size ∧ y < stop := by
  induction line using linesFrom.induct size stop with
  | case1 line h ih =>
    unfold linesFrom
    rw [dif_pos h, List.mem_cons, ih]
    constructor
    · rintro (rfl | ⟨j, rfl, hj⟩)
      · exact ⟨0, by omega, h.1⟩
      · exact ⟨j + 1, by rw [Nat.succ_mul]; omega, hj⟩
    · rintro ⟨j, rfl, hj⟩
      cases j with
      | zero => exact .inl (by omega)
      | succ j => exact .inr ⟨j, by rw [Nat.succ_mul]; omega, hj⟩
  | case2 line h =>
    unfold linesFrom
    rw [dif_neg h]
    constructor
    · exact nofun
    · rintro ⟨j, rfl, hj⟩
      exact absurd ⟨by omega, hs⟩ h

/-- the lines that are visited: those that start at a multiple of their size and reach the range -/
theorem mem_visitedLines {k : Nat} (hk : k < 64) (a : PhysAddr) (len y : Nat) :
    y ∈ visitedLines (2 ^ k) a len ↔
      2 ^ k ∣ y ∧ a.bits.toNat / 2 ^ k * 2 ^ k ≤ y ∧ y < a.bits.toNat + len := by
  unfold visitedLines
  rw [mem_linesFrom (Nat.two_pow_pos k), Word.toNat_roundDown _ hk]
  constructor
  · rintro ⟨j, rfl, hy⟩
    exact ⟨Dvd.dvd.add (Nat.dvd_mul_left ..) (Nat.dvd_mul_left ..), Nat.le_add_right .., hy⟩
  · rintro ⟨⟨i, rfl⟩, hle, hy⟩
    have hq : a.bits.toNat / 2 ^ k ≤ i :=
      Nat.le_of_mul_le_mul_right (by rwa [Nat.mul_comm (2 ^ k) i] at hle) (Nat.two_pow_pos k)
    refine ⟨i - a.bits.toNat / 2 ^ k, ?_, hy⟩
    rw [← Nat.add_mul, Nat.add_sub_cancel' hq, Nat.mul_comm]

/-! ## what a clean covers -/

/-- is the word at `x` written back whole? -/
def Event.covers (x : PhysAddr) : Event → Bool
  | .cleaned a len _ => a.bits.toNat ≤ x.bits.toNat ∧ x.bits.toNat + 8 ≤ a.bits.toNat + len
  | .lineCleaned line size => line ≤ x.bits.toNat ∧ x.bits.toNat + 8 ≤ line + size
  | _ => false

namespace Cleaner

/-- the size of a line is a power of two, and a line holds whole words -/
def WholeWords : Cleaner → Prop
  | platform => True
  | lines size => ∃ k, 3 ≤ k ∧ k < 64 ∧ size = 2 ^ k

/-- what happens when `len` bytes from `a` up are cleaned -/
def events (c : Cleaner) (a : PhysAddr) (len : Nat) (memory : Memory) : List Event :=
  match c with
  | platform => [.cleaned a len (.ofWords len (memory.words a (len / 8)))]
  | lines size => (visitedLines size a len).map fun line => .lineCleaned line size

variable {c : Cleaner} {a x : PhysAddr} {len : Nat}

/-- every word of the range is written back -/
theorem exists_covers (hc : c.WholeWords) (hx : 8 ∣ x.bits.toNat) (hlow : a.bits.toNat ≤ x.bits.toNat)
    (hhigh : x.bits.toNat + 8 ≤ a.bits.toNat + len) (memory : Memory) :
    ∃ e ∈ c.events a len memory, e.covers x = true := by
  cases c with
  | platform => exact ⟨_, List.mem_singleton_self _, decide_eq_true ⟨hlow, hhigh⟩⟩
  | lines size =>
    obtain ⟨k, h3, hk, rfl⟩ := hc
    have hle : x.bits.toNat / 2 ^ k * 2 ^ k ≤ x.bits.toNat := Nat.div_mul_le_self ..
    have hlt : x.bits.toNat < x.bits.toNat / 2 ^ k * 2 ^ k + 2 ^ k := by
      have := Nat.lt_div_mul_add (a := x.bits.toNat) (Nat.two_pow_pos k)
      omega
    have h8 : 8 ∣ x.bits.toNat / 2 ^ k * 2 ^ k + 2 ^ k := by
      have h : 2 ^ 3 ∣ 2 ^ k := Nat.pow_dvd_pow 2 h3
      exact Dvd.dvd.add (Dvd.dvd.mul_left h _) h
    refine ⟨_, List.mem_map_of_mem ((mem_visitedLines hk a len _).mpr
      ⟨Nat.dvd_mul_left .., Nat.mul_le_mul_right _ (Nat.div_le_div_right hlow), ?_⟩),
      decide_eq_true ⟨hle, ?_⟩⟩
    · omega
    · omega

/-- a cleaner notes that it wrote back a range or lines, and nothing else -/
theorem forall_events {P : Event → Prop} (c : Cleaner) (a : PhysAddr) (len : Nat) (memory : Memory)
    (hrange : ∀ bytes, P (.cleaned a len bytes)) (hline : ∀ line size, P (.lineCleaned line size)) :
    ∀ e ∈ c.events a len memory, P e := by
  intro e he
  cases c with
  | platform =>
    rw [List.mem_singleton.mp he]
    exact hrange _
  | lines size =>
    obtain ⟨line, _, rfl⟩ := List.mem_map.mp he
    exact hline line size

theorem plain_events (c : Cleaner) (a : PhysAddr) (len : Nat) (memory : Memory) :
    ∀ e ∈ c.events a len memory, e.Plain :=
  c.forall_events a len memory (fun _ => trivial) fun _ _ => trivial

end Cleaner

/-! ## the action -/

theorem Act.clean_apply (c : Cleaner) (a : PhysAddr) (len : Nat) (env : Env σ) (m : Machine σ) :
    (Act.clean c a len : Act σ ε Unit) env m = .ok () (m.noteAll (c.events a len m.memory)) := by
  cases c with
  | platform =>
    exact congrArg (EStateM.Result.ok ()) (m.foldl_note id [_])
  | lines size =>
    exact congrArg (EStateM.Result.ok ()) (m.foldl_note (fun line => .lineCleaned line size) _)

namespace Tree
variable (t : Tree)

/-- what happens when `len` bytes of a tree from `a` up are made visible -/
def cleaning (a : PhysAddr) (len : Nat) (memory : Memory) : List Event :=
  match t.cleaner with
  | some c => c.events a len memory
  | none => []

theorem clean_apply (a : PhysAddr) (len : Nat) (env : Env σ) (m : Machine σ) :
    (t.clean a len : Act σ ε Unit) env m = .ok () (m.noteAll (t.cleaning a len m.memory)) := by
  unfold Tree.clean cleaning
  cases t.cleaner with
  | none => exact congrArg (EStateM.Result.ok ()) (m.foldl_note id [])
  | some c => exact Act.clean_apply c a len env m

theorem plain_cleaning (a : PhysAddr) (len : Nat) (memory : Memory) :
    ∀ e ∈ t.cleaning a len memory, e.Plain := by
  unfold cleaning
  cases t.cleaner with
  | none => exact nofun
  | some c => exact c.plain_events a len memory

end Tree

end NestedPaging
