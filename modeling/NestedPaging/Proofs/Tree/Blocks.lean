import NestedPaging.Proofs.Tree.Entries
import NestedPaging.Tree.Basic

/-!
# Blocks of addresses

An entry at `level` covers one block of `2 ^ (12 + 9 * level)` bytes. `Addr.block a level` is the
number of the block that holds `a`. A table at `level` maps one block of the level above, and the
entry that `a` selects in it is the place of `a`'s block among the 512 in there.

Words of tables are named by the page and the index (`Memory.entry`); two names of pages name the
same word only if they are equal.
-/

namespace NestedPaging

open PhysAddr (IsPage)

/-- the bits of an address inside a block at `level` -/
def blockBits (level : Nat) : Nat := 12 + level * indexBits

theorem blockBits_succ (level : Nat) : blockBits (level + 1) = blockBits level + 9 := by
  unfold blockBits indexBits
  omega

theorem blockBits_le {level : Nat} (h : level ≤ 4) : blockBits level ≤ 48 := by
  unfold blockBits indexBits
  omega

theorem levelOrder_of_le {level : Nat} (h : level ≤ 4) : levelOrder level = level * indexBits :=
  Nat.mod_eq_of_lt (by simp only [indexBits, UInt32.size]; omega)

theorem toNat_granule {level : Nat} (h : level ≤ 4) :
    (orderBytes (levelOrder level)).toNat = 2 ^ blockBits level := by
  rw [levelOrder_of_le h, toNat_orderBytes (by simp only [indexBits]; omega), blockBits]

theorem twelve_le_blockBits (level : Nat) : 12 ≤ blockBits level := Nat.le_add_right ..

theorem dvd_of_dvd_block {level n : Nat} (h : 2 ^ blockBits level ∣ n) : 2 ^ 12 ∣ n :=
  Nat.dvd_trans (Nat.pow_dvd_pow 2 (twelve_le_blockBits level)) h

namespace Addr
variable {s : AddrSpace} (a : Addr s)

/-- the number of the block at `level` that holds `a` -/
def block (a : Addr s) (level : Nat) : Nat := a.bits.toNat / 2 ^ blockBits level

theorem block_succ (level : Nat) : a.block (level + 1) = a.block level / 512 := by
  unfold block
  rw [blockBits_succ, Nat.pow_add, ← Nat.div_div_eq_div_mul]

theorem block_le_of_le {level k : Nat} {b : Addr s} (h : level ≤ k)
    (hb : a.block level = b.block level) : a.block k = b.block k := by
  induction h with
  | refl => exact hb
  | step _ ih => rw [block_succ, block_succ, ih]

end Addr

theorem tableIndex_eq (a : GuestAddr) {level : Nat} (h : level ≤ 4) :
    tableIndex a level = a.block level % 512 := by
  have hb := blockBits_le h
  have hs : (12 + levelOrder level).toUInt64.toNat = blockBits level := by
    rw [levelOrder_of_le h]
    exact UInt64.toNat_ofNat_of_lt' (by unfold blockBits at hb; simp [UInt64.size]; omega)
  unfold tableIndex Addr.block
  rw [UInt64.toNat_shiftRight, hs, Nat.mod_eq_of_lt (show blockBits level < 64 by omega),
    Nat.shiftRight_eq_div_pow]

theorem tableIndex_lt (a : GuestAddr) (level : Nat) : tableIndex a level < 512 :=
  Nat.mod_lt _ (by decide)

theorem block_eq_index (a : GuestAddr) {level : Nat} (h : level ≤ 4) :
    a.block level = a.block (level + 1) * 512 + tableIndex a level := by
  rw [tableIndex_eq a h, a.block_succ]
  omega

theorem tableIndex_congr {a b : GuestAddr} {level k : Nat} (hk : k ≤ 4) (h : level ≤ k)
    (hb : a.block level = b.block level) : tableIndex a k = tableIndex b k := by
  rw [tableIndex_eq a hk, tableIndex_eq b hk, a.block_le_of_le h hb]

theorem Format.inRange_iff (f : Format) (a : GuestAddr) :
    f.inRange a = true ↔ a.block f.levels = 0 := by
  unfold Format.inRange Addr.block Format.inputBits blockBits
  rw [decide_eq_true_iff, Nat.one_shiftLeft, Nat.div_eq_zero_iff_lt (Nat.two_pow_pos _)]

theorem Format.rootLevel_le (f : Format) : f.rootLevel ≤ 3 := by cases f <;> decide

theorem Format.inRange_iff_root (f : Format) (a : GuestAddr) :
    f.inRange a = true ↔ a.block (f.rootLevel + 1) = 0 := by
  rw [f.inRange_iff, f.levels_eq]

/-! ## the words of tables -/

/-- word `i` of the page `p` -/
def Memory.entry (m : Memory) (p : PhysAddr) (i : Nat) : Word := m.read (p.add (i * 8).toUInt64)

theorem PhysAddr.IsPage.frame_mul {p : PhysAddr} (h : IsPage p) :
    p.frame * 4096 = p.bits.toNat :=
  Nat.div_mul_cancel (p.isPageAligned_iff.mp h.aligned)

theorem PhysAddr.IsPage.frame_lt {p : PhysAddr} (h : IsPage p) : p.frame < 2 ^ 36 := by
  have hmul := h.frame_mul
  have hlow := h.low
  omega

theorem PhysAddr.IsPage.eq_of_frame {p q : PhysAddr} (hp : IsPage p) (hq : IsPage q)
    (h : p.frame = q.frame) : p = q := by
  have e : p.bits.toNat = q.bits.toNat := by rw [← hp.frame_mul, ← hq.frame_mul, h]
  cases p
  cases q
  exact congrArg Addr.mk (UInt64.toNat_inj.mp e)

section
variable {p q : PhysAddr} {i j : Nat}

theorem toNat_entry (hp : IsPage p) (hi : i < 512) :
    (p.add (i * 8).toUInt64).bits.toNat = p.bits.toNat + i * 8 := by
  have e : (i * 8).toUInt64.toNat = i * 8 :=
    UInt64.toNat_ofNat_of_lt' (by simp [UInt64.size]; omega)
  have hl := hp.low
  show (p.bits + (i * 8).toUInt64).toNat = _
  rw [UInt64.toNat_add, e, Nat.mod_eq_of_lt (by omega)]

theorem frame_entry (hp : IsPage p) (hi : i < 512) : (p.add (i * 8).toUInt64).frame = p.frame := by
  have hm := hp.frame_mul
  unfold Addr.frame at hm ⊢
  rw [toNat_entry hp hi]
  omega

theorem wordIndex_entry (hp : IsPage p) (hi : i < 512) :
    (p.add (i * 8).toUInt64).wordIndex = ⟨i, hi⟩ := by
  have hm := hp.frame_mul
  apply Fin.ext
  show (p.add (i * 8).toUInt64).bits.toNat / 8 % 512 = i
  rw [toNat_entry hp hi]
  omega

theorem sameWord_entry (hp : IsPage p) (hq : IsPage q) (hi : i < 512) (hj : j < 512) :
    Memory.SameWord (p.add (i * 8).toUInt64) (q.add (j * 8).toUInt64) ↔ p = q ∧ i = j := by
  unfold Memory.SameWord
  rw [frame_entry hp hi, frame_entry hq hj, wordIndex_entry hp hi, wordIndex_entry hq hj,
    Fin.mk.injEq]
  constructor
  · intro h'
    obtain ⟨hf, hij⟩ := h'
    exact ⟨hp.eq_of_frame hq hf, hij⟩
  · intro h'
    obtain ⟨rfl, rfl⟩ := h'
    exact ⟨rfl, rfl⟩

theorem entry_write (m : Memory) (w : Word) (hp : IsPage p) (hq : IsPage q) (hi : i < 512)
    (hj : j < 512) : (m.write (p.add (i * 8).toUInt64) w).entry q j =
      if p = q ∧ i = j then w else m.entry q j := by
  unfold Memory.entry
  split
  · rename_i h
    exact Memory.read_write_same ((sameWord_entry hp hq hi hj).mpr h) m w
  · rename_i h
    exact Memory.read_write_other (fun hs => h ((sameWord_entry hp hq hi hj).mp hs)) m w

theorem entry_fill (m : Memory) (w : Word) (hp : IsPage p) (hq : IsPage q) (hj : j < 512) :
    (m.fill p.frame w).entry q j = if p = q then w else m.entry q j := by
  unfold Memory.entry
  rw [Memory.read_fill, frame_entry hq hj]
  by_cases h : p = q
  · rw [if_pos h, if_pos (congrArg Addr.frame h)]
  · rw [if_neg h, if_neg fun hf => h (hp.eq_of_frame hq hf)]

end

/-! ## output addresses -/

namespace PhysAddr

/-- the address of part `i` of what `p` starts, in parts of one block at `level` -/
def part (p : PhysAddr) (level i : Nat) : PhysAddr :=
  entryAddress (p.bits + i.toUInt64 * orderBytes (levelOrder level))

theorem isPage_part (p : PhysAddr) (level i : Nat) : IsPage (p.part level i) :=
  isPage_entryAddress _

theorem toNat_part {p : PhysAddr} {level i : Nat} (hp : 2 ^ 12 ∣ p.bits.toNat) (hl : level ≤ 4)
    (hi : i < 2 ^ 64) :
    (p.part level i).bits.toNat = (p.bits.toNat + i * 2 ^ blockBits level) % 2 ^ 48 := by
  have ei : i.toUInt64.toNat = i := UInt64.toNat_ofNat_of_lt' hi
  have hd : 2 ^ 12 ∣ (p.bits.toNat + i * 2 ^ blockBits level) % 2 ^ 48 :=
    (Nat.dvd_mod_iff (by decide)).mpr
      (Nat.dvd_add hp (dvd_of_dvd_block (Nat.dvd_mul_left _ i)))
  show ((p.bits + i.toUInt64 * orderBytes (levelOrder level)) &&& addressMask).toNat = _
  rw [toNat_addressMask, UInt64.toNat_add, UInt64.toNat_mul, ei, toNat_granule hl,
    Nat.add_mod_mod, Nat.mod_mod_of_dvd _ (show 2 ^ 48 ∣ 2 ^ 64 by decide), Nat.div_mul_cancel hd]

end PhysAddr

theorem toNat_physAddr (f : Format) (a : GuestAddr) {level : Nat} {w : Word} (hl : level ≤ 4)
    (hd : 2 ^ blockBits level ∣ (entryAddress w).bits.toNat) :
    ((f.leaf level w).physAddr a).bits.toNat
      = (entryAddress w).bits.toNat + a.bits.toNat % 2 ^ blockBits level := by
  have hlow := (PhysAddr.isPage_entryAddress w).low
  have hb := blockBits_le hl
  have hmod : a.bits.toNat % 2 ^ blockBits level < 2 ^ blockBits level :=
    Nat.mod_lt _ (Nat.two_pow_pos _)
  have hpow : 2 ^ blockBits level ≤ 2 ^ 48 := Nat.pow_le_pow_right (by decide) hb
  have ho : levelOrder level < 52 := by
    rw [levelOrder_of_le hl]
    simp only [indexBits]
    omega
  show ((entryAddress w).bits + (a.bits &&& (orderBytes (levelOrder level) - 1))).toNat = _
  rw [UInt64.toNat_add, toNat_and_orderBytes _ ho, levelOrder_of_le hl,
    show 12 + level * indexBits = blockBits level from rfl, Nat.mod_eq_of_lt (by omega)]

end NestedPaging
