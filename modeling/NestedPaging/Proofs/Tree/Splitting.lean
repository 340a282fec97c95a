import NestedPaging.Proofs.Tree.Changes
import NestedPaging.Tree.Walk

/-!
# Tables that map what an entry maps

A walk puts a table in the place of an entry that is none: an empty one in a gap, and one of 512
smaller leaves in the place of a large leaf. Either way the entries of the new table are no tables,
and each address of the block maps to what it mapped to before (`MapsLike`).
-/

namespace NestedPaging

open PhysAddr (IsPage)

/-- a table at `level` with the first entries `ws`, and zeros after them, maps in the block `block`
of the level above what the entry `old` maps there -/
structure MapsLike (f : Format) (split : Bool) (level block : Nat) (old : Word) (ws : List Word) :
    Prop where
  bare : ∀ j, j < 512 → f.Bare split level (ws[j]?.getD 0)
  maps : ∀ a : GuestAddr, a.block (level + 1) = block →
    (f.leafOf level (ws[tableIndex a level]?.getD 0)).map (Leaf.translation a)
      = (f.leafOf (level + 1) old).map (Leaf.translation a)

namespace Format
variable (f : Format) {split : Bool} {level : Nat} {p : PhysAddr} {a : Attrs} {w : Word}

theorem leafOf_zero (level : Nat) : f.leafOf level 0 = none := by
  unfold leafOf
  rw [f.isPresent_zero]
  rfl

theorem leafOf_leafWord (hp : IsPage p) (h : a.perms.grantsAccess = true) (level : Nat) :
    f.leafOf level (f.leafWord split level p a)
      = some (f.leaf level (f.leafWord split level p a)) := by
  unfold leafOf
  rw [f.isPresent_leafWord hp h]
  rfl

theorem mapsLike_gap (split : Bool) (level block : Nat) :
    MapsLike f split level block 0 [] where
  bare _ _ := .absent
  maps _ _ := by
    rw [List.getElem?_nil, Option.getD_none, f.leafOf_zero, f.leafOf_zero]

theorem topLeafLevel_le : f.topLeafLevel ≤ 4 := by cases f <;> decide

end Format

/-- a multiple of `d` below another leaves room for `d` -/
theorem add_le_of_dvd {d n m : Nat} (hn : d ∣ n) (hm : d ∣ m) (h : n < m) : n + d ≤ m := by
  obtain ⟨u, rfl⟩ := hn
  obtain ⟨v, rfl⟩ := hm
  have huv : u < v := Nat.lt_of_mul_lt_mul_left h
  calc d * u + d = d * (u + 1) := by rw [Nat.mul_succ]
    _ ≤ d * v := Nat.mul_le_mul_left d huv

theorem two_pow_blockBits_dvd {level : Nat} (h : level ≤ 4) : 2 ^ blockBits level ∣ 2 ^ 48 :=
  Nat.pow_dvd_pow 2 (blockBits_le h)

theorem Addr.ext_toNat {s : AddrSpace} {a b : Addr s} (h : a.bits.toNat = b.bits.toNat) : a = b := by
  cases a
  cases b
  exact congrArg Addr.mk (UInt64.toNat_inj.mp h)

section
variable {p : PhysAddr} {level i : Nat}

theorem dvd_part (hl : level ≤ 4) (hd : 2 ^ blockBits level ∣ p.bits.toNat) (hi : i < 2 ^ 64) :
    2 ^ blockBits level ∣ (p.part level i).bits.toNat := by
  rw [PhysAddr.toNat_part (dvd_of_dvd_block hd) hl hi, Nat.dvd_mod_iff (two_pow_blockBits_dvd hl)]
  exact Nat.dvd_add hd (Nat.dvd_mul_left ..)

theorem two_pow_blockBits_dvd_succ (level : Nat) : 2 ^ blockBits level ∣ 2 ^ blockBits (level + 1) :=
  Nat.pow_dvd_pow 2 (by rw [blockBits_succ]; omega)

theorem toNat_part_of_dvd (hl : level + 1 ≤ 4) (hp : IsPage p)
    (hd : 2 ^ blockBits (level + 1) ∣ p.bits.toNat) (hi : i < 512) :
    (p.part level i).bits.toNat = p.bits.toNat + i * 2 ^ blockBits level := by
  have hroom : p.bits.toNat + 2 ^ blockBits (level + 1) ≤ 2 ^ 48 :=
    add_le_of_dvd hd (two_pow_blockBits_dvd hl) hp.low
  have hlt : i * 2 ^ blockBits level < 2 ^ blockBits (level + 1) := by
    rw [blockBits_succ, Nat.pow_add, Nat.mul_comm (2 ^ blockBits level)]
    exact (Nat.mul_lt_mul_right (Nat.two_pow_pos _)).mpr hi
  rw [PhysAddr.toNat_part (dvd_of_dvd_block hd) (by omega) (by omega), Nat.mod_eq_of_lt (by omega)]

end

namespace Format
variable (f : Format) {split : Bool} {level : Nat} {p : PhysAddr} {a : Attrs} {w : Word}

theorem translation_leafWord (hl : level ≤ 4) (hp : IsPage p)
    (hd : 2 ^ blockBits level ∣ p.bits.toNat) (ha : a.perms.grantsAccess = true) (g : GuestAddr)
    {out : PhysAddr} (ho : out.bits.toNat = p.bits.toNat + g.bits.toNat % 2 ^ blockBits level) :
    (f.leaf level (f.leafWord split level p a)).translation g = (out, f.stored split a) := by
  have e : entryAddress (f.leafWord split level p a) = p := f.entryAddress_leafWord hp ha level
  apply Prod.ext
  · apply Addr.ext_toNat
    show ((f.leaf level (f.leafWord split level p a)).physAddr g).bits.toNat = _
    rw [toNat_physAddr f g hl (by rw [e]; exact hd), e, ho]
  · exact f.attrs_leafWord hp ha level

theorem splitEntries_leafWord (hp : IsPage p) (ha : a.perms.grantsAccess = true) :
    f.splitEntries split (level + 1) (f.leafWord split (level + 1) p a)
      = (List.range 512).map fun i =>
          f.leafWord split level (p.part level i) (f.stored split a) := by
  have e : f.leafWord split (level + 1) p a &&& addressMask = p.bits :=
    congrArg Addr.bits (f.entryAddress_leafWord hp ha (level + 1))
  have ea : f.attrs (f.leafWord split (level + 1) p a) = f.stored split a :=
    f.attrs_leafWord hp ha (level + 1)
  unfold splitEntries
  rw [e, ea]
  rfl

/-- splitting a leaf is exact: addresses, attributes and the bits of the entries -/
theorem mapsLike_split (hw : f.Bare split (level + 1) w) (hpres : f.isPresent w = true)
    (block : Nat) : MapsLike f split level block w (f.splitEntries split (level + 1) w) := by
  obtain ⟨p, a, htop, hp, hd, ha, rfl⟩ := hw.eq_leaf hpres
  have hl : level + 1 ≤ 4 := Nat.le_trans htop f.topLeafLevel_le
  have ha' : (f.stored split a).perms.grantsAccess = true := f.grantsAccess_stored.trans ha
  have hpart : ∀ j, j < 512 → 2 ^ blockBits level ∣ (p.part level j).bits.toNat := fun j hj =>
    dvd_part (by omega) (Nat.dvd_trans (two_pow_blockBits_dvd_succ level) hd) (by omega)
  have hget : ∀ j, j < 512 →
      (f.splitEntries split (level + 1) (f.leafWord split (level + 1) p a))[j]?.getD 0
        = f.leafWord split level (p.part level j) (f.stored split a) := by
    intro j hj
    rw [f.splitEntries_leafWord hp ha, List.getElem?_map, List.getElem?_range hj]
    rfl
  constructor
  · intro j hj
    rw [hget j hj]
    exact .leaf (Nat.le_of_succ_le htop) (p.isPage_part level j) (hpart j hj) ha'
  · intro g _
    have hi := tableIndex_lt g level
    have hpage := p.isPage_part level (tableIndex g level)
    rw [hget _ hi, f.leafOf_leafWord hpage ha', f.leafOf_leafWord hp ha, Option.map_some,
      Option.map_some]
    obtain ⟨out, ho⟩ : ∃ out : PhysAddr, out.bits.toNat
        = p.bits.toNat + g.bits.toNat % 2 ^ blockBits (level + 1) := by
      have e := toNat_physAddr f g hl (w := f.leafWord split (level + 1) p a)
      rw [f.entryAddress_leafWord hp ha] at e
      exact ⟨_, e hd⟩
    have ho' : out.bits.toNat = (p.part level (tableIndex g level)).bits.toNat
        + g.bits.toNat % 2 ^ blockBits level := by
      rw [ho, toNat_part_of_dvd hl hp hd hi, tableIndex_eq g (by omega), blockBits_succ,
        Nat.pow_add, Nat.mod_mul, Addr.block]
      ring
    rw [f.translation_leafWord (by omega) hpage (hpart _ hi) ha' g ho',
      f.translation_leafWord hl hp hd ha g ho, f.stored_stored]

end Format

end NestedPaging
