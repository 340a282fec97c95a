import NestedPaging.Proofs.Tree.Splitting

/-!
# Reading entries back

A leaf keeps the attributes that it was written with, up to what its format folds
(`Format.stored`). Folding is all that is lost, and it is lost once:

* `leafBits_stored`   attributes and what they fold to have the same entries;
* `stored_attrs`      what is read from a word, whichever word it is, folds to itself.

So a leaf can be read and written again, at its own level or as 512 leaves of the level below, and
says the same.
-/

namespace NestedPaging

open PhysAddr (IsPage)

theorem Stage2.executeNever_stored (p : Perms) (split : Bool) :
    executeNever (storedPerms split p) split = executeNever p split := by
  obtain ⟨r, w, u, s, k⟩ := p
  cases split <;> cases u <;> cases s <;> rfl

theorem Extended.memoryField_stored (t : MemType) :
    memoryField (storedMemory t) = memoryField t := by
  cases t <;> rfl

/-- reserved encodings are read as the device type that all of them fold to -/
theorem Extended.storedMemory_memType (w : Word) : storedMemory (memType w) = memType w := by
  unfold memType
  split <;> rfl

namespace Format
variable (f : Format) {split : Bool} {a : Attrs} {p : PhysAddr}

/-- folding goes before writing, so that writing what was read back changes nothing -/
theorem leafBits_stored (split : Bool) (level : Nat) (a : Attrs) :
    f.leafBits split level (f.stored split a) = f.leafBits split level a := by
  have hg : (f.stored split a).perms.grantsAccess = a.perms.grantsAccess := f.grantsAccess_stored
  cases f with
  | stage2 =>
    have hread : (Stage2.storedPerms split a.perms).read = a.perms.read := by cases split <;> rfl
    have hwrite : (Stage2.storedPerms split a.perms).write = a.perms.write := by cases split <;> rfl
    have howner : (Stage2.storedPerms split a.perms).hypervisor = a.perms.hypervisor := by
      cases split <;> rfl
    show Stage2.leafBits split level { a with perms := Stage2.storedPerms split a.perms } = _
    change (Stage2.storedPerms split a.perms).grantsAccess = _ at hg
    unfold Stage2.leafBits
    rw [hg, Stage2.executeNever_stored, hread, hwrite, howner]
    rfl
  | extended =>
    show Extended.leafBits level ⟨a.perms, Extended.storedMemory a.memory, .inner⟩ = _
    unfold Extended.leafBits
    rw [Extended.memoryField_stored]
    rfl

/-- a word says nothing that folding would change, where the modes are told apart -/
theorem stored_attrs (h : f = .stage2 → split = true) (w : Word) :
    f.stored split (f.attrs w) = f.attrs w := by
  cases f with
  | stage2 =>
    obtain rfl := h rfl
    rfl
  | extended =>
    show Attrs.mk (Extended.perms w) (Extended.storedMemory (Extended.memType w)) .inner = _
    rw [Extended.storedMemory_memType]
    rfl

/-- splitting a leaf writes it again, one level down, with the bits that it was made of -/
theorem splitEntries_eq (hp : IsPage p) (ha : a.perms.grantsAccess = true) (level : Nat) :
    f.splitEntries split (level + 1) (f.leafWord split (level + 1) p a)
      = (List.range 512).map fun i => f.leafWord split level (p.part level i) a := by
  rw [f.splitEntries_leafWord hp ha]
  refine List.map_congr_left fun i _ => ?_
  unfold leafWord
  rw [f.leafBits_stored]

/-- the entries of a format are read back: a leaf is present and no table, and gives its address and
its folded attributes; these write the same leaf, and a split writes it again; the entry of a table
is a table with its address; and what is read from any word that grants access, is read again from
the leaf that it writes -/
theorem reads_back (f : Format) (split : Bool) :
    (∀ (p : PhysAddr) (a : Attrs) (level : Nat), IsPage p → a.perms.grantsAccess = true →
      f.isPresent (p.bits ||| f.leafBits split level a) = true ∧
      f.isTable (p.bits ||| f.leafBits split level a) level = false ∧
      (p.bits ||| f.leafBits split level a) &&& addressMask = p.bits ∧
      f.attrs (p.bits ||| f.leafBits split level a) = f.stored split a ∧
      (∀ l, f.leafBits split l (f.attrs (p.bits ||| f.leafBits split level a))
        = f.leafBits split l a) ∧
      f.splitEntries split (level + 1) (p.bits ||| f.leafBits split (level + 1) a)
        = (List.range 512).map fun i => (p.part level i).bits ||| f.leafBits split level a) ∧
    (∀ (p : PhysAddr) (level : Nat), IsPage p → 0 < level →
      f.isTable (p.bits ||| f.tableBits) level = true ∧
      (p.bits ||| f.tableBits) &&& addressMask = p.bits) ∧
    (∀ (w : Word) (level : Nat), (f = .stage2 → split = true) →
      (f.attrs w).perms.grantsAccess = true →
      f.attrs (f.leafBits split level (f.attrs w)) = f.attrs w) := by
  refine ⟨fun p a level hp ha => ?_, fun p level hp hl => ?_, fun w level hs ha => ?_⟩
  · have hattrs : f.attrs (f.leafWord split level p a) = f.stored split a :=
      f.attrs_leafWord hp ha level
    refine ⟨f.isPresent_leafWord hp ha level, f.isTable_leafWord hp ha level,
      congrArg Addr.bits (f.entryAddress_leafWord hp ha level), hattrs, fun l => ?_,
      f.splitEntries_eq hp ha level⟩
    exact (congrArg (f.leafBits split l) hattrs).trans (f.leafBits_stored split l a)
  · obtain ⟨l, rfl⟩ := Nat.exists_eq_succ_of_ne_zero (Nat.ne_of_gt hl)
    exact ⟨f.isTable_tableWord hp l, congrArg Addr.bits (f.entryAddress_tableWord hp)⟩
  · rw [f.attrs_leafBits ha, f.stored_attrs hs]

/-- a leaf at the top of the address space, a table there, and a word with a reserved memory type -/
theorem reads_back_highest :
    Format.extended.attrs ((⟨0xffffc0000000⟩ : PhysAddr).bits
        ||| Format.extended.leafBits false 2 ⟨.userExec ||| .owned, .deviceGRE, .outer⟩)
      = ⟨.userExec ||| .owned, .deviceNGnRnE, .inner⟩ ∧
    Format.stage2.isTable ((⟨0xfffffffff000⟩ : PhysAddr).bits ||| Format.stage2.tableBits) 2
      = true ∧
    Format.stage2.attrs (Format.stage2.leafBits true 1 (Format.stage2.attrs 0x171))
      = ⟨.readOnly ||| .userExec ||| .superExec, .deviceNGnRnE, .nonShareable⟩ := by
  have hpage : IsPage ⟨0xffffc0000000⟩ := ⟨by decide, by decide⟩
  have htop : IsPage ⟨0xfffffffff000⟩ := ⟨by decide, by decide⟩
  obtain ⟨hleaf, -, -⟩ := reads_back .extended false
  obtain ⟨-, htable, hword⟩ := reads_back .stage2 true
  obtain ⟨-, -, -, hattrs, -⟩ :=
    hleaf ⟨0xffffc0000000⟩ ⟨.userExec ||| .owned, .deviceGRE, .outer⟩ 2 hpage (by decide)
  refine ⟨hattrs.trans (by decide), (htable ⟨0xfffffffff000⟩ 2 htop (by decide)).1, ?_⟩
  exact (hword 0x171 1 (fun _ => rfl) (by decide)).trans (by decide)

end Format

end NestedPaging
