import NestedPaging.Proofs.Machine.Bits

/-!
# What entries say

An entry joins the address of a page with bits that lie outside the address field. Both formats
read back what they write: a table entry is a table above level 0, a leaf is present and never a
table, and the address comes back. The attributes come back folded (`Format.stored`), and folding
once more changes nothing, so that splitting a leaf keeps them.
-/

namespace NestedPaging

namespace PhysAddr

/-- `p` is the first byte of a page that an entry can name -/
structure IsPage (p : PhysAddr) : Prop where
  aligned : p.isPageAligned = true
  low : p.bits.toNat < 2 ^ 48

theorem isPage_iff (p : PhysAddr) : IsPage p ↔ p.bits &&& addressMask = p.bits := by
  rw [← UInt64.toNat_inj, toNat_addressMask]
  constructor
  · intro h
    have hd := p.isPageAligned_iff.mp h.aligned
    rw [Nat.mod_eq_of_lt h.low, Nat.div_mul_cancel hd]
  · intro h
    have hlt : p.bits.toNat % 2 ^ 48 < 2 ^ 48 := Nat.mod_lt _ (by decide)
    have hle := Nat.div_mul_le_self (p.bits.toNat % 2 ^ 48) (2 ^ 12)
    exact ⟨p.isPageAligned_iff.mpr ⟨_, by rw [Nat.mul_comm]; exact h.symm⟩, by omega⟩

theorem isPage_entryAddress (w : Word) : IsPage (entryAddress w) := by
  rw [isPage_iff]
  apply Word.ext_bit
  intro i
  simp only [entryAddress, Word.bit_and, Bool.and_assoc, Bool.and_self]

theorem IsPage.bit {p : PhysAddr} (h : IsPage p) {i : Nat} (hi : ¬ (12 ≤ i ∧ i < 48)) :
    p.bits.bit i = false := by
  rw [← (isPage_iff p).mp h, Word.bit_and, bit_addressMask]
  have : (decide (12 ≤ i) && decide (i < 48)) = false := by simpa using hi
  rw [this, Bool.and_false]

end PhysAddr

open PhysAddr (IsPage)

/-- no bit of `b` is an address bit -/
def OutsideAddress (b : Word) : Prop := ∀ i, 12 ≤ i → i < 48 → b.bit i = false

theorem entryAddress_or {p : PhysAddr} {b : Word} (hp : IsPage p) (hb : OutsideAddress b) :
    entryAddress (p.bits ||| b) = p := by
  have e : (p.bits ||| b) &&& addressMask = p.bits := by
    apply Word.ext_bit
    intro i
    rw [Word.bit_and, Word.bit_or, bit_addressMask]
    by_cases hi : 12 ≤ i ∧ i < 48
    · rw [hb i hi.1 hi.2]
      simp [hi.1, hi.2]
    · have : (decide (12 ≤ i) && decide (i < 48)) = false := by simpa using hi
      rw [this, Bool.and_false, hp.bit hi]
  rw [entryAddress, e]

theorem bit_page_or {p : PhysAddr} (hp : IsPage p) (b : Word) {i : Nat}
    (hi : ¬ (12 ≤ i ∧ i < 48)) : (p.bits ||| b).bit i = b.bit i := by
  rw [Word.bit_or, hp.bit hi, Bool.false_or]

namespace Word

theorem toNat_shifted {n k m : Nat} (hn : n < 2 ^ m) (hk : k + m < 64) :
    (n.toUInt64 <<< k.toUInt64).toNat = n * 2 ^ k := by
  have hm : 2 ^ m < 2 ^ 64 := Nat.pow_lt_pow_right (by decide) (by omega)
  have en : n.toUInt64.toNat = n :=
    UInt64.toNat_ofNat_of_lt' (show n < 2 ^ 64 from Nat.lt_trans hn hm)
  have ek : k.toUInt64.toNat = k := UInt64.toNat_ofNat_of_lt' (by simp [UInt64.size]; omega)
  have hlt : n * 2 ^ k < 2 ^ 64 := calc
    n * 2 ^ k < 2 ^ m * 2 ^ k := (Nat.mul_lt_mul_right (Nat.two_pow_pos k)).mpr hn
    _ = 2 ^ (k + m) := by rw [← Nat.pow_add, Nat.add_comm]
    _ < 2 ^ 64 := Nat.pow_lt_pow_right (by decide) hk
  rw [UInt64.toNat_shiftLeft, en, ek, Nat.mod_eq_of_lt (show k < 64 by omega), Nat.shiftLeft_eq,
    Nat.mod_eq_of_lt hlt]

theorem bit_shifted {n k m : Nat} (hn : n < 2 ^ m) (hk : k + m < 64) (i : Nat) :
    bit (n.toUInt64 <<< k.toUInt64) i = (decide (k ≤ i) && n.testBit (i - k)) := by
  unfold bit
  rw [toNat_shifted hn hk, Nat.testBit_mul_two_pow]

theorem bit_shifted_out {n k m : Nat} (hn : n < 2 ^ m) (hk : k + m < 64) {i : Nat}
    (hi : i < k ∨ k + m ≤ i) : bit (n.toUInt64 <<< k.toUInt64) i = false := by
  rw [bit_shifted hn hk]
  rcases hi with hi | hi
  · simp [Nat.not_le.mpr hi]
  · have hlt : n < 2 ^ (i - k) :=
      Nat.lt_of_lt_of_le hn (Nat.pow_le_pow_right (by decide) (by omega))
    rw [Nat.testBit_lt_two_pow hlt, Bool.and_false]

theorem field_shifted {n k m : Nat} (hn : n < 2 ^ m) (hk : k + m < 64) :
    field (n.toUInt64 <<< k.toUInt64) k m = n := by
  rw [field_eq, toNat_shifted hn hk, Nat.shiftRight_eq_div_pow,
    Nat.mul_div_cancel _ (Nat.two_pow_pos k), Nat.mod_eq_of_lt hn]

end Word

/-! ## stage-2 entries -/

namespace Stage2
variable {a : Attrs} {split : Bool} {level : Nat}

theorem memoryField_lt (t : MemType) : memoryField t < 2 ^ 4 := by cases t <;> decide

theorem share_lt (s : Shareability) : s.code < 2 ^ 2 := by cases s <;> decide

theorem bit_executeNever (p : Perms) (split : Bool) (i : Nat) :
    (executeNever p split).bit i =
      ((decide (54 = i) && (!p.execUser && (!p.execSuper || split)))
        || (decide (53 = i) && (split && (!p.execSuper) != !p.execUser))) := by
  unfold executeNever neverHigh neverLow
  rw [Word.bit_or, Word.bit_ite, Word.bit_ite, Word.bit_single (by decide),
    Word.bit_single (by decide), Word.bit_zero]
  cases p.execUser <;> cases p.execSuper <;> cases split <;> simp

theorem bit_leafBits (h : a.perms.grantsAccess = true) (i : Nat) :
    (leafBits split level a).bit i =
      (decide (10 = i) || decide (0 = i)
        || Word.bit ((memoryField a.memory).toUInt64 <<< (2 : Nat).toUInt64) i
        || Word.bit (a.share.code.toUInt64 <<< (8 : Nat).toUInt64) i
        || (executeNever a.perms split).bit i || (decide (level = 0) && decide (1 = i))
        || (a.perms.read && decide (6 = i)) || (a.perms.write && decide (7 = i))
        || (a.perms.hypervisor && decide (55 = i))) := by
  unfold leafBits
  rw [if_pos h]
  simp only [Word.bit_or, Word.bit_ite, Word.bit_zero, accessed, valid, notBlock, readable,
    writable, hypervisor, Word.bit_single (show 10 < 64 by decide),
    Word.bit_single (show 0 < 64 by decide), Word.bit_single (show 1 < 64 by decide),
    Word.bit_single (show 6 < 64 by decide), Word.bit_single (show 7 < 64 by decide),
    Word.bit_single (show 55 < 64 by decide)]
  congr 1
  · congr 1
    · congr 1
      · congr 1
        by_cases hl : level = 0 <;> simp [hl]
      · cases a.perms.read <;> simp
    · cases a.perms.write <;> simp
  · cases a.perms.hypervisor <;> simp

theorem bit_memory (t : MemType) {i : Nat} (hi : i < 2 ∨ 6 ≤ i) :
    Word.bit ((memoryField t).toUInt64 <<< (2 : Nat).toUInt64) i = false :=
  Word.bit_shifted_out (memoryField_lt t) (by decide) hi

theorem bit_share (s : Shareability) {i : Nat} (hi : i < 8 ∨ 10 ≤ i) :
    Word.bit (s.code.toUInt64 <<< (8 : Nat).toUInt64) i = false :=
  Word.bit_shifted_out (share_lt s) (by decide) hi

theorem outside_leafBits (h : a.perms.grantsAccess = true) :
    OutsideAddress (leafBits split level a) := by
  intro i h1 h2
  rw [bit_leafBits h, bit_memory _ (by omega), bit_share _ (by omega), bit_executeNever]
  simp [show ¬ 10 = i by omega, show ¬ 0 = i by omega, show ¬ 54 = i by omega,
    show ¬ 53 = i by omega, show ¬ 1 = i by omega, show ¬ 6 = i by omega, show ¬ 7 = i by omega,
    show ¬ 55 = i by omega]

theorem field_memory (h : a.perms.grantsAccess = true) (split : Bool) (level : Nat) :
    (leafBits split level a).field 2 4 = memoryField a.memory := by
  rw [← Word.field_shifted (k := 2) (memoryField_lt a.memory) (by decide)]
  apply Word.field_congr
  intro i h1 h2
  rw [bit_leafBits h, bit_share _ (by omega), bit_executeNever]
  simp [show ¬ 10 = i by omega, show ¬ 0 = i by omega, show ¬ 54 = i by omega,
    show ¬ 53 = i by omega, show ¬ 1 = i by omega, show ¬ 6 = i by omega, show ¬ 7 = i by omega,
    show ¬ 55 = i by omega]

theorem field_share (h : a.perms.grantsAccess = true) (split : Bool) (level : Nat) :
    (leafBits split level a).field 8 2 = a.share.code := by
  rw [← Word.field_shifted (k := 8) (share_lt a.share) (by decide)]
  apply Word.field_congr
  intro i h1 h2
  rw [bit_leafBits h, bit_memory _ (by omega), bit_executeNever]
  simp [show ¬ 10 = i by omega, show ¬ 0 = i by omega, show ¬ 54 = i by omega,
    show ¬ 53 = i by omega, show ¬ 1 = i by omega, show ¬ 6 = i by omega, show ¬ 7 = i by omega,
    show ¬ 55 = i by omega]

/-- one mode that may execute lets both do so where the modes are not told apart -/
def storedPerms (split : Bool) (p : Perms) : Perms :=
  if split then p
  else { p with
    execUser := p.execUser || p.execSuper
    execSuper := p.execUser || p.execSuper }

/-- reading a leaf back, with any bits of an address in it -/
theorem attrs_of_leafBits {w : Word} (h : a.perms.grantsAccess = true)
    (hb : ∀ i, ¬ (12 ≤ i ∧ i < 48) → w.bit i = (leafBits split level a).bit i) :
    attrs w = { a with perms := storedPerms split a.perms } := by
  have hm : w.field 2 4 = memoryField a.memory := by
    rw [← field_memory h split level]
    exact Word.field_congr fun i _ hi => hb i (by omega)
  have hs : w.field 8 2 = a.share.code := by
    rw [← field_share h split level]
    exact Word.field_congr fun i _ hi => hb i (by omega)
  have hbit : ∀ i, i = 0 ∨ i = 6 ∨ i = 7 ∨ 48 ≤ i → w.bit i =
      (decide (0 = i) || (decide (54 = i) && (!a.perms.execUser && (!a.perms.execSuper || split)))
        || (decide (53 = i) && (split && (!a.perms.execSuper) != !a.perms.execUser))
        || (a.perms.read && decide (6 = i)) || (a.perms.write && decide (7 = i))
        || (a.perms.hypervisor && decide (55 = i))) := by
    intro i hi
    rw [hb i (by omega), bit_leafBits h, bit_memory _ (by omega), bit_share _ (by omega),
      bit_executeNever]
    have h10 : ¬ 10 = i := by omega
    have h1 : ¬ 1 = i := by omega
    simp [h10, h1, Bool.or_assoc]
  have hp : perms w = storedPerms split a.perms := by
    unfold perms storedPerms
    rw [hbit 0 (by decide), hbit 6 (by decide), hbit 7 (by decide), hbit 54 (by decide),
      hbit 53 (by decide), hbit 55 (by decide)]
    obtain ⟨⟨r, w, u, s, k⟩, _, _⟩ := a
    cases split <;> cases u <;> cases s <;> simp
  have ht : memType w = a.memory := by
    unfold memType
    rw [hm]
    cases a.memory <;> decide
  rw [attrs, hp, ht, hs, Shareability.ofCode_code]

end Stage2

/-! ## extended entries -/

namespace Extended
variable {a : Attrs} {level : Nat}

theorem memoryField_lt (t : MemType) : memoryField t < 2 ^ 3 := by cases t <;> decide

theorem bit_leafBits (h : a.perms.grantsAccess = true) (i : Nat) :
    (leafBits level a).bit i =
      (decide (8 = i) || Word.bit ((memoryField a.memory).toUInt64 <<< (3 : Nat).toUInt64) i
        || (decide (0 < level) && decide (7 = i)) || (a.perms.read && decide (0 = i))
        || (a.perms.write && decide (1 = i)) || (a.perms.execSuper && decide (2 = i))
        || (a.perms.execUser && decide (10 = i)) || (a.perms.hypervisor && decide (52 = i))) := by
  unfold leafBits
  rw [if_pos h]
  simp only [Word.bit_or, Word.bit_ite, Word.bit_zero, accessed, large, readable, writable,
    Extended.execSuper, Extended.execUser, hypervisor, Word.bit_single (show 8 < 64 by decide),
    Word.bit_single (show 7 < 64 by decide), Word.bit_single (show 0 < 64 by decide),
    Word.bit_single (show 1 < 64 by decide), Word.bit_single (show 2 < 64 by decide),
    Word.bit_single (show 10 < 64 by decide), Word.bit_single (show 52 < 64 by decide)]
  congr 1
  · congr 1
    · congr 1
      · congr 1
        · congr 1
          · congr 1
            by_cases hl : 0 < level <;> simp [hl]
          · cases a.perms.read <;> simp
        · cases a.perms.write <;> simp
      · cases a.perms.execSuper <;> simp
    · cases a.perms.execUser <;> simp
  · cases a.perms.hypervisor <;> simp

theorem bit_memory (t : MemType) {i : Nat} (hi : i < 3 ∨ 6 ≤ i) :
    Word.bit ((memoryField t).toUInt64 <<< (3 : Nat).toUInt64) i = false :=
  Word.bit_shifted_out (memoryField_lt t) (by decide) hi

theorem outside_leafBits (h : a.perms.grantsAccess = true) :
    OutsideAddress (leafBits level a) := by
  intro i h1 h2
  rw [bit_leafBits h, bit_memory _ (by omega)]
  simp [show ¬ 8 = i by omega, show ¬ 7 = i by omega, show ¬ 0 = i by omega,
    show ¬ 1 = i by omega, show ¬ 2 = i by omega, show ¬ 10 = i by omega, show ¬ 52 = i by omega]

theorem field_memory (h : a.perms.grantsAccess = true) (level : Nat) :
    (leafBits level a).field 3 3 = memoryField a.memory := by
  rw [← Word.field_shifted (k := 3) (memoryField_lt a.memory) (by decide)]
  apply Word.field_congr
  intro i h1 h2
  rw [bit_leafBits h]
  simp [show ¬ 8 = i by omega, show ¬ 7 = i by omega, show ¬ 0 = i by omega,
    show ¬ 1 = i by omega, show ¬ 2 = i by omega, show ¬ 10 = i by omega, show ¬ 52 = i by omega]

/-- the device types are one -/
def storedMemory (t : MemType) : MemType := if t.isDevice then .deviceNGnRnE else t

/-- reading a leaf back, with any bits of an address in it -/
theorem attrs_of_leafBits {w : Word} (h : a.perms.grantsAccess = true)
    (hb : ∀ i, ¬ (12 ≤ i ∧ i < 48) → w.bit i = (leafBits level a).bit i) :
    isPresent w = true ∧ w.bit 7 = decide (0 < level)
      ∧ attrs w = ⟨a.perms, storedMemory a.memory, .inner⟩ := by
  have hm : w.field 3 3 = memoryField a.memory := by
    rw [← field_memory h level]
    exact Word.field_congr fun i _ hi => hb i (by omega)
  have hbit : ∀ i, i < 3 ∨ i = 7 ∨ i = 10 ∨ 48 ≤ i → w.bit i =
      ((decide (0 < level) && decide (7 = i)) || (a.perms.read && decide (0 = i))
        || (a.perms.write && decide (1 = i)) || (a.perms.execSuper && decide (2 = i))
        || (a.perms.execUser && decide (10 = i)) || (a.perms.hypervisor && decide (52 = i))) := by
    intro i hi
    rw [hb i (by omega), bit_leafBits h, bit_memory _ (by omega)]
    have h8 : ¬ 8 = i := by omega
    simp [h8]
  have hpres : isPresent w = true := by
    unfold isPresent
    rw [hbit 0 (by decide), hbit 1 (by decide), hbit 2 (by decide), hbit 10 (by decide)]
    unfold Perms.grantsAccess at h
    revert h
    cases a.perms.read <;> cases a.perms.write <;> cases a.perms.execUser <;>
      cases a.perms.execSuper <;> simp
  have h7 : w.bit 7 = decide (0 < level) := by
    rw [hbit 7 (by decide)]
    simp
  have hp : perms w = a.perms := by
    unfold perms
    rw [if_pos hpres, hbit 0 (by decide), hbit 1 (by decide), hbit 2 (by decide),
      hbit 10 (by decide), hbit 52 (by decide)]
    simp
  have ht : memType w = storedMemory a.memory := by
    unfold memType storedMemory
    rw [hm]
    cases a.memory <;> decide
  refine ⟨hpres, h7, ?_⟩
  rw [attrs, hp, ht]

end Extended

/-! ## both formats -/

namespace Format
variable (f : Format) {split : Bool} {a : Attrs} {p : PhysAddr}

/-- the attributes that a leaf keeps of `a` -/
def stored (f : Format) (split : Bool) (a : Attrs) : Attrs :=
  match f with
  | stage2 => { a with perms := Stage2.storedPerms split a.perms }
  | extended => ⟨a.perms, Extended.storedMemory a.memory, .inner⟩

theorem stored_stored : f.stored split (f.stored split a) = f.stored split a := by
  cases f with
  | stage2 =>
    obtain ⟨⟨r, w, u, s, k⟩, _, _⟩ := a
    cases split <;> cases u <;> cases s <;> rfl
  | extended =>
    obtain ⟨_, t, _⟩ := a
    cases t <;> rfl

theorem grantsAccess_stored :
    (f.stored split a).perms.grantsAccess = a.perms.grantsAccess := by
  cases f with
  | stage2 =>
    obtain ⟨⟨r, w, u, s, k⟩, _, _⟩ := a
    cases split <;> cases u <;> cases s <;> cases r <;> cases w <;> rfl
  | extended => rfl

theorem isPresent_zero : f.isPresent 0 = false := by cases f <;> decide

theorem ne_zero_of_isPresent {w : Word} (h : f.isPresent w = true) : w ≠ 0 := by
  rintro rfl
  rw [f.isPresent_zero] at h
  cases h

theorem isTable_zero (level : Nat) : f.isTable 0 level = false := by
  cases f
  · show (0 < level && Word.bit 0 0 && Word.bit 0 1) = false
    simp [Word.bit_zero]
  · show (0 < level && Extended.isPresent 0 && !Word.bit 0 7) = false
    rw [show Extended.isPresent 0 = false by decide]
    simp

/-- an entry that points to the table `p` -/
def tableWord (f : Format) (p : PhysAddr) : Word := p.bits ||| f.tableBits

/-- a leaf at `level` that maps to `p` -/
def leafWord (f : Format) (split : Bool) (level : Nat) (p : PhysAddr) (a : Attrs) : Word :=
  p.bits ||| f.leafBits split level a

theorem bit_tableWord (hp : IsPage p) {i : Nat} (hi : ¬ (12 ≤ i ∧ i < 48)) :
    (f.tableWord p).bit i = f.tableBits.bit i := bit_page_or hp _ hi

theorem outside_tableBits : OutsideAddress f.tableBits := by
  intro i h1 h2
  have hlt : f.tableBits.toNat < 2 ^ 12 := by cases f <;> decide
  exact Nat.testBit_lt_two_pow (Nat.lt_of_lt_of_le hlt (Nat.pow_le_pow_right (by decide) h1))

theorem isTable_tableWord (hp : IsPage p) (level : Nat) :
    f.isTable (f.tableWord p) (level + 1) = true := by
  have hb := fun i hi => f.bit_tableWord (i := i) hp hi
  cases f with
  | stage2 =>
    show (decide (0 < level + 1) && Word.bit _ 0 && Word.bit _ 1) = true
    rw [hb 0 (by decide), hb 1 (by decide)]
    simp only [Nat.zero_lt_succ, decide_true, Bool.true_and]
    decide
  | extended =>
    show (decide (0 < level + 1) && (Word.bit _ 0 || Word.bit _ 1 || Word.bit _ 2 || Word.bit _ 10)
      && !Word.bit _ 7) = true
    rw [hb 0 (by decide), hb 1 (by decide), hb 2 (by decide), hb 10 (by decide), hb 7 (by decide)]
    simp only [Nat.zero_lt_succ, decide_true, Bool.true_and]
    decide

theorem entryAddress_tableWord (hp : IsPage p) : entryAddress (f.tableWord p) = p :=
  entryAddress_or hp f.outside_tableBits

theorem outside_leafBits (h : a.perms.grantsAccess = true) (level : Nat) :
    OutsideAddress (f.leafBits split level a) := by
  cases f
  · exact Stage2.outside_leafBits h
  · exact Extended.outside_leafBits h

theorem entryAddress_leafWord (hp : IsPage p) (h : a.perms.grantsAccess = true) (level : Nat) :
    entryAddress (f.leafWord split level p a) = p :=
  entryAddress_or hp (f.outside_leafBits h level)

theorem attrs_leafWord (hp : IsPage p) (h : a.perms.grantsAccess = true) (level : Nat) :
    f.attrs (f.leafWord split level p a) = f.stored split a := by
  cases f
  · exact Stage2.attrs_of_leafBits h fun i hi => bit_page_or hp _ hi
  · exact (Extended.attrs_of_leafBits h fun i hi => bit_page_or hp _ hi).2.2

theorem attrs_leafBits (h : a.perms.grantsAccess = true) (level : Nat) :
    f.attrs (f.leafBits split level a) = f.stored split a := by
  cases f
  · exact Stage2.attrs_of_leafBits h fun _ _ => rfl
  · exact (Extended.attrs_of_leafBits h fun _ _ => rfl).2.2

theorem isPresent_leafWord (hp : IsPage p) (h : a.perms.grantsAccess = true) (level : Nat) :
    f.isPresent (f.leafWord split level p a) = true := by
  cases f
  · show Word.bit _ 0 = true
    rw [leafWord, bit_page_or hp _ (by decide)]
    show (Stage2.leafBits split level a).bit 0 = true
    rw [Stage2.bit_leafBits h]
    simp
  · exact (Extended.attrs_of_leafBits h fun i hi => bit_page_or hp _ hi).1

theorem isTable_leafWord (hp : IsPage p) (h : a.perms.grantsAccess = true) (level : Nat) :
    f.isTable (f.leafWord split level p a) level = false := by
  cases f
  · show (decide (0 < level) && Word.bit _ 0 && Word.bit _ 1) = false
    have h1 : (leafWord stage2 split level p a).bit 1 = decide (level = 0) := by
      rw [leafWord, bit_page_or hp _ (by decide)]
      show (Stage2.leafBits split level a).bit 1 = _
      rw [Stage2.bit_leafBits h, Stage2.bit_memory _ (by decide), Stage2.bit_share _ (by decide),
        Stage2.bit_executeNever]
      simp
    rw [h1]
    rcases Nat.eq_zero_or_pos level with hl | hl
    · simp [hl]
    · simp [Nat.pos_iff_ne_zero.mp hl]
  · show (decide (0 < level) && Extended.isPresent _ && !Word.bit _ 7) = false
    have e : (leafWord extended split level p a).bit 7 = decide (0 < level) :=
      (Extended.attrs_of_leafBits h fun i hi => bit_page_or hp _ hi).2.1
    rw [e]
    cases decide (0 < level) <;> simp

end Format

end NestedPaging
