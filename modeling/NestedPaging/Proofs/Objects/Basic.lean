import NestedPaging.Proofs.Unit.Registers
import NestedPaging.Proofs.Objects.PageAccesses
import NestedPaging.Remap.Interrupts
import NestedPaging.Remap.Remapper
import NestedPaging.Space.Basic

/-!
# Objects that share memory

Trees, spaces, context tables, interrupt tables and units take pages from one allocator and keep
some of their state in cells of the machine.

* `Object.frames o m`   the pages that `o` holds, read off the machine alone;
* `Object.Sound o m`    what holds of `o` between operations;
* `Object.Spared o m n` what `o` holds is the same in `n` as in `m`;
* `Object.Same o m n`   who asks `o` gets the same answers.

An object that is spared is as sound as before, holds the same pages and gives the same answers.
-/

namespace NestedPaging

open PhysAddr (IsPage)

variable {σ : Type}

/-- a cell of a machine -/
inductive CellRef where
  | tree (i : Nat)
  | space (i : Nat)
  | ring (i : Nat)
  deriving DecidableEq

namespace CellRef

/-- was the cell handed out? -/
def IsIn (m : Machine σ) : CellRef → Prop
  | tree i => i < m.trees.next
  | space i => i < m.spaces.next
  | ring i => i < m.rings.next

/-- the cell holds in `n` what it holds in `m` -/
def Kept (m n : Machine σ) : CellRef → Prop
  | tree i => n.trees.get i = m.trees.get i
  | space i => n.spaces.get i = m.spaces.get i
  | ring i => n.rings.get i = m.rings.get i

theorem Kept.refl (m : Machine σ) (c : CellRef) : c.Kept m m := by cases c <;> rfl

theorem Kept.trans {m k n : Machine σ} {c : CellRef} (h : c.Kept m k) (h' : c.Kept k n) : c.Kept m n := by
  cases c with
  | _ => exact Eq.trans h' h

end CellRef

/-- cells stay, and a space that is not active stays so -/
structure Machine.Onward (m n : Machine σ) : Prop where
  split : n.splitExecute = m.splitExecute
  isIn : ∀ c : CellRef, c.IsIn m → c.IsIn n
  ended : ∀ i < m.spaces.next, (m.spaces.get i).phase ≠ .active → (n.spaces.get i).phase ≠ .active

theorem Machine.Onward.trans {m k n : Machine σ} (h : m.Onward k) (h' : k.Onward n) : m.Onward n :=
  ⟨h'.split.trans h.split, fun c hc => h'.isIn c (h.isIn c hc), fun i hi hp =>
    h'.ended i (h.isIn (.space i) hi) (h.ended i hi hp)⟩

theorem Machine.Onward.of_cells {m n : Machine σ} (hs : n.splitExecute = m.splitExecute)
    (ht : n.trees = m.trees) (hp : n.spaces = m.spaces) (hr : n.rings = m.rings) : m.Onward n := by
  refine ⟨hs, fun c => ?_, fun i _ => ?_⟩
  · cases c <;> simp [CellRef.IsIn, ht, hp, hr]
  · rw [hp]
    exact id

/-- from `m` to `n` no cells but those in `C` change -/
structure Machine.Beside (C : Set CellRef) (m n : Machine σ) : Prop where
  client : n.client = m.client
  kept : ∀ c ∉ C, c.Kept m n
  onward : m.Onward n

namespace Machine.Beside
variable {C : Set CellRef} {F F' : Set Nat} {m k n : Machine σ}

theorem of_cells (hc : n.client = m.client) (hs : n.splitExecute = m.splitExecute) (ht : n.trees = m.trees)
    (hp : n.spaces = m.spaces) (hr : n.rings = m.rings) : m.Beside C n := by
  refine ⟨hc, fun c _ => ?_, .of_cells hs ht hp hr⟩
  cases c <;> simp [CellRef.Kept, ht, hp, hr]

theorem refl (m : Machine σ) : m.Beside C m := of_cells rfl rfl rfl rfl rfl

theorem trans (h : m.Beside C k) (h' : k.Beside C n) : m.Beside C n :=
  ⟨h'.client.trans h.client, fun c hc => (h.kept c hc).trans (h'.kept c hc), h.onward.trans h'.onward⟩

theorem of_deed (h : Deed (Beside C) F m F' n) : m.Beside C n := by
  cases h with
  | aside _ _ _ hb => exact hb
  | _ => exact of_cells rfl rfl rfl rfl rfl

theorem of_deeds (h : Deeds (Beside C) F m F' n) : m.Beside C n := by
  induction h with
  | refl => exact refl m
  | tail _ hd ih => exact ih.trans (of_deed hd)

theorem of_local {t : Tree} (h : t.Local m n) (hC : .tree t.cell ∈ C) : m.Beside C n := by
  refine ⟨h.client, fun c hc => ?_, h.split, fun c hc => ?_, fun i _ => ?_⟩
  · cases c with
    | tree i =>
      apply h.trees
      rintro rfl
      exact hc hC
    | space i => exact congrArg (·.get i) h.spaces
    | ring i => exact congrArg (·.get i) h.rings
  · cases c with
    | tree i => exact Nat.lt_of_lt_of_eq hc h.next.symm
    | space i => exact Nat.lt_of_lt_of_eq hc (congrArg Cells.next h.spaces).symm
    | ring i => exact Nat.lt_of_lt_of_eq hc (congrArg Cells.next h.rings).symm
  · rw [h.spaces]
    exact id

theorem freshTree {m : Machine σ} (hC : .tree m.trees.next ∈ C) (st : TreeState) :
    m.Beside C { m with trees := (m.trees.fresh st).2 } := by
  refine ⟨rfl, fun c hc => ?_, rfl, fun c hc => ?_, fun _ _ => id⟩
  · cases c with
    | tree i =>
      refine (Cells.get_fresh ..).trans (if_neg ?_)
      rintro rfl
      exact hc hC
    | _ => rfl
  · cases c with
    | tree i => exact Nat.lt_succ_of_lt hc
    | _ => exact hc

theorem freshSpace {m : Machine σ} (hC : .space m.spaces.next ∈ C) (st : SpaceState) :
    m.Beside C { m with spaces := (m.spaces.fresh st).2 } := by
  refine ⟨rfl, fun c hc => ?_, rfl, fun c hc => ?_, fun i hi hp => ?_⟩
  · cases c with
    | space i =>
      refine (Cells.get_fresh ..).trans (if_neg ?_)
      rintro rfl
      exact hc hC
    | _ => rfl
  · cases c with
    | space i => exact Nat.lt_succ_of_lt hc
    | _ => exact hc
  · show ((m.spaces.fresh st).2.get i).phase ≠ .active
    rw [Cells.get_fresh, if_neg (Nat.ne_of_gt hi)]
    exact hp

theorem freshRing {m : Machine σ} (hC : .ring m.rings.next ∈ C) (st : RingState) :
    m.Beside C { m with rings := (m.rings.fresh st).2 } := by
  refine ⟨rfl, fun c hc => ?_, rfl, fun c hc => ?_, fun _ _ => id⟩
  · cases c with
    | ring i =>
      refine (Cells.get_fresh ..).trans (if_neg ?_)
      rintro rfl
      exact hc hC
    | _ => rfl
  · cases c with
    | ring i => exact Nat.lt_succ_of_lt hc
    | _ => exact hc

end Machine.Beside

/-! ## what is noted -/

namespace Machine.Deed
variable {C : Set CellRef} {F : Set Nat} {m n : Machine σ}

theorem noteAll (m : Machine σ) {es : List Event} (he : ∀ e ∈ es, e.Plain) :
    Deed (Beside C) F m F (m.noteAll es) :=
  .aside rfl rfl ⟨_, m.logs_noteAll es, he⟩ (.of_cells rfl rfl rfl rfl rfl)

theorem note (m : Machine σ) {e : Event} (he : e.Plain) : Deed (Beside C) F m F (m.note e) := by
  refine .aside rfl rfl ⟨_, .note m e, fun e' he' => ?_⟩ (.of_cells rfl rfl rfl rfl rfl)
  rw [List.mem_singleton.mp he']
  exact he

/-- accesses to devices -/
theorem accessed (h : m.Accessed n) : Deed (Beside C) F m F n := by
  obtain ⟨es, he, hu⟩ := h.logs
  refine .aside h.memory h.live ⟨es, he, fun e hm => ?_⟩ (.of_cells h.client h.split h.trees h.spaces h.rings)
  have hunit := hu e hm
  cases e with
  | accessed => trivial
  | acted => trivial
  | _ => exact hunit.elim

end Machine.Deed

/-! ## the objects -/

inductive Object where
  | tree (t : Tree)
  | space (s : Space)
  | contexts (t : ContextTables)
  | interrupts (t : InterruptTable)
  | unit (u : Remapper)
  deriving DecidableEq

/-- the numbers of the pages of a tree, until it is released -/
def Tree.frames (t : Tree) (m : Machine σ) : Set Nat :=
  {i | (t.state m).released = false ∧ ∃ p ∈ t.pages (t.tables m), p.frame = i}

def ContextTables.frames (t : ContextTables) (m : Memory) : Set Nat := {i | ∃ p ∈ t.pages m, p.frame = i}

/-- the page of the queue -/
def Remapper.frames (u : Remapper) : Set Nat := {i | ∃ q, u.queue = some q ∧ q.base.frame = i}

/-- the numbers of the pages that a unit's registers lie in, if they are mapped -/
def RegisterFile.window : RegisterFile → Set Nat
  | mapped base => {i | ∃ offset < 0x8000, (base.add offset.toUInt64).frame = i}
  | device _ => ∅

/-- a tree that is not released owns its pages -/
def Tree.Whole (t : Tree) (m : Machine σ) : Prop :=
  (t.state m).released = false → ∃ others own, t.Owns others own (t.tables m)

/-- each entry of the root is absent or points to a page of its own -/
structure ContextTables.Sound (t : ContextTables) (m : Memory) : Prop where
  root : IsPage t.root
  entry : ∀ bus < 256, m.read (TableEntry.ofTable t.root bus).address = 0 ∨
    ∃ p, IsPage p ∧ m.read (TableEntry.ofTable t.root bus).address = p.bits ||| presentBit
  once : ∀ bus < 256, ∀ bus' < 256, ∀ p, t.table? m bus = some p → t.table? m bus' = some p → bus = bus'
  apart : ∀ bus < 256, t.table? m bus ≠ some t.root

/-- a queue lies in a page, and its tail in the queue -/
def Remapper.Sound (u : Remapper) (m : Machine σ) : Prop :=
  ∀ q, u.queue = some q → IsPage q.base ∧ (q.state m).tail < ringSlots

namespace Object

/-- the cells that keep the state of an object -/
def cells : Object → Set CellRef
  | tree t => {.tree t.cell}
  | space s => {.space s.cell, .tree s.tree.cell}
  | contexts _ | interrupts _ => ∅
  | unit u => {c | ∃ q, u.queue = some q ∧ c = .ring q.cell}

/-- the tree that an object updates -/
def tree? : Object → Option Tree
  | tree t => some t
  | space s => some s.tree
  | _ => none

/-- the numbers of the pages that an object holds -/
def frames (m : Machine σ) : Object → Set Nat
  | tree t => t.frames m
  | space s => s.tree.frames m
  | contexts t => t.frames m.memory
  | interrupts t => {t.base.frame}
  | unit u => u.frames

/-- the numbers of the pages that its registers lie in -/
def window : Object → Set Nat
  | unit u => u.registers.window
  | _ => ∅

def Sound (m : Machine σ) : Object → Prop
  | tree t => (t.state m).released = false ∧ t.Whole m
  | space s => ((s.state m).phase = .active → (s.tree.state m).released = false) ∧ s.tree.Whole m
  | contexts t => t.Sound m.memory
  | interrupts t => IsPage t.base
  | unit u => u.Sound m

/-- lookups, entries and queues are the same in `n` as in `m` -/
def Same (m n : Machine σ) : Object → Prop
  | tree t => ∀ a (env : Env σ), ∃ leaf, (t.lookup a : Act σ TableError _) env m = .ok leaf m ∧
      (t.lookup a : Act σ TableError _) env n = .ok leaf n
  | space s => ∀ a (env : Env σ), ∃ leaf, (s.lookup a : Act σ TableError _) env m = .ok leaf m ∧
      (s.lookup a : Act σ TableError _) env n = .ok leaf n
  | contexts t => ∀ r, t.entry? n.memory r = t.entry? m.memory r
  | interrupts t => ∀ i < interruptEntries, (TableEntry.ofTable t.base i).readWords n.memory
      = (TableEntry.ofTable t.base i).readWords m.memory
  | unit u => ∀ q, u.queue = some q → q.state n = q.state m ∧
      ∀ i < ringSlots, q.descriptor n.memory i = q.descriptor m.memory i

/-- while others run, the tree of the object only gets more tables -/
def Grows (o : Object) (m n : Machine σ) : Prop :=
  ∀ t, o.tree? = some t → ∀ others own, t.Owns others own (t.tables m) →
    ∃ others' own', own'.Extends own ∧ t.Owns others' own' (t.tables n)

/-- what the object holds is in `n` what it is in `m` -/
structure Spared (o : Object) (m n : Machine σ) : Prop where
  memory : ∀ a : PhysAddr, a.frame ∈ o.frames m → n.memory.read a = m.memory.read a
  live : ∀ i ∈ o.frames m, i ∈ m.live → i ∈ n.live
  cells : ∀ c ∈ o.cells, c.Kept m n
  split : n.splitExecute = m.splitExecute

end Object

/-! ## pairs of words in a page -/

namespace TableEntry
variable {p : PhysAddr} {i j : Nat}

theorem address_eq (p : PhysAddr) (i : Nat) : (ofTable p i).address = p.add (2 * i * 8).toUInt64 := by
  unfold ofTable
  rw [show i * 16 = 2 * i * 8 by omega]

theorem hiAddress_eq (p : PhysAddr) (i : Nat) :
    (ofTable p i).hiAddress = p.add ((2 * i + 1) * 8).toUInt64 := by
  have h : ((2 * i + 1) * 8).toUInt64 = (2 * i * 8).toUInt64 + 8 := by
    rw [Nat.add_mul, Nat.toUInt64_eq, UInt64.ofNat_add]
    rfl
  unfold hiAddress
  rw [address_eq, h]
  exact congrArg Addr.mk (UInt64.add_assoc ..)

theorem frame_address (hp : IsPage p) (hi : i < 256) : (ofTable p i).address.frame = p.frame := by
  rw [address_eq]
  exact frame_entry hp (by omega)

theorem frame_hiAddress (hp : IsPage p) (hi : i < 256) : (ofTable p i).hiAddress.frame = p.frame := by
  rw [hiAddress_eq]
  exact frame_entry hp (by omega)

theorem sameWord_address (hp : IsPage p) (hi : i < 256) (hj : j < 256) :
    Memory.SameWord (ofTable p i).address (ofTable p j).address ↔ i = j := by
  rw [address_eq, address_eq, sameWord_entry hp hp (by omega) (by omega), eq_self, true_and]
  omega

theorem readWords_congr {M M' : Memory} (hp : IsPage p) (hi : i < 256)
    (h : ∀ a : PhysAddr, a.frame = p.frame → M'.read a = M.read a) :
    (ofTable p i).readWords M' = (ofTable p i).readWords M := by
  unfold readWords
  rw [h _ (frame_address hp hi), h _ (frame_hiAddress hp hi)]

end TableEntry

/-! ## trees -/

namespace Tree
variable {t : Tree} {others : Nat → Prop} {own : Layout} {m n : Machine σ}

theorem Owns.frames_eq (h : t.Owns others own (t.tables m)) : t.frames m = own.frames := by
  rw [← h.frames_pages]
  ext i
  exact ⟨fun hi => hi.2, fun hi => ⟨h.unreleased, hi⟩⟩

theorem Owns.live (h : t.Owns others own (t.tables m)) : ∀ i ∈ own.frames, i ∈ m.live := by
  rintro i ⟨p, r, hp, rfl⟩
  exact h.inUse_page hp

theorem Owns.whole (h : t.Owns others own (t.tables m)) : t.Whole m := fun _ => ⟨others, own, h⟩

/-- who else holds which pages does not concern a tree -/
theorem Owns.elsewhere_relabel {T : Tables} (h : t.Owns others own T) (m : Machine σ)
    (hl : ∀ i ∈ own.frames, i ∈ m.live) :
    t.Owns (Machine.Elsewhere own.frames m) own { T with inUse := (· ∈ m.live) } := by
  refine h.relabel rfl rfl rfl rfl (fun i => ?_) fun p r hp ho => ho.2 ⟨p, r, hp, rfl⟩
  constructor
  · intro hi
    by_cases hF : i ∈ own.frames
    · exact .inr hF
    · exact .inl ⟨hi, hF⟩
  · rintro (hi | hF)
    · exact hi.1
    · exact hl i hF

/-- a tree whose pages and cell are as they were -/
theorem Owns.spared (h : t.Owns others own (t.tables m)) (hc : n.trees.get t.cell = m.trees.get t.cell)
    (hm : ∀ a : PhysAddr, a.frame ∈ own.frames → n.memory.read a = m.memory.read a)
    (hl : ∀ i ∈ own.frames, i ∈ n.live) (hs : n.splitExecute = m.splitExecute) :
    t.Owns (Machine.Elsewhere own.frames n) own (t.tables n) ∧
      ∀ a, t.leaf? n.memory a = t.leaf? m.memory a := by
  have he : ∀ {p r i}, own p = some r → i < 512 →
      (t.tables n).memory.entry p i = (t.tables m).memory.entry p i := by
    intro p r i hp hi
    apply hm
    rw [frame_entry (h.isPage hp) hi]
    exact ⟨p, r, hp, rfl⟩
  have hst : t.state n = t.state m := hc
  have hsame : t.Owns others own { t.tables n with inUse := (t.tables m).inUse } :=
    h.same ⟨he, fun _ => Iff.rfl, hs, congrArg (fun st => st.retired.toList) hst,
      congrArg TreeState.released hst⟩
  refine ⟨hsame.elsewhere_relabel n hl, fun a => ?_⟩
  unfold leaf?
  by_cases ha : t.format.inRange a = true
  · rw [if_pos ha, if_pos ha]
    exact t.format.leafBelow_congr fun r hr => h.entry_on_path ha he hr
  · rw [if_neg ha, if_neg ha]

end Tree

/-! ## context tables -/

theorem RequesterId.bus_lt (r : RequesterId) : r.bus < 256 := by
  have := r.toNat_lt
  unfold RequesterId.bus
  omega

theorem RequesterId.devfn_lt (r : RequesterId) : r.devfn < 256 := Nat.mod_lt _ (by decide)

theorem bit_presentBit (i : Nat) : presentBit.bit i = decide (0 = i) := by
  rw [show presentBit = Word.single 0 from rfl]
  exact Word.bit_single (by decide) i

namespace ContextTables
variable {t : ContextTables} {M M' : Memory} {p : PhysAddr} {bus : Nat}

theorem pageOf_present (hp : IsPage p) : pageOf (p.bits ||| presentBit) = p := by
  have hmask : ∀ i, 12 ≤ i ∧ i < 48 → (~~~0xfff : Word).bit i = true := by
    intro i hi
    have h := Word.bit_and (~~~0xfff) addressMask i
    rw [show (~~~0xfff : Word) &&& addressMask = addressMask by decide, bit_addressMask] at h
    simpa [hi.1, hi.2] using h.symm
  refine congrArg Addr.mk (Word.ext_bit fun i => ?_)
  rw [Word.bit_and, Word.bit_or, bit_presentBit]
  by_cases hi : 12 ≤ i ∧ i < 48
  · rw [hmask i hi, Bool.and_true, decide_eq_false (by omega), Bool.or_false]
  · rw [hp.bit hi, Bool.false_or]
    cases i with
    | zero => decide
    | succ i => rfl

theorem isPresentEntry_present (w : Word) : isPresentEntry (w ||| presentBit) = true := by
  unfold isPresentEntry
  rw [bne_iff_ne]
  intro h
  have hbit : ((w ||| presentBit) &&& presentBit).bit 0 = true := by
    rw [Word.bit_and, Word.bit_or, bit_presentBit]
    simp
  rw [h, Word.bit_zero] at hbit
  exact Bool.false_ne_true hbit

theorem table?_blank (h : M.read (TableEntry.ofTable t.root bus).address = 0) : t.table? M bus = none := by
  unfold table?
  rw [h]
  rfl

theorem table?_page (hp : IsPage p)
    (h : M.read (TableEntry.ofTable t.root bus).address = p.bits ||| presentBit) :
    t.table? M bus = some p := by
  unfold table?
  simp only [h, isPresentEntry_present, if_true, pageOf_present hp]

theorem mem_pages : p ∈ t.pages M ↔ (∃ bus < 256, t.table? M bus = some p) ∨ p = t.root := by
  simp [pages]

theorem root_mem : t.root.frame ∈ t.frames M := ⟨t.root, mem_pages.mpr (.inr rfl), rfl⟩

theorem table_mem (hb : bus < 256) (ht : t.table? M bus = some p) : p.frame ∈ t.frames M :=
  ⟨p, mem_pages.mpr (.inl ⟨bus, hb, ht⟩), rfl⟩

theorem table?_congr (hr : IsPage t.root) (hb : bus < 256)
    (h : ∀ a : PhysAddr, a.frame = t.root.frame → M'.read a = M.read a) :
    t.table? M' bus = t.table? M bus := by
  unfold table?
  rw [h _ (TableEntry.frame_address hr hb)]

/-- a page of zeros holds context tables without entries -/
theorem blank (hr : IsPage t.root) (h : ∀ b < 256, M.read (TableEntry.ofTable t.root b).address = 0) :
    t.Sound M ∧ t.frames M = {t.root.frame} := by
  have hnone : ∀ b < 256, t.table? M b = none := fun b hb => table?_blank (h b hb)
  refine ⟨⟨hr, fun b hb => .inl (h b hb), fun b hb _ _ p hp => ?_, fun b hb hp => ?_⟩, ?_⟩
  · rw [hnone b hb] at hp
    cases hp
  · rw [hnone b hb] at hp
    cases hp
  · ext i
    constructor
    · rintro ⟨p, hp, rfl⟩
      rcases mem_pages.mp hp with ⟨b, hb, hp⟩ | rfl
      · rw [hnone b hb] at hp
        cases hp
      · rfl
    · rintro rfl
      exact root_mem

namespace Sound
variable (h : t.Sound M)
include h

theorem isPage (hb : bus < 256) (ht : t.table? M bus = some p) : IsPage p := by
  rcases h.entry bus hb with h0 | ⟨q, hq, hw⟩
  · rw [table?_blank h0] at ht
    cases ht
  · rw [table?_page hq hw] at ht
    exact Option.some.inj ht ▸ hq

theorem isPage_of_mem (hp : p ∈ t.pages M) : IsPage p := by
  rcases mem_pages.mp hp with ⟨bus, hb, ht⟩ | rfl
  · exact h.isPage hb ht
  · exact h.root

/-- no page is listed twice -/
theorem nodup : ((t.pages M).map Addr.frame).Nodup := by
  refine List.Nodup.map_on (fun p hp q hq e => (h.isPage_of_mem hp).eq_of_frame (h.isPage_of_mem hq) e) ?_
  refine List.nodup_append'.mpr ⟨?_, List.nodup_singleton _, fun p hp hr => ?_⟩
  · rw [List.nodup_iff_pairwise_ne, List.pairwise_filterMap]
    refine List.Pairwise.imp_of_mem (fun {b b'} hb hb' hlt p hp q hq e => ?_) List.pairwise_lt_range
    subst e
    exact Nat.ne_of_lt hlt (h.once b (List.mem_range.mp hb) b' (List.mem_range.mp hb') p hp hq)
  · obtain ⟨bus, hb, ht⟩ := List.mem_filterMap.mp hp
    rw [List.mem_singleton.mp hr] at ht
    exact h.apart bus (List.mem_range.mp hb) ht

/-- where the root is as it was, the same tables are there -/
theorem of_root (hm : ∀ a : PhysAddr, a.frame = t.root.frame → M'.read a = M.read a) :
    t.Sound M' ∧ t.frames M' = t.frames M := by
  have ht : ∀ b < 256, t.table? M' b = t.table? M b := fun b hb => table?_congr h.root hb hm
  refine ⟨⟨h.root, fun b hb => ?_, fun b hb b' hb' p hp hp' => ?_, fun b hb => ?_⟩, ?_⟩
  · rw [hm _ (TableEntry.frame_address h.root hb)]
    exact h.entry b hb
  · rw [ht b hb] at hp
    rw [ht b' hb'] at hp'
    exact h.once b hb b' hb' p hp hp'
  · rw [ht b hb]
    exact h.apart b hb
  · unfold ContextTables.frames pages
    rw [List.filterMap_congr fun b hb => ht b (List.mem_range.mp hb)]

/-- all that is read of context tables lies in their pages -/
theorem entry?_congr (hm : ∀ a : PhysAddr, a.frame ∈ t.frames M → M'.read a = M.read a) (r : RequesterId) :
    t.entry? M' r = t.entry? M r := by
  unfold entry?
  rw [table?_congr h.root r.bus_lt fun a ha => hm a (ha ▸ root_mem)]
  cases hp : t.table? M r.bus with
  | none => rfl
  | some p =>
    refine congrArg some (TableEntry.readWords_congr (h.isPage r.bus_lt hp) r.devfn_lt ?_)
    exact fun a ha => hm a (ha ▸ table_mem r.bus_lt hp)

end Sound

end ContextTables

/-! ## what is spared stays the same -/

namespace Tree
variable {t : Tree} {m n : Machine σ}

theorem Whole.spared (h : t.Whole m) (hc : n.trees.get t.cell = m.trees.get t.cell)
    (hm : ∀ a : PhysAddr, a.frame ∈ t.frames m → n.memory.read a = m.memory.read a)
    (hl : ∀ i ∈ t.frames m, i ∈ m.live → i ∈ n.live) (hs : n.splitExecute = m.splitExecute) :
    t.Whole n ∧ t.frames n = t.frames m ∧
      ((t.state m).released = false → ∀ a, t.leaf? n.memory a = t.leaf? m.memory a) := by
  have hst : t.state n = t.state m := hc
  cases hr : (t.state m).released with
  | true =>
    refine ⟨fun hn => ?_, ?_, nofun⟩
    · rw [hst, hr] at hn
      cases hn
    · unfold frames
      rw [hst, hr]
      simp
  | false =>
    obtain ⟨others, own, ho⟩ := h hr
    rw [ho.frames_eq] at hm hl ⊢
    obtain ⟨hn, hleaf⟩ := ho.spared hc hm (fun i hi => hl i hi (ho.live i hi)) hs
    exact ⟨hn.whole, hn.frames_eq, fun _ => hleaf⟩

end Tree

namespace Object
variable {o : Object} {t : Tree} {others : Nat → Prop} {own : Layout} {m : Machine σ}

theorem tree_mem_cells (ht : o.tree? = some t) : .tree t.cell ∈ o.cells := by
  cases o with
  | tree _ =>
    cases ht
    exact rfl
  | space s =>
    cases ht
    exact .inr rfl
  | _ => cases ht

section
variable (ht : o.tree? = some t) (ho : t.Owns others own (t.tables m))
include ht ho

theorem frames_of_owns : o.frames m = own.frames := by
  cases o with
  | tree _ =>
    cases ht
    exact ho.frames_eq
  | space _ =>
    cases ht
    exact ho.frames_eq
  | _ => cases ht

theorem sound_of_owns : o.Sound m := by
  cases o with
  | tree _ =>
    cases ht
    exact ⟨ho.unreleased, ho.whole⟩
  | space _ =>
    cases ht
    exact ⟨fun _ => ho.unreleased, ho.whole⟩
  | _ => cases ht

end

end Object

theorem Object.Grows.trans {o : Object} {m k n : Machine σ} (h : o.Grows m k) (h' : o.Grows k n) :
    o.Grows m n := by
  intro t ht others own ho
  obtain ⟨_, own₁, hx, hk⟩ := h t ht others own ho
  obtain ⟨others', own₂, hx', hn⟩ := h' t ht _ own₁ hk
  exact ⟨others', own₂, hx'.trans hx, hn⟩

theorem Object.grows_of_none {o : Object} {m n : Machine σ} (h : o.tree? = none) : o.Grows m n :=
  fun t ht => by
    rw [h] at ht
    cases ht

theorem Object.frames_client (o : Object) (m : Machine σ) (client : σ) :
    o.frames { m with client } = o.frames m := by
  cases o <;> rfl

namespace Object.Spared
variable {o : Object} {m k n : Machine σ}

theorem client (o : Object) (m : Machine σ) (client : σ) : o.Spared m { m with client } :=
  ⟨fun _ _ => rfl, fun _ _ hi => hi, fun c _ => by cases c <;> rfl, rfl⟩

theorem refl (o : Object) (m : Machine σ) : o.Spared m m :=
  ⟨fun _ _ => rfl, fun _ _ hi => hi, fun c _ => .refl m c, rfl⟩

section
variable (h : o.Spared m n) (hs : o.Sound m)
include h hs

theorem all : o.Sound n ∧ o.frames n = o.frames m ∧ o.Same m n := by
  cases o with
  | tree t =>
    have hc : n.trees.get t.cell = m.trees.get t.cell := h.cells (.tree t.cell) rfl
    obtain ⟨hw, hf, hleaf⟩ := Tree.Whole.spared hs.2 hc h.memory h.live h.split
    refine ⟨⟨(congrArg TreeState.released hc).trans hs.1, hw⟩, hf, fun a env => ⟨_, rfl, ?_⟩⟩
    show EStateM.Result.ok (t.leaf? n.memory a) n = _
    rw [hleaf hs.1]
  | space s =>
    have hst : s.state n = s.state m := h.cells (.space s.cell) (.inl rfl)
    have hc : n.trees.get s.tree.cell = m.trees.get s.tree.cell := h.cells (.tree s.tree.cell) (.inr rfl)
    obtain ⟨hw, hf, hleaf⟩ := Tree.Whole.spared hs.2 hc h.memory h.live h.split
    refine ⟨⟨fun hp => ?_, hw⟩, hf, fun a env =>
      ⟨if (s.state m).phase = .active then s.tree.leaf? m.memory a else none, rfl, ?_⟩⟩
    · rw [hst] at hp
      exact (congrArg TreeState.released hc).trans (hs.1 hp)
    · show EStateM.Result.ok (if (s.state n).phase = .active then s.tree.leaf? n.memory a else none) n = _
      rw [hst]
      split
      · rename_i hp
        rw [hleaf (hs.1 hp)]
      · rfl
  | contexts t =>
    have hs : t.Sound m.memory := hs
    obtain ⟨hsound, hframes⟩ := hs.of_root fun a ha => h.memory a (ha ▸ ContextTables.root_mem)
    exact ⟨hsound, hframes, hs.entry?_congr h.memory⟩
  | interrupts t =>
    refine ⟨hs, rfl, fun i hi => ?_⟩
    exact TableEntry.readWords_congr hs hi fun a ha => h.memory a ha
  | unit u =>
    have hstate : ∀ q, u.queue = some q → q.state n = q.state m := fun q hq =>
      h.cells (.ring q.cell) ⟨q, hq, rfl⟩
    refine ⟨fun q hq => ?_, rfl, fun q hq => ⟨hstate q hq, fun i hi => ?_⟩⟩
    · rw [hstate q hq]
      exact hs q hq
    · have hpair := TableEntry.readWords_congr (hs q hq).1 hi fun a ha =>
        h.memory a ⟨q, hq, ha.symm⟩
      exact congrArg (fun w : EntryWords => Descriptor.mk w.lo w.hi) hpair

theorem sound : o.Sound n := (h.all hs).1

theorem frames : o.frames n = o.frames m := (h.all hs).2.1

theorem same : o.Same m n := (h.all hs).2.2

theorem trans (h' : o.Spared n k) : o.Spared m k := by
  have hf := h.frames hs
  refine ⟨fun a ha => (h'.memory a (hf ▸ ha)).trans (h.memory a ha), fun i hi hl => ?_,
    fun c hc => (h.cells c hc).trans (h'.cells c hc), h'.split.trans h.split⟩
  exact h'.live i (hf ▸ hi) (h.live i hi hl)

end

/-- the tree of an object that is spared is as it was -/
theorem grows (h : o.Spared m n) : o.Grows m n := by
  intro t ht others own ho
  have hm := h.memory
  have hl := h.live
  rw [frames_of_owns ht ho] at hm hl
  exact ⟨_, own, .refl own, (ho.spared (h.cells _ (tree_mem_cells ht)) hm
    (fun i hi => hl i hi (ho.live i hi)) h.split).1⟩

end Object.Spared

end NestedPaging
