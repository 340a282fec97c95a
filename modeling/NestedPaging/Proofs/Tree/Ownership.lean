import NestedPaging.Proofs.Tree.Paths
import NestedPaging.Tree.Retire

/-!
# Who owns which table

A layout says which table a page holds: its level, and the block of the level above that the table
maps. `Tree.Owns` ties a layout to the memory: each entry of an owned table is absent, a leaf, or
points to the owned table of its own block one level down, and each owned table is referred to by
exactly one holder (the tree as its root, an entry, or a record of a detached table). A page keeps
its place in the layout when its table is detached, so the statement covers detached tables that
somebody still writes to.

Three changes keep it: `Owns.same` (nothing of the tree changes), `Owns.owns_attached` (a fresh table
is attached at an entry that is no table) and `Owns.owns_replace` (an entry is overwritten and the
table it pointed to recorded).
-/

namespace NestedPaging

open PhysAddr (IsPage)

/-- the place of a table: it maps block `block` of the level above `level` -/
structure Region where
  level : Nat
  block : Nat
  deriving DecidableEq

/-- the tables that pages hold -/
abbrev Layout := PhysAddr → Option Region

/-- later layouts keep the places of earlier ones -/
def Layout.Extends (own' own : Layout) : Prop := ∀ p r, own p = some r → own' p = some r

theorem Layout.Extends.refl (own : Layout) : own.Extends own := fun _ _ h => h

theorem Layout.Extends.trans {own own' own'' : Layout} (h : own''.Extends own')
    (h' : own'.Extends own) : own''.Extends own := fun p r hp => h p r (h' p r hp)

theorem Layout.region_unique {own : Layout} {p : PhysAddr} {r r' : Region} (h : own p = some r)
    (h' : own p = some r') : r = r' := Option.some.inj (h.symm.trans h')

/-- the part of a machine that concerns one tree -/
structure Tables where
  memory : Memory
  /-- is the page with this number in use? -/
  inUse : Nat → Prop
  split : Bool
  retired : List TableRef
  released : Bool

def Tree.tables {σ : Type} (t : Tree) (m : Machine σ) : Tables where
  memory := m.memory
  inUse n := n ∈ m.live
  split := m.splitExecute
  retired := (t.state m).retired.toList
  released := (t.state m).released

/-- the entries at `level` that are no tables: nothing, or a leaf for a whole block -/
inductive Format.Bare (f : Format) (split : Bool) (level : Nat) : Word → Prop
  | absent : Bare f split level 0
  | leaf {p : PhysAddr} {a : Attrs} : level ≤ f.topLeafLevel → IsPage p →
      2 ^ blockBits level ∣ p.bits.toNat → a.perms.grantsAccess = true →
      Bare f split level (f.leafWord split level p a)

/-- the entries at `level` for the block `block` -/
inductive Format.Entry (f : Format) (split : Bool) (own : Layout) (level block : Nat) : Word → Prop
  | bare {w : Word} : f.Bare split level w → Entry f split own level block w
  | table {p : PhysAddr} {k : Nat} : level = k + 1 → own p = some ⟨k, block⟩ →
      Entry f split own level block (f.tableWord p)

/-- what may refer to a table -/
inductive Holder where
  | root
  | entry (table : PhysAddr) (index : Nat)
  | record (number : Nat)
  deriving DecidableEq

/-- does `h` refer to the table `q`? -/
def Tree.Refers (t : Tree) (own : Layout) (T : Tables) (h : Holder) (q : PhysAddr) : Prop :=
  match h with
  | .root => q = t.root
  | .entry p i => ∃ r, own p = some r ∧ i < 512 ∧
      t.format.isTable (T.memory.entry p i) r.level = true ∧ entryAddress (T.memory.entry p i) = q
  | .record k => ∃ level, T.retired[k]? = some ⟨q, level⟩

/-- the tree owns the pages of the layout `own`, and `others` the rest of those in use -/
structure Tree.Owns (t : Tree) (others : Nat → Prop) (own : Layout) (T : Tables) : Prop where
  root : own t.root = some ⟨t.format.rootLevel, 0⟩
  page : ∀ {p r}, own p = some r → IsPage p ∧ r.level ≤ t.format.rootLevel
  inUse : ∀ n, T.inUse n ↔ others n ∨ ∃ p r, own p = some r ∧ p.frame = n
  apart : ∀ {p r}, own p = some r → ¬ others p.frame
  entry : ∀ {p r i}, own p = some r → i < 512 →
    t.format.Entry T.split own r.level (r.block * 512 + i) (T.memory.entry p i)
  record : ∀ {r}, r ∈ T.retired → ∃ block, own r.table = some ⟨r.level, block⟩
  once : ∀ {p r}, own p = some r → ∃! h, t.Refers own T h p
  unreleased : T.released = false

/-! ## entries -/

/-- what an entry of an owned table points to is in the entry -/
theorem Tree.refers_entry {t : Tree} {own : Layout} {T : Tables} {p c : PhysAddr} {r : Region} {i : Nat}
    (hp : own p = some r) (hi : i < 512) : t.Refers own T (.entry p i) c
      ↔ t.format.isTable (T.memory.entry p i) r.level = true ∧ entryAddress (T.memory.entry p i) = c := by
  refine ⟨?_, fun e => ⟨r, hp, hi, e.1, e.2⟩⟩
  rintro ⟨r', hr, _, ht, hc⟩
  obtain rfl := Layout.region_unique hp hr
  exact ⟨ht, hc⟩

namespace Format.Bare
variable {f : Format} {split : Bool} {level : Nat} {w : Word}

theorem not_table (h : f.Bare split level w) : f.isTable w level = false := by
  cases h with
  | absent => exact f.isTable_zero level
  | leaf _ hp _ ha => exact f.isTable_leafWord hp ha level

theorem eq_zero (h : f.Bare split level w) (hw : f.isPresent w = false) : w = 0 := by
  cases h with
  | absent => rfl
  | leaf _ hp _ ha =>
    rw [f.isPresent_leafWord hp ha] at hw
    exact absurd hw.symm Bool.false_ne_true

theorem eq_leaf (h : f.Bare split level w) (hw : f.isPresent w = true) :
    ∃ p a, level ≤ f.topLeafLevel ∧ IsPage p ∧ 2 ^ blockBits level ∣ p.bits.toNat ∧
      a.perms.grantsAccess = true ∧ w = f.leafWord split level p a := by
  cases h with
  | absent =>
    rw [f.isPresent_zero] at hw
    exact absurd hw Bool.false_ne_true
  | @leaf p a hl hp hd ha => exact ⟨p, a, hl, hp, hd, ha, rfl⟩

end Format.Bare

namespace Format.Entry
variable {f : Format} {split : Bool} {own own' : Layout} {level block : Nat} {w : Word}

theorem mono (h : f.Entry split own level block w) (ho : own'.Extends own) :
    f.Entry split own' level block w := by
  cases h with
  | bare hb => exact .bare hb
  | table hl hp => exact .table hl (ho _ _ hp)

variable (hpage : ∀ {p r}, own p = some r → IsPage p)
include hpage

theorem eq_table (h : f.Entry split own level block w) (hw : f.isTable w level = true) :
    ∃ k, level = k + 1 ∧ own (entryAddress w) = some ⟨k, block⟩ := by
  cases h with
  | bare hb =>
    rw [hb.not_table] at hw
    exact absurd hw Bool.false_ne_true
  | @table p k hl hp =>
    refine ⟨k, hl, ?_⟩
    rw [f.entryAddress_tableWord (hpage hp)]
    exact hp

theorem bare_of_not_table (h : f.Entry split own level block w)
    (hw : f.isTable w level = false) : f.Bare split level w := by
  cases h with
  | bare hb => exact hb
  | table hl hp =>
    rw [hl, f.isTable_tableWord (hpage hp)] at hw
    exact absurd hw.symm Bool.false_ne_true

end Format.Entry

/-! ## owned paths -/

namespace Tree.Owns
variable {t : Tree} {others : Nat → Prop} {own own' : Layout} {T T' : Tables} {p q : PhysAddr}
  {r : Region} {i : Nat}

theorem isPage (h : t.Owns others own T) (hp : own p = some r) : IsPage p := (h.page hp).1

theorem level_le (h : t.Owns others own T) (hp : own p = some r) : r.level ≤ 4 :=
  Nat.le_trans (h.page hp).2 (Nat.le_succ_of_le t.format.rootLevel_le)

theorem inUse_page (h : t.Owns others own T) (hp : own p = some r) : T.inUse p.frame :=
  (h.inUse _).mpr (.inr ⟨p, r, hp, rfl⟩)

theorem eq_of_frame (h : t.Owns others own T) {r' : Region} (hp : own p = some r)
    (hq : own q = some r') (hf : p.frame = q.frame) : p = q :=
  (h.isPage hp).eq_of_frame (h.isPage hq) hf

/-- the table that an entry points to is owned and has the entry's block -/
theorem child (h : t.Owns others own T) (hp : own p = some r) (hi : i < 512)
    (ht : t.format.isTable (T.memory.entry p i) r.level = true) :
    ∃ k, r.level = k + 1 ∧ own (entryAddress (T.memory.entry p i)) = some ⟨k, r.block * 512 + i⟩ :=
  (h.entry hp hi).eq_table h.isPage ht

theorem own_of_mem_path_from (h : t.Owns others own T) {a : GuestAddr} {level : Nat}
    {ref : TableRef} (hp : own p = some ⟨level, a.block (level + 1)⟩)
    (hr : ref ∈ t.format.path T.memory a level p) :
    own ref.table = some ⟨ref.level, a.block (ref.level + 1)⟩ := by
  induction level generalizing p with
  | zero =>
    rw [t.format.mem_path_zero.mp hr]
    exact hp
  | succ level ih =>
    rcases t.format.mem_path_succ.mp hr with rfl | ⟨ht, hr⟩
    · exact hp
    · obtain ⟨k, hk, hc⟩ := h.child hp (tableIndex_lt a _) ht
      obtain rfl : level = k := Nat.succ.inj hk
      have hl : level + 1 ≤ 4 := h.level_le hp
      apply ih _ hr
      rw [hc, block_eq_index a hl]

theorem own_of_mem_path (h : t.Owns others own T) {a : GuestAddr} {ref : TableRef}
    (ha : t.format.inRange a = true) (hr : ref ∈ t.path T.memory a) :
    own ref.table = some ⟨ref.level, a.block (ref.level + 1)⟩ := by
  have hr' : ref ∈ t.format.path T.memory a t.format.rootLevel t.root := hr
  refine h.own_of_mem_path_from ?_ hr'
  rw [h.root, (t.format.inRange_iff_root a).mp ha]

theorem block_of_mem_path (h : t.Owns others own T) {a : GuestAddr} {level x : Nat}
    (ha : t.format.inRange a = true) (hp : own p = some ⟨level, x⟩)
    (hr : ⟨p, level⟩ ∈ t.path T.memory a) : x = a.block (level + 1) :=
  congrArg Region.block (Layout.region_unique hp (h.own_of_mem_path ha hr))

end Tree.Owns

end NestedPaging
