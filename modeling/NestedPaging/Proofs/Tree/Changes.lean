import NestedPaging.Proofs.Tree.Ownership

/-!
# Changes of a tree

What the steps of an operation do to the tables of a tree, to who owns them, and to the addresses
they map.

`Tree.view` is a tree as a map from guest addresses to host addresses and attributes. A `Quiet`
change leaves the view, the detached tables and every path as they are, though it may attach fresh
tables; `Owns.publish` says that attaching one is quiet if it maps what the entry mapped before. The
lemmas on a change of one entry (`path_off`, `path_above`) serve for overwriting as well.
-/

namespace NestedPaging

open PhysAddr (IsPage)

/-- where `a` goes through the leaf `l`, and with which attributes -/
def Leaf.translation (a : GuestAddr) (l : Leaf) : PhysAddr × Attrs := (l.physAddr a, l.attrs)

/-- guest addresses with what they map to -/
abbrev View := GuestAddr → Option (PhysAddr × Attrs)

/-- the tree as a map -/
def Tree.view (t : Tree) (m : Memory) : View := fun a => (t.leaf? m a).map (Leaf.translation a)

/-- nothing of what the tree owns changes -/
structure Layout.Same (own : Layout) (T T' : Tables) : Prop where
  entry : ∀ {p r i}, own p = some r → i < 512 → T'.memory.entry p i = T.memory.entry p i
  inUse : ∀ n, T'.inUse n ↔ T.inUse n
  split : T'.split = T.split
  retired : T'.retired = T.retired
  released : T'.released = T.released

/-- no entry of a page of others changes -/
def Tables.Spares (T : Tables) (others : Nat → Prop) (T' : Tables) : Prop :=
  ∀ ⦃q i⦄, IsPage q → i < 512 → others q.frame → T'.memory.entry q i = T.memory.entry q i

/-- no entry but number `i` of the table `p` changes -/
def Layout.OffSlot (own : Layout) (p : PhysAddr) (i : Nat) (T T' : Tables) : Prop :=
  ∀ ⦃q r j⦄, own q = some r → j < 512 → ¬ (q = p ∧ j = i) →
    T'.memory.entry q j = T.memory.entry q j

/-- the layout with the table `q` at `r` -/
def Layout.add (own : Layout) (q : PhysAddr) (r : Region) : Layout :=
  fun p => if p = q then some r else own p

theorem Layout.add_self (own : Layout) (q : PhysAddr) (r : Region) : own.add q r q = some r :=
  if_pos rfl

theorem Layout.add_other (own : Layout) {p q : PhysAddr} (r : Region) (h : p ≠ q) :
    own.add q r p = own p := if_neg h

theorem Layout.add_eq_some {own : Layout} {p q : PhysAddr} {r r' : Region} :
    own.add q r p = some r' ↔ p = q ∧ r' = r ∨ p ≠ q ∧ own p = some r' := by
  by_cases h : p = q
  · subst h
    rw [own.add_self, Option.some_inj, eq_comm]
    exact ⟨fun e => .inl ⟨rfl, e⟩, fun e => e.elim (·.2) fun e => absurd rfl e.1⟩
  · rw [own.add_other r h]
    exact ⟨fun e => .inr ⟨h, e⟩, fun e => e.elim (fun e => absurd e.1 h) (·.2)⟩

theorem Layout.extends_add {own : Layout} {q : PhysAddr} (r : Region) (h : own q = none) :
    (own.add q r).Extends own := by
  intro p r' hp
  have hne : p ≠ q := by
    rintro rfl
    rw [h] at hp
    cases hp
  rw [own.add_other r hne, hp]

/-- a change that only attaches tables, and none that maps anything new -/
structure Tree.Quiet (t : Tree) (others : Nat → Prop) (own own' : Layout) (T T' : Tables) :
    Prop where
  grows : own'.Extends own
  owns : t.Owns others own' T'
  view : t.view T'.memory = t.view T.memory
  path : ∀ {a r}, t.format.inRange a = true → r ∈ t.path T.memory a → r ∈ t.path T'.memory a
  retired : T'.retired = T.retired
  split : T'.split = T.split

theorem Tables.Spares.refl (others : Nat → Prop) (T : Tables) : T.Spares others T :=
  fun _ _ _ _ _ => rfl

theorem Tables.Spares.trans {others : Nat → Prop} {T T' T'' : Tables} (h : T.Spares others T')
    (h' : T'.Spares others T'') : T.Spares others T'' := fun _ _ hq hi ho =>
  (h' hq hi ho).trans (h hq hi ho)

namespace Tree
variable {t : Tree} {others : Nat → Prop} {own own' : Layout} {T T' T'' : Tables}
  {p q : PhysAddr} {r : Region} {i l x k : Nat} {a : GuestAddr} {ref : TableRef}

theorem Quiet.refl (h : t.Owns others own T) : t.Quiet others own own T T :=
  ⟨.refl own, h, rfl, fun _ h => h, rfl, rfl⟩

theorem Quiet.trans {own'' : Layout} (h : t.Quiet others own own' T T')
    (h' : t.Quiet others own' own'' T' T'') : t.Quiet others own own'' T T'' :=
  ⟨h'.grows.trans h.grows, h'.owns, h'.view.trans h.view, fun ha hr => h'.path ha (h.path ha hr),
    h'.retired.trans h.retired, h'.split.trans h.split⟩

namespace Owns

/-! ## nothing changes -/

theorem refers_congr (he : ∀ {p r i}, own p = some r → i < 512 →
      T'.memory.entry p i = T.memory.entry p i) (hr : T'.retired = T.retired) (h : Holder) :
    t.Refers own T' h q ↔ t.Refers own T h q := by
  cases h with
  | root => exact Iff.rfl
  | entry p i =>
    constructor
    · intro h'
      obtain ⟨r, hp, hi, ht, hq⟩ := h'
      rw [he hp hi] at ht hq
      exact ⟨r, hp, hi, ht, hq⟩
    · intro h'
      obtain ⟨r, hp, hi, ht, hq⟩ := h'
      rw [← he hp hi] at ht hq
      exact ⟨r, hp, hi, ht, hq⟩
  | record k =>
    show (∃ l, T'.retired[k]? = some ⟨q, l⟩) ↔ ∃ l, T.retired[k]? = some ⟨q, l⟩
    rw [hr]

theorem same (h : t.Owns others own T) (s : own.Same T T') : t.Owns others own T' where
  root := h.root
  page := h.page
  inUse n := (s.inUse n).trans (h.inUse n)
  apart := h.apart
  entry hp hi := by
    rw [s.entry hp hi, s.split]
    exact h.entry hp hi
  record hr := by
    rw [s.retired] at hr
    exact h.record hr
  once hp := by
    obtain ⟨g, hg, hu⟩ := h.once hp
    exact ⟨g, (refers_congr s.entry s.retired g).mpr hg,
      fun g' hg' => hu g' ((refers_congr s.entry s.retired g').mp hg')⟩
  unreleased := s.released.trans h.unreleased

theorem entry_on_path (h : t.Owns others own T) (ha : t.format.inRange a = true)
    (he : ∀ {p r i}, own p = some r → i < 512 → T'.memory.entry p i = T.memory.entry p i)
    (hr : ref ∈ t.path T.memory a) :
    T'.memory.entry ref.table (tableIndex a ref.level)
      = T.memory.entry ref.table (tableIndex a ref.level) :=
  he (h.own_of_mem_path ha hr) (tableIndex_lt a _)

theorem quiet_of_same (h : t.Owns others own T) (s : own.Same T T') :
    t.Quiet others own own T T' where
  grows := .refl own
  owns := h.same s
  view := by
    funext a
    unfold view leaf?
    by_cases ha : t.format.inRange a = true
    · rw [if_pos ha, if_pos ha, t.format.leafBelow_congr fun r hr => h.entry_on_path ha s.entry hr]
    · rw [if_neg ha, if_neg ha]
  path ha hr := t.format.mem_path_congr hr fun r' hr' _ => h.entry_on_path ha s.entry hr'
  retired := s.retired
  split := s.split

/-! ## one entry changes -/

theorem offSlot_on_path (h : t.Owns others own T) (hp : own p = some ⟨l, x⟩)
    (hs : own.OffSlot p i T T') (ha : t.format.inRange a = true) (hr : ref ∈ t.path T.memory a)
    (hne : ¬ (ref = ⟨p, l⟩ ∧ tableIndex a l = i)) :
    T'.memory.entry ref.table (tableIndex a ref.level)
      = T.memory.entry ref.table (tableIndex a ref.level) := by
  have ho := h.own_of_mem_path ha hr
  apply hs ho (tableIndex_lt a _)
  intro h'
  obtain ⟨rfl, hi⟩ := h'
  have hl : l = ref.level := congrArg Region.level (Layout.region_unique hp ho)
  subst hl
  exact hne ⟨rfl, hi⟩

theorem path_off (h : t.Owns others own T) (hp : own p = some ⟨l, x⟩)
    (hs : own.OffSlot p i T T') (ha : t.format.inRange a = true)
    (hne : ¬ (⟨p, l⟩ ∈ t.path T.memory a ∧ tableIndex a l = i)) :
    t.path T'.memory a = t.path T.memory a ∧ t.leaf? T'.memory a = t.leaf? T.memory a := by
  have he : ∀ r ∈ t.path T.memory a, T'.memory.entry r.table (tableIndex a r.level)
      = T.memory.entry r.table (tableIndex a r.level) := fun r hr =>
    h.offSlot_on_path hp hs ha hr fun ⟨e, hi⟩ => hne ⟨e ▸ hr, hi⟩
  refine ⟨t.format.path_congr he, ?_⟩
  unfold leaf?
  rw [if_pos ha, if_pos ha, t.format.leafBelow_congr he]

theorem path_above (h : t.Owns others own T) (hp : own p = some ⟨l, x⟩)
    (hs : own.OffSlot p i T T') (ha : t.format.inRange a = true) (hr : ref ∈ t.path T.memory a)
    (hl : l ≤ ref.level) : ref ∈ t.path T'.memory a := by
  apply t.format.mem_path_congr hr
  intro r' hr' hlt
  apply h.offSlot_on_path hp hs ha hr'
  intro h'
  obtain ⟨rfl, _⟩ := h'
  exact absurd hlt (Nat.not_lt.mpr hl)

theorem block_on (h : t.Owns others own T) (hp : own p = some ⟨l, x⟩)
    (ha : t.format.inRange a = true) (hon : ⟨p, l⟩ ∈ t.path T.memory a)
    (hi : tableIndex a l = i) : a.block l = x * 512 + i := by
  rw [block_eq_index a (h.level_le hp), hi, h.block_of_mem_path ha hp hon]

/-! ## a fresh table is attached -/

/-- `T'` is `T` with the fresh table `q`, whose entries are no tables, attached at entry `i` of the
table `p`, and maps what the entry mapped -/
structure Attached (t : Tree) (own : Layout) (p q : PhysAddr) (k x i : Nat) (T T' : Tables) :
    Prop where
  place : own p = some ⟨k + 1, x⟩
  index : i < 512
  old : t.format.isTable (T.memory.entry p i) (k + 1) = false
  page : IsPage q
  free : ¬ T.inUse q.frame
  off : own.OffSlot p i T T'
  here : T'.memory.entry p i = t.format.tableWord q
  fresh : ∀ j, j < 512 → t.format.Bare T.split k (T'.memory.entry q j)
  inUse : ∀ n, T'.inUse n ↔ T.inUse n ∨ n = q.frame
  split : T'.split = T.split
  retired : T'.retired = T.retired
  released : T'.released = T.released
  maps : ∀ a : GuestAddr, a.block (k + 1) = x * 512 + i →
    (t.format.leafOf k (T'.memory.entry q (tableIndex a k))).map (Leaf.translation a)
      = (t.format.leafOf (k + 1) (T.memory.entry p i)).map (Leaf.translation a)

section
variable (h : t.Owns others own T) (s : Attached t own p q k x i T T')
include h s

theorem own_fresh : own q = none := by
  cases e : own q with
  | none => rfl
  | some r => exact absurd (h.inUse_page e) s.free

theorem ne_fresh (hp : own p = some r) : p ≠ q := by
  rintro rfl
  rw [own_fresh h s] at hp
  cases hp

omit h in
/-- the fresh table points to no tables -/
theorem not_refers_fresh (j : Nat) (c : PhysAddr) :
    ¬ t.Refers (own.add q ⟨k, x * 512 + i⟩) T' (.entry q j) c := by
  rintro ⟨r, hr, hj, ht, _⟩
  obtain rfl := Layout.region_unique (own.add_self ..) hr
  rw [(s.fresh j hj).not_table] at ht
  cases ht

/-- the entry that was written points to the fresh table -/
theorem refers_slot (c : PhysAddr) : t.Refers (own.add q ⟨k, x * 512 + i⟩) T' (.entry p i) c ↔ c = q := by
  have hslot : own.add q ⟨k, x * 512 + i⟩ p = some ⟨k + 1, x⟩ :=
    (own.add_other _ (ne_fresh h s s.place)).trans s.place
  rw [t.refers_entry hslot s.index, s.here, t.format.entryAddress_tableWord s.page, eq_comm (a := q)]
  exact and_iff_right (t.format.isTable_tableWord s.page k)

omit h in
/-- the other entries point where they did -/
theorem refers_off {p' : PhysAddr} {j : Nat} (hq : p' ≠ q) (hs : ¬ (p' = p ∧ j = i)) (c : PhysAddr) :
    t.Refers (own.add q ⟨k, x * 512 + i⟩) T' (.entry p' j) c ↔ t.Refers own T (.entry p' j) c := by
  constructor
  · rintro ⟨r, hr, hj, ht, hc⟩
    rw [own.add_other _ hq] at hr
    rw [s.off hr hj hs] at ht hc
    exact ⟨r, hr, hj, ht, hc⟩
  · rintro ⟨r, hr, hj, ht, hc⟩
    rw [← s.off hr hj hs] at ht hc
    exact ⟨r, (own.add_other _ hq).trans hr, hj, ht, hc⟩

theorem refers_attached (g : Holder) (c : PhysAddr) :
    t.Refers (own.add q ⟨k, x * 512 + i⟩) T' g c
      ↔ t.Refers own T g c ∨ g = .entry p i ∧ c = q := by
  have hno : ∀ {j c}, ¬ t.Refers own T (.entry q j) c := by
    rintro j c ⟨r, hr, _⟩
    rw [own_fresh h s] at hr
    cases hr
  have hold : ∀ {c}, ¬ t.Refers own T (.entry p i) c := by
    intro c
    rw [t.refers_entry s.place s.index, s.old]
    exact fun e => Bool.false_ne_true e.1
  cases g with
  | root => exact ⟨.inl, fun e => e.elim id fun e => nomatch e.1⟩
  | record n =>
    have e : t.Refers (own.add q ⟨k, x * 512 + i⟩) T' (.record n) c
        ↔ t.Refers own T (.record n) c := by
      show (∃ l, T'.retired[n]? = some ⟨c, l⟩) ↔ ∃ l, T.retired[n]? = some ⟨c, l⟩
      rw [s.retired]
    rw [e]
    exact ⟨.inl, fun e => e.elim id fun e => nomatch e.1⟩
  | entry p' j =>
    by_cases hq : p' = q
    · -- the fresh table holds no tables, and was nobody's before
      subst hq
      refine ⟨fun h' => absurd h' (not_refers_fresh s j c), fun h' => ?_⟩
      rcases h' with h' | ⟨e, _⟩
      · exact absurd h' hno
      · exact absurd (Holder.entry.inj e).1.symm (ne_fresh h s s.place)
    · by_cases hs : p' = p ∧ j = i
      · obtain ⟨rfl, rfl⟩ := hs
        rw [refers_slot h s]
        exact ⟨fun e => .inr ⟨rfl, e⟩, fun e => e.elim (fun h' => absurd h' hold) (·.2)⟩
      · rw [refers_off s hq hs]
        exact ⟨.inl, fun e => e.elim id fun e => absurd (Holder.entry.inj e.1) hs⟩

end

theorem own_of_refers (h : t.Owns others own T) {g : Holder} {c : PhysAddr}
    (hg : t.Refers own T g c) : ∃ r, own c = some r := by
  cases g with
  | root => exact ⟨_, hg ▸ h.root⟩
  | entry p i =>
    obtain ⟨r, hp, hi, ht, rfl⟩ := hg
    obtain ⟨k, _, hc⟩ := h.child hp hi ht
    exact ⟨_, hc⟩
  | record n =>
    obtain ⟨l, hl⟩ := hg
    obtain ⟨b, hb⟩ := h.record (List.mem_of_getElem? hl)
    exact ⟨_, hb⟩

section
variable (h : t.Owns others own T) (s : Attached t own p q k x i T T')
include h s

theorem owns_attached : t.Owns others (own.add q ⟨k, x * 512 + i⟩) T' where
  root := Layout.extends_add _ (own_fresh h s) _ _ h.root
  page hp := by
    obtain ⟨rfl, rfl⟩ | ⟨-, hp⟩ := Layout.add_eq_some.mp hp
    · exact ⟨s.page, Nat.le_of_succ_le (h.page s.place).2⟩
    · exact h.page hp
  inUse n := by
    rw [s.inUse, h.inUse]
    constructor
    · intro h'
      rcases h' with (ho | ⟨p', r, hp, hf⟩) | rfl
      · exact .inl ho
      · exact .inr ⟨p', r, Layout.extends_add _ (own_fresh h s) _ _ hp, hf⟩
      · exact .inr ⟨q, _, own.add_self .., rfl⟩
    · intro h'
      rcases h' with ho | ⟨p', r, hp, rfl⟩
      · exact .inl (.inl ho)
      · obtain ⟨rfl, -⟩ | ⟨-, hp⟩ := Layout.add_eq_some.mp hp
        · exact .inr rfl
        · exact .inl (.inr ⟨p', r, hp, rfl⟩)
  apart hp := by
    obtain ⟨rfl, -⟩ | ⟨-, hp⟩ := Layout.add_eq_some.mp hp
    · exact fun ho => s.free ((h.inUse _).mpr (.inl ho))
    · exact h.apart hp
  entry {p' r j} hp hj := by
    have hx := Layout.extends_add (⟨k, x * 512 + i⟩ : Region) (own_fresh h s)
    rw [s.split]
    obtain ⟨rfl, rfl⟩ | ⟨-, hold⟩ := Layout.add_eq_some.mp hp
    · exact .bare (s.fresh j hj)
    · by_cases hs : p' = p ∧ j = i
      · obtain ⟨rfl, rfl⟩ := hs
        obtain rfl := Layout.region_unique s.place hold
        rw [s.here]
        exact .table rfl (own.add_self ..)
      · rw [s.off hold hj hs]
        exact (h.entry hold hj).mono hx
  record hr := by
    rw [s.retired] at hr
    obtain ⟨b, hb⟩ := h.record hr
    exact ⟨b, Layout.extends_add _ (own_fresh h s) _ _ hb⟩
  once {c r} hc := by
    obtain ⟨rfl, -⟩ | ⟨hq, hc⟩ := Layout.add_eq_some.mp hc
    · refine ⟨.entry p i, (refers_attached h s _ _).mpr (.inr ⟨rfl, rfl⟩), fun g hg => ?_⟩
      rcases (refers_attached h s _ _).mp hg with hg | ⟨rfl, _⟩
      · obtain ⟨r, hr⟩ := h.own_of_refers hg
        rw [own_fresh h s] at hr
        cases hr
      · rfl
    · obtain ⟨g, hg, hu⟩ := h.once hc
      refine ⟨g, (refers_attached h s _ _).mpr (.inl hg), fun g' hg' => ?_⟩
      rcases (refers_attached h s _ _).mp hg' with hg' | ⟨_, e⟩
      · exact hu g' hg'
      · exact absurd e hq
  unreleased := s.released.trans h.unreleased

theorem leaf?_attached {a : GuestAddr} (ha : t.format.inRange a = true)
    (hon : ⟨p, k + 1⟩ ∈ t.path T.memory a) (hi : tableIndex a (k + 1) = i) :
    t.leaf? T'.memory a = t.format.leafOf k (T'.memory.entry q (tableIndex a k)) := by
  have hon' : ⟨p, k + 1⟩ ∈ t.path T'.memory a :=
    h.path_above s.place s.off ha hon (Nat.le_refl _)
  have hq := s.page
  rw [t.leaf?_of_mem ha hon', t.format.leafBelow_succ, hi, s.here, t.format.isTable_tableWord hq,
    if_pos rfl, t.format.entryAddress_tableWord hq]
  exact t.format.leafBelow_of_not_table (s.fresh _ (tableIndex_lt a _)).not_table

/-- attaching a table that maps the same is quiet -/
theorem publish : t.Quiet others own (own.add q ⟨k, x * 512 + i⟩) T T' where
  grows := Layout.extends_add _ (own_fresh h s)
  owns := owns_attached h s
  view := by
    funext a
    unfold view
    by_cases ha : t.format.inRange a = true
    · by_cases hs : ⟨p, k + 1⟩ ∈ t.path T.memory a ∧ tableIndex a (k + 1) = i
      · have hold : t.leaf? T.memory a = t.format.leafOf (k + 1) (T.memory.entry p i) := by
          rw [t.leaf?_of_mem ha hs.1, ← hs.2]
          exact t.format.leafBelow_of_not_table (by rw [hs.2]; exact s.old)
        rw [leaf?_attached h s ha hs.1 hs.2, hold]
        exact s.maps a (h.block_on s.place ha hs.1 hs.2)
      · rw [(h.path_off s.place s.off ha hs).2]
    · unfold leaf?
      rw [if_neg ha, if_neg ha]
  path {a ref} ha hr := by
    by_cases hs : ⟨p, k + 1⟩ ∈ t.path T.memory a ∧ tableIndex a (k + 1) = i
    · apply h.path_above s.place s.off ha hr
      apply t.format.level_le_of_not_table hs.1 _ hr
      simp only [hs.2]
      exact s.old
    · unfold path
      rw [show t.format.path T'.memory a _ _ = t.format.path T.memory a _ _ from
        (h.path_off s.place s.off ha hs).1]
      exact hr
  retired := s.retired
  split := s.split

end

end Owns

end Tree

end NestedPaging
