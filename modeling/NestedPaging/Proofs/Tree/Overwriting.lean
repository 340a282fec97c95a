import NestedPaging.Proofs.Tree.Changes

/-!
# Overwriting entries

`Tables.overwrite` is what an update does to a tree once it has found its first entry: the words
are stored one after the other, and each table that an entry pointed to is put on the list of
detached tables. Ownership stays. What an address maps to changes only if its path goes through the
table that is written, at one of the entries that are written; and only tables below those entries
leave a path.
-/

namespace NestedPaging

open PhysAddr (IsPage)

namespace Tables

/-- the record of the table that `raw`, found at `level`, points to -/
def displaced (f : Format) (level : Nat) (raw : Word) : List TableRef :=
  if f.isTable raw level then [⟨entryAddress raw, level - 1⟩] else []

/-- `w` stored in entry `i` of the table `p` at `level` -/
def replace (f : Format) (T : Tables) (p : PhysAddr) (level i : Nat) (w : Word) : Tables :=
  { T with
    memory := T.memory.write (p.add (i * 8).toUInt64) w
    retired := T.retired ++ displaced f level (T.memory.entry p i) }

/-- words stored from entry `i` of the table `p` at `level` up -/
def overwrite (f : Format) (p : PhysAddr) (level : Nat) : Tables → Nat → List Word → Tables
  | T, _, [] => T
  | T, i, w :: ws => overwrite f p level (T.replace f p level i w) (i + 1) ws

section
variable {f : Format} {p : PhysAddr} {level i j : Nat} {w : Word} {ws : List Word}

theorem entry_overwrite_before (hp : IsPage p) (T : Tables) (hi : i + ws.length ≤ 512) (hj : j < i) :
    (T.overwrite f p level i ws).memory.entry p j = T.memory.entry p j := by
  induction ws generalizing T i with
  | nil => rfl
  | cons w ws ih =>
    rw [List.length_cons] at hi
    refine (ih _ (by omega) (by omega)).trans ?_
    exact (entry_write T.memory w hp hp (by omega) (by omega)).trans (if_neg fun e => by omega)

/-- the words of the run are there afterwards -/
theorem entry_overwrite (hp : IsPage p) (T : Tables) (hi : i + ws.length ≤ 512) (hw : ws[j]? = some w) :
    (T.overwrite f p level i ws).memory.entry p (i + j) = w := by
  induction ws generalizing T i j with
  | nil => cases hw
  | cons w' ws ih =>
    rw [List.length_cons] at hi
    cases j with
    | zero =>
      obtain rfl := Option.some.inj hw
      refine (entry_overwrite_before hp _ (show i + 1 + ws.length ≤ 512 by omega) (Nat.lt_succ_self i)).trans ?_
      exact (entry_write T.memory w' hp hp (by omega) (by omega)).trans (if_pos ⟨rfl, rfl⟩)
    | succ j =>
      rw [← Nat.add_assoc, Nat.add_right_comm]
      exact ih _ (by omega) hw

end

end Tables

namespace Tree.Owns
variable {t : Tree} {others : Nat → Prop} {own : Layout} {T : Tables} {p q : PhysAddr}
  {l x i : Nat} {w : Word} {a : GuestAddr} {ref : TableRef}

section
variable (h : t.Owns others own T) (hp : own p = some ⟨l, x⟩) (hi : i < 512)
include h hp hi

theorem entry_replace {j : Nat} {r : Region} (hq : own q = some r) (hj : j < 512) :
    (T.replace t.format p l i w).memory.entry q j
      = if p = q ∧ i = j then w else T.memory.entry q j :=
  entry_write T.memory w (h.isPage hp) (h.isPage hq) hi hj

theorem offSlot_replace : own.OffSlot p i T (T.replace t.format p l i w) := by
  intro q r j hq hj hne
  rw [h.entry_replace hp hi hq hj, if_neg fun e => hne ⟨e.1.symm, e.2.symm⟩]

theorem here_replace : (T.replace t.format p l i w).memory.entry p i = w := by
  rw [h.entry_replace hp hi hp hi, if_pos ⟨rfl, rfl⟩]

theorem refers_entry_replace (hn : t.format.isTable w l = false) (q' : PhysAddr) (j : Nat)
    (c : PhysAddr) : t.Refers own (T.replace t.format p l i w) (.entry q' j) c
      ↔ Holder.entry q' j ≠ .entry p i ∧ t.Refers own T (.entry q' j) c := by
  by_cases hs : q' = p ∧ j = i
  · obtain ⟨rfl, rfl⟩ := hs
    rw [t.refers_entry hp hi, h.here_replace hp hi, hn]
    exact ⟨fun e => absurd e.1 Bool.false_ne_true, fun e => absurd rfl e.1⟩
  · have hne : Holder.entry q' j ≠ .entry p i := fun e =>
      hs ⟨(Holder.entry.inj e).1, (Holder.entry.inj e).2⟩
    constructor
    · intro h'
      obtain ⟨r, hr, hj, ht, hc⟩ := h'
      rw [h.offSlot_replace hp hi hr hj hs] at ht hc
      exact ⟨hne, r, hr, hj, ht, hc⟩
    · intro h'
      obtain ⟨_, r, hr, hj, ht, hc⟩ := h'
      refine ⟨r, hr, hj, ?_, ?_⟩
      · rw [h.offSlot_replace hp hi hr hj hs]
        exact ht
      · rw [h.offSlot_replace hp hi hr hj hs]
        exact hc

omit h in
/-- the records that there were stay, and a table that is displaced gets one more -/
theorem refers_record_replace (n : Nat) (c : PhysAddr) :
    t.Refers own (T.replace t.format p l i w) (.record n) c
      ↔ t.Refers own T (.record n) c
        ∨ n = T.retired.length ∧ t.Refers own T (.entry p i) c := by
  rw [t.refers_entry hp hi]
  show (∃ level, (T.retired ++ Tables.displaced t.format l (T.memory.entry p i))[n]?
    = some ⟨c, level⟩) ↔ _
  unfold Tables.displaced
  by_cases ht : t.format.isTable (T.memory.entry p i) l = true
  · rw [if_pos ht]
    constructor
    · rintro ⟨level, hg⟩
      rcases Nat.lt_or_ge n T.retired.length with hlt | hle
      · rw [List.getElem?_append_left hlt] at hg
        exact .inl ⟨level, hg⟩
      · rw [List.getElem?_append_right hle, List.getElem?_singleton] at hg
        split at hg
        · rename_i h0
          have e := congrArg TableRef.table (Option.some.inj hg)
          exact .inr ⟨by omega, ht, e⟩
        · cases hg
    · rintro (⟨level, hg⟩ | ⟨rfl, _, rfl⟩)
      · obtain ⟨hlt, _⟩ := List.getElem?_eq_some_iff.mp hg
        exact ⟨level, by rw [List.getElem?_append_left hlt]; exact hg⟩
      · exact ⟨l - 1, List.getElem?_concat_length ..⟩
  · rw [if_neg ht, List.append_nil]
    exact ⟨.inl, fun e => e.elim id fun e => absurd e.2.1 ht⟩

/-- the entry gives up its table, and the new record takes it -/
theorem refers_replace (hn : t.format.isTable w l = false) (g : Holder) (c : PhysAddr) :
    t.Refers own (T.replace t.format p l i w) g c
      ↔ g ≠ .entry p i ∧ t.Refers own T g c
        ∨ g = .record T.retired.length ∧ t.Refers own T (.entry p i) c := by
  cases g with
  | root => exact ⟨fun e => .inl ⟨nofun, e⟩, fun e => e.elim (·.2) fun e => nomatch e.1⟩
  | entry q' j =>
    rw [h.refers_entry_replace hp hi hn]
    exact ⟨.inl, fun e => e.elim id fun e => nomatch e.1⟩
  | record n =>
    rw [refers_record_replace hp hi, Holder.record.injEq]
    exact or_congr_left (and_iff_right nofun).symm

theorem owns_replace (hw : t.format.Bare T.split l w) :
    t.Owns others own (T.replace t.format p l i w) where
  root := h.root
  page := h.page
  inUse := h.inUse
  apart := h.apart
  entry {q r j} hq hj := by
    rw [h.entry_replace hp hi hq hj]
    split
    · rename_i e
      obtain ⟨rfl, rfl⟩ := e
      obtain rfl := Layout.region_unique hp hq
      exact .bare hw
    · exact h.entry hq hj
  record {r} hr := by
    rcases List.mem_append.mp hr with hr | hr
    · exact h.record hr
    · unfold Tables.displaced at hr
      split at hr
      · rename_i ht
        obtain ⟨k, hk, hc⟩ := h.child hp hi ht
        obtain rfl := List.mem_singleton.mp hr
        obtain rfl : l = k + 1 := hk
        exact ⟨_, hc⟩
      · cases hr
  once {c r} hc := by
    have hn := hw.not_table
    obtain ⟨g, hg, hu⟩ := h.once hc
    by_cases he : t.Refers own T (.entry p i) c
    · -- the entry was the only holder, now the record is
      refine ⟨.record T.retired.length, (h.refers_replace hp hi hn _ _).mpr (.inr ⟨rfl, he⟩),
        fun g' hg' => ?_⟩
      rcases (h.refers_replace hp hi hn _ _).mp hg' with ⟨hne, hg'⟩ | ⟨e, _⟩
      · exact absurd ((hu g' hg').trans (hu _ he).symm) hne
      · exact e
    · have hne : g ≠ .entry p i := by
        rintro rfl
        exact he hg
      refine ⟨g, (h.refers_replace hp hi hn _ _).mpr (.inl ⟨hne, hg⟩), fun g' hg' => ?_⟩
      rcases (h.refers_replace hp hi hn _ _).mp hg' with ⟨_, hg'⟩ | ⟨_, e⟩
      · exact hu g' hg'
      · exact absurd e he
  unreleased := h.unreleased

/-! ## what an overwritten entry changes -/

theorem leaf?_replace_on (hn : t.format.isTable w l = false) (ha : t.format.inRange a = true)
    (hon : ⟨p, l⟩ ∈ t.path T.memory a) (hai : tableIndex a l = i) :
    t.leaf? (T.replace t.format p l i w).memory a = t.format.leafOf l w := by
  have hon' := h.path_above hp (h.offSlot_replace hp hi (w := w)) ha hon (Nat.le_refl _)
  rw [t.leaf?_of_mem ha hon', t.format.leafBelow_of_not_table, hai, h.here_replace hp hi]
  rw [hai, h.here_replace hp hi]
  exact hn

theorem leaf?_replace_off (ha : t.format.inRange a = true)
    (hne : ¬ (⟨p, l⟩ ∈ t.path T.memory a ∧ tableIndex a l = i)) :
    t.leaf? (T.replace t.format p l i w).memory a = t.leaf? T.memory a :=
  (h.path_off hp (h.offSlot_replace hp hi) ha hne).2

theorem mem_path_replace (ha : t.format.inRange a = true) (hr : ref ∈ t.path T.memory a)
    (hne : ¬ (ref.level < l ∧ ⟨p, l⟩ ∈ t.path T.memory a ∧ tableIndex a l = i)) :
    ref ∈ t.path (T.replace t.format p l i w).memory a := by
  have hs := h.offSlot_replace hp hi (w := w)
  by_cases hl : ref.level < l
  · unfold path
    rw [show t.format.path (T.replace t.format p l i w).memory a _ _
        = t.format.path T.memory a _ _ from (h.path_off hp hs ha fun e => hne ⟨hl, e⟩).1]
    exact hr
  · exact h.path_above hp hs ha hr (Nat.le_of_not_lt hl)

theorem mem_path_replace_iff (hw : t.format.Bare T.split l w) (ha : t.format.inRange a = true) :
    ⟨p, l⟩ ∈ t.path (T.replace t.format p l i w).memory a ↔ ⟨p, l⟩ ∈ t.path T.memory a := by
  have hs := h.offSlot_replace hp hi (w := w)
  constructor
  · intro hr
    have hs' : own.OffSlot p i (T.replace t.format p l i w) T := fun _ _ _ hq hj hne =>
      (hs hq hj hne).symm
    exact (h.owns_replace hp hi hw).path_above hp hs' ha hr (Nat.le_refl _)
  · exact fun hr => h.path_above hp hs ha hr (Nat.le_refl _)

/-- no table comes onto a path -/
theorem mem_path_of_replace (hw : t.format.Bare T.split l w) (ha : t.format.inRange a = true)
    (hr : ref ∈ t.path (T.replace t.format p l i w).memory a) : ref ∈ t.path T.memory a := by
  have hs := h.offSlot_replace hp hi (w := w)
  have hback : own.OffSlot p i (T.replace t.format p l i w) T := fun _ _ _ hq hj hne => (hs hq hj hne).symm
  by_cases hon : ⟨p, l⟩ ∈ t.path T.memory a ∧ tableIndex a l = i
  · have hon' := h.path_above hp hs ha hon.1 (Nat.le_refl _)
    refine (h.owns_replace hp hi hw).path_above hp hback ha hr ?_
    refine t.format.level_le_of_not_table hon' ?_ hr
    simp only [hon.2, h.here_replace hp hi]
    exact hw.not_table
  · unfold path at hr ⊢
    rw [show t.format.path (T.replace t.format p l i w).memory a _ _
        = t.format.path T.memory a _ _ from (h.path_off hp hs ha hon).1] at hr
    exact hr

end

/-! ## a run of entries -/

section
variable {ws : List Word}

/-- the entry that `a` selects is one of `ws.length` entries from `i` up -/
def InRun (a : GuestAddr) (l i : Nat) (ws : List Word) : Prop :=
  i ≤ tableIndex a l ∧ tableIndex a l < i + ws.length

theorem split_overwrite (f : Format) (p : PhysAddr) (l : Nat) (T : Tables) (i : Nat)
    (ws : List Word) : (T.overwrite f p l i ws).split = T.split := by
  induction ws generalizing T i with
  | nil => rfl
  | cons w ws ih => exact ih ..

theorem inUse_overwrite (f : Format) (p : PhysAddr) (l : Nat) (T : Tables) (i : Nat)
    (ws : List Word) : (T.overwrite f p l i ws).inUse = T.inUse := by
  induction ws generalizing T i with
  | nil => rfl
  | cons w ws ih => exact ih ..

theorem mem_retired_overwrite (f : Format) (p : PhysAddr) (l : Nat) (i : Nat) (ws : List Word)
    (hr : ref ∈ T.retired) : ref ∈ (T.overwrite f p l i ws).retired := by
  induction ws generalizing T i with
  | nil => exact hr
  | cons w ws ih => exact ih _ (List.mem_append_left _ hr)

variable (hp : own p = some ⟨l, x⟩)
include hp

theorem owns_overwrite (h : t.Owns others own T) (hi : i + ws.length ≤ 512)
    (hws : ∀ w ∈ ws, t.format.Bare T.split l w) :
    t.Owns others own (T.overwrite t.format p l i ws) := by
  induction ws generalizing T i with
  | nil => exact h
  | cons w ws ih =>
    rw [List.length_cons] at hi
    have h' := h.owns_replace hp (show i < 512 by omega) (hws w List.mem_cons_self)
    exact ih h' (by omega) fun w' hw' => hws w' (List.mem_cons_of_mem _ hw')

theorem spares_overwrite (h : t.Owns others own T) (hi : i + ws.length ≤ 512)
    (hws : ∀ w ∈ ws, t.format.Bare T.split l w) :
    T.Spares others (T.overwrite t.format p l i ws) := by
  induction ws generalizing T i with
  | nil => exact .refl ..
  | cons w ws ih =>
    rw [List.length_cons] at hi
    have hi' : i < 512 := by omega
    have hone : T.Spares others (T.replace t.format p l i w) := by
      intro q j hq hj ho
      refine (entry_write T.memory w (h.isPage hp) hq hi' hj).trans (if_neg ?_)
      rintro ⟨rfl, _⟩
      exact h.apart hp ho
    exact hone.trans (ih (h.owns_replace hp hi' (hws w List.mem_cons_self)) (by omega)
      fun w' hw' => hws w' (List.mem_cons_of_mem _ hw'))

/-- an address whose path does not go through the run keeps its leaf -/
theorem leaf?_overwrite_off (h : t.Owns others own T) (hi : i + ws.length ≤ 512)
    (hws : ∀ w ∈ ws, t.format.Bare T.split l w) (ha : t.format.inRange a = true)
    (hne : ¬ (⟨p, l⟩ ∈ t.path T.memory a ∧ InRun a l i ws)) :
    t.leaf? (T.overwrite t.format p l i ws).memory a = t.leaf? T.memory a := by
  induction ws generalizing T i with
  | nil => rfl
  | cons w ws ih =>
    rw [List.length_cons] at hi
    have hw := hws w List.mem_cons_self
    have hi' : i < 512 := by omega
    refine (ih (h.owns_replace hp hi' hw) (by omega)
      (fun w' hw' => hws w' (List.mem_cons_of_mem _ hw')) ?_).trans ?_
    · intro h'
      obtain ⟨hon, h1, h2⟩ := h'
      rw [h.mem_path_replace_iff hp hi' hw ha] at hon
      exact hne ⟨hon, by omega, by rw [List.length_cons]; omega⟩
    · apply h.leaf?_replace_off hp hi' ha
      intro h'
      obtain ⟨hon, e⟩ := h'
      exact hne ⟨hon, by omega, by rw [List.length_cons]; omega⟩

/-- an address whose path goes through the run gets the leaf of its entry there -/
theorem leaf?_overwrite_on (h : t.Owns others own T) (hi : i + ws.length ≤ 512)
    (hws : ∀ w ∈ ws, t.format.Bare T.split l w) (ha : t.format.inRange a = true)
    (hon : ⟨p, l⟩ ∈ t.path T.memory a) (hle : i ≤ tableIndex a l)
    (hw : ws[tableIndex a l - i]? = some w) :
    t.leaf? (T.overwrite t.format p l i ws).memory a = t.format.leafOf l w := by
  induction ws generalizing T i with
  | nil => cases hw
  | cons w' ws ih =>
    rw [List.length_cons] at hi
    have hw' := hws w' List.mem_cons_self
    have hi' : i < 512 := by omega
    have h' := h.owns_replace hp hi' hw'
    have hws' := fun v hv => hws v (List.mem_cons_of_mem w' hv)
    have hon' := (h.mem_path_replace_iff hp hi' hw' ha).mpr hon
    rcases Nat.eq_or_lt_of_le hle with e | hlt
    · rw [← e, Nat.sub_self, List.getElem?_cons_zero] at hw
      obtain rfl := Option.some.inj hw
      have hout : ¬ (⟨p, l⟩ ∈ t.path (T.replace t.format p l i w').memory a
          ∧ InRun a l (i + 1) ws) := fun hr => absurd hr.2.1 (by omega)
      rw [Tables.overwrite, leaf?_overwrite_off hp h' (by omega) hws' ha hout]
      exact h.leaf?_replace_on hp hi' hw'.not_table ha hon e.symm
    · have es : tableIndex a l - i = tableIndex a l - (i + 1) + 1 := by omega
      rw [es, List.getElem?_cons_succ] at hw
      exact ih h' (by omega) hws' hon' hlt hw

/-- a table leaves a path only if it lies below the run -/
theorem mem_path_overwrite (h : t.Owns others own T) (hi : i + ws.length ≤ 512)
    (hws : ∀ w ∈ ws, t.format.Bare T.split l w) (ha : t.format.inRange a = true)
    (hr : ref ∈ t.path T.memory a)
    (hne : ¬ (ref.level < l ∧ ⟨p, l⟩ ∈ t.path T.memory a ∧ InRun a l i ws)) :
    ref ∈ t.path (T.overwrite t.format p l i ws).memory a := by
  induction ws generalizing T i with
  | nil => exact hr
  | cons w ws ih =>
    rw [List.length_cons] at hi
    have hw := hws w List.mem_cons_self
    have hi' : i < 512 := by omega
    refine ih (h.owns_replace hp hi' hw) (by omega)
      (fun w' hw' => hws w' (List.mem_cons_of_mem _ hw')) ?_ ?_
    · apply h.mem_path_replace hp hi' ha hr
      intro h'
      obtain ⟨hl, hon, e⟩ := h'
      exact hne ⟨hl, hon, by omega, by rw [List.length_cons]; omega⟩
    · intro h'
      obtain ⟨hl, hon, h1, h2⟩ := h'
      rw [h.mem_path_replace_iff hp hi' hw ha] at hon
      exact hne ⟨hl, hon, by omega, by rw [List.length_cons]; omega⟩

/-- no table comes onto a path -/
theorem mem_path_of_overwrite (h : t.Owns others own T) (hi : i + ws.length ≤ 512)
    (hws : ∀ w ∈ ws, t.format.Bare T.split l w) (ha : t.format.inRange a = true)
    (hr : ref ∈ t.path (T.overwrite t.format p l i ws).memory a) : ref ∈ t.path T.memory a := by
  induction ws generalizing T i with
  | nil => exact hr
  | cons w ws ih =>
    rw [List.length_cons] at hi
    have hw := hws w List.mem_cons_self
    have hi' : i < 512 := by omega
    exact h.mem_path_of_replace hp hi' hw ha
      (ih (h.owns_replace hp hi' hw) (by omega) (fun w' hw' => hws w' (List.mem_cons_of_mem _ hw')) hr)

end

end Tree.Owns

end NestedPaging
