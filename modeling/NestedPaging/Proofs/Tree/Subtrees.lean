import NestedPaging.Proofs.Tree.Ownership

/-!
# The pages below a table

`Format.subtree` lists a table and those below it. Under `Tree.Owns` the subtrees of the heads, the
detached tables and the root, list the owned pages, each once: every owned page is below a head
(`exists_head`), two tables of one level have nothing in common (`eq_of_mem_subtree`), and no entry
points to a head.
-/

namespace NestedPaging

open PhysAddr (IsPage)

namespace Format
variable (f : Format) {m : Memory} {p q : PhysAddr} {level : Nat}

/-- the pages below entry `i` of the table `p` at `level + 1` -/
def belowEntry (f : Format) (m : Memory) (level : Nat) (p : PhysAddr) (i : Nat) : List PhysAddr :=
  if f.isTable (m.entry p i) (level + 1) then f.subtree m level (entryAddress (m.entry p i)) else []

theorem subtree_succ : f.subtree m (level + 1) p
    = (List.range 512).flatMap (f.belowEntry m level p) ++ [p] := rfl

theorem mem_belowEntry {i : Nat} : q ∈ f.belowEntry m level p i ↔
    f.isTable (m.entry p i) (level + 1) = true ∧
      q ∈ f.subtree m level (entryAddress (m.entry p i)) := by
  unfold belowEntry
  split
  · rename_i ht
    simp only [ht, true_and]
  · rename_i ht
    simp only [ht, List.not_mem_nil, false_and, Bool.false_eq_true]

theorem mem_subtree_zero : q ∈ f.subtree m 0 p ↔ q = p := List.mem_singleton

theorem mem_subtree_succ : q ∈ f.subtree m (level + 1) p ↔ q = p ∨ ∃ i, i < 512 ∧
    f.isTable (m.entry p i) (level + 1) = true ∧
      q ∈ f.subtree m level (entryAddress (m.entry p i)) := by
  rw [subtree_succ, List.mem_append, List.mem_flatMap, List.mem_singleton, or_comm]
  simp only [List.mem_range, mem_belowEntry]

theorem self_mem_subtree (m : Memory) (level : Nat) (p : PhysAddr) : p ∈ f.subtree m level p := by
  cases level with
  | zero => exact f.mem_subtree_zero.mpr rfl
  | succ level => exact f.mem_subtree_succ.mpr (.inl rfl)

end Format

namespace Tree

/-- the tables that nothing in the tree points to: the detached ones and the root -/
def heads (t : Tree) (T : Tables) : List TableRef := T.retired ++ [⟨t.root, t.format.rootLevel⟩]

/-- all pages of the tree, those of detached tables first -/
def pages (t : Tree) (T : Tables) : List PhysAddr :=
  (t.heads T).flatMap fun r => t.format.subtree T.memory r.level r.table

namespace Owns
variable {t : Tree} {others : Nat → Prop} {own : Layout} {T : Tables} {p p' q : PhysAddr}
  {r : Region} {l x x' i j k : Nat}

theorem refers_head {ref : TableRef} (hr : ref ∈ t.heads T) :
    ∃ g, t.Refers own T g ref.table ∧ ∀ c i, g ≠ .entry c i := by
  rcases List.mem_append.mp hr with hr | hr
  · obtain ⟨n, hn⟩ := List.mem_iff_getElem?.mp hr
    exact ⟨.record n, ⟨ref.level, hn⟩, nofun⟩
  · obtain rfl := List.mem_singleton.mp hr
    exact ⟨.root, rfl, nofun⟩

section
variable (h : t.Owns others own T)
include h

/-! ## tables below tables -/

theorem own_of_mem_subtree (hp : own p = some ⟨l, x⟩) (hq : q ∈ t.format.subtree T.memory l p) :
    ∃ r, own q = some r ∧ r.level ≤ l ∧ (r.level = l → q = p) := by
  induction l generalizing p x with
  | zero =>
    obtain rfl := t.format.mem_subtree_zero.mp hq
    exact ⟨_, hp, Nat.le_refl _, fun _ => rfl⟩
  | succ l ih =>
    rcases t.format.mem_subtree_succ.mp hq with rfl | ⟨i, hi, ht, hq⟩
    · exact ⟨_, hp, Nat.le_refl _, fun _ => rfl⟩
    · obtain ⟨k, hk, hc⟩ := h.child hp hi ht
      obtain rfl : l = k := Nat.succ.inj hk
      obtain ⟨r, hr, hle, _⟩ := ih hc hq
      exact ⟨r, hr, Nat.le_succ_of_le hle, fun e => absurd hle (by omega)⟩

theorem child_mem_subtree (hp : own p = some ⟨l, x⟩) (hq : q ∈ t.format.subtree T.memory l p)
    (ho : own q = some r) (hi : i < 512) (ht : t.format.isTable (T.memory.entry q i) r.level = true) :
    entryAddress (T.memory.entry q i) ∈ t.format.subtree T.memory l p := by
  induction l generalizing p x with
  | zero =>
    obtain rfl := t.format.mem_subtree_zero.mp hq
    obtain rfl := Layout.region_unique hp ho
    rw [t.format.isTable_level_zero] at ht
    exact absurd ht Bool.false_ne_true
  | succ l ih =>
    rw [t.format.mem_subtree_succ]
    rcases t.format.mem_subtree_succ.mp hq with rfl | ⟨n, hn, htn, hq⟩
    · obtain rfl := Layout.region_unique hp ho
      exact .inr ⟨i, hi, ht, t.format.self_mem_subtree ..⟩
    · obtain ⟨k, hk, hc⟩ := h.child hp hn htn
      obtain rfl : l = k := Nat.succ.inj hk
      exact .inr ⟨n, hn, htn, ih hc hq⟩

/-- a table below another is the other, or an entry of a table below points to it -/
theorem holder_of_mem_subtree (hp : own p = some ⟨l, x⟩)
    (hq : q ∈ t.format.subtree T.memory l p) :
    q = p ∨ ∃ c i, c ∈ t.format.subtree T.memory l p ∧ t.Refers own T (.entry c i) q := by
  induction l generalizing p x with
  | zero => exact .inl (t.format.mem_subtree_zero.mp hq)
  | succ l ih =>
    rcases t.format.mem_subtree_succ.mp hq with rfl | ⟨n, hn, htn, hq⟩
    · exact .inl rfl
    · right
      obtain ⟨k, hk, hc⟩ := h.child hp hn htn
      obtain rfl : l = k := Nat.succ.inj hk
      rcases ih hc hq with rfl | ⟨c, i, hci, hr⟩
      · exact ⟨p, n, t.format.self_mem_subtree .., _, hp, hn, htn, rfl⟩
      · exact ⟨c, i, t.format.mem_subtree_succ.mpr (.inr ⟨n, hn, htn, hci⟩), hr⟩

/-- each level between two tables has one on the way -/
theorem exists_between (hp : own p = some ⟨l, x⟩) (hq : q ∈ t.format.subtree T.memory l p)
    (ho : own q = some r) (hk : r.level ≤ k) (hl : k ≤ l) :
    ∃ c y, own c = some ⟨k, y⟩ ∧ c ∈ t.format.subtree T.memory l p ∧
      q ∈ t.format.subtree T.memory k c := by
  induction l generalizing p x with
  | zero =>
    obtain rfl := Nat.le_zero.mp hl
    exact ⟨p, x, hp, t.format.self_mem_subtree .., hq⟩
  | succ l ih =>
    rcases Nat.eq_or_lt_of_le hl with rfl | hlt
    · exact ⟨p, x, hp, t.format.self_mem_subtree .., hq⟩
    · rcases t.format.mem_subtree_succ.mp hq with rfl | ⟨n, hn, htn, hq⟩
      · obtain rfl := Layout.region_unique hp ho
        exact absurd hk (Nat.not_le.mpr hlt)
      · obtain ⟨k', hk', hc⟩ := h.child hp hn htn
        obtain rfl : l = k' := Nat.succ.inj hk'
        obtain ⟨c, y, hoc, hcc, hqc⟩ := ih hc hq (Nat.le_of_lt_succ hlt)
        exact ⟨c, y, hoc, t.format.mem_subtree_succ.mpr (.inr ⟨n, hn, htn, hcc⟩), hqc⟩

theorem holder_unique {g g' : Holder} (hg : t.Refers own T g q) (hg' : t.Refers own T g' q)
    (ho : own q = some r) : g = g' := by
  obtain ⟨_, _, hu⟩ := h.once ho
  exact (hu g hg).trans (hu g' hg').symm

theorem eq_of_mem_subtree (hp : own p = some ⟨l, x⟩) (hp' : own p' = some ⟨l, x'⟩)
    (hq : q ∈ t.format.subtree T.memory l p) (hq' : q ∈ t.format.subtree T.memory l p') : p = p' := by
  induction l generalizing p p' x x' with
  | zero => rw [← t.format.mem_subtree_zero.mp hq, ← t.format.mem_subtree_zero.mp hq']
  | succ l ih =>
    obtain ⟨r, hr, _, htop⟩ := h.own_of_mem_subtree hp hq
    obtain ⟨r', hr', _, htop'⟩ := h.own_of_mem_subtree hp' hq'
    obtain rfl := Layout.region_unique hr hr'
    by_cases hl : r.level = l + 1
    · rw [← htop hl, ← htop' hl]
    · rcases t.format.mem_subtree_succ.mp hq with rfl | ⟨i, hi, ht, hc⟩
      · exact absurd (congrArg Region.level (Layout.region_unique hr hp)) hl
      rcases t.format.mem_subtree_succ.mp hq' with rfl | ⟨i', hi', ht', hc'⟩
      · exact absurd (congrArg Region.level (Layout.region_unique hr hp')) hl
      obtain ⟨k, hk, ho⟩ := h.child hp hi ht
      obtain ⟨k', hk', ho'⟩ := h.child hp' hi' ht'
      obtain rfl : l = k := Nat.succ.inj hk
      obtain rfl : l = k' := Nat.succ.inj hk'
      -- both ways go through one child, and it has one holder
      have e := ih ho ho' hc hc'
      have hg : t.Refers own T (.entry p i) _ := ⟨_, hp, hi, ht, rfl⟩
      have hg' : t.Refers own T (.entry p' i') _ := ⟨_, hp', hi', ht', rfl⟩
      rw [← e] at hg'
      exact (Holder.entry.inj (h.holder_unique hg hg' ho)).1

theorem eq_of_mem_belowEntry (hp : own p = some ⟨l + 1, x⟩) (hi : i < 512) (hj : j < 512)
    (hq : q ∈ t.format.belowEntry T.memory l p i) (hq' : q ∈ t.format.belowEntry T.memory l p j) :
    i = j := by
  obtain ⟨ht, hc⟩ := t.format.mem_belowEntry.mp hq
  obtain ⟨ht', hc'⟩ := t.format.mem_belowEntry.mp hq'
  obtain ⟨k, hk, ho⟩ := h.child hp hi ht
  obtain ⟨k', hk', ho'⟩ := h.child hp hj ht'
  obtain rfl : l = k := Nat.succ.inj hk
  obtain rfl : l = k' := Nat.succ.inj hk'
  have e := h.eq_of_mem_subtree ho ho' hc hc'
  have hg : t.Refers own T (.entry p i) _ := ⟨_, hp, hi, ht, rfl⟩
  have hg' : t.Refers own T (.entry p j) _ := ⟨_, hp, hj, ht', rfl⟩
  rw [← e] at hg'
  exact (Holder.entry.inj (h.holder_unique hg hg' ho)).2

theorem nodup_subtree (hp : own p = some ⟨l, x⟩) : (t.format.subtree T.memory l p).Nodup := by
  induction l generalizing p x with
  | zero => exact List.nodup_singleton p
  | succ l ih =>
    rw [t.format.subtree_succ, List.nodup_append', List.nodup_flatMap]
    refine ⟨⟨?_, ?_⟩, List.nodup_singleton p, ?_⟩
    · intro i hi
      unfold Format.belowEntry
      split
      · rename_i ht
        obtain ⟨k, hk, ho⟩ := h.child hp (List.mem_range.mp hi) ht
        obtain rfl : l = k := Nat.succ.inj hk
        exact ih ho
      · exact List.nodup_nil
    · refine List.nodup_range.imp_of_mem ?_
      intro i j hi hj hne q hqi hqj
      exact hne (h.eq_of_mem_belowEntry hp (List.mem_range.mp hi) (List.mem_range.mp hj) hqi hqj)
    · intro q hq hqp
      obtain rfl := List.mem_singleton.mp hqp
      obtain ⟨i, hi, hq⟩ := List.mem_flatMap.mp hq
      obtain ⟨ht, hq⟩ := t.format.mem_belowEntry.mp hq
      obtain ⟨k, hk, ho⟩ := h.child hp (List.mem_range.mp hi) ht
      obtain rfl : l = k := Nat.succ.inj hk
      obtain ⟨r, hr, hle, _⟩ := h.own_of_mem_subtree ho hq
      obtain rfl := Layout.region_unique hp hr
      exact absurd hle (Nat.not_succ_le_self l)

/-! ## heads -/

variable {ref ref' : TableRef}

theorem own_of_head (hr : ref ∈ t.heads T) : ∃ block, own ref.table = some ⟨ref.level, block⟩ := by
  rcases List.mem_append.mp hr with hr | hr
  · exact h.record hr
  · obtain rfl := List.mem_singleton.mp hr
    exact ⟨0, h.root⟩

theorem not_entry_of_head (hr : ref ∈ t.heads T) : ¬ t.Refers own T (.entry p i) ref.table := by
  intro he
  obtain ⟨g, hg, hne⟩ := refers_head hr
  obtain ⟨b, hb⟩ := h.own_of_head hr
  exact hne p i (h.holder_unique hg he hb)

theorem heads_pairwise : (t.heads T).Pairwise fun r r' => r.table ≠ r'.table := by
  unfold heads
  rw [List.pairwise_append]
  refine ⟨?_, List.pairwise_singleton .., ?_⟩
  · rw [List.pairwise_iff_getElem]
    intro i j hi hj hlt e
    have hgi : t.Refers own T (.record i) T.retired[i].table :=
      ⟨T.retired[i].level, List.getElem?_eq_getElem hi⟩
    have hgj : t.Refers own T (.record j) T.retired[i].table := by
      rw [e]
      exact ⟨T.retired[j].level, List.getElem?_eq_getElem hj⟩
    obtain ⟨b, hb⟩ := h.record (List.getElem_mem hi)
    exact absurd (Holder.record.inj (h.holder_unique hgi hgj hb)) (Nat.ne_of_lt hlt)
  · intro r hr r' hr' e
    obtain rfl := List.mem_singleton.mp hr'
    obtain ⟨n, hn⟩ := List.mem_iff_getElem?.mp hr
    have hg : t.Refers own T (.record n) r.table := ⟨r.level, hn⟩
    have hg' : t.Refers own T .root r.table := e
    obtain ⟨b, hb⟩ := h.record hr
    exact nomatch h.holder_unique hg hg' hb

theorem not_mem_of_level_le (hr : ref ∈ t.heads T) (hr' : ref' ∈ t.heads T)
    (hne : ref.table ≠ ref'.table) (hl : ref.level ≤ ref'.level)
    (hq : q ∈ t.format.subtree T.memory ref.level ref.table) :
    q ∉ t.format.subtree T.memory ref'.level ref'.table := by
  intro hq'
  obtain ⟨b, hb⟩ := h.own_of_head hr
  obtain ⟨b', hb'⟩ := h.own_of_head hr'
  obtain ⟨r, ho, hle, _⟩ := h.own_of_mem_subtree hb hq
  -- the table of `ref` would lie on the way from `ref'` to `q`
  obtain ⟨c, y, hoc, hc, hqc⟩ := h.exists_between hb' hq' ho hle hl
  obtain rfl := h.eq_of_mem_subtree hb hoc hq hqc
  rcases h.holder_of_mem_subtree hb' hc with e | ⟨c, i, _, he⟩
  · exact hne e
  · exact h.not_entry_of_head hr he

theorem disjoint_heads (hr : ref ∈ t.heads T) (hr' : ref' ∈ t.heads T)
    (hne : ref.table ≠ ref'.table) :
    List.Disjoint (t.format.subtree T.memory ref.level ref.table)
      (t.format.subtree T.memory ref'.level ref'.table) := by
  intro q hq hq'
  rcases Nat.le_total ref.level ref'.level with hl | hl
  · exact h.not_mem_of_level_le hr hr' hne hl hq hq'
  · exact h.not_mem_of_level_le hr' hr hne.symm hl hq' hq

/-- no page is below two heads, or twice below one -/
theorem nodup_pages : (t.pages T).Nodup := by
  unfold pages
  rw [List.nodup_flatMap]
  refine ⟨fun ref hr => ?_, h.heads_pairwise.imp_of_mem fun hr hr' hne => h.disjoint_heads hr hr' hne⟩
  obtain ⟨b, hb⟩ := h.own_of_head hr
  exact h.nodup_subtree hb

theorem exists_head (ho : own q = some r) :
    ∃ ref ∈ t.heads T, q ∈ t.format.subtree T.memory ref.level ref.table := by
  obtain ⟨d, hd⟩ : ∃ d, t.format.rootLevel - r.level = d := ⟨_, rfl⟩
  induction d using Nat.strong_induction_on generalizing q r with
  | _ d ih =>
    obtain ⟨g, hg, _⟩ := h.once ho
    cases g with
    | root =>
      obtain rfl : q = t.root := hg
      exact ⟨⟨t.root, t.format.rootLevel⟩, List.mem_append_right _ (List.mem_singleton.mpr rfl),
        t.format.self_mem_subtree ..⟩
    | record n =>
      obtain ⟨level, hn⟩ := hg
      exact ⟨⟨q, level⟩, List.mem_append_left _ (List.mem_of_getElem? hn),
        t.format.self_mem_subtree ..⟩
    | entry p i =>
      obtain ⟨s, hp, hi, ht, rfl⟩ := hg
      obtain ⟨k, hk, hc⟩ := h.child hp hi ht
      obtain rfl := Layout.region_unique hc ho
      have hroot := (h.page hp).2
      obtain ⟨ref, hr, hpr⟩ := ih _ (by simp only at hd; omega) hp rfl
      obtain ⟨b, hb⟩ := h.own_of_head hr
      exact ⟨ref, hr, h.child_mem_subtree hb hpr hp hi ht⟩

theorem mem_pages_iff : q ∈ t.pages T ↔ ∃ r, own q = some r := by
  unfold pages
  rw [List.mem_flatMap]
  constructor
  · intro h'
    obtain ⟨ref, hr, hq⟩ := h'
    obtain ⟨b, hb⟩ := h.own_of_head hr
    obtain ⟨r, ho, _⟩ := h.own_of_mem_subtree hb hq
    exact ⟨r, ho⟩
  · intro h'
    obtain ⟨r, ho⟩ := h'
    exact h.exists_head ho

end

/-! ## the pages in use, before and after -/

section
variable {own' : Layout} {T' : Tables} {n : Nat} (h : t.Owns others own T)
  (h' : t.Owns others own' T')
include h h'

theorem inUse_of_extends (hx : own'.Extends own) (hn : T.inUse n) : T'.inUse n := by
  rcases (h.inUse n).mp hn with ho | ⟨p, r, hp, rfl⟩
  · exact (h'.inUse n).mpr (.inl ho)
  · exact h'.inUse_page (hx p r hp)

/-- a page that was taken is one of the tree's -/
theorem inUse_or_page (hn : T'.inUse n) : T.inUse n ∨ ∃ q ∈ t.pages T', q.frame = n := by
  rcases (h'.inUse n).mp hn with ho | ⟨q, r, hq, hf⟩
  · exact .inl ((h.inUse n).mpr (.inl ho))
  · exact .inr ⟨q, h'.mem_pages_iff.mpr ⟨r, hq⟩, hf⟩

end

end Owns

end Tree

end NestedPaging
