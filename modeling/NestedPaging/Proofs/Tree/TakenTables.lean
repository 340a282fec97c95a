import NestedPaging.Proofs.Tree.Accounting
import NestedPaging.Proofs.Space.Syncing

/-!
# Detached tables that were taken off the list

While a sync waits for flushes, the tables that it took are nobody's: they are allocated, and neither
in the tree nor on its list. For the tree they are pages of others (`Tree.entrusted`,
`Owns.take`), so nothing that is done to the tree meanwhile changes what lies below them
(`Owns.subtree_spared`), and giving them back afterwards leaves the tree as it is (`Owns.givenBack`).
-/

namespace NestedPaging

open PhysAddr (IsPage)

theorem Format.subtree_congr (f : Format) {M M' : Memory} {level : Nat} {p : PhysAddr}
    (h : ∀ q ∈ f.subtree M level p, ∀ i, i < 512 → M'.entry q i = M.entry q i) :
    f.subtree M' level p = f.subtree M level p := by
  induction level generalizing p with
  | zero => rfl
  | succ level ih =>
    have hbelow : ∀ i ∈ List.range 512, f.belowEntry M' level p i = f.belowEntry M level p i := by
      intro i hi
      have hlt := List.mem_range.mp hi
      unfold Format.belowEntry
      rw [h p (f.self_mem_subtree ..) i hlt]
      split
      · rename_i ht
        exact ih fun q hq => h q (f.mem_subtree_succ.mpr (.inr ⟨i, hlt, ht, hq⟩))
      · rfl
    rw [f.subtree_succ, f.subtree_succ, List.flatMap_congr hbelow]

namespace Tree
variable {t : Tree} {others others' : Nat → Prop} {own : Layout} {T T' T'' : Tables} {p : PhysAddr}

/-- the pages of others, and those below the tables detached in `T` -/
def entrusted (t : Tree) (others : Nat → Prop) (T : Tables) : Nat → Prop :=
  fun i => others i ∨ ∃ p ∈ t.retiredPages T, p.frame = i

namespace Owns

/-- the pages in use may be split between the tree and others in another way -/
theorem relabel (h : t.Owns others own T) (hm : T'.memory = T.memory) (hs : T'.split = T.split)
    (hr : T'.retired = T.retired) (hd : T'.released = T.released)
    (hu : ∀ n, T'.inUse n ↔ others' n ∨ ∃ p r, own p = some r ∧ p.frame = n)
    (ha : ∀ p r, own p = some r → ¬ others' p.frame) : t.Owns others' own T' where
  root := h.root
  page := h.page
  inUse := hu
  apart hp := ha _ _ hp
  entry hp hi := by
    rw [hm, hs]
    exact h.entry hp hi
  record hr' := by
    rw [hr] at hr'
    exact h.record hr'
  once hp := by
    have he : ∀ {p r i}, own p = some r → i < 512 → T'.memory.entry p i = T.memory.entry p i :=
      fun _ _ => by rw [hm]
    obtain ⟨g, hg, hu⟩ := h.once hp
    exact ⟨g, (refers_congr he hr g).mpr hg, fun g' hg' => hu g' ((refers_congr he hr g').mp hg')⟩
  unreleased := hd.trans h.unreleased

section
variable (h : t.Owns others own T)
include h

theorem own_of_mem_retiredPages (hp : p ∈ t.retiredPages T) : ∃ r, own p = some r :=
  h.mem_pages_iff.mp (t.pages_eq T ▸ List.mem_append_left _ hp)

theorem not_others_of_mem_retiredPages (hp : p ∈ t.retiredPages T) : ¬ others p.frame := by
  obtain ⟨r, hr⟩ := h.own_of_mem_retiredPages hp
  exact h.apart hr

/-- once the list is emptied, what was on it belongs to others -/
theorem take (hm : T'.memory = T.memory) (hs : T'.split = T.split) (hr : T'.retired = [])
    (hd : T'.released = T.released) (hu : ∀ n, T'.inUse n ↔ T.inUse n) :
    t.Owns (t.entrusted others T) (own.without (t.retiredPages T)) T' := by
  have hkept : t.Owns others (own.without (t.retiredPages T)) { T' with
      inUse := fun n => T.inUse n ∧ ∀ p ∈ t.retiredPages T, p.frame ≠ n } :=
    h.reclaimed hm hs hr hd fun n => Iff.rfl
  refine hkept.relabel rfl rfl rfl rfl (fun n => ?_) fun p r hp => ?_
  · rw [hu]
    constructor
    · intro hn
      by_cases hin : ∃ p ∈ t.retiredPages T, p.frame = n
      · exact .inl (.inr hin)
      · rcases (hkept.inUse n).mp ⟨hn, fun p hp e => hin ⟨p, hp, e⟩⟩ with ho | ho
        · exact .inl (.inl ho)
        · exact .inr ho
    · rintro ((ho | ⟨p, hp, rfl⟩) | ho)
      · exact ((hkept.inUse n).mpr (.inl ho)).1
      · obtain ⟨r, hr'⟩ := h.own_of_mem_retiredPages hp
        exact h.inUse_page hr'
      · exact ((hkept.inUse n).mpr (.inr ho)).1
  · rintro (ho | ⟨q, hq, e⟩)
    · exact hkept.apart hp ho
    · obtain ⟨hout, ho⟩ := Layout.without_eq_some.mp hp
      obtain ⟨s, hs'⟩ := h.own_of_mem_retiredPages hq
      exact hout (h.eq_of_frame hs' ho e ▸ hq)

/-- what was taken is as it was if the pages of others are -/
theorem subtree_spared {ref : TableRef} (hs : T.Spares (t.entrusted others T) T')
    (hr : ref ∈ T.retired) :
    t.format.subtree T'.memory ref.level ref.table
      = t.format.subtree T.memory ref.level ref.table := by
  apply t.format.subtree_congr
  intro q hq i hi
  have hin : q ∈ t.retiredPages T := List.mem_flatMap.mpr ⟨ref, hr, hq⟩
  obtain ⟨r, ho⟩ := h.own_of_mem_retiredPages hin
  exact hs (h.isPage ho) hi (.inr ⟨q, hin, rfl⟩)

/-- when what was taken in `T` is given back in `T'`, the tree owns what it owned -/
theorem givenBack {own' : Layout} (h' : t.Owns (t.entrusted others T) own' T')
    (hm : T''.memory = T'.memory) (hs : T''.split = T'.split) (hr : T''.retired = T'.retired)
    (hd : T''.released = T'.released)
    (hu : ∀ n, T''.inUse n ↔ T'.inUse n ∧ ∀ p ∈ t.retiredPages T, p.frame ≠ n) :
    t.Owns others own' T'' := by
  refine h'.relabel hm hs hr hd (fun n => ?_) fun p r hp ho => h'.apart hp (.inl ho)
  rw [hu, h'.inUse]
  constructor
  · rintro ⟨(ho | ⟨p, hp, rfl⟩) | ho, hne⟩
    · exact .inl ho
    · exact absurd rfl (hne p hp)
    · exact .inr ho
  · rintro (ho | ⟨p, r, hp, rfl⟩)
    · refine ⟨.inl (.inl ho), fun p hp e => ?_⟩
      exact h.not_others_of_mem_retiredPages hp (e ▸ ho)
    · exact ⟨.inr ⟨p, r, hp, rfl⟩, fun q hq e => h'.apart hp (.inr ⟨q, hq, e⟩)⟩

end

end Owns

end Tree

end NestedPaging
