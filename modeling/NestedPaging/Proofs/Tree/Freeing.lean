import NestedPaging.Proofs.Tree.Offering
import NestedPaging.Proofs.Tree.Subtrees

/-!
# Giving pages back

`reclaim` gives back the pages below the detached tables, and `release` all pages of the tree, each
once (`reclaim_ok`, `release_ok`); after a `reclaim` the tree owns what it owned apart from those
pages (`Owns.reclaimed`).
-/

namespace NestedPaging

variable {σ ε : Type}

namespace Machine
variable {m : Machine σ} {ps : List PhysAddr}

/-- the pages `ps` given back, one after the other -/
def giveBackAll (m : Machine σ) (ps : List PhysAddr) : Machine σ := ps.foldl giveBack m

theorem giveBackAll_cons (m : Machine σ) (p : PhysAddr) (ps : List PhysAddr) :
    m.giveBackAll (p :: ps) = (m.giveBack p).giveBackAll ps := rfl

theorem giveBackAll_append (m : Machine σ) (ps qs : List PhysAddr) :
    m.giveBackAll (ps ++ qs) = (m.giveBackAll ps).giveBackAll qs := List.foldl_append ..

theorem giveBackAll_same (m : Machine σ) (ps : List PhysAddr) :
    (m.giveBackAll ps).memory = m.memory ∧ (m.giveBackAll ps).trees = m.trees ∧
      (m.giveBackAll ps).splitExecute = m.splitExecute ∧
      (m.giveBackAll ps).client = m.client := by
  induction ps generalizing m with
  | nil => exact ⟨rfl, rfl, rfl, rfl⟩
  | cons p ps ih => exact ih (m.giveBack p)

/-- giving pages back does not concern processors -/
theorem giveBackAll_processors (m : Machine σ) (ps : List PhysAddr) :
    (m.giveBackAll ps).loaded = m.loaded ∧ (m.giveBackAll ps).spaces = m.spaces := by
  induction ps generalizing m with
  | nil => exact ⟨rfl, rfl⟩
  | cons p ps ih => exact ih (m.giveBack p)

theorem mem_live_giveBackAll {n : Nat} :
    n ∈ (m.giveBackAll ps).live ↔ n ∈ m.live ∧ ∀ p ∈ ps, p.frame ≠ n := by
  induction ps generalizing m with
  | nil => simp [giveBackAll]
  | cons p ps ih =>
    rw [giveBackAll_cons, ih]
    show n ∈ m.live.erase p.frame ∧ _ ↔ _
    rw [Std.HashSet.mem_erase, beq_eq_false_iff_ne, List.forall_mem_cons]
    exact ⟨fun ⟨⟨h1, h2⟩, h3⟩ => ⟨h2, h1, h3⟩, fun ⟨h2, h1, h3⟩ => ⟨⟨h1, h2⟩, h3⟩⟩

theorem trace_giveBackAll (m : Machine σ) (ps : List PhysAddr) :
    (m.giveBackAll ps).trace.toList = m.trace.toList ++ ps.map .freed := by
  induction ps generalizing m with
  | nil => exact (List.append_nil _).symm
  | cons p ps ih =>
    rw [giveBackAll_cons, ih, List.map_cons, List.append_cons]
    show (m.trace.push (.freed p)).toList ++ _ = _
    rw [Array.toList_push]

/-- from `m` to `n` each of the pages `ps` is freed once, and nothing else happens to pages -/
structure Freed (ps : List PhysAddr) (m n : Machine σ) : Prop where
  trace : n.trace.toList = m.trace.toList ++ ps.map .freed
  live : ∀ i, i ∈ n.live ↔ i ∈ m.live ∧ ∀ p ∈ ps, p.frame ≠ i

theorem freed_giveBackAll (m : Machine σ) (ps : List PhysAddr) : Freed ps m (m.giveBackAll ps) :=
  ⟨trace_giveBackAll m ps, fun _ => mem_live_giveBackAll⟩

/-- only the pages in use and the trace count -/
theorem Freed.of_eq {m' n : Machine σ} (h : Freed ps m' n) (hl : m'.live = m.live)
    (ht : m'.trace = m.trace) : Freed ps m n :=
  ⟨ht ▸ h.trace, hl ▸ h.live⟩

theorem Freed.nil {n : Machine σ} (hl : n.live = m.live) (ht : n.trace = m.trace) :
    Freed [] m n :=
  ⟨by rw [ht, List.map_nil, List.append_nil], fun i => by simp [hl]⟩

end Machine

namespace Tree
variable (t : Tree) (env : Env σ) {m : Machine σ}

theorem forM_freePage (ps : List PhysAddr) (m : Machine σ) :
    (ps.forM Act.freePage : Act σ ε Unit) env m = .ok () (m.giveBackAll ps) := by
  induction ps generalizing m with
  | nil => rfl
  | cons p ps ih => exact ih (m.giveBack p)

theorem freeSubtree_ok (level : Nat) (table : PhysAddr) (m : Machine σ) :
    (t.freeSubtree level table : Act σ ε Unit) env m
      = .ok () (m.giveBackAll (t.format.subtree m.memory level table)) := by
  unfold freeSubtree
  rw [Act.bind_apply, Act.view_apply]
  exact forM_freePage env _ m

theorem forM_freeSubtree (refs : List TableRef) (m : Machine σ) :
    (refs.forM (fun r => t.freeSubtree r.level r.table) : Act σ ε Unit) env m = .ok ()
      (m.giveBackAll (refs.flatMap fun r => t.format.subtree m.memory r.level r.table)) := by
  induction refs generalizing m with
  | nil => rfl
  | cons r refs ih =>
    show (do t.freeSubtree r.level r.table
             refs.forM fun r => t.freeSubtree r.level r.table : Act σ ε Unit) env m = _
    rw [Act.bind_apply, freeSubtree_ok]
    refine (ih _).trans ?_
    rw [List.flatMap_cons, Machine.giveBackAll_append, (m.giveBackAll_same _).1]

/-- the pages below detached tables -/
def retiredPages (T : Tables) : List PhysAddr :=
  T.retired.flatMap fun r => t.format.subtree T.memory r.level r.table

/-- the list of detached tables, emptied -/
def forgetRetired (m : Machine σ) : Machine σ :=
  t.changeState (fun s => { s with retired := #[] }) m

theorem tables_forgetRetired (m : Machine σ) :
    t.tables (t.forgetRetired m) = { t.tables m with retired := [] } := by
  simp only [tables, state, forgetRetired, changeState, Cells.get_modify, if_true]

theorem walkers_forgetRetired (m : Machine σ) :
    (t.state (t.forgetRetired m)).walkers = (t.state m).walkers := by
  simp only [state, forgetRetired, changeState, Cells.get_modify, if_true]

/-- no walk may still reach a detached table -/
def Drained (m : Machine σ) : Prop := (t.state m).walkers = 0 ∨ (t.tables m).retired = []

theorem takeRetired_ok (m : Machine σ) : (t.takeRetired : Act σ ε (List TableRef)) env m
    = .ok (t.tables m).retired (t.forgetRetired m) := rfl

theorem freeRetired_ok {refs : List TableRef} (h : (t.state m).walkers = 0 ∨ refs = []) :
    (t.freeRetired refs : Act σ ε Unit) env m = .ok ()
      (m.giveBackAll (refs.flatMap fun r => t.format.subtree m.memory r.level r.table)) := by
  unfold freeRetired
  cases refs with
  | nil => rfl
  | cons r refs =>
    have hw : (t.state m).walkers = 0 := h.resolve_right (List.cons_ne_nil r refs)
    simp only [List.isEmpty_cons, if_false, Bool.false_eq_true, Act.bind_apply, Act.view_apply, hw,
      ne_eq, not_true_eq_false]
    exact t.forM_freeSubtree env (r :: refs) m

/-- while somebody walks, the wait for detached tables never ends -/
theorem freeRetired_stuck {refs : List TableRef} (h : ¬ ((t.state m).walkers = 0 ∨ refs = [])) :
    (t.freeRetired refs : Act σ ε Unit) env m = .error .stuck m := by
  obtain ⟨hw, hr⟩ := not_or.mp h
  have he : refs.isEmpty = false := by
    rw [Bool.eq_false_iff]
    exact fun he => hr (List.isEmpty_iff.mp he)
  unfold freeRetired
  simp only [he, if_false, Bool.false_eq_true, Act.bind_apply, Act.view_apply, hw, ne_eq,
    not_false_eq_true, if_true, Act.stuck_apply]

theorem reclaim_eq (m : Machine σ) : (t.reclaim : Act σ ε Unit) env m
    = (t.freeRetired (t.tables m).retired : Act σ ε Unit) env (t.forgetRetired m) := by
  unfold reclaim
  rw [Act.bind_apply, takeRetired_ok]

theorem reclaim_ok (h : t.Drained m) : (t.reclaim : Act σ ε Unit) env m
    = .ok () ((t.forgetRetired m).giveBackAll (t.retiredPages (t.tables m))) := by
  rw [reclaim_eq]
  apply freeRetired_ok
  rw [walkers_forgetRetired]
  exact h

theorem reclaim_stuck (h : ¬ t.Drained m) :
    (t.reclaim : Act σ ε Unit) env m = .error .stuck (t.forgetRetired m) := by
  rw [reclaim_eq]
  apply freeRetired_stuck
  rw [walkers_forgetRetired]
  exact h

/-- a reclaim writes no word, and leaves nothing on the list -/
theorem reclaim_leaves (h : (t.reclaim : Act σ ε Unit) env m = .ok () n) :
    n.memory = m.memory ∧ (t.tables n).retired = [] := by
  by_cases hd : t.Drained m
  · rw [t.reclaim_ok env hd] at h
    injection h with _ hn
    subst hn
    obtain ⟨hm, ht, _⟩ := (t.forgetRetired m).giveBackAll_same (t.retiredPages (t.tables m))
    refine ⟨hm, ?_⟩
    have hlist := congrArg (fun trees => (trees.get t.cell).retired.toList) ht
    exact hlist.trans (congrArg Tables.retired (t.tables_forgetRetired m))
  · rw [t.reclaim_stuck env hd] at h
    cases h

/-! ## the end of a tree -/

/-- the tree, marked as released -/
def markReleased (m : Machine σ) : Machine σ :=
  t.changeState (fun s => { s with released := true }) m

theorem tables_markReleased (m : Machine σ) :
    t.tables (t.markReleased m) = { t.tables m with released := true } := by
  simp only [tables, state, markReleased, changeState, Cells.get_modify, if_true]

theorem live_markReleased (m : Machine σ) : (t.markReleased m).live = m.live := rfl

theorem trace_markReleased (m : Machine σ) : (t.markReleased m).trace = m.trace := rfl

theorem walkers_markReleased (m : Machine σ) :
    (t.state (t.markReleased m)).walkers = (t.state m).walkers := by
  simp only [state, markReleased, changeState, Cells.get_modify, if_true]

theorem pages_eq (T : Tables) :
    t.pages T = t.retiredPages T ++ t.format.subtree T.memory t.format.rootLevel t.root := by
  unfold pages heads retiredPages
  rw [List.flatMap_append, List.flatMap_singleton]

theorem drained_markReleased (t : Tree) : t.Drained (t.markReleased m) ↔ t.Drained m := by
  unfold Drained
  rw [walkers_markReleased, tables_markReleased]

theorem release_ok (h : t.Drained m) (hr : (t.tables m).released = false) :
    (t.release : Act σ ε Unit) env m
      = .ok () ((t.forgetRetired (t.markReleased m)).giveBackAll (t.pages (t.tables m))) := by
  have hd : t.Drained (t.markReleased m) := t.drained_markReleased.mpr h
  have hpages : t.retiredPages (t.tables (t.markReleased m)) = t.retiredPages (t.tables m) := by
    rw [tables_markReleased]
    rfl
  have hm : ((t.forgetRetired (t.markReleased m)).giveBackAll (t.retiredPages (t.tables m))).memory
      = m.memory := (Machine.giveBackAll_same _ _).1
  unfold release
  simp only [Act.bind_apply, Act.view_apply, Act.change_apply,
    show (t.state m).released = false from hr, if_false, Bool.false_eq_true]
  rw [show t.changeState (fun s => { s with released := true }) m = t.markReleased m from rfl,
    t.reclaim_ok env hd, hpages]
  simp only
  rw [freeSubtree_ok, hm, pages_eq, Machine.giveBackAll_append]
  rfl

theorem release_stuck (h : ¬ t.Drained m) (hr : (t.tables m).released = false) :
    (t.release : Act σ ε Unit) env m = .error .stuck (t.forgetRetired (t.markReleased m)) := by
  have hd : ¬ t.Drained (t.markReleased m) := mt t.drained_markReleased.mp h
  unfold release
  simp only [Act.bind_apply, Act.view_apply, Act.change_apply,
    show (t.state m).released = false from hr, if_false, Bool.false_eq_true]
  rw [show t.changeState (fun s => { s with released := true }) m = t.markReleased m from rfl,
    t.reclaim_stuck env hd]

theorem released_giveBackAll (ps : List PhysAddr) :
    (t.tables ((t.forgetRetired (t.markReleased m)).giveBackAll ps)).released = true := by
  obtain ⟨_, ht, _⟩ := (t.forgetRetired (t.markReleased m)).giveBackAll_same ps
  have hsame : t.state ((t.forgetRetired (t.markReleased m)).giveBackAll ps)
      = t.state (t.forgetRetired (t.markReleased m)) := congrArg (·.get t.cell) ht
  show (t.state _).released = true
  rw [hsame]
  show (t.tables (t.forgetRetired (t.markReleased m))).released = true
  rw [tables_forgetRetired, tables_markReleased]

/-- a tree that was released stays as it is -/
theorem release_again (hr : (t.tables m).released = true) :
    (t.release : Act σ ε Unit) env m = .ok () (t.markReleased m) := by
  unfold release
  simp only [Act.bind_apply, Act.view_apply, Act.change_apply,
    show (t.state m).released = true from hr, if_true, Act.pure_apply]
  rfl

end Tree

/-! ## what a reclaim leaves owned -/

/-- the layout without the pages `ps` -/
def Layout.without (own : Layout) (ps : List PhysAddr) : Layout :=
  fun p => if p ∈ ps then none else own p

theorem Layout.without_eq_some {own : Layout} {ps : List PhysAddr} {p : PhysAddr} {r : Region} :
    own.without ps p = some r ↔ p ∉ ps ∧ own p = some r := by
  unfold without
  split
  · rename_i h
    simp [h]
  · rename_i h
    simp [h]

namespace Tree.Owns
variable {t : Tree} {others : Nat → Prop} {own : Layout} {T T' : Tables} {p q : PhysAddr}
  {r : Region} {i : Nat}

section
variable (h : t.Owns others own T)
include h

theorem mem_retiredPages_child (hp : own p = some r) (hi : i < 512)
    (ht : t.format.isTable (T.memory.entry p i) r.level = true) (hm : p ∈ t.retiredPages T) :
    entryAddress (T.memory.entry p i) ∈ t.retiredPages T := by
  obtain ⟨ref, hr, hp'⟩ := List.mem_flatMap.mp hm
  obtain ⟨b, hb⟩ := h.record hr
  exact List.mem_flatMap.mpr ⟨ref, hr, h.child_mem_subtree hb hp' hp hi ht⟩

theorem mem_retiredPages_of_refers (hg : t.Refers own T (.entry p i) q)
    (hq : q ∈ t.retiredPages T) : p ∈ t.retiredPages T := by
  obtain ⟨ref, hr, hq'⟩ := List.mem_flatMap.mp hq
  have hhead : ref ∈ t.heads T := List.mem_append_left _ hr
  obtain ⟨b, hb⟩ := h.record hr
  obtain ⟨r, ho, _⟩ := h.own_of_mem_subtree hb hq'
  rcases h.holder_of_mem_subtree hb hq' with rfl | ⟨c, j, hc, hg'⟩
  · exact absurd hg (h.not_entry_of_head hhead)
  · obtain ⟨rfl, _⟩ := Holder.entry.inj (h.holder_unique hg hg' ho)
    exact List.mem_flatMap.mpr ⟨ref, hr, hc⟩

theorem root_not_mem_retiredPages : t.root ∉ t.retiredPages T := by
  intro hm
  have hn := h.nodup_pages
  rw [t.pages_eq] at hn
  exact (List.nodup_append'.mp hn).2.2 hm (t.format.self_mem_subtree ..)

theorem refers_reclaimed (hm : T'.memory = T.memory) {g : Holder} (hg : t.Refers own T g q)
    (hq : q ∉ t.retiredPages T) : t.Refers (own.without (t.retiredPages T)) T' g q := by
  cases g with
  | root => exact hg
  | entry p i =>
    obtain ⟨r, hp, hi, ht, rfl⟩ := hg
    refine ⟨r, Layout.without_eq_some.mpr ⟨fun hin => hq ?_, hp⟩, hi, ?_, ?_⟩
    · exact h.mem_retiredPages_child hp hi ht hin
    · rw [hm]
      exact ht
    · rw [hm]
  | record n =>
    obtain ⟨level, hn⟩ := hg
    exact absurd
      (List.mem_flatMap.mpr ⟨_, List.mem_of_getElem? hn, t.format.self_mem_subtree ..⟩) hq

omit h in
theorem refers_of_reclaimed {ps : List PhysAddr} (hm : T'.memory = T.memory) (hr : T'.retired = [])
    {g : Holder} (hg : t.Refers (own.without ps) T' g q) : t.Refers own T g q := by
  cases g with
  | root => exact hg
  | entry p i =>
    obtain ⟨r, hp, hi, ht, hc⟩ := hg
    rw [hm] at ht hc
    exact ⟨r, (Layout.without_eq_some.mp hp).2, hi, ht, hc⟩
  | record n =>
    obtain ⟨level, hn⟩ := hg
    rw [hr] at hn
    cases hn

theorem reclaimed (hm : T'.memory = T.memory) (hs : T'.split = T.split) (hr : T'.retired = [])
    (hd : T'.released = T.released)
    (hu : ∀ n, T'.inUse n ↔ T.inUse n ∧ ∀ p ∈ t.retiredPages T, p.frame ≠ n) :
    t.Owns others (own.without (t.retiredPages T)) T' where
  root := Layout.without_eq_some.mpr ⟨h.root_not_mem_retiredPages, h.root⟩
  page hp := h.page (Layout.without_eq_some.mp hp).2
  inUse n := by
    rw [hu, h.inUse]
    constructor
    · intro h'
      obtain ⟨ho | ⟨p, r, hp, rfl⟩, hne⟩ := h'
      · exact .inl ho
      · exact .inr ⟨p, r, Layout.without_eq_some.mpr ⟨fun hin => hne p hin rfl, hp⟩, rfl⟩
    · intro h'
      rcases h' with ho | ⟨p, r, hp, rfl⟩
      · refine ⟨.inl ho, fun p hin e => ?_⟩
        obtain ⟨r, hp⟩ := h.mem_pages_iff.mp (t.pages_eq T ▸ List.mem_append_left _ hin)
        exact h.apart hp (e ▸ ho)
      · obtain ⟨hp, ho⟩ := Layout.without_eq_some.mp hp
        refine ⟨.inr ⟨p, r, ho, rfl⟩, fun q hin e => ?_⟩
        obtain ⟨s, hq⟩ := h.mem_pages_iff.mp (t.pages_eq T ▸ List.mem_append_left _ hin)
        exact hp (h.eq_of_frame hq ho e ▸ hin)
  apart hp := h.apart (Layout.without_eq_some.mp hp).2
  entry {p r i} hp hi := by
    obtain ⟨hp, ho⟩ := Layout.without_eq_some.mp hp
    rw [hm, hs]
    have he := h.entry ho hi
    generalize hw : T.memory.entry p i = w at he ⊢
    cases he with
    | bare hb => exact .bare hb
    | @table c k hl hc =>
      refine .table hl (Layout.without_eq_some.mpr ⟨fun hin => hp ?_, hc⟩)
      refine h.mem_retiredPages_of_refers (i := i) ⟨r, ho, hi, ?_, ?_⟩ hin
      · rw [hw, hl]
        exact t.format.isTable_tableWord (h.isPage hc) k
      · rw [hw]
        exact t.format.entryAddress_tableWord (h.isPage hc)
  record hr' := by
    rw [hr] at hr'
    cases hr'
  once {c r} hc := by
    obtain ⟨hc, ho⟩ := Layout.without_eq_some.mp hc
    obtain ⟨g, hg, hu⟩ := h.once ho
    exact ⟨g, h.refers_reclaimed hm hg hc, fun g' hg' => hu g' (refers_of_reclaimed hm hr hg')⟩
  unreleased := hd.trans h.unreleased

end

end Tree.Owns

end NestedPaging
