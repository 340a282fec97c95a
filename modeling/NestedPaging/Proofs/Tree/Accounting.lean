import NestedPaging.Proofs.Tree.Races

/-!
# Every page is accounted for

In every history the pages that a tree took and did not give back are its own, each of them has one
holder, and no page is both in the tree and below a detached table. So a reclaim frees each page
below a detached table once and nothing else, and a release frees all pages of the tree, each once.
-/

namespace NestedPaging

variable {σ : Type}

namespace Tree

/-- does `h` refer to the table `q` as one at `level`? -/
def Cites (t : Tree) (own : Layout) (T : Tables) (h : Holder) (q : PhysAddr) (level : Nat) : Prop :=
  match h with
  | .root => q = t.root ∧ level = t.format.rootLevel
  | .entry p i => (∃ block, own p = some ⟨level + 1, block⟩) ∧ i < 512 ∧
      t.format.isTable (T.memory.entry p i) (level + 1) = true ∧
      entryAddress (T.memory.entry p i) = q
  | .record k => T.retired[k]? = some ⟨q, level⟩

variable {t : Tree} {others : Nat → Prop} {own : Layout} {T : Tables} {m n : Machine σ}
  {env : Env σ} {q : PhysAddr} {r : Region}

theorem Cites.refers {h : Holder} {level : Nat} (hc : t.Cites own T h q level) :
    t.Refers own T h q := by
  cases h with
  | root => exact hc.1
  | entry p i =>
    obtain ⟨⟨block, hp⟩, hi, ht, he⟩ := hc
    exact ⟨_, hp, hi, ht, he⟩
  | record k => exact ⟨level, hc⟩

namespace Owns

theorem cites (h : t.Owns others own T) {g : Holder} (hg : t.Refers own T g q)
    (hq : own q = some r) : t.Cites own T g q r.level := by
  cases g with
  | root =>
    obtain rfl : q = t.root := hg
    obtain rfl := Layout.region_unique h.root hq
    exact ⟨rfl, rfl⟩
  | entry p i =>
    obtain ⟨s, hp, hi, ht, rfl⟩ := hg
    obtain ⟨k, hk, hc⟩ := h.child hp hi ht
    obtain rfl := Layout.region_unique hc hq
    obtain ⟨level, block⟩ := s
    obtain rfl : level = k + 1 := hk
    exact ⟨⟨block, hp⟩, hi, ht, rfl⟩
  | record k =>
    obtain ⟨level, hl⟩ := hg
    obtain ⟨block, hb⟩ := h.record (List.mem_of_getElem? hl)
    obtain rfl := Layout.region_unique hq hb
    exact hl

theorem one_holder (h : t.Owns others own T) (hq : own q = some r) :
    ∃! g, t.Cites own T g q r.level := by
  obtain ⟨g, hg, hu⟩ := h.once hq
  exact ⟨g, h.cites hg hq, fun g' hg' => hu g' hg'.refers⟩

/-- the tree and what lies below detached tables have nothing in common -/
theorem disjoint_retired (h : t.Owns others own T) :
    (t.retiredPages T).Disjoint (t.format.subtree T.memory t.format.rootLevel t.root) := by
  have hn := h.nodup_pages
  rw [t.pages_eq] at hn
  exact (List.nodup_append'.mp hn).2.2

end Owns

/-- a reclaim ends if and only if no walk may reach a detached table -/
theorem reclaim_ok_iff (env : Env σ) (m : Machine σ) :
    (∃ n, (t.reclaim : Act σ TableError Unit) env m = .ok () n) ↔ t.Drained m := by
  constructor
  · intro h'
    obtain ⟨n, hn⟩ := h'
    by_cases hd : t.Drained m
    · exact hd
    · rw [t.reclaim_stuck env hd] at hn
      cases hn
  · exact fun hd => ⟨_, t.reclaim_ok env hd⟩

theorem Owns.reclaim_frees (h : t.Owns others own (t.tables m))
    (hr : (t.reclaim : Act σ TableError Unit) env m = .ok () n) :
    Machine.Freed (t.retiredPages (t.tables m)) m n ∧
      ∀ p ∈ t.format.subtree n.memory t.format.rootLevel t.root,
        p ∉ t.retiredPages (t.tables m) ∧ p.frame ∈ n.live := by
  obtain ⟨hm, _⟩ := t.reclaim_leaves env hr
  rw [t.reclaim_ok env ((reclaim_ok_iff env m).mp ⟨n, hr⟩)] at hr
  injection hr with _ hn
  have hf : Machine.Freed (t.retiredPages (t.tables m)) m n :=
    hn ▸ (Machine.freed_giveBackAll (t.forgetRetired m) _).of_eq rfl rfl
  refine ⟨hf, fun p hp => ?_⟩
  rw [hm] at hp
  have hout : p ∉ t.retiredPages (t.tables m) := fun hin => h.disjoint_retired hin hp
  obtain ⟨r, ho, _⟩ := h.own_of_mem_subtree h.root hp
  refine ⟨hout, (hf.live _).mpr ⟨?_, fun q hq e => hout ?_⟩⟩
  · exact h.inUse_page ho
  · obtain ⟨s, hs⟩ := h.mem_pages_iff.mp (t.pages_eq _ ▸ List.mem_append_left _ hq)
    exact h.eq_of_frame hs ho e ▸ hq

/-- once the pages of the tree are freed, those of others are left -/
theorem Owns.live_of_freed (h : t.Owns others own (t.tables m))
    (hf : Machine.Freed (t.pages (t.tables m)) m n) (i : Nat) : i ∈ n.live ↔ others i := by
  rw [hf.live]
  constructor
  · intro h'
    obtain ⟨hi, hne⟩ := h'
    rcases (h.inUse i).mp hi with ho | ⟨p, r, hp, hf⟩
    · exact ho
    · exact absurd hf (hne p (h.mem_pages_iff.mpr ⟨r, hp⟩))
  · intro ho
    refine ⟨(h.inUse i).mpr (.inl ho), fun p hp e => ?_⟩
    obtain ⟨r, hr⟩ := h.mem_pages_iff.mp hp
    exact h.apart hr (e ▸ ho)

theorem Owns.release_frees (h : t.Owns others own (t.tables m)) (hd : t.Drained m) (env : Env σ) :
    ∃ n, (t.release : Act σ TableError Unit) env m = .ok () n ∧
      Machine.Freed (t.pages (t.tables m)) m n ∧ (∀ i, i ∈ n.live ↔ others i) ∧
      ∀ env', ∃ n', (t.release : Act σ TableError Unit) env' n = .ok () n' ∧
        Machine.Freed [] n n' := by
  have hf : Machine.Freed (t.pages (t.tables m)) m
      ((t.forgetRetired (t.markReleased m)).giveBackAll (t.pages (t.tables m))) :=
    (Machine.freed_giveBackAll _ _).of_eq rfl rfl
  refine ⟨_, t.release_ok env hd h.unreleased, hf, h.live_of_freed hf, fun env' => ?_⟩
  exact ⟨_, t.release_again env' (t.released_giveBackAll _),
    .nil (t.live_markReleased _) (t.trace_markReleased _)⟩

/-- what holds of the pages of a tree between its operations, where `own` has the pages that it took
and did not give back -/
structure Accounted (t : Tree) (others : Nat → Prop) (own : Layout) (m : Machine σ) : Prop where
  taken : ∀ i, i ∈ m.live ∧ ¬ others i ↔ ∃ q r, own q = some r ∧ q.frame = i
  holder : ∀ q r, own q = some r → ∃! h, t.Cites own (t.tables m) h q r.level
  pages : ∀ q, q ∈ t.pages (t.tables m) ↔ ∃ r, own q = some r
  nodup : (t.pages (t.tables m)).Nodup
  disjoint : (t.retiredPages (t.tables m)).Disjoint
    (t.format.subtree m.memory t.format.rootLevel t.root)
  /-- a reclaim ends unless it waits for a walk -/
  reclaims : ∀ env : Env σ,
    (∃ n, (t.reclaim : Act σ TableError Unit) env m = .ok () n) ↔ t.Drained m
  reclaimed : ∀ (env : Env σ) n, (t.reclaim : Act σ TableError Unit) env m = .ok () n →
    Machine.Freed (t.retiredPages (t.tables m)) m n ∧
      ∀ p ∈ t.format.subtree n.memory t.format.rootLevel t.root,
        p ∉ t.retiredPages (t.tables m) ∧ p.frame ∈ n.live
  released : ∀ env : Env σ, t.Drained m → ∃ n,
    (t.release : Act σ TableError Unit) env m = .ok () n ∧
      Machine.Freed (t.pages (t.tables m)) m n ∧ (∀ i, i ∈ n.live ↔ others i) ∧
      ∀ env', ∃ n', (t.release : Act σ TableError Unit) env' n = .ok () n' ∧
        Machine.Freed [] n n'

/-- in every history each page of the tree has one holder, a reclaim frees what lies below detached
tables, and a release frees everything once -/
theorem pages_accounted (hm : t.Reachable others m) : ∃ own, t.Accounted others own m := by
  obtain ⟨own, h⟩ := hm.owns
  refine ⟨own, ?_⟩
  constructor
  · intro i
    constructor
    · intro h'
      obtain ⟨hi, ho⟩ := h'
      exact ((h.inUse i).mp hi).resolve_left ho
    · intro h'
      obtain ⟨p, r, hp, rfl⟩ := h'
      exact ⟨h.inUse_page hp, h.apart hp⟩
  · exact fun q r hq => h.one_holder hq
  · exact fun q => h.mem_pages_iff
  · exact h.nodup_pages
  · exact h.disjoint_retired
  · exact fun env => reclaim_ok_iff env m
  · exact fun env n hr => h.reclaim_frees hr
  · exact fun env hd => h.release_frees hd env

/-- an update loses a race, goes on in the table `c` of the other, and detaches the table `q` below it; a
reclaim then frees `q` and keeps `c`, and a release frees the rest -/
theorem pages_accounted_raced : ∃ (t : Tree) (m n n' : Machine Unit) (c q lost : PhysAddr),
    t.Reachable (fun _ => False) m ∧ .freed lost ∈ m.trace.toList ∧ lost.frame ∉ m.live ∧
      ⟨c, 1⟩ ∈ t.path m.memory ⟨0⟩ ∧ ⟨q, 0⟩ ∈ (t.tables m).retired ∧ q.frame ∈ m.live ∧
      (t.reclaim : Act Unit TableError Unit) (.offering []) m = .ok () n ∧
      c.frame ∈ n.live ∧ q.frame ∉ n.live ∧
      (t.release : Act Unit TableError Unit) (.offering []) n = .ok () n' ∧ ∀ i, i ∉ n'.live := by
  obtain ⟨t, m₀, k, q, lost, h, _⟩ := exists_overtaken ()
  -- the update of the other runs whenever a page is asked for
  let other : TreeOp := .update samplePage 0
  let pages : Env Unit := .offering (List.range' 2 3)
  have hpages : pages.Honest := Env.honest_behind (by decide)
  have hh : (t.during other pages).Honest := honest_during hpages other
  have hs : (t.during other pages).supply (t.enterWalk m₀) = (k, some lost) := by
    have hother : (t.perform other).after pages (t.enterWalk m₀) = k :=
      (Act.after_map ..).trans (Act.after_of_ok h.mapped)
    show pages.supply ((t.perform other).after pages (t.enterWalk m₀)) = _
    rw [hother]
    exact h.offered
  obtain ⟨m, c, hm, _, hfreed, hlost, hc, hq, _⟩ := h.update hh hs rfl
  have hreach : t.Reachable (fun _ => False) m := by
    have hafter : (t.perform (.update sampleBlock 9)).after (t.during other pages) m₀ = m :=
      (Act.after_map ..).trans (Act.after_of_ok hm)
    rw [← hafter]
    exact .op _ _ hh (peers_during hpages (fun k => .elsewhere rfl) other) h.reachable
  have hstill : (t.state m).walkers = 0 := by
    have hoffer : ∀ j, (t.state (pages.supply j).1).walkers = (t.state j).walkers := fun _ => rfl
    have hsupply : ∀ j, (t.state ((t.during other pages).supply j).1).walkers = (t.state j).walkers := fun j =>
      (congrArg (fun n => (t.state n).walkers) (Act.after_map ..)).trans
        ((t.allows_walkers hoffer).update samplePage 0 j)
    have hcount := (t.allows_walkers hsupply).update sampleBlock 9 m₀
    rw [Act.after_of_ok hm] at hcount
    exact hcount.trans h.still
  obtain ⟨own, hacc⟩ := pages_accounted hreach
  have hretired : q ∈ t.retiredPages (t.tables m) :=
    List.mem_flatMap.mpr ⟨_, hq, t.format.self_mem_subtree ..⟩
  have hlive : q.frame ∈ m.live := by
    obtain ⟨r, hr⟩ := (hacc.pages q).mp (t.pages_eq _ ▸ List.mem_append_left _ hretired)
    exact ((hacc.taken q.frame).mpr ⟨q, r, hr, rfl⟩).1
  -- the reclaim
  obtain ⟨n, hn⟩ := (hacc.reclaims (.offering [])).mpr (.inl hstill)
  obtain ⟨hfrees, hkeeps⟩ := hacc.reclaimed (.offering []) n hn
  obtain ⟨hmemory, hnone⟩ := t.reclaim_leaves (.offering []) hn
  have hgone : q.frame ∉ n.live := fun hin => ((hfrees.live _).mp hin).2 q hretired rfl
  -- the table of the other is still on the path, and goes with the tree
  have hreach' : t.Reachable (fun _ => False) n := .reclaim hreach hn
  have hkept : c.frame ∈ n.live := by
    obtain ⟨_, ho⟩ := hreach'.owns
    have hrange : t.format.inRange ⟨0⟩ = true := by rw [h.format]; decide
    rw [← hmemory] at hc
    exact ho.inUse_page (ho.own_of_mem_path hrange hc)
  obtain ⟨own', hacc'⟩ := pages_accounted hreach'
  obtain ⟨n', hn', _, hempty, _⟩ := hacc'.released (.offering []) (.inr hnone)
  exact ⟨t, m, n, n', c, q, lost, hreach, hfreed, hlost, hc, hq, hlive, hn, hkept, hgone, hn',
    fun i hi => (hempty i).mp hi⟩

end Tree

end NestedPaging
