import NestedPaging.Proofs.Tree.Unmapping

/-!
# Walks and failures show nothing

A walk changes tables, and so does an update before it fails for lack of memory, but lookups report
what they reported before: the split leaves are exact and the new tables are empty. The entry that a
walk finds is the one that a lookup goes through.

* `Quiet.neutral`    what is quiet shows nothing;
* `finds_through`    the entry of a table on the path is the one that lookups go through;
* `Calm.walk`, `Calm.update_error`   walks and failures are quiet;
* `Calm.update_starved`   an update that gets one page for two splits fails after the first.
-/

namespace NestedPaging

variable {σ : Type}

namespace Tree

/-- all addresses keep their translations, nothing is detached, and each page that was taken is one
of the tree's -/
structure Neutral (t : Tree) (m n : Machine σ) : Prop where
  translation : ∀ a : GuestAddr, ∀ env : Env σ, ∃ before found,
    (t.lookup a : Act σ TableError (Option Leaf)) env m = .ok before m ∧
    (t.lookup a : Act σ TableError (Option Leaf)) env n = .ok found n ∧
    found.map (Leaf.translation a) = before.map (Leaf.translation a)
  retired : (t.tables n).retired = (t.tables m).retired
  kept : ∀ i, i ∈ m.live → i ∈ n.live
  taken : ∀ i, i ∈ n.live → i ∈ m.live ∨ ∃ q ∈ t.pages (t.tables n), q.frame = i

/-- `s` is the entry at `level` on the way of `a`, and lookups of `a` agree with it -/
structure Finds (t : Tree) (a : GuestAddr) (level : Nat) (s : Slot) (n : Machine σ) : Prop where
  atLevel : s.level = level
  index : s.index = tableIndex a level
  path : ⟨s.table, level⟩ ∈ t.path n.memory a
  leaf : ∀ env : Env σ, t.format.isPresent (n.memory.read s.address) = true →
    t.format.isTable (n.memory.read s.address) level = false →
    ∃ l, (t.lookup a : Act σ TableError (Option Leaf)) env n = .ok (some l) n ∧
      l.raw = n.memory.read s.address ∧ l.order = levelOrder level
  gap : ∀ env : Env σ, n.memory.read s.address = 0 →
    (t.lookup a : Act σ TableError (Option Leaf)) env n = .ok none n

variable {t : Tree} {others : Nat → Prop} {env : Env σ} {own own' : Layout} {m n : Machine σ}
  {a : GuestAddr} {level : Nat}

theorem Quiet.neutral (h : t.Owns others own (t.tables m))
    (hq : t.Quiet others own own' (t.tables m) (t.tables n)) : t.Neutral m n where
  translation a _ := ⟨_, _, rfl, rfl, congrFun hq.view a⟩
  retired := hq.retired
  kept _ hi := h.inUse_of_extends hq.owns hq.grows hi
  taken _ hi := h.inUse_or_page hq.owns hi

/-- the entry of a path table is the one that a lookup goes through -/
theorem finds_through {p : PhysAddr} (ha : t.format.inRange a = true)
    (hp : ⟨p, level⟩ ∈ t.path n.memory a) : t.Finds a level (.through p a level) n where
  atLevel := rfl
  index := rfl
  path := hp
  leaf env hpres htab := by
    refine ⟨t.format.leaf level (n.memory.read (Slot.through p a level).address), ?_, rfl, rfl⟩
    have hpres' : t.format.isPresent (n.memory.entry p (tableIndex a level)) = true := hpres
    have htab' : t.format.isTable (n.memory.entry p (tableIndex a level)) level = false := htab
    show EStateM.Result.ok (t.leaf? n.memory a) n = _
    rw [t.leaf?_of_mem ha hp]
    show EStateM.Result.ok (t.format.leafBelow n.memory a level p) n = _
    rw [t.format.leafBelow_of_not_table htab']
    unfold Format.leafOf
    rw [if_pos hpres']
    rfl
  gap env h0 := by
    have he : n.memory.entry p (tableIndex a level) = 0 := h0
    show EStateM.Result.ok (t.leaf? n.memory a) n = _
    rw [t.leaf?_of_mem ha hp, t.format.leafBelow_of_not_table, he, t.format.leafOf_zero]
    rw [he]
    exact t.format.isTable_zero level

section
variable (hh : env.Honest) (hc : t.Calm env) (h : t.Owns others own (t.tables m))
include hh hc h

theorem Calm.walk (a : GuestAddr) (level : Nat) :
    match t.walk a level env m with
    | .ok s n => t.Neutral m n ∧ t.Finds a level s n
    | .error e n => t.Neutral m n ∧ (e = .failed .insufficientMemory ∨
        n = m ∧ (t.format.levels ≤ level ∨ t.format.inRange a = false)) := by
  by_cases hr : t.format.levels ≤ level ∨ t.format.inRange a = false
  · obtain ⟨e, he⟩ := t.walk_refused hr env m
    rw [he]
    exact ⟨(Quiet.refl h).neutral h, .inr ⟨rfl, hr⟩⟩
  · rw [not_or, Bool.not_eq_false] at hr
    have hy := (Calm.rely hh hc own (t.tables m) a).walk_yields (Nat.lt_of_not_le hr.1) hr.2
      (.refl h)
    cases hw : t.walk a level env m with
    | ok s n =>
      rw [hw] at hy
      obtain ⟨own', _, hq, p, rfl, hp⟩ := hy
      exact ⟨hq.neutral h, finds_through hr.2 (hp.path.resolve_right id)⟩
    | error e n =>
      rw [hw] at hy
      match e, hy with
      | .failed e, ⟨he, own', _, hq⟩ => exact ⟨hq.neutral h, .inl (congrArg _ he)⟩
      | .stuck, ⟨he, _⟩ => exact absurd hc.paced he

theorem Calm.update_error {p : Mapping} {order : Nat} {e : Stop TableError}
    (he : t.update p order env m = .error e n) :
    t.Neutral m n ∧ (e = .failed .insufficientMemory ∨
      n = m ∧ ∃ e', t.format.refusal? p order = some e' ∧ e = .failed e') := by
  cases hr : t.format.refusal? p order with
  | some e' =>
    rw [update_refused hr] at he
    injection he with he hn
    subst hn
    exact ⟨(Quiet.refl h).neutral h, .inr ⟨rfl, e', rfl, he.symm⟩⟩
  | none =>
    have hy := Calm.update hh hc h hr
    rw [he] at hy
    match e, hy with
    | .failed e, ⟨he, own', _, hq⟩ => exact ⟨hq.neutral h, .inl (congrArg _ he)⟩
    | .stuck, ⟨he, _⟩ => exact absurd hc.paced he

end

/-- walks, whatever their result, and updates that fail show nothing; errors other than a lack of
memory leave the machine as it was; and a walk finds the entry that lookups go through -/
theorem walk_and_failure_neutral (hm : t.Reachable others m) (hh : env.Honest) (hc : t.Calm env) :
    (∀ a level, t.Neutral m ((t.walk a level).after env m)) ∧
    (∀ a level e n, t.walk a level env m = .error e n → e = .failed .insufficientMemory ∨
      n = m ∧ (t.format.levels ≤ level ∨ t.format.inRange a = false)) ∧
    (∀ a level s n, t.walk a level env m = .ok s n → t.Finds a level s n) ∧
    (∀ p order e n, t.update p order env m = .error e n →
      t.Neutral m n ∧ (e = .failed .insufficientMemory ∨
        n = m ∧ ∃ e', t.format.refusal? p order = some e' ∧ e = .failed e')) := by
  obtain ⟨own, ho⟩ := hm.owns
  refine ⟨fun a level => ?_, fun a level e n he => ?_, fun a level s n hs => ?_,
    fun p order e n he => Calm.update_error hh hc ho he⟩
  · have hw := Calm.walk hh hc ho a level
    cases he : t.walk a level env m with
    | ok s n =>
      rw [he] at hw
      rw [Act.after_of_ok he]
      exact hw.1
    | error e n =>
      rw [he] at hw
      rw [Act.after_of_error he]
      exact hw.1
  · have hw := Calm.walk hh hc ho a level
    rw [he] at hw
    exact hw.2
  · have hw := Calm.walk hh hc ho a level
    rw [hs] at hw
    exact hw.2

/-! ## a block of 1 GB and one free page -/

section
variable (hh : env.Honest) (hc : t.Calm env) (h : t.Owns others own (t.tables m)) {q : PhysAddr} {k : Machine σ}
include hh hc h

/-- a walk that needs two splits or more and gets one page publishes the first split and fails -/
theorem Calm.reach_starved {target d : Nat} (gap : AtGap) (htop : target + d + 2 ≤ t.format.topLeafLevel)
    (hleaf : t.LeafAt m.memory a (target + d + 2)) (hs : env.supply m = (k, some q))
    (hnone : ∀ n, q.frame ∈ n.live → (env.supply n).2 = none) :
    ∃ n, t.reach a target gap env m = .error (.failed .insufficientMemory) n ∧
      ⟨q, target + d + 1⟩ ∈ t.path n.memory a ∧ q.frame ∈ n.live := by
  obtain ⟨i, own', hreach, hquiet, hpath, ht, hpres, hlive⟩ := hc.reach_split (d := d + 1) hh h gap htop hleaf hs
  obtain ⟨j, offer, hj⟩ : ∃ j offer, env.supply i = (j, offer) := ⟨_, _, rfl⟩
  obtain rfl : offer = none := by
    have e := hnone i hlive
    rwa [hj] at e
  have hplace : own' q = some ⟨target + d + 1, a.block (target + d + 2)⟩ :=
    hquiet.owns.own_of_mem_path hleaf.inRange hpath
  have hgap : gap = .stop → i.memory.entry q (tableIndex a (target + d + 1)) ≠ 0 := fun _ =>
    t.format.ne_zero_of_isPresent hpres
  -- the leaf in the new table is the next to be split
  have hshort := child_starved (l := target + d) hplace rfl ht hquiet.owns hgap hj
  have hsame : t.tables (j.note .exhausted) = t.tables i := by
    have e := hc i
    rw [hj] at e
    exact (alike_note j .exhausted).tables.trans e
  refine ⟨j.note .exhausted, ?_, ?_, ?_⟩
  · rw [hreach, descend, Act.bind_apply, hshort]
  · rw [show (j.note .exhausted).memory = i.memory from congrArg Tables.memory hsame]
    exact hpath
  · exact (congrFun (congrArg Tables.inUse hsame) _).mpr hlive

/-- and so does an update -/
theorem Calm.update_starved {p : Mapping} {order d : Nat} (hr : t.format.refusal? p order = none)
    (htop : p.leafLevel order t.format.topLeafLevel + d + 2 ≤ t.format.topLeafLevel)
    (hleaf : t.LeafAt m.memory p.gpa (p.leafLevel order t.format.topLeafLevel + d + 2))
    (hs : env.supply (t.enterWalk m) = (k, some q)) (hnone : ∀ n, q.frame ∈ n.live → (env.supply n).2 = none) :
    ∃ n, t.update p order env m = .error (.failed .insufficientMemory) n ∧
      ⟨q, p.leafLevel order t.format.topLeafLevel + d + 1⟩ ∈ t.path n.memory p.gpa ∧ q.frame ∈ n.live := by
  obtain ⟨n, hn, hpath, hlive⟩ := hc.reach_starved (m := t.enterWalk m) hh ((alike_enterWalk m).tables ▸ h)
    (if p.maps then .grow else .stop) htop hleaf hs hnone
  exact ⟨t.leaveWalk n, update_of_reach_error p order hr hn, hpath, hlive⟩

/-- a walk to the level below a leaf needs one page -/
theorem Calm.walk_split (htop : level + 1 ≤ t.format.topLeafLevel) (hleaf : t.LeafAt m.memory a (level + 1))
    (hs : env.supply (t.enterWalk m) = (k, some q)) :
    ∃ n, t.walk a level env m = .ok (.through q a level) n ∧
      t.format.isTable (n.memory.entry q (tableIndex a level)) level = false ∧
      t.format.isPresent (n.memory.entry q (tableIndex a level)) = true := by
  obtain ⟨n, _, hreach, _, _, ht, hpres, _⟩ := hc.reach_split (m := t.enterWalk m) (d := 0) hh
    ((alike_enterWalk m).tables ▸ h) .grow htop hleaf hs
  refine ⟨n, walk_of_reach ?_ hleaf.inRange hreach, ht, hpres⟩
  have hlevels := t.format.levels_eq
  have hroot := t.format.topLeafLevel_lt
  omega

end

/-- a page of a block of 1 GB is unmapped where one page is free: the block is split once, and there is no page
for the second split. A walk to the level below the block ends at a leaf of 2 MB. -/
theorem walk_and_failure_neutral_split : ∃ (t : Tree) (m n k : Machine Unit) (q : PhysAddr) (l : Leaf),
    t.LeafAt m.memory ⟨0⟩ 2 ∧ q.frame ∉ m.live ∧
      t.update ⟨⟨0⟩, ⟨0⟩, .ofPerms .none⟩ 0 (.offering [q.frame]) m = .error (.failed .insufficientMemory) n ∧
      ⟨q, 1⟩ ∈ t.path n.memory ⟨0⟩ ∧ q.frame ∈ n.live ∧ t.Neutral m n ∧
      t.walk ⟨0⟩ 1 (.offering [q.frame]) m = .ok (.through q ⟨0⟩ 1) k ∧ t.Neutral m k ∧
      t.lookup ⟨0⟩ (.offering []) k = (.ok (some l) k : EStateM.Result (Stop TableError) _ _) ∧
      l.raw = k.memory.read (Slot.through q ⟨0⟩ 1).address ∧ l.order = 9 := by
  let hole : Mapping := ⟨⟨0⟩, ⟨0⟩, .ofPerms .none⟩
  obtain ⟨t, m, hm, hf, hblock, hroom⟩ := exists_largeBlock 1 (by decide) ()
  have hleaf := hblock ⟨0⟩ (by decide)
  obtain ⟨own, ho⟩ := hm.owns
  have hh₀ : (Env.offering (List.range' 2 2) : Env Unit).Honest := Env.honest_behind (by decide)
  obtain ⟨q, hq⟩ := Option.ne_none_iff_exists'.mp (hroom 0 m Nat.zero_lt_one (.refl 0 m))
  obtain ⟨hpage, hfree⟩ := hh₀ m q hq
  have hfree' : q.frame ∉ m.live := Bool.eq_false_iff.mp hfree
  -- from here on `q` is the only page that is offered
  have hh : (Env.offering [q.frame] : Env Unit).Honest := by
    refine Env.honest_offering fun i hi => ?_
    rw [List.mem_singleton.mp hi]
    exact hpage.frame_lt
  have hc : t.Calm (.offering [q.frame] : Env Unit) := .offering t _
  have hs : (Env.offering [q.frame]).supply (t.enterWalk m) = (t.enterWalk m, some q) := by
    have hfirst : (Env.offering [q.frame]).supply (t.enterWalk m) = (t.enterWalk m, some (.ofFrame q.frame)) :=
      Env.offering_free hfree'
    rwa [hpage.ofFrame_frame] at hfirst
  have hnone : ∀ n : Machine Unit, q.frame ∈ n.live → ((Env.offering [q.frame]).supply n).2 = none := by
    intro n hn
    rw [Env.offering_used hn, Env.offering_nil]
  obtain ⟨hwalks, _, hfinds, hfails⟩ := walk_and_failure_neutral hm hh hc
  have hr : t.format.refusal? hole 0 = none := by
    rw [hf]
    decide
  obtain ⟨n, hn, hpath, hin⟩ :=
    hc.update_starved (d := 0) hh ho hr (by rw [hf]; decide) (by rw [hf]; exact hleaf) hs hnone
  rw [hf] at hpath
  obtain ⟨k, hk, ht, hpres⟩ := hc.walk_split hh ho (by rw [hf]; decide) hleaf hs
  obtain ⟨l, hl, hraw, horder⟩ := (hfinds _ _ _ _ hk).leaf (.offering []) hpres ht
  have hneutral := hwalks ⟨0⟩ 1
  rw [Act.after_of_ok hk] at hneutral
  exact ⟨t, m, n, k, q, l, hleaf, hfree', hn, hpath, hin, (hfails _ _ _ _ hn).1, hk, hneutral, hl, hraw, horder⟩

end Tree

end NestedPaging
