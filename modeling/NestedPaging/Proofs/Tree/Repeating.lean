import NestedPaging.Proofs.Machine.Cleaning
import NestedPaging.Proofs.Tree.LargestLeaves

/-!
# Requests that are made again

An update that ended well has left its entries on the path of its address, or an absent entry above
them. Made again, it finds them in place: it asks for no page, stores only words that are there already,
and detaches nothing (`Machine.Rewritten`). And what a mapping gives its addresses depends on the request
alone, so that it gives them the same entries after they were unmapped, however many tables that took
away.

* `overwrite_same`, `update_of_entries`   entries in place are written again;
* `update_of_gap`     nothing is done below an absent entry;
* `Calm.leaf_same`    two mappings of the same request give the same leaves.
-/

namespace NestedPaging

variable {σ ε : Type}

/-- a word is stored that is there already in `memory`, or words are written back -/
def Event.Rewrites (memory : Memory) : Event → Prop
  | .stored a w => memory.read a = w
  | .cleaned .. | .lineCleaned .. => True
  | _ => False

/-- from `m` to `n` words are stored again and written back, and nothing else happens -/
structure Machine.Rewritten (m n : Machine σ) : Prop where
  rest : ∃ memory trees trace, n = { m with memory, trees, trace }
  memory : ∀ a, n.memory.read a = m.memory.read a
  trees : ∀ cell, n.trees.get cell = m.trees.get cell
  logs : ∃ es, m.Logs es n ∧ ∀ e ∈ es, e.Rewrites m.memory

theorem Memory.read_sameWord {a b : PhysAddr} (h : Memory.SameWord a b) (m : Memory) : m.read a = m.read b := by
  unfold read
  rw [h.1]
  simp only [h.2]

theorem Event.Rewrites.congr {memory memory' : Memory} {e : Event} (h : ∀ a, memory'.read a = memory.read a)
    (he : e.Rewrites memory') : e.Rewrites memory := by
  cases e with
  | stored a w => exact (h a).symm.trans he
  | cleaned | lineCleaned => trivial
  | _ => exact he.elim

namespace Machine.Rewritten
variable {m k n : Machine σ} {a : PhysAddr} {w : Word}

theorem refl (m : Machine σ) : m.Rewritten m :=
  ⟨⟨m.memory, m.trees, m.trace, rfl⟩, fun _ => rfl, fun _ => rfl, [], .refl rfl, nofun⟩

theorem trans (h : m.Rewritten k) (h' : k.Rewritten n) : m.Rewritten n := by
  obtain ⟨_, _, _, rfl⟩ := h.rest
  obtain ⟨_, _, _, rfl⟩ := h'.rest
  obtain ⟨es, hl, he⟩ := h.logs
  obtain ⟨fs, hl', hf⟩ := h'.logs
  refine ⟨⟨_, _, _, rfl⟩, fun a => (h'.memory a).trans (h.memory a), fun cell => (h'.trees cell).trans (h.trees cell),
    es ++ fs, hl.trans hl', fun e hm => ?_⟩
  rcases List.mem_append.mp hm with hm | hm
  · exact he e hm
  · exact (hf e hm).congr h.memory

theorem store (h : m.memory.read a = w) : m.Rewritten (m.store a w) := by
  refine ⟨⟨_, m.trees, _, rfl⟩, fun b => ?_, fun _ => rfl, _, .push rfl, fun e he => ?_⟩
  · show (m.memory.write a w).read b = m.memory.read b
    by_cases hs : Memory.SameWord a b
    · rw [Memory.read_write_same hs, ← h, Memory.read_sameWord hs]
    · exact Memory.read_write_other hs ..
  · rw [List.mem_singleton.mp he]
    exact h

theorem noteAll {es : List Event} (m : Machine σ) (h : ∀ e ∈ es, e.Rewrites m.memory) : m.Rewritten (m.noteAll es) :=
  ⟨⟨m.memory, m.trees, _, rfl⟩, fun _ => rfl, fun _ => rfl, es, m.logs_noteAll es, h⟩

end Machine.Rewritten

theorem Cleaner.rewrites_events (c : Cleaner) (a : PhysAddr) (len : Nat) (memory memory' : Memory) :
    ∀ e ∈ c.events a len memory', e.Rewrites memory :=
  c.forall_events a len memory' (fun _ => trivial) fun _ _ => trivial

namespace Tree
variable {t : Tree} {others : Nat → Prop} {env : Env σ} {own : Layout} {m k n : Machine σ} {p : Mapping}
  {order covered : Nat} {a : GuestAddr}

theorem rewritten_clean (t : Tree) (a : PhysAddr) (len : Nat) (m : Machine σ) :
    m.Rewritten (m.noteAll (t.cleaning a len m.memory)) := by
  refine .noteAll m ?_
  unfold cleaning
  cases t.cleaner with
  | none => exact nofun
  | some c => exact c.rewrites_events a len _ _

/-- a walk that begins and ends leaves nothing behind -/
theorem rewritten_walk (h : (t.enterWalk m).Rewritten n) : m.Rewritten (t.leaveWalk n) := by
  obtain ⟨memory, trees, trace, rfl⟩ := h.rest
  refine ⟨⟨memory, _, trace, rfl⟩, h.memory, fun cell => ?_, h.logs⟩
  have henter : (t.enterWalk m).trees.get cell = if t.cell = cell then
      { m.trees.get cell with walkers := (m.trees.get cell).walkers + 1 } else m.trees.get cell := Cells.get_modify ..
  have hleave := (Cells.get_modify trees t.cell cell fun s => { s with walkers := s.walkers - 1 }).trans
    (congrArg (fun s : TreeState => if t.cell = cell then { s with walkers := s.walkers - 1 } else s) (h.trees cell))
  refine hleave.trans ?_
  rw [henter]
  by_cases hcell : t.cell = cell
  · simp only [if_pos hcell, Nat.add_sub_cancel]
  · simp only [if_neg hcell]

/-- entries that are written over by themselves -/
theorem overwrite_same (t : Tree) (env : Env σ) (s : Slot) {ws : List Word} (m : Machine σ)
    (hsame : ∀ j w, ws[j]? = some w → m.memory.entry s.table (s.index + j) = w)
    (hbare : ∀ w ∈ ws, t.format.isTable w s.level = false) :
    ∃ n, (t.overwrite s ws : Act σ ε Unit) env m = .ok () n ∧ m.Rewritten n := by
  induction ws generalizing s m with
  | nil => exact ⟨m, rfl, .refl m⟩
  | cons w ws ih =>
    have hread : m.memory.read s.address = w := hsame 0 w rfl
    have hone : m.Rewritten (m.store s.address w) := .store hread
    have hrest : ∀ j v, ws[j]? = some v → (m.store s.address w).memory.entry s.next.table (s.next.index + j) = v := by
      intro j v hj
      have hat := hsame (j + 1) v hj
      rw [← Nat.add_assoc, Nat.add_right_comm] at hat
      exact (hone.memory _).trans hat
    obtain ⟨n, hn, hmore⟩ := ih s.next (m.store s.address w) hrest fun v hv => hbare v (List.mem_cons_of_mem w hv)
    refine ⟨n, ?_, hone.trans hmore⟩
    simp only [overwrite, Act.bind_apply, Act.swap_apply, hread, hbare w List.mem_cons_self, Bool.false_eq_true,
      if_false, hn]

section
variable (hr : t.format.refusal? p order = none) (env : Env σ)
include hr

/-- an update below an absent entry does nothing -/
theorem update_of_gap (hmap : p.maps = false) {q : PhysAddr} {above : Nat}
    (hlt : p.leafLevel order t.format.topLeafLevel < above) (hon : ⟨q, above⟩ ∈ t.path m.memory p.gpa)
    (h0 : m.memory.entry q (tableIndex p.gpa above) = 0) :
    t.update p order env m = .ok (p.coveredOrder t.format order) (t.leaveWalk (t.enterWalk m)) := by
  have hreach := Rely.reach_of_gap (m := t.enterWalk m) t env hlt hon h0
  refine update_of_apply hr (apply_of_reach (s := none) ?_)
  rw [hmap, if_neg Bool.false_ne_true]
  exact hreach

/-- an update whose entries hold what it writes stores that again -/
theorem update_of_entries {q : PhysAddr} (hon : ⟨q, p.leafLevel order t.format.topLeafLevel⟩ ∈ t.path m.memory p.gpa)
    (hsame : ∀ j w, (p.run t.format m.splitExecute order (p.leafLevel order t.format.topLeafLevel))[j]? = some w →
      m.memory.entry q (tableIndex p.gpa (p.leafLevel order t.format.topLeafLevel) + j) = w) :
    ∃ n, t.update p order env m = .ok (p.coveredOrder t.format order) n ∧ m.Rewritten n := by
  have hle := p.leafLevel_le order t.format.topLeafLevel
  have hfit := p.fits_leafLevel (Format.accepts_of_refusal? hr) t.format.topLeafLevel_le
  have hreach := Rely.reach_of_mem_path (m := t.enterWalk m) t env (if p.maps then .grow else .stop) hon
  obtain ⟨k, hk, hwrote⟩ := t.overwrite_same (ε := TableError) env
    (.through q p.gpa (p.leafLevel order t.format.topLeafLevel)) (t.enterWalk m) hsame
    fun w hw => (Mapping.bare_run hle hfit hw).not_table
  have hclean := t.rewritten_clean (Slot.through q p.gpa (p.leafLevel order t.format.topLeafLevel)).address
    ((1 <<< (p.coveredOrder t.format order - levelOrder (p.leafLevel order t.format.topLeafLevel))) * 8) k
  refine ⟨_, update_of_apply hr ((apply_of_reach hreach).trans ?_), rewritten_walk (hwrote.trans hclean)⟩
  have hsplit : (t.enterWalk m).splitExecute = m.splitExecute := rfl
  simp only [writeRun, Act.bind_apply, Act.view_apply, hsplit, hk, clean_apply, Act.pure_apply]

end

/-- what an update does is done when it is made again -/
theorem Lands.again (h : t.Owns others own (t.tables k)) (hr : t.format.refusal? p order = none)
    (hl : t.Lands (fun _ _ => False) p order own k n) (env : Env σ) :
    ∃ n', t.update p order env n = .ok (p.coveredOrder t.format order) n' ∧ n.Rewritten n' := by
  have hacc := Format.accepts_of_refusal? hr
  cases hl with
  | @wrote level q hlevel hh ht =>
    subst hlevel
    have hle := p.leafLevel_le order t.format.topLeafLevel
    have hl4 := Nat.le_trans hle t.format.topLeafLevel_le
    have hfit := p.fits_leafLevel hacc t.format.topLeafLevel_le
    have hmem : n.memory = _ := congrArg Tables.memory ht
    have hsplit : n.splitExecute = k.splitExecute := (congrArg Tables.split ht).trans (Owns.split_overwrite ..)
    have hlen := Mapping.length_run hl4 p t.format k.splitExecute order
    apply update_of_entries hr env
    · rw [hmem]
      exact self_mem_path_run h hle hfit hh.place hacc.inRange (hh.path.resolve_right id)
    · intro j w hw
      rw [hsplit] at hw
      rw [hmem]
      refine Tables.entry_overwrite (h.isPage hh.place) _ ?_ hw
      rw [hlen]
      exact Mapping.run_le hl4 p order
  | @nothing above q hmap hlt hh h0 ht =>
    have hmem : n.memory = k.memory := congrArg Tables.memory ht
    refine ⟨_, update_of_gap (q := q) hr env hmap hlt ?_ ?_, rewritten_walk (.refl _)⟩
    · rw [hmem]
      exact hh.path.resolve_right id
    · rw [hmem]
      exact h0

/-- what a mapping gives its addresses was given before, if the same mapping was made before -/
theorem Lands.leaf_same {own' : Layout} {k' n' : Machine σ} (h : t.Owns others own (t.tables k))
    (h' : t.Owns others own' (t.tables k')) (hr : t.format.Accepts p order) (hmap : p.maps = true)
    (hl : t.Lands (fun _ _ => False) p order own k n) (hl' : t.Lands (fun _ _ => False) p order own' k' n')
    (hsplit : k'.splitExecute = k.splitExecute) (ha : p.Covers (p.coveredOrder t.format order) a) :
    ∃ l, t.leaf? n.memory a = some l ∧ t.leaf? n'.memory a = some l := by
  obtain ⟨w, hw, hleaf, hsome⟩ := hl.leaf?_on h hr hmap ha
  obtain ⟨w', hw', hleaf', _⟩ := hl'.leaf?_on h' hr hmap ha
  rw [hsplit, hw] at hw'
  obtain rfl := Option.some.inj hw'
  obtain ⟨l, hfound⟩ := Option.isSome_iff_exists.mp hsome
  exact ⟨l, hfound, hleaf'.trans (hleaf.symm.trans hfound)⟩

/-- an update that ended well found its place on the path of its address -/
theorem Calm.lands (hh : env.Honest) (hc : t.Calm env) (ho : t.Owns others own (t.tables m))
    (h : t.update p order env m = .ok covered n) :
    covered = p.coveredOrder t.format order ∧ n.splitExecute = m.splitExecute ∧ ∃ own' k,
      t.Owns others own' (t.tables k) ∧ k.splitExecute = m.splitExecute ∧
      t.Lands (fun _ _ => False) p order own' k n ∧ t.Owns others own' (t.tables n) := by
  have hr := accepts_of_update h
  have hup := hc.update hh ho hr
  rw [h] at hup
  obtain ⟨own', _, hcov, k, hq, _, hl⟩ := hup
  exact ⟨hcov, hl.split.trans hq.split, own', k, hq.owns, hq.split, hl, hl.owns hq.owns (Format.accepts_of_refusal? hr)⟩

/-- an update that is made again does nothing that shows, with or without memory; and a mapping that is
made again after the run was unmapped restores its entries -/
theorem update_repeats (hm : t.Reachable others m) (hh : env.Honest) (hc : t.Calm env)
    (h : t.update p order env m = .ok covered n) :
    (∀ env' : Env σ, ∃ n', t.update p order env' n = .ok covered n' ∧ n.Rewritten n') ∧
    (p.maps = true → ∀ (q : Mapping) (env₁ env₂ : Env σ) (c₁ c₂ : Nat) (n₁ n₂ : Machine σ),
      q.gpa = p.gpa → q.maps = false → env₁.Honest → t.Calm env₁ → env₂.Honest → t.Calm env₂ →
      t.update q order env₁ n = .ok c₁ n₁ → t.update p order env₂ n₁ = .ok c₂ n₂ →
      c₂ = covered ∧ ∀ (a : GuestAddr) (env₃ : Env σ), p.Covers covered a → ∃ l,
        (t.lookup a : Act σ TableError (Option Leaf)) env₃ n = .ok (some l) n ∧
        (t.lookup a : Act σ TableError (Option Leaf)) env₃ n₂ = .ok (some l) n₂) := by
  obtain ⟨own, ho⟩ := hm.owns
  have hr := accepts_of_update h
  obtain ⟨rfl, hsplit, own', k, hk, hks, hl, hn⟩ := Calm.lands hh hc ho h
  refine ⟨fun env' => hl.again hk hr env', fun hmap q env₁ env₂ c₁ c₂ n₁ n₂ hgpa hno hh₁ hc₁ hh₂ hc₂ h₁ h₂ => ?_⟩
  obtain ⟨-, hsplit₁, _, _, -, -, -, hn₁⟩ := Calm.lands hh₁ hc₁ hn h₁
  obtain ⟨hcov, -, own₂, k₂, hk₂, hks₂, hl₂, -⟩ := Calm.lands hh₂ hc₂ hn₁ h₂
  refine ⟨hcov, fun a env₃ ha => ?_⟩
  have hsame : k₂.splitExecute = k.splitExecute := hks₂.trans (hsplit₁.trans (hsplit.trans hks.symm))
  obtain ⟨l, hleaf, hleaf₂⟩ := hl.leaf_same hk hk₂ (Format.accepts_of_refusal? hr) hmap hl₂ hsame ha
  exact ⟨l, by rw [t.lookup_ok, hleaf], by rw [t.lookup_ok, hleaf₂]⟩

/-- 512 pages at an address that is not aligned like theirs, unmapped as one block -/
theorem update_repeats_block : ∃ (t : Tree) (m n n' n₁ n₂ : Machine Unit) (l : Leaf),
    t.update ⟨⟨0⟩, ⟨0x1000⟩, .ofPerms .readWrite⟩ 9 (.offering (List.range' 2 5)) m = .ok 9 n ∧
      t.update ⟨⟨0⟩, ⟨0x1000⟩, .ofPerms .readWrite⟩ 9 (.offering []) n = .ok 9 n' ∧ n.Rewritten n' ∧
      t.update ⟨⟨0⟩, ⟨0⟩, .ofPerms .none⟩ 9 (.offering (List.range' 2 5)) n = .ok 9 n₁ ∧
      t.update ⟨⟨0⟩, ⟨0x1000⟩, .ofPerms .readWrite⟩ 9 (.offering (List.range' 2 5)) n₁ = .ok 9 n₂ ∧
      t.leaf? n.memory ⟨0x3000⟩ = some l ∧ t.leaf? n₂.memory ⟨0x3000⟩ = some l := by
  have hh : (Env.offering (List.range' 2 5) : Env Unit).Honest := Env.honest_behind (by decide)
  obtain ⟨t, m, hm, hf, hlive, _, _⟩ := Reachable.exists_empty .stage2 ()
  obtain ⟨own, ho⟩ := hm.owns
  have hc : t.Calm (.offering (List.range' 2 5) : Env Unit) := .offering t _
  have hroom : (Env.offering (List.range' 2 5)).Room (2 + (1 + 2)) m :=
    (Machine.Spare.behind (fun i hi => (hlive i).mp hi) 5).room
  have hmap : t.format.refusal? ⟨⟨0⟩, ⟨0x1000⟩, .ofPerms .readWrite⟩ 9 = none := by
    rw [hf]
    decide
  have hunmap : t.format.refusal? ⟨⟨0⟩, ⟨0⟩, .ofPerms .none⟩ 9 = none := by
    rw [hf]
    decide
  obtain ⟨n, _, hn, ho₁, hroom₁⟩ := hc.update_leaves_room hh ho hmap (by rw [hf]; decide) hroom
  obtain ⟨n₁, _, hn₁, ho₂, hroom₂⟩ := hc.update_leaves_room hh ho₁ hunmap (by rw [hf]; decide) hroom₁
  obtain ⟨n₂, _, hn₂, _⟩ := hc.update_leaves_room (e := 0) hh ho₂ hmap (by rw [hf]; decide) hroom₂
  rw [hf] at hn hn₁ hn₂
  obtain ⟨hagain, hrestore⟩ := update_repeats hm hh hc hn
  obtain ⟨n', hn', hsame⟩ := hagain (.offering [])
  obtain ⟨_, hall⟩ := hrestore rfl ⟨⟨0⟩, ⟨0⟩, .ofPerms .none⟩ _ _ _ _ _ _ rfl rfl hh hc hh hc hn₁ hn₂
  obtain ⟨l, hfound, hfound₂⟩ := hall ⟨0x3000⟩ (.offering []) (by decide)
  exact ⟨t, m, n, n', n₁, n₂, l, hn, hn', hsame, hn₁, hn₂, (EStateM.Result.ok.inj hfound).1,
    (EStateM.Result.ok.inj hfound₂).1⟩

end Tree

end NestedPaging
