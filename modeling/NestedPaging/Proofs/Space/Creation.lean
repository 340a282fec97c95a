import NestedPaging.Proofs.Space.Runs

/-!
# New spaces

A new space is active, no processor is dirty and nothing is in flight (`Space.create_ok`). Its tree is
empty and owns its root (`Space.owns_create`). Creation succeeds whenever a page is offered
(`Space.create_offered`).
-/

namespace NestedPaging

variable {σ : Type} {env : Env σ} {m n k : Machine σ} {kind : Regime} {cleaner : Option Cleaner}
  {tag : RegimeTag}

theorem Tree.create_fresh {f : Format} {t : Tree} (h : Tree.create f cleaner env m = .ok t n) :
    t.format = f ∧ t.state n = {} := by
  obtain ⟨_, _, _, hf, _⟩ := Tree.create_cleans h
  exact ⟨hf, Tree.state_create h⟩

namespace Space
variable {s : Space}

/-- a space is a tree with a cell of its own -/
theorem create_eq (h : Space.create kind cleaner tag env m = .ok s n) :
    s.root.kind = kind ∧ s.tag = tag ∧
      ∃ k, Tree.create kind.format cleaner env m = .ok s.tree k ∧ s.cell = k.spaces.next ∧
        ∃ line, n = { k.note (.logged .debug line) with spaces := (k.spaces.fresh {}).2 } := by
  unfold Space.create RegimeRoot.create at h
  obtain ⟨root, k, hroot, h⟩ := (Act.bind_eq_ok ..).mp h
  obtain ⟨t, k', ht, hroot⟩ := (Act.bind_eq_ok ..).mp hroot
  obtain ⟨_, j, hlog, h⟩ := (Act.bind_eq_ok ..).mp h
  injection hroot with hr hk
  injection hlog with _ hj
  injection h with hs hn
  subst hr
  subst hk
  subst hj
  subst hs
  exact ⟨rfl, rfl, k', ht, rfl, _, hn.symm⟩

theorem create_ok (h : Space.create kind cleaner tag env m = .ok s n) :
    s.root.kind = kind ∧ s.tag = tag ∧ s.state n = {} ∧
      ∃ k, Tree.create kind.format cleaner env m = .ok s.tree k ∧ n.memory = k.memory ∧
        n.live = k.live ∧ n.trees = k.trees ∧ n.splitExecute = k.splitExecute := by
  obtain ⟨hkind, htag, k, hk, hcell, line, rfl⟩ := create_eq h
  refine ⟨hkind, htag, ?_, k, hk, rfl, rfl, rfl, rfl⟩
  unfold state
  rw [hcell]
  exact (Cells.get_fresh ..).trans (if_pos rfl)

theorem tables_create (h : Space.create kind cleaner tag env m = .ok s n) :
    ∃ k, Tree.create kind.format cleaner env m = .ok s.tree k ∧
      s.tree.tables n = s.tree.tables k ∧ s.tree.state n = {} := by
  obtain ⟨_, _, _, k, hk, hm, hl, ht, hs⟩ := create_ok h
  have hst : s.tree.state n = s.tree.state k := congrArg (·.get s.tree.cell) ht
  refine ⟨k, hk, ?_, hst.trans (Tree.create_fresh hk).2⟩
  unfold Tree.tables
  rw [hst, hm, hl, hs]

theorem create_offered {q : PhysAddr} (hs : env.supply m = (k, some q)) (kind : Regime)
    (cleaner : Option Cleaner) (tag : RegimeTag) :
    ∃ s n, Space.create kind cleaner tag env m = .ok s n ∧ s.tree.root = q := by
  obtain ⟨t, k', hk, _, hroot, _⟩ := Tree.create_offered hs kind.format cleaner
  unfold Space.create RegimeRoot.create
  simp only [Act.bind_apply, hk]
  exact ⟨_, _, rfl, hroot⟩

/-- a new space owns its root, and what was in use before belongs to others -/
theorem owns_create (hh : env.Honest) (h : Space.create kind cleaner tag env m = .ok s n) :
    ∃ own, s.tree.Owns (fun i => i ∈ (env.supply m).1.live) own (s.tree.tables n) := by
  obtain ⟨k, hk, ht, _⟩ := tables_create h
  rw [ht]
  exact (Tree.Reachable.create hh (fun _ => Iff.rfl) hk).owns

/-- of a new space only the page of its root is in use, and it is the page that was offered -/
theorem live_create {q : PhysAddr} (hs : env.supply m = (k, some q))
    (h : Space.create kind cleaner tag env m = .ok s n) {i : Nat} (hi : i ∈ n.live) :
    i = q.frame ∨ i ∈ k.live := by
  obtain ⟨j, hj, ht, _⟩ := tables_create h
  obtain ⟨k', hk', hT⟩ := Tree.create_ok hj
  rw [hs] at hk'
  obtain ⟨rfl, hq⟩ := Prod.mk.inj hk'
  have hin : (s.tree.tables n).inUse i := hi
  rw [ht, hT] at hin
  rcases Std.HashSet.mem_insert.mp hin with e | hin
  · rw [Option.some.inj hq]
    exact .inl (eq_of_beq e).symm
  · exact .inr hin

end Space

end NestedPaging
