import NestedPaging.Proofs.Tree.Unmapping

/-!
# Lost races

While an update waits for a page another processor may fill the entry that the page is for. Then the
page goes back, and the update goes on in the table of the other.

* `child_raced`    what a look at one entry comes to;
* `update_raced`   what a mapping right below the root comes to;
* `Tree.during`    surroundings in which an operation runs whenever a page is asked for;
* `exists_overtaken`   a tree where that operation gets in first.
-/

namespace NestedPaging

variable {σ : Type}

namespace Tree
variable {t : Tree} {others : Nat → Prop} {env : Env σ} {own own' : Layout} {m k : Machine σ}
  {a : GuestAddr} {q : PhysAddr}

/-- where somebody put a table while a page was asked for, that table is found and the page goes back -/
theorem child_raced {r : PhysAddr} {l x : Nat} {gap : AtGap} {raw : Word} (h : t.Owns others own (t.tables m))
    (hr : own r = some ⟨l + 1, x⟩) (hraw : m.memory.entry r (tableIndex a (l + 1)) = raw)
    (ht : t.format.isTable raw (l + 1) = false) (hgap : gap = .stop → raw ≠ 0) (hh : env.Honest)
    (hs : env.supply m = (k, some q)) (hsplit : k.splitExecute = m.splitExecute)
    (h' : t.Owns others own' (t.tables k)) (hr' : own' r = some ⟨l + 1, x⟩)
    (hc : t.format.isTable (k.memory.entry r (tableIndex a (l + 1))) (l + 1) = true) :
    ∃ n : Machine σ, t.child (.through r a (l + 1)) gap env m
        = .ok (some (entryAddress (k.memory.entry r (tableIndex a (l + 1))))) (n.giveBack q) ∧
      n.client = k.client ∧ own'.Same (t.tables k) (t.tables (n.giveBack q)) := by
  obtain ⟨hq, hf⟩ := hh m q (by rw [hs])
  rw [hs] at hf
  rcases Rely.childWithin_bare h hr hraw ht env gap (env.rank m.client + 1) with
    ⟨hstop, h0, _⟩ | ⟨entries, _, hlen, hlook⟩
  · exact absurd h0 (hgap hstop)
  have hlost : k.memory.entry r (tableIndex a (l + 1)) ≠ raw := by
    intro e
    rw [e, ht] at hc
    cases hc
  obtain ⟨n, hrun, hclient, hsame⟩ := offerTable_lost (s := .through r a (l + 1)) entries hs h' hq hf hr'
    (tableIndex_lt a _) (by rw [hsplit]; exact hlen) hlost
  refine ⟨n, hlook.trans ?_, hclient, hsame⟩
  -- the second look finds the table of the other
  have hentry : (n.giveBack q).memory.entry r (tableIndex a (l + 1))
      = k.memory.entry r (tableIndex a (l + 1)) := hsame.entry hr' (tableIndex_lt a _)
  simp only [Act.bind_apply, hrun]
  exact Rely.childWithin_of_table t env gap hentry hc _

/-- a mapping right below an absent entry of the root, where somebody maps below that entry first: its
page goes back, and it takes its effect in the table of the other -/
theorem update_raced {p : Mapping} {order : Nat} {c : PhysAddr} (h : t.Owns others own (t.tables m))
    (hr : t.format.refusal? p order = none) (hmap : p.maps = true)
    (hl : t.format.rootLevel = p.leafLevel order t.format.topLeafLevel + 1)
    (h0 : m.memory.entry t.root (tableIndex p.gpa t.format.rootLevel) = 0) (hh : env.Honest)
    (hs : env.supply (t.enterWalk m) = (k, some q)) (hsplit : k.splitExecute = m.splitExecute)
    (h' : t.Owns others own' (t.tables k))
    (hc : ⟨c, p.leafLevel order t.format.topLeafLevel⟩ ∈ t.path k.memory p.gpa) :
    ∃ j n, t.update p order env m = .ok (p.coveredOrder t.format order) n ∧ n.client = k.client ∧
      own'.Same (t.tables k) (t.tables j) ∧ t.Lands (fun _ _ => False) p order own' j n ∧
      .freed q ∈ n.trace.toList := by
  have hacc := Format.accepts_of_refusal? hr
  have hroot := t.root_mem_path k.memory p.gpa
  rw [hl] at hroot h0
  obtain ⟨htable, hchild⟩ := t.format.entry_of_mem_path hroot hc
  have hplace := h.root
  have hplace' := h'.root
  rw [hl] at hplace hplace'
  have hstop : AtGap.grow = .stop → (0 : Word) ≠ 0 := nofun
  obtain ⟨i, hi, hclient, hsame⟩ := child_raced (m := t.enterWalk m) ((alike_enterWalk m).tables ▸ h) hplace h0
    (t.format.isTable_zero _) hstop hh hs hsplit h' hplace' htable
  rw [hchild] at hi
  have hreach := Rely.reach_below_root t env p.gpa _ .grow (t.enterWalk m) hl
  rw [Act.map_apply, hi] at hreach
  have hgap : (if p.maps then AtGap.grow else .stop) = .grow := by rw [hmap, if_pos rfl]
  rw [← hgap] at hreach
  obtain ⟨n, hn, es, hes, _⟩ := update_of_reach_drew hr hreach
  -- the walk ended in the table of the other, which is on the path
  have hpath : ⟨c, p.leafLevel order t.format.topLeafLevel⟩ ∈ t.path (i.giveBack q).memory p.gpa :=
    (h'.quiet_of_same hsame).path hacc.inRange hc
  have hhere : t.Here (fun _ _ => False) p.gpa own' (i.giveBack q) (p.leafLevel order t.format.topLeafLevel) c :=
    ⟨h'.own_of_mem_path hacc.inRange hc, .inl hpath⟩
  have hy : Yields env (fun _ _ => True) own' (t.Updated (fun own'' j => own'' = own' ∧
      t.tables j = t.tables (i.giveBack q) ∧ j.client = k.client) (fun _ _ => False) p order)
      (t.update p order env m) := by
    refine update_yields hr (fun _ _ => trivial) ?_
    rw [hreach]
    exact ⟨own', .refl own', ⟨rfl, rfl, hclient⟩, c, rfl, hhere⟩
  rw [hn] at hy
  obtain ⟨_, _, _, j, ⟨rfl, hj, hcj⟩, hcn, hlands⟩ := hy
  refine ⟨j, n, hn, hcn.trans hcj, hj ▸ hsame, hlands, ?_⟩
  have hfreed : .freed q ∈ (i.giveBack q).trace.toList := by
    show _ ∈ (i.trace.push (.freed q)).toList
    rw [Array.toList_push]
    exact List.mem_append_right _ List.mem_cons_self
  rw [hes]
  exact List.mem_append_left _ hfreed

/-! ## an operation in between -/

/-- whenever a page is asked for, `op` runs before `env` offers one -/
def during (t : Tree) (op : TreeOp) (env : Env σ) : Env σ where
  supply m := env.supply ((t.perform op).after env m)
  rank := env.rank
  patience := env.patience

theorem honest_during (hh : env.Honest) (op : TreeOp) : (t.during op env).Honest :=
  fun m q hq => hh ((t.perform op).after env m) q hq

theorem peers_during (hh : env.Honest) (hp : ∀ k, t.Peers k (env.supply k).1) (op : TreeOp)
    (m : Machine σ) : t.Peers m ((t.during op env).supply m).1 :=
  .trans (.op env op hh hp) (hp _)

/-- an update of `sampleBlock` begins in `m`, where nothing is mapped; `samplePage` is mapped meanwhile, in a
table `q` below the entry of the block, and then the page `lost` is offered -/
structure Overtaken (t : Tree) (m n : Machine σ) (q lost : PhysAddr) : Prop where
  reachable : t.Reachable (fun _ => False) m
  format : t.format = .stage2
  still : (t.state m).walkers = 0
  gap : m.memory.entry t.root (tableIndex ⟨0⟩ t.format.rootLevel) = 0
  mapped : t.update samplePage 0 (.offering (List.range' 2 3)) (t.enterWalk m) = .ok 0 n
  owns : ∃ own, t.Owns (fun _ => False) own (t.tables n)
  split : n.splitExecute = m.splitExecute
  below : ⟨q, 0⟩ ∈ t.path n.memory ⟨0⟩
  offered : (Env.offering (List.range' 2 3) : Env σ).supply n = (n, some lost)

theorem exists_overtaken (client : σ) :
    ∃ (t : Tree) (m n : Machine σ) (q lost : PhysAddr), t.Overtaken m n q lost ∧ m.client = client := by
  obtain ⟨t, m₀, hm₀, hf, hlive, hnew, h0⟩ := Reachable.exists_empty .stage2 client
  obtain ⟨m, hm⟩ : ∃ m : Machine σ, m = { m₀ with client } := ⟨_, rfl⟩
  have hreach : t.Reachable (fun _ => False) m := .elsewhere hm₀ (by rw [hm]; rfl)
  have henter : t.tables (t.enterWalk m) = t.tables m := (alike_enterWalk m).tables
  obtain ⟨own, ho⟩ := hreach.owns
  -- pages 2 and 3 become tables, and page 4 is left
  have hspare : (t.enterWalk m).Spare (List.range' 2 3) 3 := by
    refine .behind (fun i hi => (hlive i).mp ?_) 3
    rw [hm] at hi
    exact hi
  have hlevel := leafLevel_samplePage t.format
  have hneeds : t.format.rootLevel - samplePage.leafLevel 0 t.format.topLeafLevel + 1 = 3 := by
    rw [hlevel, hf]
    rfl
  have hlt : ∀ i ∈ List.range' 2 3, i < 2 ^ 36 := by decide
  obtain ⟨n, q, own', hn, hpath, ho', hsplit, hroom⟩ := update_leaves_spare (d := 1) hlt (henter ▸ ho)
    (refusal?_samplePage t.format) rfl (by rw [hneeds]; exact hspare)
  obtain ⟨lost, hlost⟩ := Option.ne_none_iff_exists'.mp (hroom 0 n Nat.zero_lt_one (.refl 0 n))
  rw [show samplePage.coveredOrder t.format 0 = 0 by rw [hf]; decide] at hn
  rw [hlevel] at hpath
  refine ⟨t, m, n, q, lost, ?_, by rw [hm]⟩
  exact {
    reachable := hreach
    format := hf
    still := by
      rw [hm]
      exact congrArg TreeState.walkers hnew
    gap := by
      rw [hm]
      exact h0 _ (tableIndex_lt _ _)
    mapped := hn
    owns := ⟨own', ho'⟩
    split := hsplit
    below := hpath
    offered := Prod.ext rfl hlost }

/-- the update goes on in the table above `q`, detaches `q` and gives `lost` back -/
theorem Overtaken.update {n : Machine σ} {lost : PhysAddr} (h : t.Overtaken m n q lost) (hh : env.Honest)
    (hs : env.supply (t.enterWalk m) = (k, some lost)) (hk : t.tables k = t.tables n) :
    ∃ n' c, t.update sampleBlock 9 env m = .ok 9 n' ∧ n'.client = k.client ∧
      .freed lost ∈ n'.trace.toList ∧ lost.frame ∉ n'.live ∧
      ⟨c, 1⟩ ∈ t.path n'.memory ⟨0⟩ ∧ ⟨q, 0⟩ ∈ (t.tables n').retired ∧
      (t.view n'.memory ⟨0⟩).map Prod.fst = some ⟨0x200000⟩ := by
  obtain ⟨own, ho⟩ := h.reachable.owns
  obtain ⟨own', ho'⟩ := h.owns
  have hr := refusal?_sampleBlock t.format
  have hacc := Format.accepts_of_refusal? hr
  have hlevel := leafLevel_sampleBlock t.format
  have hroot : t.format.rootLevel = 2 := by rw [h.format]; rfl
  have hcovered : sampleBlock.coveredOrder t.format 9 = 9 := by rw [h.format]; decide
  have hbelow : ⟨q, 0⟩ ∈ t.path k.memory ⟨0⟩ := by
    rw [show k.memory = n.memory from congrArg Tables.memory hk]
    exact h.below
  obtain ⟨above, habove⟩ := t.format.exists_mem_path_above hbelow (by omega)
  obtain ⟨j, n', hn', hclient, hsame, hlands, hfreed⟩ := update_raced ho hr rfl (by rw [hlevel, hroot]) h.gap hh hs
    ((congrArg Tables.split hk).trans h.split) (hk ▸ ho') (by rw [hlevel]; exact habove)
  have hquiet : t.Quiet _ own' own' (t.tables k) (t.tables j) := Owns.quiet_of_same (hk ▸ ho') hsame
  obtain ⟨c, hc⟩ := hlands.reaches hquiet.owns hacc rfl
  have hview := (hlands.view hquiet.owns hacc fun _ => False.elim).resolve_right (·.2)
  rw [hcovered] at hn' hview
  rw [hlevel] at hc
  refine ⟨n', c, hn', hclient, hfreed, ?_, hc, ?_, ?_⟩
  · intro hin
    obtain ⟨_, hfree⟩ := hh (t.enterWalk m) lost (by rw [hs])
    rw [hs] at hfree
    have hin' : (t.tables j).inUse lost.frame := hlands.inUse ▸ hin
    have hlive : k.isLive lost = true := (hsame.inUse _).mp hin'
    rw [hfree] at hlive
    cases hlive
  · exact hlands.detaches (hquiet.path hacc.inRange hbelow) hlevel
  · rw [hview, Mapping.effect]
    rfl

end Tree

end NestedPaging
