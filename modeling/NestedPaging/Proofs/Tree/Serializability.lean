import NestedPaging.Proofs.Tree.Races
import NestedPaging.Proofs.Tree.Schedules

/-!
# Interrupted operations are serializable

An operation among others, which run to their end whenever it asks for a page, leaves what some
order of them all would leave: the others one after the other, and between them the single updates
of the operation. While a walk of the operation is under way, `Tree.Since` says that the log so far
explains the view. If the table that the walk is in was detached meanwhile, the log has a place from
which on it makes no difference what was mapped below that table (`Tree.Excused`), and there the
update is put.
-/

namespace NestedPaging

variable {offer : Machine Schedule → Option PhysAddr}

namespace Tree
variable {t : Tree} {others : Nat → Prop} {own : Layout} {m n : Machine Schedule} {s : Bool}
  {log : List Done} {v : View} {all : List TreeOp} {a : GuestAddr} {l : Nat}

/-! ## what happens at a request for a page -/

theorem honest_interleaved (hh : (Env.alone offer).Honest) : (t.interleaved offer).Honest := by
  intro m q hq
  unfold interleaved at hq ⊢
  simp only at hq ⊢
  split at hq
  · exact hh m q hq
  · exact hh _ q hq

/-- each interference uses up a list of the schedule -/
theorem paced_interleaved (t : Tree) (offer : Machine Schedule → Option PhysAddr) :
    (t.interleaved offer).Paced := by
  intro m
  unfold interleaved
  simp only
  split
  · exact .inl rfl
  · rename_i ops rest hp
    right
    rw [hp]
    exact Nat.lt_succ_self rest.length

theorem ran_supply (hh : (Env.alone offer).Honest) (h : t.Owns others own (t.tables m)) :
    ∃ own' ops ds, t.Ran others own own' m ((t.interleaved offer).supply m).1 ops ds ∧
      ((t.interleaved offer).supply m).1.client.log = m.client.log ++ ds ∧
      ops ++ ((t.interleaved offer).supply m).1.client.pending.flatten
        = m.client.pending.flatten := by
  unfold interleaved
  simp only
  split
  · rename_i hp
    refine ⟨own, [], [], ⟨.refl own, h, rfl, rfl, .nil, fun _ hr => .inl hr⟩, ?_, ?_⟩
    · exact (List.append_nil _).symm
    · rfl
  · rename_i ops rest hp
    obtain ⟨own', hr⟩ := Calm.ranAll (m := m) hh (fun _ => rfl) ops h
    refine ⟨own', ops, _, ⟨hr.grows, hr.owns, hr.split, hr.ops, hr.explains, hr.path⟩, rfl, ?_⟩
    rw [hp, List.flatten_cons]

/-! ## during a walk -/

/-- since the log was `log` and the view `v`, others ran that explain the view now; `all` are the
operations of the whole schedule -/
structure Since (t : Tree) (others : Nat → Prop) (s : Bool) (all : List TreeOp) (log : List Done)
    (v : View) (own : Layout) (m : Machine Schedule) : Prop where
  owns : t.Owns others own (t.tables m)
  split : m.splitExecute = s
  todo : m.client.log.map Done.op ++ m.client.pending.flatten = all
  explains : ∃ ds, m.client.log = log ++ ds ∧
    Explains t.format s (ds.map .inl) v (t.view m.memory)

/-- from some place of the log on, it makes no difference what was mapped in the block of a table
at `l` that `a` goes through -/
def Excused (t : Tree) (s : Bool) (log : List Done) (v : View) (a : GuestAddr)
    (m : Machine Schedule) (l : Nat) : Prop :=
  ∃ ds₁ ds₂ v', m.client.log = log ++ (ds₁ ++ ds₂) ∧ Explains t.format s (ds₁.map .inl) v v' ∧
    Explains.Forgets t.format s (ds₂.map .inl) v' (t.view m.memory) a (l + 1)

theorem Excused.lower (h : t.Excused s log v a m (l + 1)) : t.Excused s log v a m l := by
  obtain ⟨ds₁, ds₂, v', hlog, he, hf⟩ := h
  exact ⟨ds₁, ds₂, v', hlog, he, hf.lower⟩

theorem Since.supply (hh : (Env.alone offer).Honest) (ha : t.format.inRange a = true)
    (h : t.Since others s all log v own m) : ∃ own', own'.Extends own ∧
      t.Since others s all log v own' ((t.interleaved offer).supply m).1 ∧
      ((t.interleaved offer).supply m).1.splitExecute = m.splitExecute ∧
      (∀ l, t.Excused s log v a m l → t.Excused s log v a ((t.interleaved offer).supply m).1 l) ∧
      ∀ r ∈ t.path m.memory a, r ∈ t.path ((t.interleaved offer).supply m).1.memory a ∨
        t.Excused s log v a ((t.interleaved offer).supply m).1 r.level := by
  obtain ⟨own', ops, ds, hr, hlog, htodo⟩ := ran_supply hh h.owns
  generalize ((t.interleaved offer).supply m).1 = n at hr hlog htodo ⊢
  obtain ⟨ds₀, hlog₀, hex₀⟩ := h.explains
  have hex := hr.explains
  rw [h.split] at hex
  refine ⟨own', hr.grows, ⟨hr.owns, hr.split.trans h.split, ?_, ds₀ ++ ds, ?_, ?_⟩, hr.split, ?_, ?_⟩
  · rw [hlog, List.map_append, hr.ops, List.append_assoc, htodo]
    exact h.todo
  · rw [hlog, hlog₀, List.append_assoc]
  · rw [List.map_append]
    exact hex₀.append hex
  · intro l h'
    obtain ⟨ds₁, ds₂, v', hlog', he, hf⟩ := h'
    refine ⟨ds₁, ds₂ ++ ds, v', ?_, he, ?_⟩
    · rw [hlog, hlog', List.append_assoc, List.append_assoc]
    · rw [List.map_append]
      exact hf.append hex
  · intro r hra
    rcases hr.path ha hra with hr' | ⟨ds₁, ds₂, v', rfl, he, hf⟩
    · exact .inl hr'
    · rw [h.split] at he hf
      refine .inr ⟨ds₀ ++ ds₁, ds₂, v', ?_, ?_, hf⟩
      · rw [hlog, hlog₀, List.append_assoc, List.append_assoc]
      · rw [List.map_append]
        exact hex₀.append he

theorem Since.rely (hh : (Env.alone offer).Honest) (ha : t.format.inRange a = true) :
    t.Rely others (t.interleaved offer) a (t.Since others s all log v) (t.Excused s log v a) where
  honest := honest_interleaved hh
  owns h := h.owns
  quiet {own own' m n} h hc hq _ := by
    have hv : t.view n.memory = t.view m.memory := hq.view
    refine ⟨⟨hq.owns, hq.split.trans h.split, by rw [hc]; exact h.todo, ?_⟩, ?_⟩
    · rw [hc, hv]
      exact h.explains
    · intro l he
      unfold Excused
      rw [hc, hv]
      exact he
  supply h := h.supply hh ha
  lower h' := h'.lower

/-! ## between single updates -/

/-- the log and the single updates `done`, in some order, explain the view -/
structure Ordered (t : Tree) (others : Nat → Prop) (s : Bool) (all : List TreeOp) (v : View)
    (done : List (Mapping × Nat)) (own : Layout) (m : Machine Schedule) : Prop where
  owns : t.Owns others own (t.tables m)
  split : m.splitExecute = s
  todo : m.client.log.map Done.op ++ m.client.pending.flatten = all
  order : ∃ order : Order, order.filterMap Sum.getLeft? = m.client.log ∧
    order.filterMap Sum.getRight? = done ∧ Explains t.format s order v (t.view m.memory)

theorem left_inl (ds : List Done) :
    (ds.map Sum.inl : Order).filterMap Sum.getLeft? = ds := by
  rw [List.filterMap_map]
  exact List.filterMap_some

theorem right_inl (ds : List Done) :
    (ds.map Sum.inl : Order).filterMap Sum.getRight? = [] := by
  rw [List.filterMap_map]
  exact List.filterMap_none ..

variable {done : List (Mapping × Nat)} {v₀ : View}

theorem Ordered.since (h : t.Ordered others s all v₀ done own m) :
    t.Since others s all m.client.log (t.view m.memory) own m where
  owns := h.owns
  split := h.split
  todo := h.todo
  explains := ⟨[], (List.append_nil _).symm, .nil⟩

theorem Ordered.others_ran (h : t.Ordered others s all v₀ done own m) {own' : Layout}
    (hs : t.Since others s all m.client.log (t.view m.memory) own' n) :
    t.Ordered others s all v₀ done own' n where
  owns := hs.owns
  split := hs.split
  todo := hs.todo
  order := by
    obtain ⟨order, hl, hr, he⟩ := h.order
    obtain ⟨ds, hlog, hex⟩ := hs.explains
    refine ⟨order ++ ds.map .inl, ?_, ?_, he.append hex⟩
    · rw [List.filterMap_append, hl, left_inl, hlog]
    · rw [List.filterMap_append, hr, right_inl, List.append_nil]

theorem agreeOff_effect {f : Format} {p : Mapping} {order : Nat} (hacc : f.Accepts p order)
    (v : View) : AgreeOff p.gpa (p.leafLevel order f.topLeafLevel + 1)
      (p.effect f s (p.coveredOrder f order) v) v := by
  intro b hb
  unfold Mapping.effect
  rw [if_neg]
  intro hc
  have hl4 := Nat.le_trans (p.leafLevel_le order f.topLeafLevel) f.topLeafLevel_le
  exact hb ((Mapping.covers_iff hl4 (p.fits_leafLevel hacc f.topLeafLevel_le) b).mp hc).1

/-- one more single update is done: at the end, or where its table was still in the tree -/
theorem Ordered.updated (h : t.Ordered others s all v₀ done own m) {p : Mapping} {order covered : Nat}
    {own' : Layout} (hacc : t.format.Accepts p order)
    (hu : t.Updated (t.Since others s all m.client.log (t.view m.memory))
      (t.Excused s m.client.log (t.view m.memory) p.gpa) p order covered own' n) :
    t.Ordered others s all v₀ (done ++ [(p, covered)]) own' n := by
  obtain ⟨rfl, k, hk, hc, hl⟩ := hu
  obtain ⟨es, hleft, hright, he⟩ := h.order
  have hstep : ∀ w, Explains t.format s [.inr (p, p.coveredOrder t.format order)] w
      (p.effect t.format s (p.coveredOrder t.format order) w) := fun w => .single rfl
  constructor
  · exact hl.owns hk.owns hacc
  · exact hl.split.trans hk.split
  · rw [hc]
    exact hk.todo
  · rw [hc]
    rcases hl.view hk.owns hacc fun _ h' => Excused.lower h' with hv | ⟨hv, ds₁, ds₂, v', hlog, he', hf⟩
    · obtain ⟨ds, hlog, hex⟩ := hk.explains
      rw [hk.split] at hv
      refine ⟨es ++ (ds.map .inl ++ [.inr (p, p.coveredOrder t.format order)]), ?_, ?_, ?_⟩
      · simp only [List.filterMap_append, hleft, left_inl, hlog]
        exact congrArg _ (List.append_nil ds)
      · simp only [List.filterMap_append, hright, right_inl]
        rfl
      · rw [hv]
        exact he.append (hex.append (hstep _))
    · -- the table was detached: the update goes before what detached it
      refine ⟨es ++ (ds₁.map .inl ++
        ([.inr (p, p.coveredOrder t.format order)] ++ ds₂.map .inl)), ?_, ?_, ?_⟩
      · simp only [List.filterMap_append, hleft, left_inl, hlog]
        rfl
      · simp only [List.filterMap_append, hright, right_inl, List.append_nil]
        rfl
      · rw [hv]
        exact he.append (he'.append ((hstep v').append (hf _ (agreeOff_effect hacc v'))))

theorem Ordered.steps (hh : (Env.alone offer).Honest) :
    t.Steps (t.interleaved offer) (t.Ordered others s all v₀) := by
  intro done p order own m hr hJ
  have hacc := Format.accepts_of_refusal? hr
  refine (Ends.of_yields ((Since.rely hh hacc.inRange).update_yields hr hJ.since)).mono ?_ ?_
  · exact fun own' n hn => hJ.others_ran hn
  · exact fun covered own' n hu => ⟨hu.1, hJ.updated hacc hu⟩

theorem Ordered.perform (hh : (Env.alone offer).Honest) (h : t.Ordered others s all v₀ [] own m)
    (op : TreeOp) : t.Performed (t.interleaved offer) (t.Ordered others s all v₀) own op
      (t.perform op (t.interleaved offer) m) := by
  refine (Ordered.steps hh).perform ?_ ?_ h op
  · intro own m n hJ hal
    have hv : t.view n.memory = t.view m.memory := congrArg (fun T => t.view T.memory) hal.tables
    refine ⟨?_, (congrArg Tables.split hal.tables).trans hJ.split, ?_, ?_⟩
    · rw [hal.tables]
      exact hJ.owns
    · rw [hal.client]
      exact hJ.todo
    · rw [hal.client, hv]
      exact hJ.order
  · intro a level own m hl ha hJ
    exact (Ends.of_yields ((Since.rely hh ha).walk_yields hl ha hJ.since)).mono
      (fun _ _ hn => hJ.others_ran hn) fun _ _ _ hn => hJ.others_ran hn.1

/-- `op`, run from `m` to `n` among others, is one of a sequence with them -/
structure Serialized (t : Tree) (op : TreeOp) (outcome : Except (Stop TableError) TreeReply)
    (m n : Machine Schedule) : Prop where
  ends : outcome ≠ .error .stuck
  /-- what was scheduled ran, in its order, apart from what is still pending -/
  todo : n.client.log.map Done.op ++ n.client.pending.flatten = m.client.pending.flatten
  order : ∃ (order : Order) (k : Nat), order.filterMap Sum.getLeft? = n.client.log ∧
    order.filterMap Sum.getRight? = (op.pieces t.format).take k ∧
    Completed (op.pieces t.format) outcome k ∧
    Explains t.format m.splitExecute order (t.view m.memory) (t.view n.memory)
  kept : ∀ i, i ∈ m.live → i ∈ n.live
  /-- the page of a lost race went back -/
  taken : ∀ i, i ∈ n.live → i ∈ m.live ∨ ∃ q ∈ t.pages (t.tables n), q.frame = i

/-- an operation among others is serializable: some order of those that ran, each as a whole and in
their order, and of its own single updates explains what is mapped in the end and what every lookup
reported -/
theorem interleaved_serializable (hm : t.Reachable others m) (hh : (Env.alone offer).Honest)
    (hlog : m.client.log = []) (op : TreeOp) :
    t.Serialized op ((t.perform op).outcome (t.interleaved offer) m) m
      ((t.perform op).after (t.interleaved offer) m) := by
  obtain ⟨own, ho⟩ := hm.owns
  have hstart : t.Ordered others m.splitExecute m.client.pending.flatten (t.view m.memory) [] own m :=
    ⟨ho, rfl, by rw [hlog]; rfl, [], hlog.symm, rfl, .nil⟩
  obtain ⟨hstuck, own', k, hx, hk, hJ⟩ := (hstart.perform hh op).completed
  obtain ⟨order, hl, hr, he⟩ := hJ.order
  constructor
  · exact fun e => hstuck e (paced_interleaved t offer)
  · exact hJ.todo
  · exact ⟨order, k, hl, hr, hk, he⟩
  · exact fun i hi => ho.inUse_of_extends hJ.owns hx hi
  · exact fun i hi => ho.inUse_or_page hJ.owns hi

/-- an update of a block asks for a page, a page is mapped below the block meanwhile, and the update gives its page
back: the two in their order -/
theorem interleaved_serializable_raced : ∃ (t : Tree) (offer : Machine Schedule → Option PhysAddr)
    (m k n : Machine Schedule) (lost : PhysAddr) (d : Done),
    m.client.pending = [[.update samplePage 0]] ∧
      (t.interleaved offer).supply (t.enterWalk m) = (k, some lost) ∧
      t.update sampleBlock 9 (t.interleaved offer) m = .ok 9 n ∧
      n.client.log = [d] ∧ d.op = .update samplePage 0 ∧ d.outcome = .ok (.covered 0) ∧
      .freed lost ∈ n.trace.toList ∧ lost.frame ∉ n.live ∧
      (t.view n.memory ⟨0⟩).map Prod.fst = some ⟨0x200000⟩ ∧
      t.Serialized (.update sampleBlock 9) (.ok (.covered 9)) m n := by
  let other : TreeOp := .update samplePage 0
  let offer : Machine Schedule → Option PhysAddr := fun j => ((Env.offering (List.range' 2 3)).supply j).2
  have hh : (Env.alone offer).Honest := Env.honest_behind (by decide)
  obtain ⟨t, m, j, q, lost, h, hclient⟩ := exists_overtaken (⟨[[other]], []⟩ : Schedule)
  -- the page is mapped when the update asks
  have hother : t.perform other (.alone offer) (t.enterWalk m) = .ok (.covered 0) j := by
    show (TreeReply.covered <$> t.update samplePage 0) _ _ = _
    rw [Act.map_apply, show t.update samplePage 0 (.alone offer) (t.enterWalk m) = .ok 0 j from h.mapped]
  have hs : (t.interleaved offer).supply (t.enterWalk m)
      = ({ j with client := ⟨[], [⟨other, .ok (.covered 0)⟩]⟩ }, some lost) := by
    have hpending : (t.enterWalk m).client = ⟨[[other]], []⟩ := hclient
    have hpage : offer { j with client := ⟨[], [⟨other, .ok (.covered 0)⟩]⟩ } = some lost :=
      congrArg Prod.snd h.offered
    unfold interleaved
    simp only [hpending, runAll, Act.after, Act.outcome, hother, List.nil_append, hpage]
  obtain ⟨n, c, hn, hlog, hfreed, hgone, _, _, hview⟩ := h.update (honest_interleaved hh) hs rfl
  have hdone : t.perform (.update sampleBlock 9) (t.interleaved offer) m = .ok (.covered 9) n := by
    show (TreeReply.covered <$> t.update sampleBlock 9) _ _ = _
    rw [Act.map_apply, hn]
  have hser := interleaved_serializable h.reachable hh (by rw [hclient]) (.update sampleBlock 9)
  rw [Act.after_of_ok hdone] at hser
  unfold Act.outcome at hser
  rw [hdone] at hser
  exact ⟨t, offer, m, _, n, lost, ⟨other, .ok (.covered 0)⟩, by rw [hclient], hs, hn, by rw [hlog], rfl, rfl, hfreed,
    hgone, hview, hser⟩

end Tree

end NestedPaging
