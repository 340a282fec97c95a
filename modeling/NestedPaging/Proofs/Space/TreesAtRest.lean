import NestedPaging.Proofs.Space.Runs
import NestedPaging.Proofs.Tree.TakenTables

/-!
# Trees at rest

Between the steps of a run on one space nobody walks, and the tree owns its pages. A sync takes the
detached tables off their list before the flushes. Whatever else is done to the space meanwhile
treats their pages as pages of others, so they are the same when the sync frees them.

* `Tree.Rests`       a tree that owns its pages, with no walk under way;
* `Space.Carried`    what any run does to such a tree: pages of others stay as they are and are not
                     detached, and each detached table is listed until a later sync frees it;
* `carried_sync`     a sync, whatever carries the tree along during its flushes;
* `carried_run`      by induction on the run, for every choice of the pages of others at once.
-/

namespace NestedPaging

variable {σ ε α : Type}

/-- nothing happens to trees and pages -/
structure Machine.Aside (m n : Machine σ) : Prop where
  memory : n.memory = m.memory
  trees : n.trees = m.trees
  live : n.live = m.live
  split : n.splitExecute = m.splitExecute
  logs : ∃ es, m.Logs es n ∧ ∀ cell q, .detached cell q ∉ es

namespace Machine.Aside
variable {m n : Machine σ} {t : Tree}

theorem of_same (hm : n.memory = m.memory) (ht : n.trees = m.trees) (hl : n.live = m.live)
    (hs : n.splitExecute = m.splitExecute) (he : n.trace = m.trace) : m.Aside n :=
  ⟨hm, ht, hl, hs, [], .refl he, fun _ _ => List.not_mem_nil⟩

theorem refl (m : Machine σ) : m.Aside m := of_same rfl rfl rfl rfl rfl

theorem tables (h : m.Aside n) (t : Tree) : t.tables n = t.tables m := by
  unfold Tree.tables Tree.state
  rw [h.memory, h.trees, h.live, h.split]

theorem state (h : m.Aside n) (t : Tree) : t.state n = t.state m := by
  unfold Tree.state
  rw [h.trees]

end Machine.Aside

/-- a tree between operations: it owns its pages, and nobody walks -/
structure Tree.Rests (t : Tree) (others : Nat → Prop) (own : Layout) (m : Machine σ) : Prop where
  owns : t.Owns others own (t.tables m)
  still : (t.state m).walkers = 0

namespace Space
variable {s : Space} {others : Nat → Prop} {own own' : Layout} {m k n : Machine σ} {d : Shootdown σ}
  {env : Env σ} {c : CpuId} {base i : Nat} {q : PhysAddr} {es : List Event}

theorem aside_changeState (s : Space) (f : SpaceState → SpaceState) (m : Machine σ) :
    m.Aside (s.changeState f m) := .of_same rfl rfl rfl rfl rfl

theorem tables_enter (t : Tree) (m : Machine σ) : t.tables (s.enter m) = t.tables m :=
  (s.aside_changeState _ m).tables t

theorem tables_leave (t : Tree) (m : Machine σ) : t.tables (s.leave m) = t.tables m :=
  (s.aside_changeState _ m).tables t

theorem aside_flush (s : Space) (c : CpuId) (m : Machine σ) : m.Aside (s.flush c m) := by
  refine ⟨rfl, rfl, rfl, rfl, _, s.logs_flush c m, fun cell q hq => ?_⟩
  rcases List.mem_append.mp hq with hq | hq
  · cases Machine.eq_of_mem_loadOf hq
  · cases List.mem_singleton.mp hq

theorem aside_turn (s : Space) (c : CpuId) (m : Machine σ) : m.Aside (s.turn c m) := by
  unfold turn
  split
  · exact s.aside_flush c m
  · refine ⟨rfl, rfl, rfl, rfl, _, (s.unmark c m).logs_switch s.root.kind c s.value, ?_⟩
    intro cell q hq
    cases Machine.eq_of_mem_loadOf hq

theorem aside_flushAll (s : Space) (cs : List CpuId) (m : Machine σ) :
    m.Aside (s.flushAll cs m) := by
  obtain ⟨hm, ht, hl, hs⟩ := s.flushAll_same cs m
  obtain ⟨es, he, hes, _⟩ := s.logs_flushAll cs m
  refine ⟨hm, ht, hl, hs, es, he, fun cell q hq => ?_⟩
  obtain ⟨c, hc | hc⟩ := hes _ hq
  · cases hc
  · cases hc

/-! ## detached tables and the list of them -/

/-- a sync that began after event number `i` freed `q` -/
def FreedSince (s : Space) (m : Machine σ) (i : Nat) (q : PhysAddr) : Prop :=
  ∃ j l, i < j ∧ j < l ∧ m.trace[j]? = some (.allDirty s.cell) ∧ m.trace[l]? = some (.freed q)

/-- each table that was detached from event number `base` on is listed until a later sync frees it -/
def Listed (s : Space) (base : Nat) (m : Machine σ) : Prop :=
  ∀ i q, base ≤ i → m.trace[i]? = some (.detached s.tree.cell q) →
    (∃ level, ⟨q, level⟩ ∈ (s.tree.tables m).retired) ∨ s.FreedSince m i q

/-- each listed table was detached -/
def Recorded (s : Space) (m : Machine σ) : Prop :=
  ∀ r ∈ (s.tree.tables m).retired, ∃ i : Nat, m.trace[i]? = some (.detached s.tree.cell r.table)

theorem FreedSince.logs (h : s.FreedSince m i q) (hl : m.Logs es n) : s.FreedSince n i q := by
  obtain ⟨j, l, hj, hjl, hmark, hfree⟩ := h
  exact ⟨j, l, hj, hjl, hl.getElem?_some hmark, hl.getElem?_some hfree⟩

theorem Listed.of_size_le (h : m.trace.size ≤ base) : s.Listed base m := by
  intro i q hi he
  have hlt := Machine.lt_size_of_getElem? he
  omega

theorem Listed.step (h : s.Listed base m) (hl : m.Logs es n)
    (hr : ∀ r ∈ (s.tree.tables m).retired, r ∈ (s.tree.tables n).retired)
    (hd : ∀ q, .detached s.tree.cell q ∈ es → ∃ level, ⟨q, level⟩ ∈ (s.tree.tables n).retired) :
    s.Listed base n := by
  intro i q hi he
  by_cases hlt : i < m.trace.size
  · rw [hl.getElem?_old hlt] at he
    rcases h i q hi he with ⟨level, hm⟩ | hf
    · exact .inl ⟨level, hr _ hm⟩
    · exact .inr (hf.logs hl)
  · exact .inl (hd q (hl.mem_new (Nat.le_of_not_lt hlt) he))

theorem Recorded.step (h : s.Recorded m) (hl : m.Logs es n)
    (hr : ∀ r ∈ (s.tree.tables n).retired,
      r ∈ (s.tree.tables m).retired ∨ .detached s.tree.cell r.table ∈ es) : s.Recorded n := by
  intro r hn
  rcases hr r hn with hm | hd
  · obtain ⟨i, hi⟩ := h r hm
    exact ⟨i, hl.getElem?_some hi⟩
  · obtain ⟨j, hj⟩ := List.mem_iff_getElem?.mp hd
    exact ⟨m.trace.size + j, by rw [hl.getElem?_new, hj]⟩

/-! ## what a run does to a tree at rest -/

/-- from `m` to `n` the tree comes to rest again, and others keep their pages -/
structure Carried (s : Space) (others : Nat → Prop) (own' : Layout) (m n : Machine σ) : Prop where
  rests : s.tree.Rests others own' n
  spares : (s.tree.tables m).Spares others (s.tree.tables n)
  logs : ∃ es, m.Logs es n ∧ ∀ q, .detached s.tree.cell q ∈ es → ¬ others q.frame
  listed : ∀ base, s.Listed base m → s.Listed base n
  recorded : s.Recorded m → s.Recorded n

theorem Carried.trans {own'' : Layout} (h : s.Carried others own' m k)
    (h' : s.Carried others own'' k n) : s.Carried others own'' m n := by
  refine ⟨h'.rests, h.spares.trans h'.spares, ?_, fun base hb => h'.listed base (h.listed base hb),
    h'.recorded ∘ h.recorded⟩
  obtain ⟨es, hl, hd⟩ := h.logs
  obtain ⟨fs, hl', hd'⟩ := h'.logs
  refine ⟨es ++ fs, hl.trans hl', fun q hq => ?_⟩
  rcases List.mem_append.mp hq with hq | hq
  · exact hd q hq
  · exact hd' q hq

theorem Carried.aside (h : s.tree.Rests others own m) (ha : m.Aside n) :
    s.Carried others own m n := by
  obtain ⟨es, hl, hd⟩ := ha.logs
  have ht := ha.tables s.tree
  refine ⟨⟨?_, ?_⟩, ?_, ⟨es, hl, fun q hq => absurd hq (hd _ q)⟩, fun base hb => ?_, fun hr => ?_⟩
  · rw [ht]
    exact h.owns
  · rw [ha.state]
    exact h.still
  · rw [ht]
    exact .refl ..
  · refine hb.step hl (fun r hr => ?_) fun q hq => absurd hq (hd _ q)
    rw [ht]
    exact hr
  · refine hr.step hl fun r hr' => .inl ?_
    rw [ht] at hr'
    exact hr'

theorem rests_enter (h : s.tree.Rests others own m) : s.tree.Rests others own (s.enter m) :=
  (Carried.aside h (s.aside_changeState _ m)).rests

/-- an operation on the tables with nobody else at work -/
theorem Carried.of_kept (h : s.tree.Rests others own m) (hk : s.tree.Kept others m n)
    (hw : s.tree.Works m n) : ∃ own', s.Carried others own' m n := by
  obtain ⟨own', _, ho, _, hspares⟩ := hk own h.owns
  obtain ⟨es, rs, hl, _, hr, hd⟩ := hw.logs
  have hnew : ∀ q, .detached s.tree.cell q ∈ es →
      ∃ r ∈ (s.tree.tables n).retired, r.table = q := by
    intro q hq
    obtain ⟨r, hrs, hrq⟩ := (hd q).mp hq
    exact ⟨r, hr ▸ List.mem_append_right _ hrs, hrq⟩
  refine ⟨own', ⟨ho, hw.walkers.trans h.still⟩, hspares, ⟨es, hl, fun q hq => ?_⟩,
    fun base hb => hb.step hl (fun r hm => ?_) fun q hq => ?_, fun hrec => hrec.step hl fun r hn => ?_⟩
  · -- what is detached was a table of the tree
    obtain ⟨r, hn, rfl⟩ := hnew q hq
    obtain ⟨block, hb⟩ := ho.record hn
    exact ho.apart hb
  · rw [hr]
    exact List.mem_append_left _ hm
  · obtain ⟨r, hn, rfl⟩ := hnew q hq
    exact ⟨r.level, hn⟩
  · rw [hr] at hn
    rcases List.mem_append.mp hn with hn | hn
    · exact .inl hn
    · exact .inr ((hd _).mpr ⟨r, hn, rfl⟩)

/-! ## a sync -/

theorem tables_opened (m : Machine σ) :
    s.tree.tables (s.opened m) = { s.tree.tables m with retired := [] } :=
  s.tree.tables_forgetRetired m

theorem rests_opened (h : s.tree.Rests others own m) :
    s.tree.Rests (s.tree.entrusted others (s.tree.tables m))
      (own.without (s.tree.retiredPages (s.tree.tables m))) (s.opened m) where
  owns := by
    rw [tables_opened]
    exact h.owns.take rfl rfl rfl rfl fun _ => Iff.rfl
  still := (s.tree.walkers_forgetRetired m).trans h.still

theorem state_settled (d : Shootdown σ) (m : Machine σ) :
    s.tree.state (s.settled d m) = s.tree.state (s.shot d (s.opened m)) :=
  congrArg (·.get s.tree.cell) (Machine.giveBackAll_same _ _).2.1

theorem retired_settled (d : Shootdown σ) (m : Machine σ) :
    (s.tree.tables (s.settled d m)).retired = (s.tree.tables (s.shot d (s.opened m))).retired := by
  unfold Tree.tables
  rw [state_settled]

theorem memory_settled (d : Shootdown σ) (m : Machine σ) :
    (s.settled d m).memory = (s.shot d (s.opened m)).memory := (Machine.giveBackAll_same _ _).1

section
variable (h : s.tree.Rests others own m)
include h

theorem carried_shot (hb : ∀ j others own, s.tree.Rests others own j →
      ∃ own', s.Carried others own' j (d.before j)) :
    ∃ own', s.Carried (s.tree.entrusted others (s.tree.tables m)) own' (s.opened m)
      (s.shot d (s.opened m)) := by
  obtain ⟨own', hc⟩ := hb _ _ _ (rests_opened h)
  exact ⟨own', hc.trans (.aside hc.rests (s.aside_flushAll _ _))⟩

variable (hc : s.Carried (s.tree.entrusted others (s.tree.tables m)) own' (s.opened m)
  (s.shot d (s.opened m)))
include hc

/-- what was taken is as it was -/
theorem takenPages_eq :
    s.takenPages m (s.shot d (s.opened m)) = s.tree.retiredPages (s.tree.tables m) :=
  List.flatMap_congr fun _ hr => h.owns.subtree_spared hc.spares hr

theorem owns_settled : s.tree.Owns others own' (s.tree.tables (s.settled d m)) := by
  have hst := s.state_settled d m
  refine h.owns.givenBack hc.rests.owns (s.memory_settled d m) ?_ (s.retired_settled d m) ?_
    fun i => ?_
  · exact (Machine.giveBackAll_same _ _).2.2.1
  · unfold Tree.tables
    rw [hst]
  · rw [← takenPages_eq h hc]
    exact Machine.mem_live_giveBackAll

omit h in
theorem listed_settled (hl : s.Listed base m) : s.Listed base (s.settled d m) := by
  have hopen := s.logs_opened m
  obtain ⟨es, hes, _⟩ := hc.logs
  have hfree : (s.shot d (s.opened m)).Logs _ (s.settled d m) := Machine.trace_giveBackAll _ _
  have hmark : (s.opened m).trace[m.trace.size]? = some (.allDirty s.cell) :=
    hopen.getElem?_new 0
  have hmark' := hfree.getElem?_some (hes.getElem?_some hmark)
  -- what others detached meanwhile is still listed
  have hnew : s.Listed (s.opened m).trace.size (s.settled d m) := by
    refine (hc.listed _ (.of_size_le (Nat.le_refl _))).step hfree (fun r hr => ?_) fun q hq => ?_
    · rw [retired_settled]
      exact hr
    · obtain ⟨p, _, he⟩ := List.mem_map.mp hq
      cases he
  intro i q hi he
  by_cases hold : i < m.trace.size
  · have he' : m.trace[i]? = some (.detached s.tree.cell q) := by
      rw [← hopen.getElem?_old hold, ← hes.getElem?_old (by rw [hopen.size]; omega), ← he]
      exact (hfree.getElem?_old (by rw [hes.size, hopen.size]; omega)).symm
    right
    rcases hl i q hi he' with ⟨level, hm⟩ | hf
    · have hq : Event.freed q ∈ (s.takenPages m (s.shot d (s.opened m))).map .freed :=
        List.mem_map_of_mem (List.mem_flatMap.mpr ⟨_, hm, s.tree.format.self_mem_subtree ..⟩)
      obtain ⟨x, hx⟩ := List.mem_iff_getElem?.mp hq
      refine ⟨m.trace.size, _, hold, ?_, hmark', (hfree.getElem?_new x).trans hx⟩
      rw [hes.size, hopen.size, List.length_singleton]
      omega
    · exact ((hf.logs hopen).logs hes).logs hfree
  · by_cases hat : i < (s.opened m).trace.size
    · obtain rfl : i = m.trace.size := by
        rw [hopen.size, List.length_singleton] at hat
        omega
      rw [hmark'] at he
      cases he
    · exact hnew i q (Nat.le_of_not_lt hat) he

theorem carried_settled : s.Carried others own' m (s.settled d m) := by
  have hfree : (s.shot d (s.opened m)).Logs _ (s.settled d m) := Machine.trace_giveBackAll _ _
  refine ⟨⟨owns_settled h hc, ?_⟩, fun q i hq hi ho => ?_, ?_, fun base => listed_settled hc,
    fun _ => ?_⟩
  · rw [state_settled]
    exact hc.rests.still
  · show (s.settled d m).memory.entry q i = _
    rw [memory_settled]
    exact hc.spares hq hi (.inl ho)
  · obtain ⟨es, hes, hd⟩ := hc.logs
    refine ⟨_, ((s.logs_opened m).trans hes).trans hfree, fun q hq ho => ?_⟩
    rcases List.mem_append.mp hq with hq | hq
    · rcases List.mem_append.mp hq with hq | hq
      · cases List.mem_singleton.mp hq
      · exact hd q hq (.inl ho)
    · obtain ⟨p, _, he⟩ := List.mem_map.mp hq
      cases he
  · have hnone : s.Recorded (s.opened m) := by
      intro r hr
      rw [tables_opened] at hr
      cases hr
    refine (hc.recorded hnone).step hfree fun r hr => .inl ?_
    rw [retired_settled] at hr
    exact hr

end

/-! ## runs -/

theorem carried_whileActive {body : Act σ TableError α} (h : s.tree.Rests others own m)
    (hb : ∀ m, s.tree.Rests others own m → ∃ own', s.Carried others own' m (body.after env m)) :
    ∃ own', s.Carried others own' m ((s.whileActive body).after env m) := by
  have he : s.Carried others own m (s.enter m) := .aside h (s.aside_changeState _ m)
  rw [s.whileActive_after]
  split
  · obtain ⟨own', hc⟩ := hb _ he.rests
    exact ⟨own', (he.trans hc).trans (.aside hc.rests (s.aside_changeState _ _))⟩
  · exact ⟨own, he.trans (.aside he.rests (s.aside_changeState _ _))⟩

theorem carried_treeOp (h : s.tree.Rests others own m) (hh : env.Honest) (ha : env.Alone)
    (op : TreeOp) (hw : ((s.tree.perform op).Keeps s.tree.Works env)) :
    ∃ own', s.Carried others own' m ((s.tree.perform op).after env m) := by
  refine Carried.of_kept h (Tree.Kept.perform hh (fun k => ?_) op m) (hw m)
  obtain ⟨client, hk⟩ := ha k
  exact Tree.Peers.kept (.elsewhere (by rw [hk]; rfl))

theorem allows_works (t : Tree) (ha : env.Alone) : t.Allows env t.Works where
  trans := .trans
  works := id
  walk {m n} hw := by
    have hr : (t.tables (t.enterWalk m)).retired = (t.tables m).retired :=
      congrArg Tables.retired (Tree.alike_enterWalk m).tables
    have hr' : (t.tables (t.leaveWalk n)).retired = (t.tables n).retired :=
      congrArg Tables.retired (Tree.alike_leaveWalk n).tables
    obtain ⟨es, rs, hl, hp, hre, hd⟩ := hw.logs
    exact ⟨hw.loaded, hw.spaces, Tree.walkers_leaveWalk hw.walkers,
      ⟨es, rs, hl, hp, by rw [hr', hre, hr], hd⟩,
      (t.idle_enterWalk m).aloof.trans (hw.aloof.trans (t.idle_leaveWalk n).aloof)⟩
  supply m := by
    obtain ⟨client, hm⟩ := ha m
    rw [hm]
    exact .of_same rfl rfl rfl (.of_eq rfl rfl rfl) rfl

theorem carried_perform (h : s.tree.Rests others own m) (hh : env.Honest) (ha : env.Alone)
    (op : SpaceOp) : ∃ own', s.Carried others own' m ((s.perform op).after env m) := by
  have hal := allows_works s.tree ha
  cases op with
  | update p order =>
    show ∃ own', s.Carried others own' m (Act.after ((fun _ => ()) <$> s.update p order) env m)
    rw [Act.after_map]
    refine carried_whileActive h fun m hm => ?_
    have hc := carried_treeOp hm hh ha (.update p order) (.map _ (hal.update p order))
    rwa [show (s.tree.perform (.update p order) : Act σ TableError TreeReply).after env m
      = (s.tree.update p order).after env m from Act.after_map ..] at hc
  | install p pages =>
    refine carried_whileActive h fun m hm => ?_
    have hc := carried_treeOp hm hh ha (.install p pages) (.map _ (hal.install p pages))
    rwa [show (s.tree.perform (.install p pages) : Act σ TableError TreeReply).after env m
      = (s.tree.install p pages).after env m from Act.after_map ..] at hc
  | lookup a => exact ⟨own, .aside h (.refl m)⟩
  | invalidate c =>
    refine carried_whileActive h fun m hm => ?_
    rw [Act.after_of_ok (s.flushLocal_apply c env m)]
    exact ⟨own, .aside hm (s.aside_flush c m)⟩
  | activate c =>
    refine carried_whileActive h fun m hm => ?_
    rw [Act.after_of_ok (s.activate_body c env m)]
    exact ⟨own, .aside hm (s.aside_turn c m)⟩
  | flushLocal c =>
    show ∃ own', s.Carried others own' m ((s.flushLocal c : Act σ TableError Unit).after env m)
    rw [Act.after_of_ok (s.flushLocal_apply c env m)]
    exact ⟨own, .aside h (s.aside_flush c m)⟩
  | markDirty c => exact ⟨own, .aside h (s.aside_changeState _ m)⟩

theorem carried_sync (h : s.tree.Rests others own m) (env : Env σ)
    (hb : ∀ j others own, s.tree.Rests others own j → ∃ own', s.Carried others own' j (d.before j)) :
    ∃ own', s.Carried others own' m ((s.sync d).after env m) := by
  refine carried_whileActive h fun m hm => ?_
  obtain ⟨own', hc⟩ := carried_shot hm hb
  rcases s.settle_after (ε := TableError) d env m with e | ⟨_, hstuck⟩
  · rw [e]
    exact ⟨own', carried_settled hm hc⟩
  · exact absurd (.inl hc.rests.still) hstuck

/-- runs on the space `s` with nobody else at work, and a sound allocator -/
abbrev solo (s : Space) : Repertoire σ := s.only fun env => env.Alone ∧ env.Honest

/-- every run on one space leaves its tree at rest -/
theorem carried_run (hr : Run s.solo m n) :
    ∀ others own, s.tree.Rests others own m → ∃ own', s.Carried others own' m n := by
  induction hr with
  | refl m => exact fun others own h => ⟨own, .aside h (.refl m)⟩
  | trans _ _ ih ih' =>
    intro others own h
    obtain ⟨own', hc⟩ := ih others own h
    obtain ⟨own'', hc'⟩ := ih' others own' hc.rests
    exact ⟨own'', hc.trans hc'⟩
  | client m client => exact fun others own h => ⟨own, .aside h (.of_same rfl rfl rfl rfl rfl)⟩
  | call m hc he _ _ =>
    obtain ⟨op, rfl⟩ := hc
    exact fun others own h => carried_perform h he.2 he.1 op
  | sync env m hs _ ih =>
    obtain rfl := hs
    exact fun others own h => carried_sync h env ih
  | destroy env m hs => exact absurd hs id

theorem rests_meets {m₀ : Machine σ} (h : s.tree.Rests others own m₀) (hrec : s.Recorded m₀)
    (hm : Meets s.solo m₀ m) : s.Recorded m ∧ ∃ others own, s.tree.Rests others own m := by
  induction hm with
  | start => exact ⟨hrec, others, own, h⟩
  | run _ hr ih =>
    obtain ⟨hrec, others, own, h⟩ := ih
    obtain ⟨own', hc⟩ := carried_run hr others own h
    exact ⟨hc.recorded hrec, others, own', hc.rests⟩
  | inSync _ hs _ ih =>
    obtain rfl := hs.symm
    obtain ⟨_, others, own, h⟩ := ih
    have he : s.Carried others own _ (s.enter _) := .aside h (s.aside_changeState _ _)
    refine ⟨fun r hr => ?_, _, _, rests_opened he.rests⟩
    rw [tables_opened] at hr
    cases hr
  | inDestroy _ hs => exact absurd hs id

end Space

end NestedPaging
