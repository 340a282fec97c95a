import NestedPaging.Proofs.Space.TreesAtRest
import NestedPaging.Proofs.Space.Creation
import NestedPaging.Proofs.Tree.Provision
import NestedPaging.Proofs.Space.Staleness

/-!
# What a sync frees, and when

A sync frees the pages below the tables that were detached when it began, and no others, once its
flushes are over (`Space.Reclaims`). By then each processor has flushed since those tables were
detached, or is marked dirty. `sync_reclaims` says so of every sync that ends well in a run on one
space, with other such runs during its flushes.
-/

namespace NestedPaging

variable {σ : Type}

namespace Space
variable {s : Space} {others : Nat → Prop} {own own' : Layout} {m k n : Machine σ} {d : Shootdown σ}
  {env : Env σ} {i : Nat}

/-! ## what a sync frees -/

/-- what a sync from `m` to `n` frees and leaves, if its shootdown is over in `k` -/
structure Reclaims (s : Space) (d : Shootdown σ) (m k n : Machine σ) : Prop where
  /-- until then the sync itself frees nothing -/
  waits : ∃ es, (d.before (s.opened (s.enter m))).Logs es k ∧ ∀ p, .freed p ∉ es
  /-- then it frees what lies below the tables that were listed when it began, each page once -/
  frees : Machine.Freed (s.tree.retiredPages (s.tree.tables m)) k n
  once : (s.tree.retiredPages (s.tree.tables m)).Nodup
  live : ∀ p ∈ s.tree.retiredPages (s.tree.tables m), p.frame ∈ k.live
  /-- tables detached during the shootdown stay listed, unless a sync inside it freed them -/
  listed : s.Listed (s.opened (s.enter m)).trace.size k
  stays : (s.tree.tables n).retired = (s.tree.tables k).retired
  /-- and what lies below them stays allocated -/
  allocated : ∀ p ∈ s.tree.retiredPages (s.tree.tables n), p.frame ∈ n.live
  /-- each of the tables below which pages are freed was detached -/
  recorded : ∀ r ∈ (s.tree.tables m).retired, ∃ i : Nat,
    m.trace[i]? = some (.detached s.tree.cell r.table)
  /-- and since then each processor has flushed, unless it is dirty when the pages are freed -/
  flushed : ∀ r ∈ (s.tree.tables m).retired, ∀ i : Nat,
    k.trace[i]? = some (.detached s.tree.cell r.table) →
    ∀ c, s.IsDirty k c ∨ k.Since i (s.flushedBy c)

theorem freed_settled (h : s.tree.Rests others own m)
    (hc : s.Carried (s.tree.entrusted others (s.tree.tables m)) own' (s.opened m)
      (s.shot d (s.opened m))) :
    Machine.Freed (s.tree.retiredPages (s.tree.tables m)) (s.shot d (s.opened m))
      (s.settled d m) := by
  rw [← takenPages_eq h hc]
  exact Machine.freed_giveBackAll _ _

/-- a table that was taken was not detached again, and all who are not dirty flushed since -/
theorem flushed_shot
    (hc : s.Carried (s.tree.entrusted others (s.tree.tables m)) own' (s.opened m)
      (s.shot d (s.opened m)))
    (hf : s.Fresh m.trace.size (s.shot d (s.opened m))) {r : TableRef}
    (hr : r ∈ (s.tree.tables m).retired)
    (hi : (s.shot d (s.opened m)).trace[i]? = some (.detached s.tree.cell r.table)) (c : CpuId) :
    s.IsDirty (s.shot d (s.opened m)) c ∨ (s.shot d (s.opened m)).Since i (s.flushedBy c) := by
  have hopen := s.logs_opened m
  obtain ⟨es, hes, hd⟩ := hc.logs
  have hmark : (s.shot d (s.opened m)).trace[m.trace.size]? = some (.allDirty s.cell) :=
    hes.getElem?_some (hopen.getElem?_new 0)
  have hlt : i < m.trace.size := by
    by_contra hge
    rcases Nat.eq_or_lt_of_le (Nat.le_of_not_lt hge) with rfl | hgt
    · rw [hmark] at hi
      cases hi
    · have hnew := hes.mem_new (by rw [hopen.size]; exact hgt) hi
      refine hd _ hnew (.inr ⟨r.table, ?_, rfl⟩)
      exact List.mem_flatMap.mpr ⟨r, hr, s.tree.format.self_mem_subtree ..⟩
  by_cases hdirty : s.IsDirty (s.shot d (s.opened m)) c
  · exact .inl hdirty
  · exact .inr ((hf c hdirty _ (Nat.le_refl _) hmark).mono (Nat.le_of_lt hlt))

theorem Reclaims.of_rests (h : s.tree.Rests others own m) (hrec : s.Recorded m)
    (hd : ∀ j, Run s.solo j (d.before j)) :
    s.Reclaims d m (s.shot d (s.opened (s.enter m))) (s.leave (s.settled d (s.enter m))) := by
  have he := rests_enter h
  obtain ⟨own', hc⟩ := carried_shot he fun j others own hj => carried_run (hd j) others own hj
  obtain ⟨es, hes, hflush, _⟩ := s.logs_flushAll
    (s.targets d (d.before (s.opened (s.enter m)))) (d.before (s.opened (s.enter m)))
  have hfreed := freed_settled he hc
  have hsettled := carried_settled he hc
  constructor
  · refine ⟨es, hes, fun p hp => ?_⟩
    obtain ⟨c, hc | hc⟩ := hflush _ hp
    · cases hc
    · cases hc
  · exact ⟨hfreed.trace, hfreed.live⟩
  · have hnodup := h.owns.nodup_pages
    rw [s.tree.pages_eq] at hnodup
    exact (List.nodup_append'.mp hnodup).1
  · intro p hp
    exact (hc.rests.owns.inUse _).mpr (.inl (.inr ⟨p, hp, rfl⟩))
  · exact hc.listed _ (.of_size_le (Nat.le_refl _))
  · rw [tables_leave]
    exact s.retired_settled d (s.enter m)
  · intro p hp
    rw [tables_leave] at hp
    obtain ⟨r, hr⟩ := hsettled.rests.owns.own_of_mem_retiredPages hp
    show p.frame ∈ (s.settled d (s.enter m)).live
    exact hsettled.rests.owns.inUse_page hr
  · exact hrec
  · intro r hr i hi c
    refine flushed_shot hc ?_ hr hi c
    exact Fresh.shot (fun j hj => Fresh.run (hd j) hj) (s.enter m)

theorem rests_create {kind : Regime} {cleaner : Option Cleaner} {tag : RegimeTag}
    {m₀ m₁ : Machine σ} (hh : env.Honest) (hs : Space.create kind cleaner tag env m₀ = .ok s m₁) :
    s.Recorded m₁ ∧ ∃ others own, s.tree.Rests others own m₁ := by
  obtain ⟨own, ho⟩ := owns_create hh hs
  obtain ⟨_, _, _, hst⟩ := tables_create hs
  refine ⟨fun r hr => ?_, _, own, ho, congrArg TreeState.walkers hst⟩
  rw [show (s.tree.tables m₁).retired = [] from
    congrArg (fun st : TreeState => st.retired.toList) hst] at hr
  cases hr

/-! ## a sync with something to free -/

/-- a sync of an active space waits for nobody -/
theorem sync_ends (h : s.tree.Rests others own m) (hp : (s.state m).phase = .active)
    (hd : ∀ j, Run s.solo j (d.before j)) (env : Env σ) :
    ∃ flushed n, s.sync d env m = .ok flushed n := by
  obtain ⟨_, hc⟩ := carried_shot (rests_enter h) fun j others own hj => carried_run (hd j) others own hj
  exact ⟨_, _, s.sync_active env hp (.inl hc.rests.still)⟩

/-- an update of the tree is one of the space -/
theorem update_ok {p : Mapping} {order covered : Nat} (hp : (s.state m).phase = .active)
    (h : s.tree.update p order env (s.enter m) = .ok covered k) : s.update p order env m = .ok covered (s.leave k) := by
  refine (s.whileActive_active hp).trans ?_
  unfold Act.ensuring
  rw [h]

theorem run_update {p : Mapping} {order covered : Nat} (ha : env.Alone) (hh : env.Honest)
    (hs : ∀ j, Run s.solo j (env.supply j).1) (h : s.update p order env m = .ok covered n) : Run s.solo m n := by
  rw [← Act.after_of_ok h, ← Act.after_map (s.update p order) fun _ => ()]
  exact .call (c := .on s (.update p order)) m ⟨_, rfl⟩ ⟨ha, hh⟩ hs

theorem phase_update {p : Mapping} {order covered : Nat} (ha : env.Alone) (hp : (s.state m).phase = .active)
    (h : s.tree.update p order env (s.enter m) = .ok covered k) : (s.state (s.leave k)).phase = .active := by
  have hw := (allows_works s.tree ha).update p order (s.enter m)
  rw [Act.after_of_ok h] at hw
  have hst : s.state k = s.state (s.enter m) := congrArg (·.get s.cell) hw.spaces
  rw [s.phase_leave, hst, s.phase_enter, hp]

/-- a page is mapped and then the block around it: the table between is detached -/
theorem update_twice {frames : List Nat} (hlt : ∀ i ∈ frames, i < 2 ^ 36) (h : s.tree.Rests others own m)
    (hp : (s.state m).phase = .active) (hm : m.Spare frames s.tree.format.rootLevel) : ∃ c c' k n q,
      s.update Tree.samplePage 0 (.offering frames) m = .ok c k ∧ s.update Tree.sampleBlock 9 (.offering frames) k = .ok c' n ∧
        Run s.solo m n ∧ (s.state n).phase = .active ∧ ⟨q, 0⟩ ∈ (s.tree.tables n).retired := by
  have hh : (Env.offering frames : Env σ).Honest := Env.honest_offering hlt
  have ha : (Env.offering frames : Env σ).Alone := fun m => ⟨m.client, rfl⟩
  have hs : ∀ j : Machine σ, Run s.solo j ((Env.offering frames : Env σ).supply j).1 := fun j => .refl j
  have hlevel := Tree.leafLevel_samplePage s.tree.format
  have hspare : (s.enter m).Spare frames s.tree.format.rootLevel := hm
  obtain ⟨k, q, own₁, hk, hpath, ho⟩ := Tree.update_spare hlt (rests_enter h).owns
    (Tree.refusal?_samplePage _) rfl
    (by rw [hlevel]; exact hspare)
  rw [hlevel] at hpath
  have hp₁ := phase_update ha hp hk
  have ht : s.tree.tables (s.enter (s.leave k)) = s.tree.tables k :=
    (tables_enter s.tree _).trans (tables_leave s.tree k)
  obtain ⟨n, hn, hq⟩ := Tree.Calm.update_detaches (m := s.enter (s.leave k)) (p := q) (l := 0) hh
    (.offering s.tree frames) (by rw [ht]; exact ho) (Tree.refusal?_sampleBlock _)
    (show _ ∈ s.tree.path (s.tree.tables (s.enter (s.leave k))).memory Tree.sampleBlock.gpa by
      rw [ht]
      exact hpath) (Tree.leafLevel_sampleBlock _)
  have hupdate := update_ok hp hk
  have hupdate' := update_ok hp₁ hn
  refine ⟨_, _, s.leave k, s.leave n, q, hupdate, hupdate', ?_, phase_update ha hp₁ hn, ?_⟩
  · exact (run_update ha hh hs hupdate).trans (run_update ha hh hs hupdate')
  · rw [tables_leave]
    exact hq

/-- in a new space, too -/
theorem exists_detached : ∃ (s : Space) (m₁ m : Machine Unit) (q : PhysAddr),
    Space.create .counting none ⟨1⟩ (.offering [1, 2, 3]) { client := () } = .ok s m₁ ∧
      Meets s.solo m₁ m ∧ (s.state m).phase = .active ∧ ⟨q, 0⟩ ∈ (s.tree.tables m).retired := by
  have hlt : ∀ i ∈ [1, 2, 3], i < 2 ^ 36 := by decide
  have hh : (Env.offering [1, 2, 3] : Env Unit).Honest := Env.honest_offering hlt
  have hs : (Env.offering [1, 2, 3] : Env Unit).supply { client := () }
      = ({ client := () }, some (.ofFrame 1)) := Env.offering_free Std.HashSet.not_mem_empty
  obtain ⟨s, m₁, hcreate, _⟩ := create_offered hs .counting none ⟨1⟩
  obtain ⟨_, _, hnew, j, hj, _⟩ := create_ok hcreate
  have hf : s.tree.format = .stage2 := (Tree.create_fresh hj).1
  obtain ⟨_, _, _, hrests⟩ := rests_create hh hcreate
  -- pages 2 and 3 are free, and become tables
  have hspare : m₁.Spare [1, 2, 3] 2 := by
    refine ⟨[2, 3], by decide, Nat.le_refl _, fun i hi => ⟨List.mem_cons_of_mem 1 hi, fun hin => ?_⟩⟩
    have h1 := (live_create hs hcreate hin).resolve_right Std.HashSet.not_mem_empty
    rw [PhysAddr.frame_ofFrame (by decide)] at h1
    subst h1
    exact absurd hi (by decide)
  obtain ⟨_, _, _, m, q, _, _, hrun, hp, hq⟩ := update_twice hlt hrests (by rw [hnew]) (by rw [hf]; exact hspare)
  exact ⟨s, m₁, m, q, hcreate, .run .start hrun, hp, hq⟩

/-! ## every sync -/

/-- a sync of a tree at rest that ends well -/
theorem reclaims_of_sync {flushed : Nat} (h : s.tree.Rests others own m) (hrec : s.Recorded m)
    (hd : ∀ j, Run s.solo j (d.before j)) (hn : s.sync d env m = .ok flushed n) :
    ∃ k, (s.shootDown d : Act σ TableError Nat) env (s.opened (s.enter m)) = .ok flushed k ∧
      s.Reclaims d m k n := by
  obtain ⟨hp, hfree, rfl⟩ := s.sync_ok hn
  rw [s.sync_active env hp hfree] at hn
  injection hn with hcount _
  refine ⟨_, ?_, Reclaims.of_rests h hrec hd⟩
  rw [s.shootDown_apply, hcount]

/-- it frees the tables that were listed -/
theorem Reclaims.freed {r : TableRef} (h : s.Reclaims d m k n) (hr : r ∈ (s.tree.tables m).retired) :
    r.table.frame ∈ k.live ∧ r.table.frame ∉ n.live := by
  have hpage : r.table ∈ s.tree.retiredPages (s.tree.tables m) :=
    List.mem_flatMap.mpr ⟨r, hr, s.tree.format.self_mem_subtree ..⟩
  exact ⟨h.live _ hpage, fun hin => ((h.frees.live _).mp hin).2 _ hpage rfl⟩

/-- in every run on one space a sync that ends well frees the pages below the tables that were
detached when it began, after its shootdown, and leaves those that are detached meanwhile -/
theorem sync_reclaims {kind : Regime} {cleaner : Option Cleaner} {tag : RegimeTag} {env₀ : Env σ}
    {m₀ m₁ : Machine σ} {flushed : Nat} (hh : env₀.Honest)
    (hs : Space.create kind cleaner tag env₀ m₀ = .ok s m₁) (hm : Meets s.solo m₁ m)
    (hd : ∀ j, Run s.solo j (d.before j)) (hn : s.sync d env m = .ok flushed n) :
    ∃ k, (s.shootDown d : Act σ TableError Nat) env (s.opened (s.enter m)) = .ok flushed k ∧
      s.Reclaims d m k n := by
  obtain ⟨hrec, _, _, hrests⟩ := rests_create hh hs
  obtain ⟨hrec', _, _, h⟩ := rests_meets hrests hrec hm
  exact reclaims_of_sync h hrec' hd hn

/-- a sync frees a table that was detached before it -/
theorem sync_reclaims_table : ∃ (s : Space) (m₁ m k n : Machine Unit) (flushed : Nat) (q : PhysAddr),
    Space.create .counting none ⟨1⟩ (.offering [1, 2, 3]) { client := () } = .ok s m₁ ∧
      Meets s.solo m₁ m ∧ s.sync ⟨id, 1⟩ (.offering [1, 2, 3]) m = .ok flushed n ∧
      ⟨q, 0⟩ ∈ (s.tree.tables m).retired ∧ s.Reclaims ⟨id, 1⟩ m k n ∧
      q.frame ∈ k.live ∧ q.frame ∉ n.live := by
  have hh : (Env.offering [1, 2, 3] : Env Unit).Honest := Env.honest_offering (by decide)
  obtain ⟨s, m₁, m, q, hcreate, hmeets, hp, hq⟩ := exists_detached
  obtain ⟨hrec, _, _, hrests⟩ := rests_create hh hcreate
  obtain ⟨_, _, _, h⟩ := rests_meets hrests hrec hmeets
  obtain ⟨flushed, n, hn⟩ := sync_ends (d := ⟨id, 1⟩) h hp (fun j => .refl j) (.offering [1, 2, 3])
  obtain ⟨k, _, hr⟩ := sync_reclaims hh hcreate hmeets (fun j => .refl j) hn
  exact ⟨s, m₁, m, k, n, flushed, q, hcreate, hmeets, hn, hq, hr, hr.freed hq⟩

end Space

end NestedPaging
