import NestedPaging.Proofs.Objects.MidOperation

/-!
# Trees and spaces at work among others

Every operation on a tree or on a space leaves all objects in order, however it ends (`Goes`).

* `Working S w m t own n`   an operation under way since `m` whose tree owns the pages of `own`, and
                            whose object holds no others;
* `Working.sustains`        updates keep this, with others at work whenever they ask for a page;
* `Tree.Whole.release`      a release gives back all pages of a tree, or leaves them alone;
* `Working.settle`          what a sync took is set aside while it waits for flushes.
-/

namespace NestedPaging

open Machine (Deed Deeds Still)

variable {σ ε α : Type}

/-! ## cells of trees and spaces -/

namespace Machine.Beside
variable {C : Set CellRef} {s : Space}

theorem changeTree {t : Tree} (hC : .tree t.cell ∈ C) (f : TreeState → TreeState) (m : Machine σ) :
    m.Beside C (t.changeState f m) := by
  refine ⟨rfl, fun c hc => ?_, rfl, fun c hc => by cases c <;> exact hc, fun _ _ => id⟩
  cases c with
  | tree i =>
    refine (Cells.get_modify ..).trans (if_neg ?_)
    rintro rfl
    exact hc hC
  | space i => rfl
  | ring i => rfl

/-- a space that is not active stays so -/
theorem changeSpace (hC : .space s.cell ∈ C) {f : SpaceState → SpaceState}
    (hf : ∀ st, st.phase ≠ .active → (f st).phase ≠ .active) (m : Machine σ) :
    m.Beside C (s.changeState f m) := by
  refine ⟨rfl, fun c hc => ?_, rfl, fun c hc => by cases c <;> exact hc, fun i _ hi => ?_⟩
  · cases c with
    | tree i => rfl
    | space i =>
      refine (Cells.get_modify ..).trans (if_neg ?_)
      rintro rfl
      exact hc hC
    | ring i => rfl
  · show ((m.spaces.modify s.cell f).get i).phase ≠ .active
    rw [Cells.get_modify]
    split
    · exact hf _ hi
    · exact hi

end Machine.Beside

/-- only the state of the space itself and of processors changes -/
structure Space.Quiet (s : Space) (m n : Machine σ) : Prop where
  still : m.Still n
  beside : m.Beside (Object.space s).cells n

namespace Space.Quiet
variable {s : Space} {m k n : Machine σ}

theorem trans (h : s.Quiet m k) (h' : s.Quiet k n) : s.Quiet m n :=
  ⟨h.still.trans h'.still, h.beside.trans h'.beside⟩

theorem changeState {f : SpaceState → SpaceState}
    (hf : ∀ st, st.phase ≠ .active → (f st).phase ≠ .active) (m : Machine σ) :
    s.Quiet m (s.changeState f m) := ⟨s.still_changeState f m, .changeSpace (.inl rfl) hf m⟩

theorem enter (m : Machine σ) : s.Quiet m (s.enter m) :=
  changeState (f := fun st => { st with inFlight := st.inFlight + 1 }) (fun _ => id) m

theorem leave (m : Machine σ) : s.Quiet m (s.leave m) :=
  changeState (f := fun st => { st with inFlight := st.inFlight - 1 }) (fun _ => id) m

theorem unmark (c : CpuId) (m : Machine σ) : s.Quiet m (s.unmark c m) :=
  changeState (f := fun st => { st with dirty := st.dirty.erase c }) (fun _ => id) m

theorem markAll (m : Machine σ) : s.Quiet m (s.changeState (fun st => { st with dirty := .all }) m) :=
  changeState (f := fun st => { st with dirty := .all }) (fun _ => id) m

theorem closing (m : Machine σ) : s.Quiet m (s.closing m) :=
  changeState (f := fun st => { st with phase := .destroying }) (fun _ _ h => Phase.noConfusion h) m

theorem flush (c : CpuId) (m : Machine σ) : s.Quiet m (s.flush c m) :=
  ⟨s.still_flush c m, (unmark c m).beside.trans (.of_cells rfl rfl rfl rfl rfl)⟩

theorem turn (c : CpuId) (m : Machine σ) : s.Quiet m (s.turn c m) := by
  refine ⟨s.still_turn c m, ?_⟩
  unfold Space.turn
  split
  · exact (flush c m).beside
  · exact (unmark c m).beside.trans (.of_cells rfl rfl rfl rfl rfl)

theorem flushAll (cs : List CpuId) (m : Machine σ) : s.Quiet m (s.flushAll cs m) := by
  induction cs generalizing m with
  | nil => exact ⟨.refl m, .refl m⟩
  | cons c cs ih => exact (flush c m).trans (ih (s.flush c m))

end Space.Quiet

/-- a space is as sound as before if its tree is as it was and it was not made active -/
theorem Object.sound_space {s : Space} {m n : Machine σ} (hs : (Object.space s).Sound m)
    (hp : (s.state n).phase = .active → (s.state m).phase = .active)
    (ht : s.tree.state n = s.tree.state m)
    (hm : ∀ a : PhysAddr, a.frame ∈ s.tree.frames m → n.memory.read a = m.memory.read a)
    (hl : ∀ i ∈ s.tree.frames m, i ∈ m.live → i ∈ n.live) (hsplit : n.splitExecute = m.splitExecute) :
    (Object.space s).Sound n ∧ s.tree.frames n = s.tree.frames m := by
  obtain ⟨hw, hf, _⟩ := Tree.Whole.spared hs.2 ht hm hl hsplit
  refine ⟨⟨fun hn => ?_, hw⟩, hf⟩
  rw [ht]
  exact hs.1 (hp hn)

theorem Object.sound_quiet {s : Space} {m n : Machine σ} (hs : (Object.space s).Sound m)
    (hi : s.cell < m.spaces.next) (hq : s.Quiet m n) :
    (Object.space s).Sound n ∧ s.tree.frames n = s.tree.frames m := by
  refine Object.sound_space hs (fun hn => ?_) (congrArg (·.get s.tree.cell) hq.still.trees)
    (fun a _ => by rw [hq.still.memory]) (fun i _ hl => ?_) hq.still.split
  · by_contra hm
    exact hq.beside.onward.ended s.cell hi hm hn
  · rw [hq.still.live]
    exact hl

/-- a space stays in order when pages that it does not hold are given back -/
theorem Object.sound_giveBackAll {s : Space} {m : Machine σ} {ps : List PhysAddr}
    (h : (Object.space s).Sound m) (hps : ∀ p ∈ ps, p.frame ∉ s.tree.frames m) :
    (Object.space s).Sound (m.giveBackAll ps) ∧ s.tree.frames (m.giveBackAll ps) = s.tree.frames m := by
  obtain ⟨hm, ht, hsplit, _⟩ := m.giveBackAll_same ps
  have hst := congrArg (·.get s.cell) (m.giveBackAll_processors ps).2
  refine Object.sound_space h (fun hj => (congrArg SpaceState.phase hst).symm.trans hj)
    (congrArg (·.get s.tree.cell) ht) (fun a _ => by rw [hm]) (fun i hi hl => ?_) hsplit
  exact Machine.mem_live_giveBackAll.mpr ⟨hl, fun p hp e => hps p hp (e ▸ hi)⟩

/-! ## pages of a tree that are given back -/

/-- what lies below detached tables is as it was if their pages are -/
theorem Tree.Owns.retiredPages_congr {t : Tree} {others : Nat → Prop} {own : Layout} {T : Tables}
    {M : Memory} (h : t.Owns others own T)
    (hM : ∀ a : PhysAddr, a.frame ∈ t.retiredFrames T → M.read a = T.memory.read a) :
    (T.retired.flatMap fun r => t.format.subtree M r.level r.table) = t.retiredPages T := by
  refine List.flatMap_congr fun r hr => t.format.subtree_congr fun q hq i hi => ?_
  have hin : q ∈ t.retiredPages T := List.mem_flatMap.mpr ⟨r, hr, hq⟩
  obtain ⟨x, hx⟩ := h.own_of_mem_retiredPages hin
  apply hM
  rw [frame_entry (h.isPage hx) hi]
  exact ⟨q, hin, rfl⟩

namespace Tree
variable {t : Tree} {C : Set CellRef} {m : Machine σ}

theorem released_release (t : Tree) (env : Env σ) (m : Machine σ) :
    (t.state ((t.release : Act σ ε Unit).after env m)).released = true := by
  have hmark : ∀ k : Machine σ, (t.state (t.markReleased k)).released = true := fun k =>
    congrArg Tables.released (t.tables_markReleased k)
  cases hr : (t.tables m).released with
  | true =>
    rw [Act.after_of_ok (t.release_again env hr)]
    exact hmark m
  | false =>
    by_cases hd : t.Drained m
    · rw [Act.after_of_ok (t.release_ok env hd hr)]
      exact t.released_giveBackAll _
    · rw [Act.after_of_error (t.release_stuck env hd hr)]
      exact (congrArg Tables.released (t.tables_forgetRetired _)).trans (hmark m)

/-- a release gives back pages of the tree only -/
theorem Whole.release (h : t.Whole m) (hC : .tree t.cell ∈ C) (env : Env σ) :
    ∃ F, Deeds (Machine.Beside C) (t.frames m) m F ((t.release : Act σ ε Unit).after env m) := by
  have hchange : ∀ {F : Set Nat} (f : TreeState → TreeState) (k : Machine σ),
      Deeds (Machine.Beside C) F k F (t.changeState f k) := fun f k =>
    .aside rfl rfl ⟨[], .refl rfl, nofun⟩ (.changeTree hC f k)
  cases hr : (t.tables m).released with
  | true =>
    rw [Act.after_of_ok (t.release_again env hr)]
    exact ⟨_, hchange _ m⟩
  | false =>
    obtain ⟨others, own, ho⟩ := h hr
    have hmarked : ∀ {F : Set Nat}, Deeds (Machine.Beside C) F m F (t.forgetRetired (t.markReleased m)) :=
      (hchange _ m).trans (hchange _ _)
    by_cases hd : t.Drained m
    · rw [Act.after_of_ok (t.release_ok env hd hr)]
      refine ⟨_, hmarked.trans (.giveBackAll _ ho.nodup_frames fun p hp => ?_)⟩
      exact ⟨hr, p, hp, rfl⟩
    · rw [Act.after_of_error (t.release_stuck env hd hr)]
      exact ⟨_, hmarked⟩

end Tree

variable [Registry σ]

/-! ## updates -/

/-- an operation under way since `m`: the tree `t` of its object owns the pages of `own`, and the object
holds no others -/
structure Working (S : Terms) (w : Turn σ) (m : Machine σ) (t : Tree) (own : Layout) (n : Machine σ) :
    Prop where
  owns : ∃ others, t.Owns others own (t.tables n)
  underway : Underway S w m own.frames n

namespace Underway
variable {S : Terms} {w : Turn σ} {m k n : Machine σ} {F : Set Nat}

theorem quiet {s : Space} (h : Underway S w m F k) (hw : w.object = .space s) (hq : s.Quiet k n) :
    Underway S w m F n :=
  h.deed (.aside hq.still.memory hq.still.live hq.still.logs (hw ▸ hq.beside))

theorem changeTree (h : Underway S w m F n) {t : Tree} (ht : .tree t.cell ∈ w.object.cells)
    (f : TreeState → TreeState) : Underway S w m F (t.changeState f n) :=
  h.deed (.aside rfl rfl ⟨[], .refl rfl, nofun⟩ (.changeTree ht f n))

end Underway

namespace Working
variable {S : Terms} {w : Turn σ} {m k n : Machine σ} {t : Tree} {own : Layout} {others : Nat → Prop}
  {op : Operation σ} {env : Env σ}

theorem start (h : op.Called S env m) (ht : op.object.tree? = some t)
    (ho : t.Owns others own (t.tables m)) : Working S (op.turn env) m t own m := by
  have hu := h.start
  rw [Object.frames_of_owns ht ho] at hu
  exact ⟨⟨others, ho⟩, hu⟩

theorem quiet {s : Space} (h : Working S w m t own k) (hw : w.object = .space s) (hq : s.Quiet k n) :
    Working S w m t own n := by
  obtain ⟨others, ho⟩ := h.owns
  rw [← hq.still.tables] at ho
  exact ⟨⟨others, ho⟩, h.underway.quiet hw hq⟩

/-- an object whose tree got more tables at most -/
theorem finish (h : op.Called S env m) (ht : op.object.tree? = some t)
    (hex : ∃ others own, t.Owns others own (t.tables m))
    (hw : ∀ others own, t.Owns others own (t.tables m) →
      ∃ own', own'.Extends own ∧ Working S (op.turn env) m t own' n) : Goes S (some (op.turn env)) m n := by
  obtain ⟨others, own, ho⟩ := hex
  obtain ⟨own', _, hn⟩ := hw others own ho
  obtain ⟨others', ho'⟩ := hn.owns
  have hu := hn.underway
  rw [← Object.frames_of_owns ht ho'] at hu
  refine h.finish hu (Object.sound_of_owns ht ho') fun _ t' ht' others own ho => ?_
  obtain rfl : t = t' := Option.some.inj (ht.symm.trans ht')
  obtain ⟨own', hx, hn⟩ := hw others own ho
  obtain ⟨others', ho'⟩ := hn.owns
  exact ⟨others', own', hx, ho'⟩

/-- updates keep the object in order whenever others act -/
theorem sustains (hc : op.Called S env m) (ht : op.object.tree? = some t) (hr : ¬ op.Reclaims)
    (hs : ∀ j, op.others env j = (env.supply j).1) :
    t.Sustains env (Working S (op.turn env) m t) (Working S (op.turn env) m t) := by
  have hcell : .tree t.cell ∈ op.object.cells := Object.tree_mem_cells ht
  have hwalk : ∀ {own n} {f : TreeState → TreeState}, Working S (op.turn env) m t own n →
      (∀ st, (f st).retired = st.retired) → (∀ st, (f st).released = st.released) →
      Working S (op.turn env) m t own (t.changeState f n) := by
    intro own n f h hret hrel
    obtain ⟨others, ho⟩ := h.owns
    rw [← (Tree.alike_changeState n hret hrel).tables] at ho
    exact ⟨⟨others, ho⟩, h.underway.changeTree hcell f⟩
  refine {
    honest := hc.honest
    owns := fun h => h.owns
    enter := fun h => hwalk h (fun _ => rfl) fun _ => rfl
    leave := fun h => hwalk h (fun _ => rfl) fun _ => rfl
    moves := fun h hm => ?_
    supply := fun {own j} h => ?_ }
  · obtain ⟨others, ho⟩ := h.owns
    have hidle : t.OwnsAt others _ _ .idle := ho
    exact ⟨⟨others, (hm.owns hidle).2⟩,
      h.underway.deeds (hm.deeds hidle fun hl => .of_local hl hcell)⟩
  · obtain ⟨others, ho⟩ := h.owns
    have hu := h.underway
    rw [← Object.frames_of_owns ht ho] at hu
    obtain ⟨hu', hres, hgrows⟩ := hc.yield hu (Object.sound_of_owns ht ho)
    obtain ⟨others', own', hx, ho'⟩ := hgrows hr t ht others own ho
    rw [Object.frames_of_owns ht ho'] at hu'
    rw [← hs j]
    exact ⟨own', hx, ⟨⟨others', ho'⟩, hu'⟩, hres.onward.split⟩

end Working

/-! ## operations on trees -/

section
variable {S : Terms} {env : Env σ} {m : Machine σ} {t : Tree} {s : Space} {d : Shootdown σ}

theorem goes_tree {op : TreeOp} (h : (Operation.tree t op).Called S env m) :
    Goes S (some ((Operation.tree t op).turn env)) m ((Operation.tree t op).after env m) := by
  have hs : (Object.tree t).Sound m := h.order.sound _ h.mem
  refine Working.finish h rfl (hs.2 hs.1) fun others own ho => ?_
  exact (Working.sustains h rfl id fun _ => rfl).perform op (.start h rfl ho)

theorem goes_reclaim (h : (Operation.reclaim t).Called S env m) :
    Goes S (some ((Operation.reclaim t).turn env)) m ((Operation.reclaim t).after env m) := by
  have hs : (Object.tree t).Sound m := h.order.sound _ h.mem
  obtain ⟨others, own, ho⟩ := hs.2 hs.1
  -- the list is emptied, and what was on it is given back or left alone
  have hforget : Underway S ((Operation.reclaim t).turn env) m own.frames (t.forgetRetired m) :=
    (Working.start h rfl ho).underway.changeTree rfl _
  obtain ⟨n, hn⟩ : ∃ n, (Operation.reclaim t).after env m = n := ⟨_, rfl⟩
  obtain ⟨others', ho', hu⟩ : ∃ others',
      t.Owns others' (own.without (t.retiredPages (t.tables m))) (t.tables n) ∧
        Underway S ((Operation.reclaim t).turn env) m (own.without (t.retiredPages (t.tables m))).frames n := by
    by_cases hd : t.Drained m
    · obtain rfl : _ = n := (Act.after_of_ok (t.reclaim_ok (ε := TableError) env hd)).symm.trans hn
      exact ⟨others, ho.reclaim (t.reclaim_ok env hd), hforget.deeds (ho.deeds_giveBackAll _)⟩
    · obtain rfl : _ = n := (Act.after_of_error (t.reclaim_stuck (ε := TableError) env hd)).symm.trans hn
      refine ⟨t.entrusted others (t.tables m), ?_, hforget.leave ?_⟩
      · rw [t.tables_forgetRetired m]
        exact ho.take rfl rfl rfl rfl fun _ => Iff.rfl
      · rw [← ho.frames_sdiff_retired]
        exact Set.sdiff_subset
  rw [hn]
  rw [← ho'.frames_eq] at hu
  exact h.finish hu (Object.sound_of_owns (t := t) rfl ho') fun hb => absurd hb (h.busy trivial)

/-! ## operations on spaces -/

/-- only the state of the space and of processors changes -/
theorem goes_quiet {op : Operation σ} {n : Machine σ} (h : op.Called S env m) (hop : op.object = .space s)
    (hq : s.Quiet m n) : Goes S (some (op.turn env)) m n := by
  have hu := h.start.quiet hop hq
  have hs := h.order.sound _ h.mem
  have hi := h.order.isIn _ h.mem
  rw [hop] at hs hi
  obtain ⟨hs', hf⟩ := Object.sound_quiet hs (hi (.space s.cell) (.inl rfl)) hq
  have hframes : op.object.frames n = op.object.frames m := by
    rw [hop]
    exact hf
  rw [← hframes] at hu
  refine h.finish hu (hop ▸ hs') fun _ t ht others own ho => ?_
  rw [hop] at ht
  obtain rfl : s.tree = t := Option.some.inj ht
  exact ⟨others, own, .refl own, by rw [hq.still.tables]; exact ho⟩

/-- an operation that an active space lets go on -/
theorem goes_whileActive {op : Operation σ} {body : Act σ TableError α} (h : op.Called S env m)
    (hop : op.object = .space s)
    (hb : ∀ own, Working S (op.turn env) m s.tree own (s.enter m) →
      ∃ own', own'.Extends own ∧ Working S (op.turn env) m s.tree own' (body.after env (s.enter m))) :
    Goes S (some (op.turn env)) m ((s.whileActive body).after env m) := by
  rw [s.whileActive_after]
  split
  · rename_i hp
    have ht : op.object.tree? = some s.tree := by
      rw [hop]
      rfl
    have hs := h.order.sound _ h.mem
    rw [hop] at hs
    refine Working.finish h ht (hs.2 (hs.1 hp)) fun others own ho => ?_
    obtain ⟨own', hx, hn⟩ := hb own ((Working.start h ht ho).quiet hop (.enter m))
    exact ⟨own', hx, hn.quiet hop (.leave _)⟩
  · exact goes_quiet h hop ((Space.Quiet.enter m).trans (.leave _))

theorem goes_space {op : SpaceOp} (h : (Operation.space s op).Called S env m) :
    Goes S (some ((Operation.space s op).turn env)) m ((Operation.space s op).after env m) := by
  have hsustains := Working.sustains (t := s.tree) h rfl id fun _ => rfl
  have hquiet : ∀ {n}, s.Quiet m n → Goes S (some ((Operation.space s op).turn env)) m n :=
    fun hq => goes_quiet h rfl hq
  -- a flush between the beginning and the end of an operation
  have hwhile : ∀ {body : Act σ TableError Unit} {n}, body env (s.enter m) = .ok () n →
      s.Quiet (s.enter m) n → s.Quiet m ((s.whileActive body).after env m) := by
    intro body n hb hq
    rw [s.whileActive_after, Act.after_of_ok hb]
    split
    · exact ((Space.Quiet.enter m).trans hq).trans (.leave n)
    · exact (Space.Quiet.enter m).trans (.leave _)
  cases op with
  | update p order =>
    show Goes S _ m (Act.after ((fun _ => ()) <$> s.update p order) env m)
    rw [Act.after_map]
    exact goes_whileActive h rfl fun own hw => hsustains.update p order hw
  | install p pages => exact goes_whileActive h rfl fun own hw => hsustains.install p pages hw
  | lookup a => exact .refl h.order
  | invalidate c => exact hquiet (hwhile (s.flushLocal_apply c env _) (.flush c _))
  | activate c => exact hquiet (hwhile (s.activate_body c env _) (.turn c _))
  | flushLocal c =>
    show Goes S _ m ((s.flushLocal c : Act σ TableError Unit).after env m)
    rw [Act.after_of_ok (s.flushLocal_apply c env m)]
    exact hquiet (.flush c m)
  | markDirty c =>
    exact hquiet (.changeState (f := fun st => { st with dirty := st.dirty.insert c }) (fun _ => id) m)

/-! ## syncs and destructions -/

/-- what a settle leaves of an operation on a space -/
structure Settled (S : Terms) (w : Turn σ) (s : Space) (m k n : Machine σ) : Prop where
  underway : Underway S w m (s.tree.frames n) n
  sound : (Object.space s).Sound n
  ended : (s.state k).phase ≠ .active → (s.state n).phase ≠ .active

/-- what was on the list is set aside, and the space is in order without it -/
theorem Working.opened {w : Turn σ} {k : Machine σ} {own : Layout} (h : Working S w m s.tree own k)
    (hw : w.object = .space s) :
    Underway S w m (s.tree.frames (s.opened k) ∪ s.tree.retiredFrames (s.tree.tables k)) (s.opened k) ∧
      (Object.space s).Sound (s.opened k) ∧
      ∀ i ∈ s.tree.retiredFrames (s.tree.tables k), i ∉ s.tree.frames (s.opened k) := by
  obtain ⟨others, ho⟩ := h.owns
  have hopened := Space.owns_opened ho
  have hbeside : k.Beside (Object.space s).cells (s.opened k) := by
    have hforget : k.Beside (Object.space s).cells (s.tree.forgetRetired k) := .changeTree (.inr rfl) _ k
    have hnote : (s.tree.forgetRetired k).Beside (Object.space s).cells
        ((s.tree.forgetRetired k).note (.allDirty s.cell)) := .of_cells rfl rfl rfl rfl rfl
    exact (hforget.trans hnote).trans (Space.Quiet.markAll _).beside
  refine ⟨?_, Object.sound_of_owns (t := s.tree) rfl hopened, fun i hi hin => ?_⟩
  · rw [hopened.frames_eq, ho.frames_without]
    refine h.underway.deed (.aside rfl rfl ⟨_, s.logs_opened k, fun e he => ?_⟩ (hw ▸ hbeside))
    rw [List.mem_singleton.mp he]
    trivial
  · rw [hopened.frames_eq] at hin
    exact (hopened.elsewhere (.inr hi)).2 hin

/-- what others left, a quiet step of the space leaves as well -/
theorem Resumed.quiet {w : Turn σ} {K : Set Nat} {k n q : Machine σ} (h : Resumed S w m K k n)
    (hw : w.object = .space s) (hi : s.cell < n.spaces.next) (hq : s.Quiet n q) : Resumed S w m K k q := by
  obtain ⟨hs, hf⟩ := Object.sound_quiet (hw ▸ h.sound) hi hq
  have hframes : w.object.frames q = w.object.frames n := by
    rw [hw]
    exact hf
  refine ⟨?_, hw ▸ hs, h.onward.trans hq.beside.onward, fun i hi => ?_, fun a ha => ?_⟩
  · rw [hframes]
    exact h.underway.quiet hw hq
  · rw [hframes]
    exact h.aside i hi
  · rw [hq.still.memory, h.memory a ha]

/-- others run, then processors flush, and what was on the list is still aside -/
theorem Working.shot {op : Operation σ} {k : Machine σ} {own : Layout}
    (h : Working S (op.turn env) m s.tree own k) (hc : op.Called S env m) (hop : op.object = .space s)
    (hd : ∀ j, op.others env j = d.before j) :
    Resumed S (op.turn env) m (s.tree.retiredFrames (s.tree.tables k)) (s.opened k)
      (s.shot d (s.opened k)) := by
  obtain ⟨hu, hsound, haside⟩ := h.opened hop
  have hframes : op.object.frames (s.opened k) = s.tree.frames (s.opened k) := by
    rw [hop]
    rfl
  rw [← hframes] at hu haside
  obtain ⟨hres, _⟩ := hc.pause hu (hop ▸ hsound) haside
  rw [hd] at hres
  refine hres.quiet hop ?_ (.flushAll _ _)
  refine hc.isIn hres.underway.story.onward (.space s.cell) ?_
  rw [hop]
  exact .inl rfl

/-- what a settle takes is set aside while others run, and then given back or left alone -/
theorem Working.settle {op : Operation σ} {k : Machine σ} {own : Layout} (hc : op.Called S env m)
    (hop : op.object = .space s) (hd : ∀ j, op.others env j = d.before j)
    (h : Working S (op.turn env) m s.tree own k) :
    Settled S (op.turn env) s m k ((s.settle d : Act σ ε Nat).after env k) := by
  obtain ⟨others, ho⟩ := h.owns
  have hres := h.shot hc hop hd
  obtain ⟨q, hq⟩ : ∃ q, s.shot d (s.opened k) = q := ⟨_, rfl⟩
  rw [hq] at hres
  obtain ⟨hu, hsound, honward, haside, hmemory⟩ := hres
  rw [show (op.turn env).object = .space s from hop] at hu hsound haside
  have hended : (s.state k).phase ≠ .active → (s.state q).phase ≠ .active := by
    intro hk
    refine honward.ended s.cell ?_ ?_
    · refine hc.isIn (h.opened hop).1.story.onward (.space s.cell) ?_
      rw [hop]
      exact .inl rfl
    · show (s.state (s.opened k)).phase ≠ .active
      rw [s.phase_opened]
      exact hk
  by_cases hf : s.MayFree k (s.shot d (s.opened k))
  · rw [Act.after_of_ok (s.settle_ok env hf)]
    -- the tables below a detached one are still as they were, so what is given back was set aside
    have htaken : s.takenPages k q = s.tree.retiredPages (s.tree.tables k) :=
      ho.retiredPages_congr fun a ha => hmemory a ha
    have hsettled : s.settled d k = q.giveBackAll (s.tree.retiredPages (s.tree.tables k)) := by
      rw [← htaken, ← hq]
      rfl
    rw [hsettled]
    have hgive := hu.deeds (.giveBackAll q ho.nodup_retired fun p hp => .inr ⟨p, hp, rfl⟩)
    obtain ⟨hsound', hframes⟩ := Object.sound_giveBackAll hsound fun p hp => haside p.frame ⟨p, hp, rfl⟩
    refine ⟨hgive.leave fun i hi => ?_, hsound', fun hk hj => hended hk ?_⟩
    · rw [hframes] at hi
      exact ⟨.inl hi, fun hin => haside i hin hi⟩
    · have hst := congrArg (·.get s.cell) (q.giveBackAll_processors (s.tree.retiredPages (s.tree.tables k))).2
      exact (congrArg SpaceState.phase hst).symm.trans hj
  · rw [Act.after_of_error (s.settle_stuck env hf), hq]
    exact ⟨hu.leave Set.subset_union_left, hsound, hended⟩

theorem goes_sync (h : (Operation.sync s d).Called S env m) :
    Goes S (some ((Operation.sync s d).turn env)) m ((Operation.sync s d).after env m) := by
  show Goes S _ m ((s.whileActive (s.settle d)).after env m)
  rw [s.whileActive_after]
  split
  · rename_i hp
    have hs : (Object.space s).Sound m := h.order.sound _ h.mem
    have hi : s.cell < (s.enter m).spaces.next := h.order.isIn _ h.mem (.space s.cell) (.inl rfl)
    obtain ⟨others, own, ho⟩ := hs.2 (hs.1 hp)
    have hset := ((Working.start h rfl ho).quiet rfl (.enter m)).settle (ε := TableError) h rfl fun _ => rfl
    obtain ⟨n, hn⟩ : ∃ n, (s.settle d : Act σ TableError Nat).after env (s.enter m) = n := ⟨_, rfl⟩
    rw [hn] at hset ⊢
    have hin : s.cell < n.spaces.next := hset.underway.story.onward.isIn (.space s.cell) hi
    obtain ⟨hs', hf⟩ := Object.sound_quiet hset.sound hin (.leave n)
    refine h.finish ?_ hs' fun hb => absurd hb (h.busy hp)
    show Underway S _ m (s.tree.frames (s.leave n)) _
    rw [hf]
    exact hset.underway.quiet rfl (.leave n)
  · exact goes_quiet h rfl ((Space.Quiet.enter m).trans (.leave _))

/-- the end of a space leaves it without pages -/
theorem Settled.finish {w : Turn σ} {k n : Machine σ} (h : Settled S w s m k n)
    (hw : w.object = .space s) (hk : (s.state k).phase ≠ .active) (env : Env σ) :
    Underway S w m (s.tree.frames ((s.finish : Act σ TableError Unit).after env n))
        ((s.finish : Act σ TableError Unit).after env n) ∧
      (Object.space s).Sound ((s.finish : Act σ TableError Unit).after env n) := by
  obtain ⟨j, hj⟩ : ∃ j, (s.tree.release : Act σ TableError Unit).after env n = j := ⟨_, rfl⟩
  have hcell : .tree s.tree.cell ∈ w.object.cells := by
    rw [hw]
    exact .inr rfl
  obtain ⟨F, hF⟩ := h.sound.2.release (ε := TableError) hcell env
  have hu := h.underway.deeds hF
  have hreleased := s.tree.released_release (ε := TableError) env n
  have hages : s.Ages n ((s.tree.release : Act σ TableError Unit).after env n) := Space.Ages.release n
  have hend := hages.ended (h.ended hk)
  rw [hj] at hu hreleased hend
  have hnone : ∀ i : Machine σ, (s.tree.state i).released = true → s.tree.frames i = ∅ ∧ s.tree.Whole i := by
    intro i hi
    unfold Tree.frames Tree.Whole
    rw [hi]
    exact ⟨Set.eq_empty_of_forall_notMem fun _ hx => Bool.false_ne_true hx.1.symm, nofun⟩
  have hlast : ∀ i, (s.finish : Act σ TableError Unit).after env n = i → i = j ∨
      i = (s.changeState (fun st => { st with phase := .destroyed }) j).note
        (.logged .debug ("Destroyed space " ++ s.tag.text)) := by
    rintro i rfl
    unfold Space.finish
    rw [Act.after_bind]
    unfold Act.after at hj
    cases hr : (s.tree.release : Act σ TableError Unit) env n with
    | error e j' =>
      rw [hr] at hj
      exact .inl hj
    | ok _ j' =>
      rw [hr] at hj
      exact .inr (by rw [← hj]; rfl)
  rcases hlast _ rfl with hi | hi
  · rw [hi]
    obtain ⟨hf, hwhole⟩ := hnone j hreleased
    rw [hf]
    exact ⟨hu.leave (Set.empty_subset F), fun hp => absurd hp hend, hwhole⟩
  · rw [hi]
    obtain ⟨hf, hwhole⟩ := hnone ((s.changeState (fun st => { st with phase := .destroyed }) j).note
      (.logged .debug ("Destroyed space " ++ s.tag.text))) hreleased
    rw [hf]
    have hquiet : s.Quiet j (s.changeState (fun st => { st with phase := .destroyed }) j) :=
      .changeState (f := fun st => { st with phase := .destroyed }) (fun _ _ => nofun) j
    refine ⟨((hu.leave (Set.empty_subset F)).quiet hw hquiet).deed (.note _ trivial), fun hp => ?_, hwhole⟩
    have hst := congrArg SpaceState.phase (s.state_changeState (fun st => { st with phase := .destroyed }) j)
    cases hst.symm.trans hp

theorem goes_destroy (h : (Operation.destroy s d).Called S env m) :
    Goes S (some ((Operation.destroy s d).turn env)) m ((Operation.destroy s d).after env m) := by
  show Goes S _ m ((s.destroy d).after env m)
  by_cases hp : (s.state m).phase = .active
  · by_cases hf : (s.state m).inFlight = 0
    · have hs : (Object.space s).Sound m := h.order.sound _ h.mem
      obtain ⟨others, own, ho⟩ := hs.2 (hs.1 hp)
      have hset := ((Working.start h rfl ho).quiet rfl (.closing m)).settle (ε := TableError) h rfl
        fun _ => rfl
      have hend : (s.state (s.closing m)).phase ≠ .active := by
        unfold Space.closing
        rw [s.state_changeState]
        exact nofun
      have hruns : (s.destroy d).after env m = (do
          let flushed ← s.settle d
          s.finish
          pure flushed : Act σ TableError Nat).after env (s.closing m) := by
        unfold Act.after
        rw [s.destroy_runs hp hf]
      rw [hruns, Act.after_bind]
      unfold Act.after at hset
      cases hr : (s.settle d : Act σ TableError Nat) env (s.closing m) with
      | error e n =>
        rw [hr] at hset
        exact h.finish hset.underway hset.sound fun hb => absurd hb (h.busy ⟨hp, hf⟩)
      | ok a n =>
        rw [hr] at hset
        obtain ⟨hu, hsound⟩ := hset.finish rfl hend env
        have hlast : (s.finish >>= fun _ => pure a : Act σ TableError Nat).after env n
            = (s.finish : Act σ TableError Unit).after env n := by
          rw [Act.after_bind]
          unfold Act.after
          cases (s.finish : Act σ TableError Unit) env n <;> rfl
        show Goes S _ m ((s.finish >>= fun _ => pure a : Act σ TableError Nat).after env n)
        rw [hlast]
        exact h.finish hu hsound fun hb => absurd hb (h.busy ⟨hp, hf⟩)
    · rw [Act.after_of_error (s.destroy_waits hp hf)]
      exact goes_quiet h rfl (.closing m)
  · rw [Act.after_of_error (s.destroy_ended hp)]
    exact .refl h.order

end

end NestedPaging
