import NestedPaging.Proofs.Space.Creation
import NestedPaging.Proofs.Objects.PageAccesses
import NestedPaging.Proofs.Space.Lifecycle
import NestedPaging.Proofs.Tree.AccessInvariants

/-!
# What a space takes it gives back

Whatever is done to a space, it accesses its own pages only, and a destruction that ends well leaves it
without any. So each page was given back as often as it was taken.

* `Space.Life s m n`     runs in which every sync and every destruction comes back;
* `Space.Grown`          while the space is active, its tree owns the pages that it took;
* `Space.Gone`           after its end it holds none;
* `life_active`          by induction on the run, for every choice of the pages of others at once, since
                         a sync entrusts the pages that it took to others while it waits.
-/

namespace NestedPaging

open Machine (Deed Deeds)

variable {σ ε α : Type}

namespace Space

/-- runs on `s` in which every sync and every destruction comes back -/
inductive Life (s : Space) : Machine σ → Machine σ → Prop
  | refl (m : Machine σ) : Life s m m
  | trans {m k n : Machine σ} : Life s m k → Life s k n → Life s m n
  /-- whoever runs the machine takes a note -/
  | client (m : Machine σ) (client : σ) : Life s m { m with client }
  /-- an operation, however it ends, with others at work whenever a page is asked for -/
  | op {env : Env σ} (op : SpaceOp) (m : Machine σ) : env.Honest →
      (∀ j, Life s j (env.supply j).1) → Life s m ((s.perform op).after env m)
  /-- a sync, with others at work during its shootdown -/
  | sync {d : Shootdown σ} (env : Env σ) (m : Machine σ) : (∀ j, Life s j (d.before j)) →
      (∀ n, s.sync d env m ≠ .error .stuck n) → Life s m ((s.sync d).after env m)
  | destroy {d : Shootdown σ} (env : Env σ) (m : Machine σ) : (∀ j, Life s j (d.before j)) →
      (∀ n, s.destroy d env m ≠ .error .stuck n) → Life s m ((s.destroy d).after env m)

end Space

/-- nothing happens to trees and pages -/
structure Machine.Still (m n : Machine σ) : Prop where
  memory : n.memory = m.memory
  live : n.live = m.live
  trees : n.trees = m.trees
  split : n.splitExecute = m.splitExecute
  logs : ∃ es, m.Logs es n ∧ ∀ e ∈ es, e.Plain

namespace Machine.Still
variable {m k n : Machine σ} {t : Tree}

theorem of_same (hm : n.memory = m.memory) (hl : n.live = m.live) (ht : n.trees = m.trees)
    (hs : n.splitExecute = m.splitExecute) (he : n.trace = m.trace) : m.Still n :=
  ⟨hm, hl, ht, hs, [], .refl he, nofun⟩

theorem refl (m : Machine σ) : m.Still m := of_same rfl rfl rfl rfl rfl

theorem trans (h : m.Still k) (h' : k.Still n) : m.Still n := by
  obtain ⟨es, he, hp⟩ := h.logs
  obtain ⟨fs, hf, hq⟩ := h'.logs
  refine ⟨h'.memory.trans h.memory, h'.live.trans h.live, h'.trees.trans h.trees,
    h'.split.trans h.split, es ++ fs, he.trans hf, fun e hm => ?_⟩
  rcases List.mem_append.mp hm with hm | hm
  · exact hp e hm
  · exact hq e hm

theorem note (m : Machine σ) {e : Event} (he : e.Plain) : m.Still (m.note e) := by
  refine ⟨rfl, rfl, rfl, rfl, [e], .note m e, fun e' he' => ?_⟩
  rw [List.mem_singleton.mp he']
  exact he

theorem tables (h : m.Still n) : t.tables n = t.tables m := by
  unfold Tree.tables Tree.state
  rw [h.memory, h.trees, h.live, h.split]

theorem deeds (h : m.Still n) (F : Set Nat) : Deeds (fun _ _ => True) F m F n :=
  .aside h.memory h.live h.logs trivial

end Machine.Still

open Machine (Still)

namespace Space
variable {s : Space} {others : Nat → Prop} {own own' : Layout} {m k n : Machine σ} {d : Shootdown σ}
  {env : Env σ} {F : Set Nat} {w : Nat}

theorem Life.run (h : s.Life m n) : Run s.all m n := by
  induction h with
  | refl m => exact .refl m
  | trans _ _ ih ih' => exact ih.trans ih'
  | client m client => exact .client m client
  | op op m _ _ ih => exact .call (c := .on s op) m ⟨op, rfl⟩ trivial ih
  | sync env m _ _ ih => exact .sync env m rfl ih
  | destroy env m _ _ ih => exact .destroy env m rfl ih

/-! ## a space that is not active -/

theorem still_changeState (s : Space) (f : SpaceState → SpaceState) (m : Machine σ) :
    m.Still (s.changeState f m) := .of_same rfl rfl rfl rfl rfl

theorem still_flush (s : Space) (c : CpuId) (m : Machine σ) : m.Still (s.flush c m) := by
  refine ⟨rfl, rfl, rfl, rfl, _, s.logs_flush c m, fun e he => ?_⟩
  rcases List.mem_append.mp he with he | he
  · rw [Machine.eq_of_mem_loadOf he]
    trivial
  · rw [List.mem_singleton.mp he]
    trivial

theorem still_turn (s : Space) (c : CpuId) (m : Machine σ) : m.Still (s.turn c m) := by
  unfold turn
  split
  · exact s.still_flush c m
  · refine ⟨rfl, rfl, rfl, rfl, _, (s.unmark c m).logs_switch s.root.kind c s.value, fun e he => ?_⟩
    rw [Machine.eq_of_mem_loadOf he]
    trivial

theorem still_flushAll (s : Space) (cs : List CpuId) (m : Machine σ) : m.Still (s.flushAll cs m) := by
  induction cs generalizing m with
  | nil => exact .refl m
  | cons c cs ih => exact (s.still_flush c m).trans (ih _)

theorem still_ended {body : Act σ TableError α} (h : (s.state m).phase ≠ .active) :
    m.Still ((s.whileActive body).after env m) := by
  rw [s.whileActive_after, if_neg h]
  exact (s.still_changeState _ m).trans (s.still_changeState _ _)

/-- in every run on a space that is not active, its pages stay as they are -/
theorem still_run (hr : Run s.all m n) (hp : (s.state m).phase ≠ .active) : m.Still n := by
  induction hr with
  | refl m => exact .refl m
  | trans h _ ih ih' => exact (ih hp).trans (ih' ((ages_run h).ended hp))
  | client m client => exact .of_same rfl rfl rfl rfl rfl
  | @call c env m hc _ _ _ =>
    obtain ⟨op, rfl⟩ := hc
    cases op with
    | update p order =>
      show m.Still (Act.after ((fun _ => ()) <$> s.update p order) env m)
      rw [Act.after_map]
      exact still_ended hp
    | install p pages => exact still_ended hp
    | lookup a => exact .refl m
    | invalidate c => exact still_ended hp
    | activate c => exact still_ended hp
    | flushLocal c =>
      show m.Still ((s.flushLocal c : Act σ TableError Unit).after env m)
      rw [Act.after_of_ok (s.flushLocal_apply c env m)]
      exact s.still_flush c m
    | markDirty c => exact s.still_changeState _ m
  | sync env m hs _ _ =>
    obtain rfl := hs
    exact still_ended hp
  | destroy env m hs _ _ =>
    obtain rfl := hs
    rw [Act.after_of_error (destroy_ended _ hp)]
    exact .refl m

/-! ## an active space -/

/-- since `m`, when it held the pages `F`, the space only accessed pages of its own; now it is active,
its tree owns its pages, and there are `w` walks -/
structure Grown (s : Space) (others : Nat → Prop) (F : Set Nat) (m : Machine σ) (w : Nat)
    (own : Layout) (n : Machine σ) : Prop where
  owns : s.tree.Owns others own (s.tree.tables n)
  deeds : Deeds (fun _ _ => True) F m own.frames n
  split : n.splitExecute = m.splitExecute
  phase : (s.state n).phase = .active
  inFlight : (s.state n).inFlight = (s.state m).inFlight
  walkers : (s.tree.state n).walkers = w

/-- since `m`, when it held the pages `F`, the space came to its end -/
structure Gone (s : Space) (F : Set Nat) (m n : Machine σ) : Prop where
  inFlight : (s.state m).inFlight = 0
  phase : (s.state n).phase ≠ .active
  released : (s.tree.tables n).released = true
  deeds : Deeds (fun _ _ => True) F m ∅ n

namespace Grown

theorem refl (ho : s.tree.Owns others own (s.tree.tables m)) (hp : (s.state m).phase = .active) :
    s.Grown others own.frames m (s.tree.state m).walkers own m := ⟨ho, .refl, rfl, hp, rfl, rfl⟩

theorem trans (h : s.Grown others F m w own k)
    (h' : s.Grown others own.frames k (s.tree.state k).walkers own' n) :
    s.Grown others F m w own' n :=
  ⟨h'.owns, h.deeds.trans h'.deeds, h'.split.trans h.split, h'.phase, h'.inFlight.trans h.inFlight,
    h'.walkers.trans h.walkers⟩

theorem still (h : s.Grown others F m w own k) (hs : k.Still n)
    (hp : (s.state n).phase = (s.state k).phase) (hf : (s.state n).inFlight = (s.state k).inFlight) :
    s.Grown others F m w own n := by
  refine ⟨?_, h.deeds.trans (hs.deeds _), hs.split.trans h.split, hp.trans h.phase, hf.trans h.inFlight, ?_⟩
  · rw [hs.tables]
    exact h.owns
  · unfold Tree.state
    rw [hs.trees]
    exact h.walkers

/-- an operation comes back -/
theorem leave (h : s.Grown others F (s.enter m) w own n) :
    s.Grown others F m w own (s.leave n) := by
  have hf := h.inFlight
  unfold Space.enter at hf
  rw [state_changeState] at hf
  refine ⟨?_, ?_, h.split, (s.phase_leave n).trans h.phase, ?_, h.walkers⟩
  · rw [tables_leave]
    exact h.owns
  · exact ((s.still_changeState _ m).deeds F).trans (h.deeds.trans ((s.still_changeState _ n).deeds _))
  · unfold Space.leave
    rw [state_changeState, hf, Nat.add_sub_cancel]

end Grown

theorem inFlight_enter (m : Machine σ) : (s.state (s.enter m)).inFlight ≠ 0 := by
  unfold enter
  rw [state_changeState]
  exact Nat.succ_ne_zero _

/-- what a run makes of a space that holds the pages of `own` -/
def Leads (s : Space) (others : Nat → Prop) (own : Layout) (m n : Machine σ) : Prop :=
  (∃ own', s.Grown others own.frames m (s.tree.state m).walkers own' n ∧
    ((s.tree.state m).walkers ≠ 0 → own'.Extends own)) ∨ s.Gone own.frames m n

theorem leads_whileActive {body : Act σ TableError α} (ho : s.tree.Owns others own (s.tree.tables m))
    (hp : (s.state m).phase = .active)
    (hb : s.tree.Owns others own (s.tree.tables (s.enter m)) → (s.state (s.enter m)).phase = .active →
      ∃ own', s.Grown others own.frames (s.enter m) (s.tree.state m).walkers own'
          (body.after env (s.enter m)) ∧ ((s.tree.state m).walkers ≠ 0 → own'.Extends own)) :
    s.Leads others own m ((s.whileActive body).after env m) := by
  rw [s.whileActive_after, if_pos hp]
  obtain ⟨own', hg, hx⟩ := hb (by rw [tables_enter]; exact ho) ((s.phase_enter m).trans hp)
  exact .inl ⟨own', hg.leave, hx⟩

/-- what an update of the tree needs to know of a space, so that nested runs may work on it -/
theorem sustains (others : Nat → Prop) (F : Set Nat) (m : Machine σ) (w : Nat) (hh : env.Honest)
    (hf : (s.state m).inFlight ≠ 0)
    (ih : ∀ j others own, s.tree.Owns others own (s.tree.tables j) → (s.state j).phase = .active →
      s.Leads others own j (env.supply j).1) :
    s.tree.Sustains env (s.Grown others F m w) (s.Grown others F m (w + 1)) := by
  have hcount : ∀ {own n} {f : TreeState → TreeState} {w w' : Nat}, s.Grown others F m w own n →
      (∀ st, (f st).retired = st.retired) → (∀ st, (f st).released = st.released) →
      (f (s.tree.state n)).walkers = w' → s.Grown others F m w' own (s.tree.changeState f n) := by
    intro own n f w w' h hr hd hw
    refine ⟨?_, h.deeds.trans (.aside rfl rfl ⟨[], .refl rfl, nofun⟩ trivial), h.split, h.phase,
      h.inFlight, ?_⟩
    · rw [(Tree.alike_changeState n hr hd).tables]
      exact h.owns
    · unfold Tree.state Tree.changeState
      rw [Cells.get_modify, if_pos rfl]
      exact hw
  refine {
    honest := hh
    owns := fun h => ⟨others, h.owns⟩
    enter := fun h => ?_
    leave := fun h => ?_
    moves := fun h hm => ?_
    supply := fun {own j} h => ?_ }
  · exact hcount h (fun _ => rfl) (fun _ => rfl) (congrArg (· + 1) h.walkers)
  · exact hcount h (fun _ => rfl) (fun _ => rfl) (congrArg (· - 1) h.walkers)
  · have ho : s.tree.OwnsAt others _ _ .idle := h.owns
    have hl := hm.local
    have hst := congrArg (·.get s.cell) hl.spaces
    exact ⟨(hm.owns ho).2, h.deeds.trans (hm.deeds ho fun _ => trivial), hl.split.trans h.split,
      (congrArg SpaceState.phase hst).trans h.phase, (congrArg SpaceState.inFlight hst).trans h.inFlight,
      hl.walkers.trans h.walkers⟩
  · rcases ih j others own h.owns h.phase with ⟨own', hg, hx⟩ | hgone
    · refine ⟨own', hx ?_, h.trans hg, hg.split⟩
      rw [h.walkers]
      exact Nat.succ_ne_zero w
    · exact absurd (h.inFlight.symm.trans hgone.inFlight) hf

/-! ## operations -/

section
variable (ho : s.tree.Owns others own (s.tree.tables m)) (hp : (s.state m).phase = .active)
include ho hp

theorem leads_perform (op : SpaceOp) (hh : env.Honest)
    (ih : ∀ j others own, s.tree.Owns others own (s.tree.tables j) → (s.state j).phase = .active →
      s.Leads others own j (env.supply j).1) :
    s.Leads others own m ((s.perform op).after env m) := by
  have hstart : s.Grown others own.frames m (s.tree.state m).walkers own m := .refl ho hp
  have hsustains := sustains others own.frames (s.enter m) (s.tree.state m).walkers hh
    (inFlight_enter m) ih
  cases op with
  | update p order =>
    show s.Leads others own m (Act.after ((fun _ => ()) <$> s.update p order) env m)
    rw [Act.after_map]
    refine leads_whileActive ho hp fun ho' hp' => ?_
    obtain ⟨own', hx, hg⟩ := hsustains.update p order (.refl ho' hp')
    exact ⟨own', hg, fun _ => hx⟩
  | install p pages =>
    refine leads_whileActive ho hp fun ho' hp' => ?_
    obtain ⟨own', hx, hg⟩ := hsustains.install p pages (.refl ho' hp')
    exact ⟨own', hg, fun _ => hx⟩
  | lookup a => exact .inl ⟨own, hstart, fun _ => .refl own⟩
  | invalidate c =>
    refine leads_whileActive ho hp fun ho' hp' => ⟨own, ?_, fun _ => .refl own⟩
    rw [Act.after_of_ok (s.flushLocal_apply c env _)]
    exact (Grown.refl ho' hp').still (s.still_flush c _) (s.phase_flush ..) (Ages.flush c _).inFlight
  | activate c =>
    refine leads_whileActive ho hp fun ho' hp' => ⟨own, ?_, fun _ => .refl own⟩
    rw [Act.after_of_ok (s.activate_body c env _)]
    exact (Grown.refl ho' hp').still (s.still_turn c _)
      (s.phase_turn c _) (Ages.turn c _).inFlight
  | flushLocal c =>
    show s.Leads others own m ((s.flushLocal c : Act σ TableError Unit).after env m)
    rw [Act.after_of_ok (s.flushLocal_apply c env m)]
    exact .inl ⟨own, hstart.still (s.still_flush c m) s.phase_flush (Ages.flush c m).inFlight,
      fun _ => .refl own⟩
  | markDirty c =>
    have hst := s.state_changeState (fun st => { st with dirty := st.dirty.insert c }) m
    refine .inl ⟨own, hstart.still (s.still_changeState _ m) ?_ ?_, fun _ => .refl own⟩
    · exact (congrArg SpaceState.phase hst).trans rfl
    · exact (congrArg SpaceState.inFlight hst).trans rfl

omit ho hp in
/-- to mark all processors and to empty the list of detached tables is no deed on pages -/
theorem deeds_opened (F : Set Nat) (m : Machine σ) : Deeds (fun _ _ => True) F m F (s.opened m) :=
  .aside rfl rfl ⟨_, s.logs_opened m, fun e he => by
    rw [List.mem_singleton.mp he]
    trivial⟩ trivial

omit hp in
/-- what was detached belongs to others while a sync waits -/
theorem owns_opened : s.tree.Owns (s.tree.entrusted others (s.tree.tables m))
    (own.without (s.tree.retiredPages (s.tree.tables m))) (s.tree.tables (s.opened m)) := by
  rw [tables_opened]
  exact ho.take rfl rfl rfl rfl fun _ => Iff.rfl

theorem grown_shot (hf : (s.state m).inFlight ≠ 0)
    (ih : ∀ j others own, s.tree.Owns others own (s.tree.tables j) → (s.state j).phase = .active →
      s.Leads others own j (d.before j)) :
    ∃ own', s.Grown (s.tree.entrusted others (s.tree.tables m))
        (own.without (s.tree.retiredPages (s.tree.tables m))).frames (s.opened m)
        (s.tree.state m).walkers own' (s.shot d (s.opened m)) ∧
      ((s.tree.state m).walkers ≠ 0 →
        own'.Extends (own.without (s.tree.retiredPages (s.tree.tables m)))) := by
  have hw := (Ages.opened (s := s) m).walkers
  rcases ih _ _ _ (owns_opened ho) ((s.phase_opened m).trans hp) with ⟨own', hg, hx⟩ | hgone
  · rw [hw] at hg hx
    exact ⟨own', hg.still (s.still_flushAll _ _) s.phase_flushAll (Ages.flushAll _ _).inFlight, hx⟩
  · exact absurd ((Ages.opened (s := s) m).inFlight.symm.trans hgone.inFlight) hf

omit hp in
/-- the pages that a sync took are given back as they were -/
theorem grown_settled {w : Nat} (hg : s.Grown (s.tree.entrusted others (s.tree.tables m))
      (own.without (s.tree.retiredPages (s.tree.tables m))).frames (s.opened m) w own'
      (s.shot d (s.opened m))) :
    s.Grown others own.frames m w own' (s.settled d m) := by
  have ho' := owns_opened ho
  have hd := hg.deeds
  have htaken : s.takenPages m (s.shot d (s.opened m)) = s.tree.retiredPages (s.tree.tables m) :=
    List.flatMap_congr fun _ hr => ho.subtree_spared (ho'.spares hd) hr
  have hfree : s.settled d m
      = (s.shot d (s.opened m)).giveBackAll (s.tree.retiredPages (s.tree.tables m)) := by
    rw [← htaken]
    rfl
  -- what was taken stays with others until it is given back
  have haside : ∀ i ∈ s.tree.retiredFrames (s.tree.tables m),
      Machine.Elsewhere (own.without (s.tree.retiredPages (s.tree.tables m))).frames (s.opened m) i :=
    fun i hi => ho'.elsewhere (.inr hi)
  have hout : (own'.frames ∪ s.tree.retiredFrames (s.tree.tables m))
      \ s.tree.retiredFrames (s.tree.tables m) = own'.frames :=
    Set.union_sdiff_cancel_right fun i hi => (hd.elsewhere (haside i hi.2)).1.2 hi.1
  have hgive := Deeds.giveBackAll (R := fun _ _ => True) (s.shot d (s.opened m)) ho.nodup_retired
    (F := own'.frames ∪ s.tree.retiredFrames (s.tree.tables m)) fun p hp => .inr ⟨p, hp, rfl⟩
  rw [← hfree] at hgive
  have hsame := Machine.giveBackAll_same (s.shot d (s.opened m)) (s.takenPages m (s.shot d (s.opened m)))
  have hst := s.state_settled d m
  have hspace : s.state (s.settled d m) = s.state (s.shot d (s.opened m)) :=
    congrArg (·.get s.cell) (Machine.giveBackAll_processors _ _).2
  refine ⟨?_, ?_, hsame.2.2.1.trans hg.split, ?_, ?_, ?_⟩
  · refine ho.givenBack hg.owns hsame.1 hsame.2.2.1 (s.retired_settled d m) ?_ fun i => ?_
    · unfold Tree.tables
      rw [hst]
    · rw [← htaken]
      exact Machine.mem_live_giveBackAll
  · have hframe := hd.frame haside
    rw [ho.frames_without] at hframe
    rw [← hout]
    exact ((deeds_opened own.frames m).trans hframe).trans hgive
  · rw [hspace]
    exact hg.phase
  · rw [hspace]
    exact hg.inFlight.trans (Ages.opened m).inFlight
  · rw [hst]
    exact hg.walkers

/-- a sync that comes back gives back the pages that it took -/
theorem leads_sync (env : Env σ)
    (ih : ∀ j others own, s.tree.Owns others own (s.tree.tables j) → (s.state j).phase = .active →
      s.Leads others own j (d.before j))
    (hns : ∀ n, s.sync d env m ≠ .error .stuck n) : s.Leads others own m ((s.sync d).after env m) := by
  refine leads_whileActive ho hp fun ho' hp' => ?_
  obtain ⟨own', hg, hx⟩ := grown_shot ho' hp' (inFlight_enter m) ih
  have hfree : s.MayFree (s.enter m) (s.shot d (s.opened (s.enter m))) := by
    by_contra hstuck
    refine hns (s.leave (s.shot d (s.opened (s.enter m)))) ((s.whileActive_active hp).trans ?_)
    unfold Act.ensuring
    rw [s.settle_stuck env hstuck]
  rw [Act.after_of_ok (s.settle_ok env hfree)]
  refine ⟨own', grown_settled ho' hg, fun hw => ?_⟩
  -- while somebody walks, it took none
  have hnone : (s.tree.tables (s.enter m)).retired = [] :=
    hfree.resolve_left fun h => hw (hg.walkers.symm.trans h)
  refine (hx hw).trans fun p r hr => Layout.without_eq_some.mpr ⟨?_, hr⟩
  unfold Tree.retiredPages
  rw [hnone]
  exact List.not_mem_nil

omit hp in
/-- while nothing happens to the pages, the detached tables are given back -/
theorem owns_still (hs : (s.opened m).Still (s.shot d (s.opened m))) :
    s.tree.Owns others (own.without (s.tree.retiredPages (s.tree.tables m)))
        (s.tree.tables (s.settled d m)) ∧
      Deeds (fun _ _ => True) own.frames m
        (own.without (s.tree.retiredPages (s.tree.tables m))).frames (s.settled d m) := by
  have htaken : s.takenPages m (s.shot d (s.opened m)) = s.tree.retiredPages (s.tree.tables m) := by
    unfold takenPages
    rw [hs.memory]
    rfl
  have hfree : s.settled d m
      = (s.shot d (s.opened m)).giveBackAll (s.tree.retiredPages (s.tree.tables m)) := by
    rw [← htaken]
    rfl
  have hlive : ∀ i, (s.tree.tables (s.settled d m)).inUse i ↔ (s.tree.tables m).inUse i ∧
      ∀ p ∈ s.tree.retiredPages (s.tree.tables m), p.frame ≠ i := fun i => by
    show i ∈ (s.settled d m).live ↔ i ∈ m.live ∧ _
    rw [hfree, Machine.mem_live_giveBackAll, hs.live]
    rfl
  have hsame := Machine.giveBackAll_same (s.shot d (s.opened m)) (s.takenPages m (s.shot d (s.opened m)))
  refine ⟨ho.reclaimed (hsame.1.trans hs.memory) (hsame.2.2.1.trans hs.split) ?_ ?_ hlive, ?_⟩
  · rw [retired_settled, hs.tables, tables_opened]
  · have hr : (s.tree.tables (s.settled d m)).released
        = (s.tree.tables (s.shot d (s.opened m))).released :=
      congrArg TreeState.released (s.state_settled d m)
    rw [hr, hs.tables, tables_opened]
  · rw [hfree]
    exact ((deeds_opened own.frames m).trans (hs.deeds _)).trans (ho.deeds_giveBackAll _)

omit hp in
/-- the end of a space gives back all its pages -/
theorem finish_gone (env : Env σ) (hd : s.tree.Drained m) :
    ∃ n, s.finish env m = .ok () n ∧ (s.state n).phase = .destroyed ∧
      (s.tree.tables n).released = true ∧ Deeds (fun _ _ => True) own.frames m ∅ n := by
  have hgive := Deeds.giveBackAll (R := fun _ _ => True) (s.tree.forgetRetired (s.tree.markReleased m))
    ho.nodup_frames (F := own.frames) fun p hp => by
      obtain ⟨r, hr⟩ := ho.mem_pages_iff.mp hp
      exact ⟨p, r, hr, rfl⟩
  rw [ho.frames_pages, Set.sdiff_self] at hgive
  have hmark : Deeds (fun _ _ => True) own.frames m own.frames
      (s.tree.forgetRetired (s.tree.markReleased m)) :=
    .aside rfl rfl ⟨[], .refl rfl, nofun⟩ trivial
  obtain ⟨k, hk⟩ : ∃ k, (s.tree.forgetRetired (s.tree.markReleased m)).giveBackAll
      (s.tree.pages (s.tree.tables m)) = k := ⟨_, rfl⟩
  have hreleased := s.tree.released_giveBackAll (m := m) (s.tree.pages (s.tree.tables m))
  rw [hk] at hgive hreleased
  have hend : k.Still ((s.changeState (fun st => { st with phase := .destroyed }) k).note
      (.logged .debug ("Destroyed space " ++ s.tag.text))) :=
    (s.still_changeState _ k).trans (.note _ trivial)
  refine ⟨_, ?_, ?_, ?_, (hmark.trans hgive).trans (hend.deeds ∅)⟩
  · unfold finish
    rw [Act.bind_apply, s.tree.release_ok env hd ho.unreleased, hk]
    rfl
  · exact congrArg SpaceState.phase (s.state_changeState ..)
  · rw [hend.tables]
    exact hreleased

/-- a destruction that comes back gives back every page -/
theorem gone_destroy (env : Env σ) (hb : ∀ j, Run s.all j (d.before j))
    (hns : ∀ n, s.destroy d env m ≠ .error .stuck n) :
    s.Gone own.frames m ((s.destroy d).after env m) := by
  have hf : (s.state m).inFlight = 0 := by
    by_contra hf
    exact hns _ (s.destroy_waits hp hf)
  obtain ⟨c, hc⟩ : ∃ c, s.closing m = c := ⟨_, rfl⟩
  have htables : s.tree.tables c = s.tree.tables m := by
    rw [← hc]
    exact (s.still_changeState _ m).tables
  -- the shootdown is refused everything
  have hclosed : (s.state (s.opened c)).phase ≠ .active := by
    rw [s.phase_opened, ← hc]
    unfold closing
    rw [state_changeState]
    exact nofun
  have hstill : (s.opened c).Still (s.shot d (s.opened c)) :=
    (still_run (hb _) hclosed).trans (s.still_flushAll _ _)
  have hrest : s.destroy d env m = _ := s.destroy_runs hp hf
  rw [hc] at hrest
  have hfree : s.MayFree c (s.shot d (s.opened c)) := by
    by_contra hstuck
    refine hns (s.shot d (s.opened c)) (hrest.trans ?_)
    rw [Act.bind_apply, s.settle_stuck env hstuck]
  obtain ⟨hsettled, hdeeds⟩ := owns_still (htables ▸ ho) hstill
  have hclose : Deeds (fun _ _ => True) own.frames m own.frames c := by
    rw [← hc]
    exact (s.still_changeState _ m).deeds _
  obtain ⟨n, hn, hphase, hreleased, hgone⟩ := finish_gone hsettled env
    (.inr ((s.retired_settled d c).trans (by rw [hstill.tables, tables_opened])))
  have hend : s.destroy d env m
      = .ok (s.targets d (d.before (s.opened c))).length n := by
    rw [hrest, Act.bind_apply, s.settle_ok env hfree]
    simp only [Act.bind_apply, hn, Act.pure_apply]
  rw [Act.after_of_ok hend]
  refine ⟨hf, ?_, hreleased, (hclose.trans hdeeds).trans hgone⟩
  rw [hphase]
  exact nofun

end

/-! ## runs -/

theorem Gone.still (h : s.Gone F m k) (hr : Run s.all k n) : s.Gone F m n := by
  have hs := still_run hr h.phase
  refine ⟨h.inFlight, (ages_run hr).ended h.phase, ?_, h.deeds.trans (hs.deeds ∅)⟩
  rw [hs.tables]
  exact h.released

/-- in every run an active space accesses pages of its own only, and holds none after its end -/
theorem life_active (hr : s.Life m n) : ∀ others own, s.tree.Owns others own (s.tree.tables m) →
    (s.state m).phase = .active → s.Leads others own m n := by
  induction hr with
  | refl m => exact fun others own ho hp => .inl ⟨own, .refl ho hp, fun _ => .refl own⟩
  | @trans m k n h h' ih ih' =>
    intro others own ho hp
    rcases ih others own ho hp with ⟨own', hg, hx⟩ | hgone
    · rcases ih' others own' hg.owns hg.phase with ⟨own'', hg', hx'⟩ | hgone
      · refine .inl ⟨own'', hg.trans hg', fun hw => (hx' ?_).trans (hx hw)⟩
        rw [hg.walkers]
        exact hw
      · exact .inr ⟨hg.inFlight.symm.trans hgone.inFlight, hgone.phase, hgone.released,
          hg.deeds.trans hgone.deeds⟩
    · exact .inr (hgone.still h'.run)
  | client m client =>
    exact fun others own ho hp => .inl ⟨own, ⟨ho, .aside rfl rfl ⟨[], .refl rfl, nofun⟩ trivial, rfl, hp,
      rfl, rfl⟩, fun _ => .refl own⟩
  | op op m hh _ ih => exact fun others own ho hp => leads_perform ho hp op hh ih
  | sync env m _ hns ih => exact fun others own ho hp => leads_sync ho hp env ih hns
  | destroy env m hb hns _ =>
    exact fun others own ho hp => .inr (gone_destroy ho hp env (fun j => (hb j).run) hns)

/-- a new space holds the page of its root -/
theorem grown_create {kind : Regime} {cleaner : Option Cleaner} {tag : RegimeTag} (hh : env.Honest)
    (h : Space.create kind cleaner tag env m = .ok s n) :
    ∃ own, s.tree.Owns (fun i => i ∈ (env.supply m).1.live) own (s.tree.tables n) ∧
      Deeds (fun _ _ => True) ∅ (env.supply m).1 own.frames n := by
  obtain ⟨_, _, j, hj, _, line, rfl⟩ := create_eq h
  obtain ⟨own, ho, _, hd⟩ := Tree.deeds_create hh hj (R := fun _ _ => True) fun _ _ _ => trivial
  refine ⟨own, ho, hd.trans (.aside rfl rfl ⟨_, .note j (.logged .debug line), fun e he => ?_⟩ trivial)⟩
  rw [List.mem_singleton.mp he]
  trivial

/-- the life of a space from its creation on, where its root was taken in `k` -/
structure Lives (s : Space) (k m₁ : Machine σ) : Prop where
  /-- it is active, then it is being destroyed, then it is destroyed -/
  phases : ∀ m n : Machine σ, Run s.all m n → (s.state m).phase.rank ≤ (s.state n).phase.rank
  /-- nothing is in flight between operations -/
  idle : ∀ m, Run s.all m₁ m → (s.state m).inFlight = 0
  /-- and a destruction does not wait there -/
  ends : ∀ m (d : Shootdown σ) (env : Env σ), Run s.all m₁ m → (∀ j, Run s.all j (d.before j)) →
    (s.state m).phase = .active →
    ∃ flushed n, s.destroy d env m = .ok flushed n ∧ (s.state n).phase = .destroyed
  /-- once it is not active, it refuses -/
  refuses : ∀ m n : Machine σ, (s.state m).phase ≠ .active → Run s.all m n → s.Refuses n
  /-- also what is done while a destruction waits for flushes -/
  shootdown : ∀ m n : Machine σ, Run s.all (s.opened (s.closing m)) n → s.Refuses n
  /-- a destruction that ends well leaves each page given back as often as it was taken -/
  freed : ∀ m n (d : Shootdown σ) (env : Env σ) flushed es, s.Life m₁ m → (∀ j, Run s.all j (d.before j)) →
    s.destroy d env m = .ok flushed n → k.Logs es n → ∀ i, takes i es = returns i es ∧
      ∀ gs hs, es = gs ++ hs → returns i gs ≤ takes i gs ∧ takes i gs ≤ returns i gs + 1
  /-- and then nothing is left to be given back -/
  dropped : ∀ m n n' (d : Shootdown σ) (env : Env σ) flushed, s.Life m₁ m →
    (∀ j, Run s.all j (d.before j)) → s.destroy d env m = .ok flushed n → Run s.all n n' →
    ∀ env', ∃ n'', (s.tree.release : Act σ TableError Unit) env' n' = .ok () n'' ∧
      Machine.Freed [] n' n''

/-- in every run a space lives once: its phase only goes on, between operations nothing is in flight, it
refuses everything from its end on, and what it took it gave back -/
theorem lives {kind : Regime} {cleaner : Option Cleaner} {tag : RegimeTag} {m₀ m₁ : Machine σ}
    (hh : env.Honest) (h : Space.create kind cleaner tag env m₀ = .ok s m₁) :
    s.Lives (env.supply m₀).1 m₁ := by
  obtain ⟨_, _, hnew, _⟩ := create_ok h
  obtain ⟨_, _, _, htree⟩ := tables_create h
  obtain ⟨own, ho, hd⟩ := grown_create hh h
  have hgone : ∀ {m n d env flushed}, s.Life m₁ m → (∀ j, Run s.all j (d.before j)) →
      s.destroy d env m = .ok flushed n → s.Gone own.frames m₁ n := by
    intro m n d env flushed hl hb hn
    rcases life_active hl _ own ho (by rw [hnew]) with ⟨own', hg, _⟩ | hgone
    · have hend := gone_destroy hg.owns hg.phase env hb fun n' hn' => by
        rw [hn] at hn'
        cases hn'
      rw [Act.after_of_ok hn] at hend
      exact ⟨hg.inFlight.symm.trans hend.inFlight, hend.phase, hend.released, hg.deeds.trans hend.deeds⟩
    · exact absurd (s.destroy_ok hn).1 hgone.phase
  constructor
  · exact fun m n hr => (ages_run hr).phase
  · intro m hr
    rw [(ages_run hr).inFlight, hnew]
  · intro m d env hr hb hp
    refine destroy_returns env (fun j => ages_run (hb j)) hp ?_ ?_
    · rw [(ages_run hr).inFlight, hnew]
    · rw [(ages_run hr).walkers, htree]
  · exact fun m n hp hr => s.refuses ((ages_run hr).ended hp)
  · intro m n hr
    refine s.refuses ((ages_run hr).ended ?_)
    rw [s.phase_opened]
    unfold closing
    rw [state_changeState]
    exact nofun
  · intro m n d env flushed es hl hb hn hes i
    obtain ⟨fs, hfs, hledger, hpre⟩ := (hd.trans (hgone hl hb hn).deeds).ledger fun i hi => hi.elim
    obtain rfl := List.append_cancel_left (hes.symm.trans hfs)
    refine ⟨?_, fun gs hs he => ?_⟩
    · have hi := hledger i
      rw [Nat.add_right_inj] at hi
      exact hi
    · obtain ⟨G, hG⟩ := hpre gs hs he
      exact hG.bounds i
  · intro m n n' d env flushed hl hb hn hr env'
    have hend := (hgone hl hb hn).still hr
    exact ⟨_, s.tree.release_again env' hend.released,
      .nil (s.tree.live_markReleased _) (s.tree.trace_markReleased _)⟩

/-- a space that is destroyed at once -/
theorem lives_destroyed : ∃ (s : Space) (flushed : Nat) (m₁ n : Machine Unit),
    Space.create .counting none ⟨1⟩ (.offering [1]) { client := () } = .ok s m₁ ∧
      s.Lives { client := () } m₁ ∧ s.destroy ⟨id, 1⟩ (.offering [1]) m₁ = .ok flushed n ∧
      (s.state n).phase = .destroyed ∧ s.Refuses n := by
  have hh : (Env.offering [1] : Env Unit).Honest := Env.honest_offering (by decide)
  have hs : (Env.offering [1] : Env Unit).supply { client := () }
      = ({ client := () }, some (.ofFrame 1)) := Env.offering_free Std.HashSet.not_mem_empty
  obtain ⟨s, m₁, hc, _⟩ := create_offered hs .counting none ⟨1⟩
  have hlives := lives hh hc
  rw [hs] at hlives
  have hactive : (s.state m₁).phase = .active := by
    rw [(create_ok hc).2.2.1]
  obtain ⟨flushed, n, hn, hp⟩ := hlives.ends m₁ ⟨id, 1⟩ (.offering [1]) (.refl m₁) (fun j => .refl j) hactive
  exact ⟨s, flushed, m₁, n, hc, hlives, hn, hp, hlives.refuses n n (by rw [hp]; exact nofun) (.refl n)⟩

end Space

end NestedPaging
