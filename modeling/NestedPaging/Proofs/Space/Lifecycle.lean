import NestedPaging.Proofs.Space.TreesAtRest

/-!
# The life of a space

A space is active, then it is being destroyed, then it is destroyed. What is counted while operations
run is counted back whatever their results, so a destruction between operations waits for nothing.

* `Space.Ages s m n`     the phase only goes on, and the operations in flight and the walks are as many
                         as before; every run keeps it (`ages_run`);
* `Space.Refuses s m`    each operation on the space ends with an error and changes nothing, as soon as
                         the space is not active any more (`refuses`);
* `destroy_returns`      a destruction ends well if nothing is in flight and nobody walks.
-/

namespace NestedPaging

variable {σ ε α β : Type}

/-- how far the life of a space is -/
def Phase.rank : Phase → Nat
  | active => 0
  | destroying => 1
  | destroyed => 2

theorem Phase.rank_le_destroyed (p : Phase) : p.rank ≤ destroyed.rank := by
  cases p <;> decide

/-- no field changed -/
structure Machine.Unchanged (m n : Machine σ) : Prop where
  rest : n = { m with spaces := n.spaces }
  spaces : ∀ i, n.spaces.get i = m.spaces.get i

namespace Space
variable {s : Space} {m k n : Machine σ} {d : Shootdown σ} {env : Env σ}

/-- all runs on the space `s` -/
abbrev all (s : Space) : Repertoire σ where
  call c := ∃ op, c = .on s op
  sync := (· = s)
  destroy := (· = s)
  env _ := True

/-- the life of the space goes on, and what was counted is counted back -/
structure Ages (s : Space) (m n : Machine σ) : Prop where
  phase : (s.state m).phase.rank ≤ (s.state n).phase.rank
  inFlight : (s.state n).inFlight = (s.state m).inFlight
  walkers : (s.tree.state n).walkers = (s.tree.state m).walkers

namespace Ages

theorem of_state (hs : s.state n = s.state m)
    (hw : (s.tree.state n).walkers = (s.tree.state m).walkers) : s.Ages m n := by
  refine ⟨?_, ?_, hw⟩
  · rw [hs]
  · rw [hs]

theorem of_same (hs : n.spaces = m.spaces) (ht : n.trees = m.trees) : s.Ages m n :=
  of_state (congrArg (·.get s.cell) hs) (congrArg (fun trees => (trees.get s.tree.cell).walkers) ht)

theorem refl (m : Machine σ) : s.Ages m m := of_same rfl rfl

theorem trans (h : s.Ages m k) (h' : s.Ages k n) : s.Ages m n :=
  ⟨h.phase.trans h'.phase, h'.inFlight.trans h.inFlight, h'.walkers.trans h.walkers⟩

theorem changeState {f : SpaceState → SpaceState} (m : Machine σ)
    (hp : ∀ st, st.phase.rank ≤ (f st).phase.rank) (hf : ∀ st, (f st).inFlight = st.inFlight) :
    s.Ages m (s.changeState f m) := by
  refine ⟨?_, ?_, rfl⟩
  · rw [state_changeState]
    exact hp _
  · rw [state_changeState]
    exact hf _

theorem bind {x : Act σ ε α} {f : α → Act σ ε β} (hx : x.Keeps s.Ages env)
    (hf : ∀ a, (f a).Keeps s.Ages env) : (x >>= f).Keeps s.Ages env :=
  Act.Keeps.bind (R := s.Ages) (fun _ _ _ => trans) hx hf

/-- an operation is in flight and comes back -/
theorem flight (h : s.Ages (s.enter m) n) : s.Ages m (s.leave n) := by
  have hp := h.phase
  have hf := h.inFlight
  unfold enter at hp hf
  rw [state_changeState] at hp hf
  refine ⟨?_, ?_, h.walkers⟩
  · unfold leave
    rw [state_changeState]
    exact hp
  · unfold leave
    rw [state_changeState, hf, Nat.add_sub_cancel]

theorem whileActive {body : Act σ TableError α} (hb : body.Keeps s.Ages env) :
    (s.whileActive body).Keeps s.Ages env := by
  intro m
  rw [s.whileActive_after]
  split
  · exact flight (hb _)
  · exact flight (refl _)

theorem flush (c : CpuId) (m : Machine σ) : s.Ages m (s.flush c m) :=
  (changeState m (f := fun st => { st with dirty := st.dirty.erase c }) (fun _ => Nat.le_refl _)
    fun _ => rfl).trans (of_same rfl rfl)

theorem turn (c : CpuId) (m : Machine σ) : s.Ages m (s.turn c m) := by
  unfold Space.turn
  split
  · exact flush c m
  · exact (changeState m (f := fun st => { st with dirty := st.dirty.erase c })
      (fun _ => Nat.le_refl _) fun _ => rfl).trans (of_same rfl rfl)

theorem flushAll (cs : List CpuId) (m : Machine σ) : s.Ages m (s.flushAll cs m) := by
  induction cs generalizing m with
  | nil => exact refl m
  | cons c cs ih => exact (flush c m).trans (ih (s.flush c m))

theorem allows (hs : ∀ m, s.Ages m (env.supply m).1) : s.tree.Allows env s.Ages where
  trans := trans
  works h := of_state (congrArg (·.get s.cell) h.spaces) h.walkers
  supply := hs
  walk h := ⟨h.phase, h.inFlight, Tree.walkers_leaveWalk h.walkers⟩

theorem perform (op : SpaceOp) (hs : ∀ m, s.Ages m (env.supply m).1) :
    (s.perform op).Keeps s.Ages env := by
  cases op with
  | update p order => exact .map _ (whileActive ((allows hs).update p order))
  | install p pages => exact whileActive ((allows hs).install p pages)
  | lookup a => exact fun m => refl m
  | invalidate c =>
    refine whileActive fun m => ?_
    rw [Act.after_of_ok (s.flushLocal_apply c env m)]
    exact flush c m
  | activate c =>
    refine whileActive fun m => ?_
    rw [Act.after_of_ok (s.activate_body c env m)]
    exact turn c m
  | flushLocal c =>
    intro m
    show s.Ages m ((s.flushLocal c : Act σ TableError Unit).after env m)
    rw [Act.after_of_ok (s.flushLocal_apply c env m)]
    exact flush c m
  | markDirty c => exact fun m => changeState m (fun _ => Nat.le_refl _) fun _ => rfl

theorem opened (m : Machine σ) : s.Ages m (s.opened m) := by
  have hforget : s.Ages m (s.tree.forgetRetired m) := .of_state rfl (s.tree.walkers_forgetRetired m)
  have hmark : s.Ages (s.tree.forgetRetired m) ((s.tree.forgetRetired m).note (.allDirty s.cell)) :=
    of_same rfl rfl
  exact hforget.trans (hmark.trans (changeState _ (f := fun st => { st with dirty := .all })
    (fun _ => Nat.le_refl _) fun _ => rfl))

theorem giveBackAll (m : Machine σ) (ps : List PhysAddr) : s.Ages m (m.giveBackAll ps) :=
  of_same (m.giveBackAll_processors ps).2 (m.giveBackAll_same ps).2.1

section
variable (hb : ∀ j, s.Ages j (d.before j))
include hb

theorem shot (m : Machine σ) : s.Ages m (s.shot d (s.opened m)) :=
  ((opened m).trans (hb _)).trans (flushAll _ _)

theorem settle : (s.settle d : Act σ ε Nat).Keeps s.Ages env := by
  intro m
  rcases s.settle_after (ε := ε) d env m with h | ⟨h, _⟩
  · rw [h]
    exact (shot hb m).trans (giveBackAll _ _)
  · rw [h]
    exact shot hb m

end

theorem freeRetired (refs : List TableRef) :
    (s.tree.freeRetired refs : Act σ ε Unit).Keeps s.Ages env := by
  intro m
  by_cases h : (s.tree.state m).walkers = 0 ∨ refs = []
  · rw [Act.after_of_ok (s.tree.freeRetired_ok env h)]
    exact giveBackAll m _
  · rw [Act.after_of_error (s.tree.freeRetired_stuck env h)]
    exact refl m

theorem release : (s.tree.release : Act σ ε Unit).Keeps s.Ages env := by
  refine bind (fun m => refl m) fun released =>
    bind (fun m => of_state rfl (s.tree.walkers_markReleased m)) fun _ => ?_
  cases released with
  | true => exact fun m => refl m
  | false =>
    refine bind (bind (fun m => of_state rfl (s.tree.walkers_forgetRetired m)) fun refs =>
      freeRetired refs) fun _ m => ?_
    rw [Act.after_of_ok (s.tree.freeSubtree_ok env _ _ m)]
    exact giveBackAll m _

theorem finish : (s.finish : Act σ TableError Unit).Keeps s.Ages env := by
  refine bind release fun _ => bind (fun m => ?_) fun _ m => of_same rfl rfl
  exact changeState m (f := fun st => { st with phase := .destroyed })
    (fun st => st.phase.rank_le_destroyed) fun _ => rfl

theorem closing (m : Machine σ) (h : (s.state m).phase = .active) : s.Ages m (s.closing m) := by
  unfold Space.closing
  refine ⟨?_, ?_, rfl⟩
  · rw [state_changeState, h]
    exact Nat.zero_le _
  · rw [state_changeState]

theorem destroy (hb : ∀ j, s.Ages j (d.before j)) : (s.destroy d).Keeps s.Ages env := by
  intro m
  by_cases hp : (s.state m).phase = .active
  · by_cases hf : (s.state m).inFlight = 0
    · have hrest : (do
          let flushed ← s.settle d
          s.finish
          pure flushed : Act σ TableError Nat).Keeps s.Ages env :=
        bind (settle hb) fun flushed => bind finish fun _ m => refl m
      have hend := (closing m hp).trans (hrest (s.closing m))
      unfold Act.after at hend ⊢
      rw [s.destroy_runs hp hf]
      exact hend
    · rw [Act.after_of_error (s.destroy_waits hp hf)]
      exact closing m hp
  · rw [Act.after_of_error (s.destroy_ended hp)]
    exact refl m

end Ages

/-- every run on a space keeps its life going on, and counts back what it counts -/
theorem ages_run (hr : Run s.all m n) : s.Ages m n := by
  induction hr with
  | refl m => exact .refl m
  | trans _ _ ih ih' => exact ih.trans ih'
  | client m client => exact .of_same rfl rfl
  | call m hc _ _ ih =>
    obtain ⟨op, rfl⟩ := hc
    exact Ages.perform op ih m
  | sync env m hs _ ih =>
    obtain rfl := hs
    exact Ages.whileActive (Ages.settle ih) m
  | destroy env m hs _ ih =>
    obtain rfl := hs
    exact Ages.destroy ih m

/-! ## a space that is not active -/

/-- every operation on the space ends with an error, or finds nothing, and changes nothing -/
structure Refuses (s : Space) (m : Machine σ) : Prop where
  update : ∀ (env : Env σ) p order, ∃ n,
    s.update p order env m = .error (.failed .spaceDestroyed) n ∧ m.Unchanged n
  install : ∀ (env : Env σ) p pages, ∃ n,
    s.install p pages env m = .error (.failed .spaceDestroyed) n ∧ m.Unchanged n
  sync : ∀ (env : Env σ) d, ∃ n,
    s.sync d env m = .error (.failed .spaceDestroyed) n ∧ m.Unchanged n
  invalidate : ∀ (env : Env σ) c, ∃ n,
    s.invalidate c env m = .error (.failed .spaceDestroyed) n ∧ m.Unchanged n
  activate : ∀ (env : Env σ) c, ∃ n,
    s.activate c env m = .error (.failed .spaceDestroyed) n ∧ m.Unchanged n
  destroy : ∀ (env : Env σ) d, s.destroy d env m = .error (.failed .spaceDestroyed) m
  lookup : ∀ (env : Env σ) a, (s.lookup a : Act σ TableError _) env m = .ok none m

theorem unchanged_leave_enter (s : Space) (m : Machine σ) : m.Unchanged (s.leave (s.enter m)) := by
  refine ⟨rfl, fun i => ?_⟩
  unfold leave enter changeState
  simp only [Cells.get_modify]
  split
  · simp
  · rfl

/-- a space that is not active refuses -/
theorem refuses (h : (s.state m).phase ≠ .active) : s.Refuses m where
  update _ _ _ := ⟨_, s.whileActive_ended h, s.unchanged_leave_enter m⟩
  install _ _ _ := ⟨_, s.whileActive_ended h, s.unchanged_leave_enter m⟩
  sync _ _ := ⟨_, s.whileActive_ended h, s.unchanged_leave_enter m⟩
  invalidate _ _ := ⟨_, s.whileActive_ended h, s.unchanged_leave_enter m⟩
  activate _ _ := ⟨_, s.whileActive_ended h, s.unchanged_leave_enter m⟩
  destroy _ _ := s.destroy_ended h
  lookup _ a := by
    show EStateM.Result.ok (if (s.state m).phase = .active then _ else none) m = _
    rw [if_neg h]

theorem Ages.ended (h : s.Ages m n) (hm : (s.state m).phase ≠ .active) :
    (s.state n).phase ≠ .active := by
  intro hn
  have hr := h.phase
  rw [hn] at hr
  cases hp : (s.state m).phase with
  | active => exact hm hp
  | _ =>
    rw [hp] at hr
    exact absurd hr (by decide)

/-- a space that is active at the end of a run without its destruction was active all along -/
theorem active_of_meets {E : Env σ → Prop} {m₀ : Machine σ} (hm : Meets (s.only E) m₀ m)
    (h : (s.state m).phase = .active) : (s.state m₀).phase = .active := by
  induction hm with
  | start => exact h
  | run _ hr ih =>
    have hall := hr.mono (S := s.only E) (T := s.all) (fun _ hc => hc) (fun _ hs => hs)
      (fun _ hd => hd.elim) fun _ _ => trivial
    refine ih ?_
    by_contra hne
    exact (ages_run hall).ended hne h
  | inSync _ hs hp ih =>
    obtain rfl := hs
    exact ih hp
  | inDestroy _ hs => exact hs.elim

/-! ## a destruction between operations -/

theorem finish_returns (env : Env σ) (hw : (s.tree.state m).walkers = 0) :
    ∃ n, s.finish env m = .ok () n ∧ (s.state n).phase = .destroyed := by
  obtain ⟨k, hk⟩ : ∃ k, (s.tree.release : Act σ TableError Unit) env m = .ok () k := by
    cases hr : (s.tree.tables m).released with
    | true => exact ⟨_, s.tree.release_again env hr⟩
    | false => exact ⟨_, s.tree.release_ok env (.inl hw) hr⟩
  refine ⟨(s.changeState (fun st => { st with phase := .destroyed }) k).note
    (.logged .debug ("Destroyed space " ++ s.tag.text)), ?_, ?_⟩
  · unfold finish
    rw [Act.bind_apply, hk]
    rfl
  · exact congrArg SpaceState.phase (s.state_changeState ..)

/-- a destruction of an active space ends well if nothing is in flight and nobody walks -/
theorem destroy_returns (env : Env σ) (hb : ∀ j, s.Ages j (d.before j))
    (hp : (s.state m).phase = .active) (hf : (s.state m).inFlight = 0)
    (hw : (s.tree.state m).walkers = 0) :
    ∃ flushed n, s.destroy d env m = .ok flushed n ∧ (s.state n).phase = .destroyed := by
  have hshot : (s.tree.state (s.shot d (s.opened (s.closing m)))).walkers = 0 :=
    (((Ages.closing m hp).trans (Ages.shot hb _)).walkers).trans hw
  have hsettled := (Ages.giveBackAll (s := s) (s.shot d (s.opened (s.closing m)))
    (s.takenPages (s.closing m) (s.shot d (s.opened (s.closing m))))).walkers.trans hshot
  obtain ⟨n, hn, hend⟩ := finish_returns env hsettled
  refine ⟨(s.targets d (d.before (s.opened (s.closing m)))).length, n, ?_, hend⟩
  rw [s.destroy_runs hp hf, Act.bind_apply, s.settle_ok env (.inl hshot)]
  simp only [Act.bind_apply, settled, hn, Act.pure_apply]

end Space

end NestedPaging
