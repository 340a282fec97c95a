import NestedPaging.Proofs.Space.Creation
import NestedPaging.Proofs.Space.Lifecycle

/-!
# No stale translations

A sync marks all processors dirty and a flush unmarks the one that flushes. So in every run on one
space a processor that is not dirty has flushed after the latest sync began (`Space.Fresh`). Each
step keeps this because it marks nobody, or all, and unmarks only processors that flush
(`Fresh.step`).

Since a sync marks before anything else happens, a processor that enters the guest after a sync, or
while it still waits for flushes, has flushed since the sync began (`Fresh.flushes`). `stale_free`
draws the conclusions for `sync` and `activate`.
-/

namespace NestedPaging

variable {σ ε α : Type}

namespace Space
variable {s : Space} {base : Nat} {m n : Machine σ} {es : List Event} {c : CpuId} {env : Env σ}
  {d : Shootdown σ}

/-- the event of a flush by `c` -/
def flushedBy (s : Space) (c : CpuId) : Event := .flushed s.root.kind c s.value

/-- a processor that is not dirty has flushed after each event, from number `base` on, that marked all
processors dirty -/
def Fresh (s : Space) (base : Nat) (m : Machine σ) : Prop :=
  ∀ c, ¬ s.IsDirty m c → ∀ i, base ≤ i → m.trace[i]? = some (.allDirty s.cell) →
    m.Since i (s.flushedBy c)

/-- from `m` to `n` the processor `c` flushed -/
def Flushes (s : Space) (c : CpuId) (m n : Machine σ) : Prop :=
  ∃ es, m.Logs es n ∧ s.flushedBy c ∈ es

namespace Fresh

/-- from the end of the trace on, nothing was marked yet -/
theorem of_size_le (h : m.trace.size ≤ base) : s.Fresh base m := by
  intro c _ i hi he
  have hlt := Machine.lt_size_of_getElem? he
  omega

theorem step (h : s.Fresh base m) (hl : m.Logs es n) (hm : .allDirty s.cell ∉ es)
    (hc : ∀ c, ¬ s.IsDirty n c → ¬ s.IsDirty m c ∨ s.flushedBy c ∈ es) : s.Fresh base n := by
  intro c hn i hi he
  by_cases hlt : i < m.trace.size
  · rcases hc c hn with hd | hf
    · rw [hl.getElem?_old hlt] at he
      exact hl.since (h c hd i hi he)
    · exact hl.since_old hf hlt
  · exact absurd (hl.mem_new (Nat.le_of_not_lt hlt) he) hm

theorem of_same (h : s.Fresh base m) (ht : n.trace = m.trace)
    (hd : ∀ c, s.IsDirty n c ↔ s.IsDirty m c) : s.Fresh base n :=
  h.step (.refl ht) List.not_mem_nil fun c hn => .inl fun hm => hn ((hd c).mpr hm)

theorem idle (h : s.Fresh base m) (hi : m.Idle n) (hs : n.spaces = m.spaces) : s.Fresh base n := by
  obtain ⟨es, hl, hp⟩ := hi.logs
  refine h.step hl (fun hm => hp _ hm trivial) fun c hn => .inl fun hm => hn ?_
  exact (s.isDirty_of_state (congrArg (·.get s.cell) hs)).mpr hm

theorem enter (h : s.Fresh base m) : s.Fresh base (s.enter m) :=
  h.of_same rfl fun _ => s.isDirty_enter

theorem leave (h : s.Fresh base m) : s.Fresh base (s.leave m) :=
  h.of_same rfl fun _ => s.isDirty_leave

theorem whileActive {body : Act σ TableError α} (h : s.Fresh base m)
    (hb : ∀ m, s.Fresh base m → s.Fresh base (body.after env m)) :
    s.Fresh base ((s.whileActive body).after env m) := by
  rw [s.whileActive_after]
  split
  · exact (hb _ h.enter).leave
  · exact h.enter.leave

/-! ## flushes -/

theorem flush (h : s.Fresh base m) (c : CpuId) : s.Fresh base (s.flush c m) := by
  refine h.step (s.logs_flush c m) (fun hm => ?_) fun c' hn => ?_
  · rcases List.mem_append.mp hm with hm | hm
    · cases Machine.eq_of_mem_loadOf hm
    · cases List.mem_singleton.mp hm
  · by_cases hc : c = c'
    · subst hc
      exact .inr (List.mem_append_right _ List.mem_cons_self)
    · exact .inl fun hd => hn (s.isDirty_flush.mpr ⟨hd, hc⟩)

theorem turn (h : s.Fresh base m) (c : CpuId) : s.Fresh base (s.turn c m) := by
  by_cases hd : s.IsDirty m c
  · rw [show s.turn c m = s.flush c m from if_pos hd]
    exact h.flush c
  · -- nothing is unmarked, since `c` was not dirty
    rw [show s.turn c m = (s.unmark c m).switch s.root.kind c s.value from if_neg hd]
    refine h.step ((s.unmark c m).logs_switch s.root.kind c s.value) (fun hm => ?_) fun c' hn => ?_
    · cases Machine.eq_of_mem_loadOf hm
    · left
      intro hd'
      refine hn (s.isDirty_unmark.mpr ⟨hd', ?_⟩)
      rintro rfl
      exact hd hd'

theorem markDirty (h : s.Fresh base m) (c : CpuId) :
    s.Fresh base ((s.markDirty c : Act σ ε Unit).after env m) := by
  have hlogs : m.Logs [] ((s.markDirty c : Act σ ε Unit).after env m) := .refl rfl
  refine h.step hlogs List.not_mem_nil fun c' hn => .inl fun hd => hn ?_
  unfold IsDirty at hd ⊢
  show (s.state (s.changeState _ m)).dirty.contains c' = true
  rw [s.state_changeState, CpuSet.contains_insert, hd, Bool.true_or]

theorem flushAll (h : s.Fresh base m) (cs : List CpuId) : s.Fresh base (s.flushAll cs m) := by
  induction cs generalizing m with
  | nil => exact h
  | cons c cs ih => exact ih (h.flush c)

/-- once all processors are marked, none of them counts -/
theorem opened (m : Machine σ) : s.Fresh base (s.opened m) :=
  fun c hn => absurd (s.isDirty_opened m c) hn

variable (hb : ∀ j, s.Fresh base j → s.Fresh base (d.before j))
include hb

theorem shot (m : Machine σ) : s.Fresh base (s.shot d (s.opened m)) :=
  (hb _ (opened m)).flushAll _

theorem settle (env : Env σ) (m : Machine σ) :
    s.Fresh base ((s.settle d : Act σ ε Nat).after env m) := by
  rcases s.settle_after (ε := ε) d env m with h | ⟨h, _⟩
  · rw [h]
    exact (shot hb m).idle (.giveBackAll _ _) (Machine.giveBackAll_processors _ _).2
  · rw [h]
    exact shot hb m

end Fresh

/-! ## runs -/

theorem allows_fresh (s : Space) (base : Nat)
    (hs : ∀ j, s.Fresh base j → s.Fresh base (env.supply j).1) :
    s.tree.Allows env fun m n => s.Fresh base m → s.Fresh base n where
  trans h h' := h' ∘ h
  works hw h := h.idle hw.idle hw.spaces
  walk {m n} hr h := by
    have he : s.Fresh base (s.tree.enterWalk m) := h.idle (s.tree.idle_enterWalk m) rfl
    exact (hr he).idle (s.tree.idle_leaveWalk n) rfl
  supply := hs

theorem Fresh.perform (h : s.Fresh base m) (op : SpaceOp)
    (hs : ∀ j, s.Fresh base j → s.Fresh base (env.supply j).1) :
    s.Fresh base ((s.perform op).after env m) := by
  have ha := s.allows_fresh base hs
  cases op with
  | update p order =>
    show s.Fresh base (Act.after ((fun _ => ()) <$> s.update p order) env m)
    rw [Act.after_map]
    exact h.whileActive (ha.update p order)
  | install p pages => exact h.whileActive (ha.install p pages)
  | lookup a => exact h
  | invalidate c =>
    refine h.whileActive fun m hm => ?_
    rw [Act.after_of_ok (s.flushLocal_apply c env m)]
    exact hm.flush c
  | activate c =>
    refine h.whileActive fun m hm => ?_
    rw [Act.after_of_ok (s.activate_body c env m)]
    exact hm.turn c
  | flushLocal c =>
    show s.Fresh base ((s.flushLocal c : Act σ TableError Unit).after env m)
    rw [Act.after_of_ok (s.flushLocal_apply c env m)]
    exact h.flush c
  | markDirty c => exact h.markDirty c

theorem Fresh.run {E : Env σ → Prop} (hr : Run (s.only E) m n) :
    s.Fresh base m → s.Fresh base n := by
  induction hr with
  | refl m => exact id
  | trans _ _ ih ih' => exact fun h => ih' (ih h)
  | client m client => exact fun h => h.of_same rfl fun _ => Iff.rfl
  | call m hc _ _ ih =>
    obtain ⟨op, rfl⟩ := hc
    exact fun h => h.perform op ih
  | sync env m hs _ ih =>
    obtain rfl := hs
    exact fun h => h.whileActive fun m _ => Fresh.settle ih env m
  | destroy env m hs => exact absurd hs id

/-- a machine that a run meets is fresh from where its start is -/
theorem Fresh.meets {E : Env σ → Prop} {m₀ : Machine σ} (h : s.Fresh base m₀)
    (hm : Meets (s.only E) m₀ m) : s.Fresh base m := by
  induction hm with
  | start => exact h
  | run _ hr ih => exact Fresh.run hr ih
  | inSync _ hs =>
    obtain rfl := hs
    exact opened _
  | inDestroy _ hs => exact absurd hs id

/-! ## entering the guest -/

theorem logs_activate (hn : s.activate c env m = .ok () n) : ∃ es, m.Logs es n := by
  obtain ⟨es, hes⟩ := s.logs_turn c (s.enter m)
  rw [s.activate_ok hn]
  exact ⟨es, hes⟩

theorem isDirty_activate (hn : s.activate c env m = .ok () n) : ¬ s.IsDirty n c := by
  rw [s.activate_ok hn, isDirty_leave, isDirty_turn]
  exact fun h => h.2 rfl

theorem Fresh.activate (h : s.Fresh base m) (hn : s.activate c env m = .ok () n) :
    s.Fresh base n := by
  rw [s.activate_ok hn]
  exact (h.enter.turn c).leave

/-- a processor that enters after the mark of a sync has flushed since the sync began -/
theorem Fresh.flushes {k : Machine σ} (h : s.Fresh m.trace.size k)
    (hk : (s.opened (s.enter m)).Aloof k) (hn : s.activate c env k = .ok () n) :
    s.Flushes c m n := by
  obtain ⟨es, hes, -⟩ := hk.quiet.logs
  obtain ⟨fs, hfs⟩ := logs_activate hn
  have hmark : m.Logs [.allDirty s.cell] (s.opened (s.enter m)) := s.logs_opened (s.enter m)
  have hfound := (hes.trans hfs).getElem?_some (hmark.getElem?_new 0)
  obtain ⟨j, hj, he⟩ := h.activate hn c (isDirty_activate hn) _ (Nat.le_add_right ..) hfound
  have hlogs := hmark.trans (hes.trans hfs)
  exact ⟨_, hlogs, hlogs.mem_new (by omega) he⟩

/-- what happens from the mark of a sync until its end -/
theorem aloof_sync (hp : (s.state m).phase = .active) (hd : ∀ j, Machine.Aloof j (d.before j))
    (env : Env σ) : (s.opened (s.enter m)).Aloof ((s.sync d).after env m) := by
  have hflush : (d.before (s.opened (s.enter m))).Aloof (s.shot d (s.opened (s.enter m))) :=
    (Machine.Aloof.permits .trans id).flushAll s (fun _ _ => trivial) _
  have hsettle := s.idle_settle (ε := TableError) d env (s.enter m)
  have hend : (s.sync d).after env m
      = s.leave ((s.settle d : Act σ TableError Nat).after env (s.enter m)) := by
    rw [sync, s.whileActive_after, if_pos hp]
  rw [hend]
  exact ((hd _).trans hflush).trans (hsettle.aloof.trans (s.idle_changeState _ _).aloof)

/-- in every run on one space no processor enters the guest with translations from before the last
sync -/
theorem stale_free {E : Env σ → Prop} {m₀ : Machine σ} (hm : Meets (s.only E) m₀ m) :
    (∀ c, ¬ s.IsDirty m c → ∀ i, m₀.trace.size ≤ i → m.trace[i]? = some (.allDirty s.cell) →
      m.Since i (s.flushedBy c)) ∧
    (∀ d env flushed n, s.sync d env m = .ok flushed n →
      ∀ c : CpuId, c.val < d.online → ¬ s.IsDirty n c) ∧
    (∀ c env n, s.activate c env m = .ok () n → ¬ s.IsDirty n c ∧ n.slot s.root.kind c = s.value ∧
      ∀ i, m₀.trace.size ≤ i → n.trace[i]? = some (.allDirty s.cell) →
        n.Since i (s.flushedBy c)) ∧
    -- after a sync, however it ended
    (∀ d env, (∀ j, Run (s.only E) j (d.before j)) →
      ∀ k, Meets (s.only E) ((s.sync d).after env m) k →
        ∀ c env' n, s.activate c env' k = .ok () n → s.Flushes c m n) ∧
    -- while a sync waits for flushes
    ((s.state m).phase = .active → ∀ k, Meets (s.only E) (s.opened (s.enter m)) k →
      ∀ c env n, s.activate c env k = .ok () n → s.Flushes c m n) := by
  have hfresh : s.Fresh m₀.trace.size m := (Fresh.of_size_le (Nat.le_refl _)).meets hm
  refine ⟨hfresh, fun d env flushed n hn c hc hd => ?_, fun c env n hn => ?_,
    fun d env hd k hk c env' n hn => ?_, fun _ k hk c env n hn => ?_⟩
  · obtain ⟨_, _, rfl⟩ := s.sync_ok hn
    rw [isDirty_leave] at hd
    have hd' : s.IsDirty (s.shot d (s.opened (s.enter m))) c :=
      (s.isDirty_of_state (congrArg (·.get s.cell) (Machine.giveBackAll_processors _ _).2)).mp hd
    exact absurd (s.isDirty_shot.mp hd').2 (Nat.not_le.mpr hc)
  · refine ⟨isDirty_activate hn, ?_, hfresh.activate hn c (isDirty_activate hn)⟩
    rw [s.activate_ok hn]
    show (s.turn c (s.enter m)).slot s.root.kind c = s.value
    rw [slot_turn, if_pos ⟨rfl, rfl⟩]
  · -- a space that is active after the sync was active before it
    have hsync : Run (s.only E) m ((s.sync d).after env m) := .sync env m rfl hd
    have hp : (s.state m).phase = .active :=
      active_of_meets (.run .start hsync) (active_of_meets hk (s.whileActive_ok hn).1)
    have hafter : s.Fresh m.trace.size ((s.sync d).after env m) :=
      Fresh.run hsync (.of_size_le (Nat.le_refl _))
    exact (hafter.meets hk).flushes ((aloof_sync hp (fun j => (hd j).aloof) env).trans hk.aloof) hn
  · exact ((Fresh.opened _).meets hk).flushes hk.aloof hn

/-- a processor enters, a sync leaves it dirty, and it flushes when it enters again -/
theorem stale_free_synced : ∃ (s : Space) (c : CpuId) (d : Shootdown Unit) (flushed : Nat)
    (m₀ m k n : Machine Unit),
    Space.create .counting none ⟨1⟩ (.offering [1]) { client := () } = .ok s m₀ ∧
      s.activate c (.offering []) m₀ = .ok () m ∧ m.slot s.root.kind c = s.value ∧
      ¬ s.IsDirty m c ∧ s.sync d (.offering []) m = .ok flushed k ∧ s.IsDirty k c ∧
      s.activate c (.offering []) k = .ok () n ∧ s.Flushes c m n := by
  let c : CpuId := ⟨1, by decide⟩
  let d : Shootdown Unit := ⟨id, 1⟩
  have hs : (Env.offering [1] : Env Unit).supply { client := () }
      = ({ client := () }, some (.ofFrame 1)) := Env.offering_free Std.HashSet.not_mem_empty
  obtain ⟨s, m₀, hcreate, _⟩ := create_offered hs .counting none ⟨1⟩
  obtain ⟨_, _, hnew, _⟩ := create_ok hcreate
  obtain ⟨_, _, _, htree⟩ := tables_create hcreate
  have hp₀ : (s.state m₀).phase = .active := by rw [hnew]
  -- the processor enters once
  have henter : s.activate c (.offering []) m₀ = _ := s.activate_active c hp₀
  obtain ⟨m, hm⟩ : ∃ m, m = s.leave (s.turn c (s.enter m₀)) := ⟨_, rfl⟩
  rw [← hm] at henter
  have hrun : Run (s.only fun _ => True) m₀ m := by
    rw [← Act.after_of_ok henter]
    exact .call (c := .on s (.activate c)) m₀ ⟨_, rfl⟩ trivial fun j => .refl j
  have hstart : Meets (s.only fun _ => True) m₀ m₀ := .start
  obtain ⟨_, _, hdone, _, _⟩ := stale_free hstart
  obtain ⟨hclean, hloaded, _⟩ := hdone c _ m henter
  have hp : (s.state m).phase = .active := by
    rw [hm, s.phase_leave, s.phase_turn, s.phase_enter, hp₀]
  -- nobody walks, so the sync ends
  have hages : s.Ages m₀ m := by
    rw [← Act.after_of_ok henter]
    exact Ages.perform (.activate c) (fun j => .refl j) m₀
  have hstill : (s.tree.state m).walkers = 0 := hages.walkers.trans (congrArg TreeState.walkers htree)
  have hshot := (Ages.shot (d := d) (fun j => .refl j) (s.enter m)).walkers.trans hstill
  have hsync := s.sync_active (d := d) (.offering []) hp (.inl hshot)
  obtain ⟨k, hk⟩ : ∃ k, k = s.leave (s.settled d (s.enter m)) := ⟨_, rfl⟩
  rw [← hk] at hsync
  have hdirty : s.IsDirty k c := by
    rw [hk, isDirty_leave]
    refine (s.isDirty_of_state (congrArg (·.get s.cell) (Machine.giveBackAll_processors _ _).2)).mpr ?_
    exact s.isDirty_shot.mpr ⟨s.isDirty_opened _ c, Nat.le_refl 1⟩
  have hp' : (s.state k).phase = .active := by
    rw [hk, s.phase_leave, s.phase_settled]
    exact (s.phase_opened _).trans ((s.phase_enter m).trans hp)
  -- it enters again
  have hagain : s.activate c (.offering []) k = _ := s.activate_active c hp'
  obtain ⟨_, _, _, hafter, _⟩ := stale_free (Meets.run hstart hrun)
  have hflush := hafter d (.offering []) (fun j => .refl j) k
    (by rw [Act.after_of_ok hsync]; exact .start) c (.offering []) _ hagain
  exact ⟨s, c, d, _, m₀, m, k, _, hcreate, henter, hloaded, hclean, hsync, hdirty, hagain, hflush⟩

end Space

end NestedPaging
