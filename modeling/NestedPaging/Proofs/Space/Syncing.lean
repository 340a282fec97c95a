import NestedPaging.Proofs.Tree.Frame
import NestedPaging.Proofs.Space.Switching

/-!
# What a sync does to a machine

A `settle` is three steps, and `sync` and `destroy` are a `settle` with something around it:

* `Space.opened`   the detached tables are taken off the list and all processors marked dirty;
* `Space.shot d`   first whatever happens in between (`d.before`), then the online processors that
                   are dirty flush;
* `Space.settled d`   the pages below the taken tables are given back, if nobody walks
                   (`settle_ok`); else the wait never ends (`settle_stuck`).

`Machine.Idle m n` says that from `m` to `n` no processor did anything. All that `destroy` does after
the flushes is idle (`Space.destroy_cases`).
-/

namespace NestedPaging

variable {σ ε α : Type}

/-- no processor loads, flushes or is forgotten, and no processors are marked -/
structure Machine.Idle (m n : Machine σ) : Prop where
  loaded : n.loaded = m.loaded
  logs : ∃ es, m.Logs es n ∧ ∀ e ∈ es, ¬ e.OfProcessors
  aloof : m.Aloof n

namespace Machine.Idle
variable {m k n : Machine σ} {env : Env σ}

theorem of_aloof (hl : n.loaded = m.loaded) (ha : m.Aloof n) (ht : n.trace = m.trace) : m.Idle n :=
  ⟨hl, ⟨[], .refl ht, nofun⟩, ha⟩

theorem of_eq (hl : n.loaded = m.loaded) (hd : n.devices = m.devices) (hr : n.rings = m.rings)
    (ht : n.trees = m.trees) (he : n.trace = m.trace) : m.Idle n := of_aloof hl (.of_eq hd hr ht he) he

theorem refl (m : Machine σ) : m.Idle m := of_eq rfl rfl rfl rfl rfl

theorem trans (h : m.Idle k) (h' : k.Idle n) : m.Idle n := by
  obtain ⟨es, he, hp⟩ := h.logs
  obtain ⟨fs, hf, hq⟩ := h'.logs
  refine ⟨h'.loaded.trans h.loaded, ⟨es ++ fs, he.trans hf, fun e hm => ?_⟩, h.aloof.trans h'.aloof⟩
  rcases List.mem_append.mp hm with hm | hm
  · exact hp e hm
  · exact hq e hm

theorem slot (h : m.Idle n) (k : Regime) (c : CpuId) : n.slot k c = m.slot k c := by
  unfold Machine.slot
  rw [h.loaded]

theorem note (m : Machine σ) {e : Event} (he : ¬ e.OfProcessors) (hr : e.request? = none) :
    m.Idle (m.note e) := by
  refine ⟨rfl, ⟨[e], .note m e, fun e' he' => ?_⟩, .of_trees (.push rfl rfl rfl hr) rfl⟩
  rw [List.mem_singleton.mp he']
  exact he

theorem giveBack (m : Machine σ) (p : PhysAddr) : m.Idle (m.giveBack p) := by
  refine ⟨rfl, ⟨[.freed p], .push rfl, fun e he => ?_⟩, .of_trees (.push rfl rfl rfl rfl) rfl⟩
  rw [List.mem_singleton.mp he]
  exact id

theorem giveBackAll (m : Machine σ) (ps : List PhysAddr) : m.Idle (m.giveBackAll ps) := by
  induction ps generalizing m with
  | nil => exact refl m
  | cons p ps ih => exact (giveBack m p).trans (ih (m.giveBack p))

/-- a new tree has nothing on its list -/
theorem freshTree (m : Machine σ) : m.Idle { m with trees := (m.trees.fresh {}).2 } := by
  refine of_aloof rfl ⟨.of_eq rfl rfl rfl, [], .refl rfl, fun cell r hr => .inl ?_⟩ rfl
  have hget := Cells.get_fresh m.trees {} cell
  split at hget
  · rw [show ({ m with trees := (m.trees.fresh {}).2 } : Machine σ).trees.get cell = _ from hget] at hr
    cases hr
  · exact hget ▸ hr

theorem bind {x : Act σ ε α} {β : Type} {f : α → Act σ ε β} (hx : x.Keeps Idle env)
    (hf : ∀ a, (f a).Keeps Idle env) : (x >>= f).Keeps Idle env :=
  Act.Keeps.bind (R := Idle) (fun _ _ _ => trans) hx hf

end Machine.Idle

namespace Tree
variable {t : Tree} {m n : Machine σ} {env : Env σ}

theorem Works.idle (h : t.Works m n) : m.Idle n := by
  obtain ⟨es, _, hl, hp, _⟩ := h.logs
  exact ⟨h.loaded, ⟨es, hl, hp⟩, h.aloof⟩

/-- nothing is put on the list of the tree -/
theorem idle_changeState (t : Tree) {f : TreeState → TreeState} (hf : ∀ st, (f st).retired.toList ⊆ st.retired.toList)
    (m : Machine σ) : m.Idle (t.changeState f m) := by
  refine .of_aloof rfl ⟨.of_eq rfl rfl rfl, [], .refl rfl, fun cell r hr => .inl ?_⟩ rfl
  have hget := Cells.get_modify m.trees t.cell cell f
  split at hget
  · exact hf _ (hget ▸ hr)
  · exact hget ▸ hr

theorem idle_enterWalk (t : Tree) (m : Machine σ) : m.Idle (t.enterWalk m) :=
  t.idle_changeState (f := fun st => { st with walkers := st.walkers + 1 }) (fun _ => List.Subset.refl _) m

theorem idle_leaveWalk (t : Tree) (m : Machine σ) : m.Idle (t.leaveWalk m) :=
  t.idle_changeState (f := fun st => { st with walkers := st.walkers - 1 }) (fun _ => List.Subset.refl _) m

theorem idle_forgetRetired (t : Tree) (m : Machine σ) : m.Idle (t.forgetRetired m) :=
  t.idle_changeState (f := fun st => { st with retired := #[] }) (fun _ => List.nil_subset _) m

theorem idle_freeRetired (t : Tree) (refs : List TableRef) :
    (t.freeRetired refs : Act σ ε Unit).Keeps Machine.Idle env := by
  intro m
  by_cases h : (t.state m).walkers = 0 ∨ refs = []
  · rw [Act.after_of_ok (t.freeRetired_ok env h)]
    exact .giveBackAll m _
  · rw [Act.after_of_error (t.freeRetired_stuck env h)]
    exact .refl m

theorem idle_release (t : Tree) : (t.release : Act σ ε Unit).Keeps Machine.Idle env := by
  refine Machine.Idle.bind (fun m => .refl m) fun released =>
    Machine.Idle.bind (t.idle_changeState fun _ => List.Subset.refl _) fun _ => ?_
  cases released with
  | true => exact fun m => .refl m
  | false =>
    refine Machine.Idle.bind ?_ fun _ m => ?_
    · exact Machine.Idle.bind t.idle_forgetRetired fun refs => t.idle_freeRetired refs
    · rw [Act.after_of_ok (t.freeSubtree_ok env _ _ m)]
      exact .giveBackAll m _

end Tree

namespace Space
variable (s : Space) {d : Shootdown σ} {m n : Machine σ} {c : CpuId} {cs : List CpuId} {env : Env σ}

theorem idle_changeState (f : SpaceState → SpaceState) (m : Machine σ) :
    m.Idle (s.changeState f m) := .of_eq rfl rfl rfl rfl rfl

/-! ## flushes of many processors -/

/-- the processors `cs` flush, one after the other -/
def flushAll (cs : List CpuId) (m : Machine σ) : Machine σ := cs.foldl (fun m c => s.flush c m) m

theorem flushAll_cons (c : CpuId) (cs : List CpuId) (m : Machine σ) :
    s.flushAll (c :: cs) m = s.flushAll cs (s.flush c m) := rfl

theorem forM_flushLocal (cs : List CpuId) (env : Env σ) (m : Machine σ) :
    (cs.forM s.flushLocal : Act σ ε Unit) env m = .ok () (s.flushAll cs m) := by
  induction cs generalizing m with
  | nil => rfl
  | cons c cs ih =>
    exact Act.forM_cons_ok (s.flushLocal_apply c env m) (ih (s.flush c m))

theorem isDirty_flushAll : s.IsDirty (s.flushAll cs m) c ↔ s.IsDirty m c ∧ c ∉ cs := by
  induction cs generalizing m with
  | nil => simp [flushAll]
  | cons c' cs ih =>
    rw [flushAll_cons, ih, isDirty_flush, List.mem_cons, not_or, and_assoc, ne_comm]

theorem slot_flushAll (l : Regime) : (s.flushAll cs m).slot l c
    = if s.root.kind = l ∧ c ∈ cs then s.value else m.slot l c := by
  induction cs generalizing m with
  | nil => simp [flushAll]
  | cons c' cs ih =>
    rw [flushAll_cons, ih, slot_flush]
    by_cases hl : s.root.kind = l
    · by_cases hc : c ∈ cs
      · simp [hl, hc]
      · simp [hl, hc, eq_comm]
    · simp [hl]

theorem phase_flushAll : (s.state (s.flushAll cs m)).phase = (s.state m).phase := by
  induction cs generalizing m with
  | nil => rfl
  | cons c cs ih => rw [flushAll_cons, ih, phase_flush]

/-- flushes of processors do not concern trees -/
theorem flushAll_same (cs : List CpuId) (m : Machine σ) :
    (s.flushAll cs m).memory = m.memory ∧ (s.flushAll cs m).trees = m.trees ∧
      (s.flushAll cs m).live = m.live ∧ (s.flushAll cs m).splitExecute = m.splitExecute := by
  induction cs generalizing m with
  | nil => exact ⟨rfl, rfl, rfl, rfl⟩
  | cons c cs ih => exact ih (s.flush c m)

/-- only loads and flushes happen, and each processor flushes -/
theorem logs_flushAll (cs : List CpuId) (m : Machine σ) : ∃ es, m.Logs es (s.flushAll cs m) ∧
    (∀ e ∈ es, ∃ c, e = .loaded s.root.kind c s.value ∨ e = .flushed s.root.kind c s.value) ∧
    ∀ c ∈ cs, .flushed s.root.kind c s.value ∈ es := by
  induction cs generalizing m with
  | nil => exact ⟨[], .refl rfl, nofun, nofun⟩
  | cons c cs ih =>
    obtain ⟨es, hl, hes, hcs⟩ := ih (s.flush c m)
    refine ⟨_, (s.logs_flush c m).trans hl, fun e he => ?_, fun c' hc' => ?_⟩
    · rcases List.mem_append.mp he with he | he
      · rcases List.mem_append.mp he with he | he
        · exact ⟨c, .inl (Machine.eq_of_mem_loadOf he)⟩
        · exact ⟨c, .inr (List.mem_singleton.mp he)⟩
      · exact hes e he
    · rcases List.mem_cons.mp hc' with rfl | hc'
      · exact List.mem_append_left _ (List.mem_append_right _ List.mem_cons_self)
      · exact List.mem_append_right _ (hcs c' hc')

/-! ## the steps of a settle -/

/-- the detached tables are taken and all processors marked -/
def opened (m : Machine σ) : Machine σ :=
  s.changeState (fun st => { st with dirty := .all })
    ((s.tree.forgetRetired m).note (.allDirty s.cell))

/-- the online processors that are dirty -/
def targets (d : Shootdown σ) (m : Machine σ) : List CpuId :=
  (s.state m).dirty.toList.filter fun c => c.val < d.online

/-- what happens in between, then the flushes -/
def shot (d : Shootdown σ) (m : Machine σ) : Machine σ :=
  s.flushAll (s.targets d (d.before m)) (d.before m)

/-- the pages below the tables that were detached in `m`, as memory is in `n` -/
def takenPages (m n : Machine σ) : List PhysAddr :=
  (s.tree.tables m).retired.flatMap fun r => s.tree.format.subtree n.memory r.level r.table

/-- the machine after a settle that ends well -/
def settled (d : Shootdown σ) (m : Machine σ) : Machine σ :=
  (s.shot d (s.opened m)).giveBackAll (s.takenPages m (s.shot d (s.opened m)))

theorem isDirty_opened (m : Machine σ) (c : CpuId) : s.IsDirty (s.opened m) c := by
  unfold IsDirty opened
  rw [state_changeState]
  exact CpuSet.contains_all c

theorem logs_opened (m : Machine σ) : m.Logs [.allDirty s.cell] (s.opened m) := .push rfl

theorem mem_targets : c ∈ s.targets d m ↔ s.IsDirty m c ∧ c.val < d.online := by
  unfold targets IsDirty
  rw [List.mem_filter, CpuSet.mem_toList, decide_eq_true_eq]

theorem isDirty_shot :
    s.IsDirty (s.shot d m) c ↔ s.IsDirty (d.before m) c ∧ d.online ≤ c.val := by
  unfold shot
  rw [isDirty_flushAll, mem_targets, not_and, Nat.not_lt]
  exact ⟨fun h => ⟨h.1, h.2 h.1⟩, fun h => ⟨h.1, fun _ => h.2⟩⟩

theorem slot_shot (l : Regime) : (s.shot d m).slot l c
    = if s.root.kind = l ∧ s.IsDirty (d.before m) c ∧ c.val < d.online then s.value
      else (d.before m).slot l c := by
  unfold shot
  rw [slot_flushAll]
  simp only [mem_targets]

theorem shootDown_apply (d : Shootdown σ) (env : Env σ) (m : Machine σ) :
    (s.shootDown d : Act σ ε Nat) env m
      = .ok (s.targets d (d.before m)).length (s.shot d m) := by
  unfold shootDown
  rw [Act.bind_apply, Act.change_apply]
  simp only [Act.bind_apply, dirty, Act.view_apply, s.forM_flushLocal]
  rfl

theorem settle_apply (d : Shootdown σ) (env : Env σ) (m : Machine σ) :
    (s.settle d : Act σ ε Nat) env m
      = match (s.tree.freeRetired (s.tree.tables m).retired : Act σ ε Unit) env
          (s.shot d (s.opened m)) with
        | .ok _ n => .ok (s.targets d (d.before (s.opened m))).length n
        | .error e n => .error e n := by
  unfold settle
  rw [Act.bind_apply, Tree.takeRetired_ok]
  show ((s.shootDown d : Act σ ε Nat) >>= fun flushed => do
    s.tree.freeRetired (s.tree.tables m).retired
    pure flushed) env (s.opened m) = _
  rw [Act.bind_apply, s.shootDown_apply]
  simp only [Act.bind_apply]
  cases (s.tree.freeRetired (s.tree.tables m).retired : Act σ ε Unit) env _ <;> rfl

theorem phase_opened (m : Machine σ) : (s.state (s.opened m)).phase = (s.state m).phase := by
  unfold opened
  rw [state_changeState]
  rfl

theorem phase_settled (d : Shootdown σ) (m : Machine σ) :
    (s.state (s.settled d m)).phase = (s.state (d.before (s.opened m))).phase := by
  have hs : s.state (s.settled d m) = s.state (s.shot d (s.opened m)) :=
    congrArg (·.get s.cell) (Machine.giveBackAll_processors _ _).2
  rw [hs]
  exact s.phase_flushAll

/-- may the pages of the tables detached in `m` be freed in `n`? -/
def MayFree (m n : Machine σ) : Prop :=
  (s.tree.state n).walkers = 0 ∨ (s.tree.tables m).retired = []

theorem settle_ok (env : Env σ) (h : s.MayFree m (s.shot d (s.opened m))) :
    (s.settle d : Act σ ε Nat) env m
      = .ok (s.targets d (d.before (s.opened m))).length (s.settled d m) := by
  rw [settle_apply, s.tree.freeRetired_ok env h]
  rfl

theorem settle_stuck (env : Env σ) (h : ¬ s.MayFree m (s.shot d (s.opened m))) :
    (s.settle d : Act σ ε Nat) env m = .error .stuck (s.shot d (s.opened m)) := by
  rw [settle_apply, s.tree.freeRetired_stuck env h]

/-- the machine after a settle, however it ends -/
theorem settle_after (d : Shootdown σ) (env : Env σ) (m : Machine σ) :
    (s.settle d : Act σ ε Nat).after env m = s.settled d m ∨
      (s.settle d : Act σ ε Nat).after env m = s.shot d (s.opened m) ∧
        ¬ s.MayFree m (s.shot d (s.opened m)) := by
  by_cases h : s.MayFree m (s.shot d (s.opened m))
  · exact .inl (Act.after_of_ok (s.settle_ok env h))
  · exact .inr ⟨Act.after_of_error (s.settle_stuck env h), h⟩

theorem idle_settle (d : Shootdown σ) (env : Env σ) (m : Machine σ) :
    (s.shot d (s.opened m)).Idle ((s.settle d : Act σ ε Nat).after env m) := by
  rcases s.settle_after (ε := ε) d env m with h | ⟨h, _⟩
  · rw [h]
    exact .giveBackAll _ _
  · rw [h]
    exact .refl _

/-! ## sync -/

theorem whileActive_after (body : Act σ TableError α) (env : Env σ) (m : Machine σ) :
    (s.whileActive body).after env m
      = if (s.state m).phase = .active then s.leave (body.after env (s.enter m))
        else s.leave (s.enter m) := by
  split
  · rename_i h
    rw [← Act.after_ensuring s.leave body]
    unfold Act.after
    rw [s.whileActive_active h]
  · rename_i h
    exact Act.after_of_error (s.whileActive_ended h)

theorem sync_active (env : Env σ) (hp : (s.state m).phase = .active)
    (hf : s.MayFree (s.enter m) (s.shot d (s.opened (s.enter m)))) :
    s.sync d env m = .ok (s.targets d (d.before (s.opened (s.enter m)))).length
      (s.leave (s.settled d (s.enter m))) := by
  refine (s.whileActive_active hp).trans ?_
  unfold Act.ensuring
  rw [s.settle_ok env hf]

/-- a sync that ends well -/
theorem sync_ok {flushed : Nat} (h : s.sync d env m = .ok flushed n) :
    (s.state m).phase = .active ∧ s.MayFree (s.enter m) (s.shot d (s.opened (s.enter m))) ∧
      n = s.leave (s.settled d (s.enter m)) := by
  obtain ⟨hp, k, hk, rfl⟩ := s.whileActive_ok h
  by_cases hf : s.MayFree (s.enter m) (s.shot d (s.opened (s.enter m)))
  · rw [s.settle_ok env hf] at hk
    injection hk with _ hk
    exact ⟨hp, hf, by rw [hk]⟩
  · rw [s.settle_stuck env hf] at hk
    cases hk

/-! ## destruction -/

/-- the space takes no more updates -/
def closing (m : Machine σ) : Machine σ :=
  s.changeState (fun st => { st with phase := .destroying }) m

theorem destroy_ended (h : (s.state m).phase ≠ .active) :
    s.destroy d env m = .error (.failed .spaceDestroyed) m := by
  unfold destroy
  simp only [Act.bind_apply, Act.view_apply, h, ne_eq, not_false_eq_true, if_true, Act.fail_apply]

theorem inFlight_closing (m : Machine σ) :
    (s.state (s.closing m)).inFlight = (s.state m).inFlight := by
  unfold closing
  rw [state_changeState]

theorem destroy_waits (h : (s.state m).phase = .active) (hf : (s.state m).inFlight ≠ 0) :
    s.destroy d env m = .error .stuck (s.closing m) := by
  have hf' := (s.inFlight_closing m).trans_ne hf
  unfold closing at hf' ⊢
  unfold destroy
  simp only [Act.bind_apply, Act.view_apply, h, ne_eq, not_true_eq_false, if_false,
    Act.change_apply, hf', not_false_eq_true, if_true, Act.stuck_apply]

/-- the end of a space whose translations are dropped -/
def finish : Act σ TableError Unit := do
  s.tree.release
  Act.change (s.changeState fun st => { st with phase := .destroyed })
  Act.log .debug ("Destroyed space " ++ s.tag.text)

theorem idle_finish : (s.finish : Act σ TableError Unit).Keeps Machine.Idle env := by
  refine Machine.Idle.bind s.tree.idle_release fun _ =>
    Machine.Idle.bind (s.idle_changeState _) fun _ m => ?_
  exact .note m id rfl

theorem destroy_runs (h : (s.state m).phase = .active) (hf : (s.state m).inFlight = 0) :
    s.destroy d env m = (do
      let flushed ← s.settle d
      s.finish
      pure flushed : Act σ TableError Nat) env (s.closing m) := by
  have hf' := (s.inFlight_closing m).trans hf
  unfold closing at hf' ⊢
  unfold destroy finish
  simp only [Act.bind_apply, Act.view_apply, h, ne_eq, not_true_eq_false, if_false,
    Act.change_apply, hf']
  cases (s.settle d : Act σ TableError Nat) env _ with
  | error e k => rfl
  | ok flushed k =>
    simp only
    cases (s.tree.release : Act σ TableError Unit) env k with
    | error e k => rfl
    | ok _ k => rfl

theorem idle_rest (d : Shootdown σ) (env : Env σ) (m : Machine σ) :
    (s.shot d (s.opened m)).Idle ((do
      let flushed ← s.settle d
      s.finish
      pure flushed : Act σ TableError Nat).after env m) := by
  have hs := s.idle_settle (ε := TableError) d env m
  rw [Act.after_bind]
  unfold Act.after at hs
  cases hr : (s.settle d : Act σ TableError Nat) env m with
  | error e k =>
    rw [hr] at hs
    exact hs
  | ok flushed k =>
    rw [hr] at hs
    have hf : (s.finish >>= fun _ => pure flushed : Act σ TableError Nat).Keeps Machine.Idle env :=
      Machine.Idle.bind s.idle_finish fun _ m => .refl m
    exact hs.trans (hf k)

/-- a destruction is refused, waits for what is in flight, or flushes and is idle from then on -/
theorem destroy_cases (d : Shootdown σ) (env : Env σ) (m : Machine σ) :
    (s.destroy d).after env m = m ∨ (s.destroy d).after env m = s.closing m ∨
      (s.shot d (s.opened (s.closing m))).Idle ((s.destroy d).after env m) := by
  by_cases h : (s.state m).phase = .active
  · right
    by_cases hf : (s.state m).inFlight = 0
    · right
      have hi := s.idle_rest d env (s.closing m)
      unfold Act.after at hi ⊢
      rw [s.destroy_runs h hf]
      exact hi
    · exact .inl (Act.after_of_error (s.destroy_waits h hf))
  · exact .inl (Act.after_of_error (s.destroy_ended h))

/-- a destruction that ends well -/
theorem destroy_ok {flushed : Nat} (h : s.destroy d env m = .ok flushed n) :
    (s.state m).phase = .active ∧ (s.shot d (s.opened (s.closing m))).Idle n := by
  by_cases hp : (s.state m).phase = .active
  · by_cases hf : (s.state m).inFlight = 0
    · have hi := s.idle_rest d env (s.closing m)
      rw [s.destroy_runs hp hf] at h
      rw [Act.after_of_ok h] at hi
      exact ⟨hp, hi⟩
    · rw [s.destroy_waits hp hf] at h
      cases h
  · rw [s.destroy_ended hp] at h
    cases h

end Space

end NestedPaging
