import NestedPaging.Proofs.Tree.Freeing
import NestedPaging.Proofs.Machine.Traces
import NestedPaging.Space.Basic

/-!
# What switching and flushing do to a machine

The actions on processors as functions of the machine:

* `Machine.switch k c v`   make `v` current on `c`, with a load unless `c` has it loaded;
* `Machine.flush k c v`    drop what `c` cached under `v`;
* `Space.flush c`          what `flushLocal` does: `c` is dirty no more, switches and flushes;
* `Space.turn c`           what `activate` does: the same for a dirty processor, a switch for others.

`Machine.slot k c` is the value that `c` has loaded. A flush of a space always leaves the value of the
space there (`Space.slot_flush`).
-/

namespace NestedPaging

variable {σ ε α : Type}

namespace Machine

/-- the value that `c` has loaded -/
def slot (m : Machine σ) (k : Regime) (c : CpuId) : Word := (m.loaded.get k).current c

/-- `v` is made current on `c` -/
def switch (k : Regime) (c : CpuId) (v : Word) (m : Machine σ) : Machine σ :=
  { m with
    loaded := m.loaded.modify k (·.replace c v)
    tally := if m.slot k c ≠ v ∧ k = .counting then { m.tally with loads := m.tally.loads + 1 }
      else m.tally
    trace := if m.slot k c = v then m.trace else m.trace.push (.loaded k c v) }

/-- `c` drops what it cached for `v` -/
def flush (k : Regime) (c : CpuId) (v : Word) (m : Machine σ) : Machine σ :=
  { m with
    tally := if k = .counting then
        { m.tally with flushes := m.tally.flushes + 1, lastFlush := v }
      else m.tally
    trace := m.trace.push (.flushed k c v) }

/-- what `c` has loaded is forgotten -/
def forget (k : Regime) (c : CpuId) (m : Machine σ) : Machine σ :=
  { m with
    loaded := m.loaded.modify k (·.reset c)
    trace := m.trace.push (.forgot k c) }

variable {m : Machine σ} {k l : Regime} {c d : CpuId} {v : Word}

theorem slot_modify (f : LoadedRoots → LoadedRoots) :
    ((m.loaded.modify k f).get l).current d
      = if k = l then (f (m.loaded.get l)).current d else m.slot l d := by
  rw [PerRegime.get_modify]
  split <;> rfl

theorem slot_switch : (m.switch k c v).slot l d = if k = l ∧ c = d then v else m.slot l d := by
  show ((m.loaded.modify k _).get l).current d = _
  rw [slot_modify, LoadedRoots.current_replace]
  by_cases hk : k = l
  · simp only [hk, if_true, true_and]
    rfl
  · simp only [hk, if_false, false_and]

theorem slot_forget : (m.forget k c).slot l d = if k = l ∧ c = d then 0 else m.slot l d :=
  slot_switch (m := m) (v := 0)

theorem slot_flush : (m.flush k c v).slot l d = m.slot l d := rfl

/-- the events of a switch: a load, or nothing if the value is loaded already -/
def loadOf (m : Machine σ) (k : Regime) (c : CpuId) (v : Word) : List Event :=
  if m.slot k c = v then [] else [.loaded k c v]

theorem logs_switch (m : Machine σ) (k : Regime) (c : CpuId) (v : Word) :
    m.Logs (m.loadOf k c v) (m.switch k c v) := by
  unfold loadOf
  split
  · rename_i h
    exact .refl (if_pos h)
  · rename_i h
    exact .push (if_neg h)

theorem logs_flush (m : Machine σ) (k : Regime) (c : CpuId) (v : Word) :
    m.Logs [.flushed k c v] (m.flush k c v) := .push rfl

theorem eq_of_mem_loadOf {e : Event} (h : e ∈ m.loadOf k c v) : e = .loaded k c v := by
  unfold loadOf at h
  split at h
  · cases h
  · exact List.mem_singleton.mp h

end Machine

theorem Act.makeCurrent_apply (k : Regime) (c : CpuId) (v : Word) (env : Env σ) (m : Machine σ) :
    (Act.makeCurrent k c v : Act σ ε Unit) env m = .ok () (m.switch k c v) := by
  unfold Act.makeCurrent Act.loadRegime Machine.switch
  simp only [Act.bind_apply, Act.view_apply, Act.change_apply]
  by_cases h : m.slot k c = v
  · have h' : ((m.loaded.get k).current c ≠ v) = False := eq_false fun hne => hne h
    simp only [h, h', if_false, ne_eq, not_true_eq_false, if_true, false_and, Act.pure_apply]
  · have h' : ((m.loaded.get k).current c ≠ v) = True := eq_true h
    simp only [h, h', if_false, ne_eq, not_false_eq_true, if_true, true_and, Act.bind_apply]
    cases k <;> rfl

theorem Act.flushRegime_apply (k : Regime) (c : CpuId) (v : Word) (env : Env σ) (m : Machine σ) :
    (Act.flushRegime k c v : Act σ ε Unit) env m = .ok () (m.flush k c v) := by
  unfold Act.flushRegime Machine.flush
  rw [Act.bind_apply]
  cases k <;> rfl

theorem Act.forgetLoaded_apply (k : Regime) (c : CpuId) (env : Env σ) (m : Machine σ) :
    (Act.forgetLoaded k c : Act σ ε Unit) env m = .ok () (m.forget k c) := rfl

theorem RegimeRoot.makeCurrent_apply (r : RegimeRoot) (c : CpuId) (tag : RegimeTag) (env : Env σ)
    (m : Machine σ) : (r.makeCurrent c tag : Act σ ε Unit) env m
      = .ok () (m.switch r.kind c (r.value tag)) := Act.makeCurrent_apply ..

theorem RegimeRoot.invalidate_apply (r : RegimeRoot) (c : CpuId) (tag : RegimeTag) (env : Env σ)
    (m : Machine σ) : (r.invalidate c tag : Act σ ε Unit) env m
      = .ok () ((m.switch r.kind c (r.value tag)).flush r.kind c (r.value tag)) := by
  unfold RegimeRoot.invalidate
  rw [Act.bind_apply, r.makeCurrent_apply]
  exact Act.flushRegime_apply ..

namespace Space
variable (s : Space) {m : Machine σ} {c d : CpuId} {env : Env σ}

/-! ## the state of a space -/

theorem state_changeState (f : SpaceState → SpaceState) (m : Machine σ) :
    s.state (s.changeState f m) = f (s.state m) := by
  unfold state changeState
  rw [Cells.get_modify, if_pos rfl]

/-- may `c` hold mappings that are older than the latest update? -/
def IsDirty (m : Machine σ) (c : CpuId) : Prop := (s.state m).dirty.contains c = true

instance (m : Machine σ) (c : CpuId) : Decidable (s.IsDirty m c) :=
  inferInstanceAs (Decidable (_ = true))

/-- `c` is marked dirty no more -/
def unmark (c : CpuId) (m : Machine σ) : Machine σ :=
  s.changeState (fun st => { st with dirty := st.dirty.erase c }) m

theorem isDirty_unmark : s.IsDirty (s.unmark c m) d ↔ s.IsDirty m d ∧ c ≠ d := by
  unfold IsDirty unmark
  rw [state_changeState]
  simp

theorem phase_unmark (c : CpuId) (m : Machine σ) : (s.state (s.unmark c m)).phase = (s.state m).phase := by
  unfold unmark
  rw [state_changeState]

theorem isDirty_of_state {n : Machine σ} (h : s.state n = s.state m) :
    s.IsDirty n c ↔ s.IsDirty m c := by
  unfold IsDirty
  rw [h]

theorem isDirty_enter : s.IsDirty (s.enter m) c ↔ s.IsDirty m c := by
  unfold IsDirty enter
  rw [state_changeState]

theorem isDirty_leave : s.IsDirty (s.leave m) c ↔ s.IsDirty m c := by
  unfold IsDirty leave
  rw [state_changeState]

/-! ## flushes -/

/-- `c` drops what it cached of the space -/
def flush (c : CpuId) (m : Machine σ) : Machine σ :=
  ((s.unmark c m).switch s.root.kind c s.value).flush s.root.kind c s.value

theorem flushLocal_apply (c : CpuId) (env : Env σ) (m : Machine σ) :
    (s.flushLocal c : Act σ ε Unit) env m = .ok () (s.flush c m) := s.root.invalidate_apply ..

theorem isDirty_flush : s.IsDirty (s.flush c m) d ↔ s.IsDirty m d ∧ c ≠ d := s.isDirty_unmark

theorem phase_flush : (s.state (s.flush c m)).phase = (s.state m).phase := s.phase_unmark c m

theorem slot_flush (l : Regime) : (s.flush c m).slot l d
    = if s.root.kind = l ∧ c = d then s.value else m.slot l d :=
  Machine.slot_switch (m := s.unmark c m)

theorem logs_flush (c : CpuId) (m : Machine σ) :
    m.Logs (m.loadOf s.root.kind c s.value ++ [.flushed s.root.kind c s.value]) (s.flush c m) :=
  ((s.unmark c m).logs_switch s.root.kind c s.value).trans (Machine.logs_flush _ ..)

/-- `c` switches to the space, and drops what it cached of it if it is dirty -/
def turn (c : CpuId) (m : Machine σ) : Machine σ :=
  if s.IsDirty m c then s.flush c m else (s.unmark c m).switch s.root.kind c s.value

theorem isDirty_turn : s.IsDirty (s.turn c m) d ↔ s.IsDirty m d ∧ c ≠ d := by
  unfold turn
  split
  · exact s.isDirty_flush
  · exact s.isDirty_unmark

theorem slot_turn (l : Regime) : (s.turn c m).slot l d
    = if s.root.kind = l ∧ c = d then s.value else m.slot l d := by
  unfold turn
  split
  · exact s.slot_flush l
  · exact Machine.slot_switch (m := s.unmark c m)

theorem phase_turn (c : CpuId) (m : Machine σ) : (s.state (s.turn c m)).phase = (s.state m).phase := by
  unfold turn
  split
  · exact s.phase_flush
  · exact s.phase_unmark c m

theorem logs_turn (c : CpuId) (m : Machine σ) : ∃ es, m.Logs es (s.turn c m) := by
  unfold turn
  split
  · exact ⟨_, s.logs_flush c m⟩
  · exact ⟨_, (s.unmark c m).logs_switch s.root.kind c s.value⟩

/-! ## operations in flight -/

theorem phase_enter (m : Machine σ) : (s.state (s.enter m)).phase = (s.state m).phase := by
  unfold enter
  rw [state_changeState]

theorem trace_leave (m : Machine σ) : (s.leave m).trace = m.trace := rfl

theorem phase_leave (m : Machine σ) : (s.state (s.leave m)).phase = (s.state m).phase := by
  unfold leave
  rw [state_changeState]

theorem whileActive_active {body : Act σ TableError α} (h : (s.state m).phase = .active) :
    s.whileActive body env m = Act.ensuring s.leave body env (s.enter m) := by
  unfold whileActive
  rw [Act.bind_apply, Act.change_apply]
  unfold Act.ensuring
  simp only [Act.bind_apply, Act.view_apply, phase_enter, h, ne_eq, not_true_eq_false, if_false]

theorem whileActive_ended {body : Act σ TableError α} (h : (s.state m).phase ≠ .active) :
    s.whileActive body env m = .error (.failed .spaceDestroyed) (s.leave (s.enter m)) := by
  unfold whileActive
  rw [Act.bind_apply, Act.change_apply]
  unfold Act.ensuring
  simp only [Act.bind_apply, Act.view_apply, phase_enter, h, ne_eq, not_false_eq_true, if_true,
    Act.fail_apply]

/-- an operation in flight that ends well -/
theorem whileActive_ok {body : Act σ TableError α} {v : α} {n : Machine σ}
    (h : s.whileActive body env m = .ok v n) :
    (s.state m).phase = .active ∧ ∃ k, body env (s.enter m) = .ok v k ∧ n = s.leave k := by
  by_cases hp : (s.state m).phase = .active
  · rw [s.whileActive_active hp] at h
    unfold Act.ensuring at h
    refine ⟨hp, ?_⟩
    cases hb : body env (s.enter m) with
    | ok w k =>
      rw [hb] at h
      injection h with hw hn
      exact ⟨k, by rw [hw], hn.symm⟩
    | error e k =>
      rw [hb] at h
      cases h
  · rw [s.whileActive_ended hp] at h
    cases h

theorem activate_body (c : CpuId) (env : Env σ) (m : Machine σ) :
    (do let dirty ← s.dirty
        s.changeDirty (·.erase c)
        if dirty.contains c then s.root.invalidate c s.tag else s.root.makeCurrent c s.tag :
      Act σ TableError Unit) env m = .ok () (s.turn c m) := by
  by_cases h : s.IsDirty m c
  · have ht : s.turn c m = s.flush c m := if_pos h
    have hb : (s.state m).dirty.contains c = true := h
    simp only [Act.bind_apply, dirty, changeDirty, Act.view_apply, Act.change_apply, hb, if_true]
    exact (s.root.invalidate_apply ..).trans (congrArg _ ht.symm)
  · have ht : s.turn c m = (s.unmark c m).switch s.root.kind c s.value := if_neg h
    have hb : ¬ (s.state m).dirty.contains c = true := h
    simp only [Act.bind_apply, dirty, changeDirty, Act.view_apply, Act.change_apply, hb, if_false,
      Bool.false_eq_true]
    exact (s.root.makeCurrent_apply ..).trans (congrArg _ ht.symm)

theorem activate_active (c : CpuId) (h : (s.state m).phase = .active) :
    s.activate c env m = .ok () (s.leave (s.turn c (s.enter m))) := by
  refine (s.whileActive_active h).trans ?_
  unfold Act.ensuring
  rw [activate_body]

theorem activate_ok {n : Machine σ} (h : s.activate c env m = .ok () n) :
    n = s.leave (s.turn c (s.enter m)) := by
  obtain ⟨_, k, hk, rfl⟩ := s.whileActive_ok h
  rw [activate_body] at hk
  injection hk with _ hk
  rw [hk]

end Space

end NestedPaging
