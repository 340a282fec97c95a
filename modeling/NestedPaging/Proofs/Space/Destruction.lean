import NestedPaging.Proofs.Space.Creation
import NestedPaging.Proofs.Space.Elision
import NestedPaging.Proofs.Space.Lifecycle

/-!
# What processors have loaded after a destruction

The flushes of a destruction make the dying tree current on every processor that flushes, so its value
stays loaded there when the root goes back to the allocator. `destroy_loaded` says on which
processors exactly: those that had it loaded when the flushes began, and those that flush. A later
space with the same value finds it loaded and leaves its first load out (`destroy_then_recycle`).
-/

namespace NestedPaging

variable {σ : Type}

namespace Space
variable {s : Space} {d : Shootdown σ} {m n : Machine σ} {c : CpuId} {env : Env σ}

/-- an activation on a processor that is not dirty loads unless the value is loaded -/
theorem trace_activate (hd : ¬ s.IsDirty m c) (h : s.activate c env m = .ok () n) :
    n.trace = m.trace ↔ m.slot s.root.kind c = s.value := by
  have hturn : s.turn c (s.enter m) = (s.unmark c (s.enter m)).switch s.root.kind c s.value :=
    if_neg fun he => hd (s.isDirty_enter.mp he)
  have ht : n.trace = if m.slot s.root.kind c = s.value then m.trace
      else m.trace.push (.loaded s.root.kind c s.value) := by
    rw [s.activate_ok h, s.trace_leave, hturn]
    rfl
  rw [ht]
  split
  · rename_i hs
    exact iff_of_true rfl hs
  · rename_i hs
    refine iff_of_false (fun he => ?_) hs
    have hsize := congrArg Array.size he
    rw [Array.size_push] at hsize
    omega

theorem slot_destroy {flushed : Nat} (h : s.destroy d env m = .ok flushed n) (c : CpuId) :
    n.slot s.root.kind c = s.value ↔
      (d.before (s.opened (s.closing m))).slot s.root.kind c = s.value ∨
        s.IsDirty (d.before (s.opened (s.closing m))) c ∧ c.val < d.online := by
  obtain ⟨_, hi⟩ := s.destroy_ok h
  rw [hi.slot, slot_shot]
  by_cases hc : s.IsDirty (d.before (s.opened (s.closing m))) c ∧ c.val < d.online
  · rw [if_pos ⟨rfl, hc⟩]
    exact iff_of_true rfl (.inr hc)
  · rw [if_neg fun hp => hc hp.2]
    exact ⟨.inl, fun hor => hor.resolve_right hc⟩

/-- with nobody else at work, each online processor flushes -/
theorem slot_destroy_quiet {flushed : Nat} (h : s.destroy d env m = .ok flushed n)
    (hb : d.before (s.opened (s.closing m)) = s.opened (s.closing m)) (c : CpuId) :
    n.slot s.root.kind c = s.value ↔ m.slot s.root.kind c = s.value ∨ c.val < d.online := by
  rw [slot_destroy h, hb]
  exact or_congr Iff.rfl ⟨fun hc => hc.2, fun hc => ⟨s.isDirty_opened _ c, hc⟩⟩

/-! ## destruction of a new space -/

/-- the root goes back to the allocator, and no page is taken -/
theorem finish_ok (env : Env σ) (hw : (s.tree.state m).walkers = 0)
    (hr : (s.tree.state m).released = false) :
    ∃ n, s.finish env m = .ok () n ∧ ∀ i ∈ n.live, i ∈ m.live ∧ i ≠ s.tree.root.frame := by
  have hroot : s.tree.root ∈ s.tree.pages (s.tree.tables m) := by
    rw [s.tree.pages_eq]
    exact List.mem_append_right _ (s.tree.format.self_mem_subtree ..)
  have hlive : ∀ i ∈ ((s.tree.forgetRetired (s.tree.markReleased m)).giveBackAll
      (s.tree.pages (s.tree.tables m))).live, i ∈ m.live ∧ i ≠ s.tree.root.frame := fun i hin =>
    ⟨(Machine.mem_live_giveBackAll.mp hin).1,
      fun he => (Machine.mem_live_giveBackAll.mp hin).2 s.tree.root hroot he.symm⟩
  unfold finish
  rw [Act.bind_apply, s.tree.release_ok env (.inl hw) hr]
  exact ⟨_, rfl, hlive⟩

/-- a destruction ends well if nothing is in flight and nobody walks -/
theorem destroy_active (env : Env σ) (hp : (s.state m).phase = .active)
    (hf : (s.state m).inFlight = 0)
    (hw : (s.tree.state (s.shot d (s.opened (s.closing m)))).walkers = 0)
    (hr : (s.tree.state (s.shot d (s.opened (s.closing m)))).released = false) :
    ∃ flushed n, s.destroy d env m = .ok flushed n ∧
      ∀ i ∈ n.live, i ∈ (s.shot d (s.opened (s.closing m))).live ∧ i ≠ s.tree.root.frame := by
  have hst : s.tree.state (s.settled d (s.closing m))
      = s.tree.state (s.shot d (s.opened (s.closing m))) :=
    congrArg (·.get s.tree.cell) (Machine.giveBackAll_same _ _).2.1
  rw [← hst] at hr
  obtain ⟨n, hn, hlive⟩ := finish_ok env (by rw [hst, hw]) hr
  refine ⟨(s.targets d (d.before (s.opened (s.closing m)))).length, n, ?_, fun i hi => ?_⟩
  · rw [s.destroy_runs hp hf, Act.bind_apply, s.settle_ok env (.inl hw)]
    simp only [Act.bind_apply, hn, Act.pure_apply]
  · obtain ⟨hin, hne⟩ := hlive i hi
    exact ⟨(Machine.mem_live_giveBackAll.mp hin).1, hne⟩

/-- a destruction of a space that was not used ends well -/
theorem destroy_unused (hs : s.state m = {}) (ht : s.tree.state m = {}) (env : Env σ) (online : Nat) :
    ∃ flushed n, s.destroy ⟨id, online⟩ env m = .ok flushed n ∧ (s.state n).phase = .destroyed ∧
      ∀ i ∈ n.live, i ∈ m.live ∧ i ≠ s.tree.root.frame := by
  have hsame := s.flushAll_same (s.targets ⟨id, online⟩ (s.opened (s.closing m))) (s.opened (s.closing m))
  have hopened : s.tree.state (s.opened (s.closing m)) = { s.tree.state m with retired := #[] } := by
    show (m.trees.modify s.tree.cell _).get s.tree.cell = _
    rw [Cells.get_modify, if_pos rfl]
    rfl
  have hshot : s.tree.state (s.shot ⟨id, online⟩ (s.opened (s.closing m)))
      = { s.tree.state m with retired := #[] } :=
    (congrArg (·.get s.tree.cell) hsame.2.1).trans hopened
  obtain ⟨flushed, n, hn, hlive⟩ := destroy_active env (by rw [hs]) (by rw [hs]) (by rw [hshot, ht])
    (by rw [hshot, ht])
  obtain ⟨_, n', hn', hphase⟩ := destroy_returns (d := ⟨id, online⟩) env (fun _ => .refl ..) (by rw [hs]) (by rw [hs])
    (by rw [ht])
  rw [hn] at hn'
  injection hn' with _ hend
  have hkept : (s.shot ⟨id, online⟩ (s.opened (s.closing m))).live = m.live := hsame.2.2.1
  rw [hkept] at hlive
  exact ⟨flushed, n, hn, hend ▸ hphase, hlive⟩

/-- so does one of a new space -/
theorem destroy_created {k : Regime} {cleaner : Option Cleaner} {tag : RegimeTag}
    (h : Space.create k cleaner tag env m = .ok s n) (env' : Env σ) (online : Nat) :
    ∃ flushed n', s.destroy ⟨id, online⟩ env' n = .ok flushed n' ∧ s.tree.root.frame ∉ n'.live := by
  obtain ⟨_, _, hs, _⟩ := create_ok h
  obtain ⟨_, _, _, ht⟩ := tables_create h
  obtain ⟨flushed, n', hn, _, hlive⟩ := destroy_unused hs ht env' online
  exact ⟨flushed, n', hn, fun hin => (hlive _ hin).2 rfl⟩

/-! ## what stays loaded -/

/-- after a destruction a processor has the value of the space loaded if it had when the flushes
began, or if it flushed; and just there the first switch to a later space with this value loads
nothing -/
theorem destroy_loaded {flushed : Nat} (h : s.destroy d env m = .ok flushed n) :
    (∀ c, n.slot s.root.kind c = s.value ↔
      (d.before (s.opened (s.closing m))).slot s.root.kind c = s.value ∨
        s.IsDirty (d.before (s.opened (s.closing m))) c ∧ c.val < d.online) ∧
    (d.before (s.opened (s.closing m)) = s.opened (s.closing m) → ∀ c,
      n.slot s.root.kind c = s.value ↔ m.slot s.root.kind c = s.value ∨ c.val < d.online) ∧
    ∀ (s' : Space) c (env' : Env σ) (k k' : Machine σ), s'.root.kind = s.root.kind →
      s'.value = s.value → k.slot s.root.kind c = n.slot s.root.kind c → ¬ s'.IsDirty k c →
      s'.activate c env' k = .ok () k' →
      (k'.trace = k.trace ↔ n.slot s.root.kind c = s.value) := by
  refine ⟨slot_destroy h, slot_destroy_quiet h, fun s' c env' k k' hk hv hs hd ha => ?_⟩
  rw [trace_activate hd ha, hk, hv, hs]

/-- a space that is destroyed while no processor is online is loaded nowhere -/
theorem destroy_loaded_offline : ∃ (s : Space) (flushed : Nat) (m₁ m₂ : Machine Unit),
    Space.create .counting none ⟨1⟩ (.offering [1]) { client := () } = .ok s m₁ ∧
      s.destroy ⟨id, 0⟩ (.offering [1]) m₁ = .ok flushed m₂ ∧
      ∀ c, m₂.slot s.root.kind c ≠ s.value := by
  have hs : (Env.offering [1] : Env Unit).supply { client := () }
      = ({ client := () }, some (.ofFrame 1)) := Env.offering_free Std.HashSet.not_mem_empty
  obtain ⟨s, m₁, hc, hroot⟩ := create_offered hs .counting none ⟨1⟩
  obtain ⟨flushed, m₂, hd, _⟩ := destroy_created hc (.offering [1]) 0
  refine ⟨s, flushed, m₁, m₂, hc, hd, fun c hv => ?_⟩
  rcases ((destroy_loaded hd).2.1 rfl c).mp hv with h | h
  · have hkept : ((Space.create .counting none ⟨1⟩).after (.offering [1])
        ({ client := () } : Machine Unit)).slot s.root.kind c = _ :=
      (Machine.permits_slot s.root.kind c).createSpace .counting none ⟨1⟩ (fun _ => rfl) _
    rw [Act.after_of_ok hc, h, (Machine.tracks_fresh rfl rfl).slot] at hkept
    have h0 : s.root.tree.root.bits ≠ 0 := by
      rw [show s.root.tree.root = .ofFrame 1 from hroot]
      decide
    exact Regime.compose_ne_zero s.root.kind s.tag h0 hkept
  · exact Nat.not_lt_zero _ h

/-- a space that is destroyed while one processor is online, and another one on the same page that is
switched to without a load -/
theorem destroy_then_recycle : ∃ (s s' : Space) (c : CpuId) (flushed : Nat)
    (m₁ m₂ m₃ m₄ : Machine Unit),
    Space.create .counting none ⟨1⟩ (.offering [1]) { client := () } = .ok s m₁ ∧
      s.destroy ⟨id, 1⟩ (.offering [1]) m₁ = .ok flushed m₂ ∧
      m₂.slot s.root.kind c = s.value ∧
      Space.create .counting none ⟨1⟩ (.offering [1]) m₂ = .ok s' m₃ ∧ s'.value = s.value ∧
      s'.activate c (.offering [1]) m₃ = .ok () m₄ ∧ m₄.trace = m₃.trace := by
  let c : CpuId := ⟨0, by decide⟩
  have hs₀ : (Env.offering [1] : Env Unit).supply { client := () }
      = ({ client := () }, some (.ofFrame 1)) := Env.offering_free Std.HashSet.not_mem_empty
  obtain ⟨s, m₁, hc₁, hroot⟩ := create_offered hs₀ .counting none ⟨1⟩
  obtain ⟨hk, htag, _⟩ := create_ok hc₁
  obtain ⟨flushed, m₂, hd, hfree⟩ := destroy_created hc₁ (.offering [1]) 1
  rw [hroot, PhysAddr.frame_ofFrame (by decide)] at hfree
  have hslot : m₂.slot s.root.kind c = s.value :=
    (slot_destroy_quiet hd rfl c).mpr (.inr (by decide))
  -- the page of the root is free again
  obtain ⟨s', m₃, hc₃, hroot'⟩ := create_offered (Env.offering_free hfree) .counting none ⟨1⟩
  obtain ⟨hk', htag', hnew, _⟩ := create_ok hc₃
  have hvalue : s'.value = s.value := by
    unfold value RegimeRoot.value
    rw [hk, hk', htag, htag', show s'.root.tree.root = _ from hroot',
      show s.root.tree.root = _ from hroot]
  have hkept : m₃.slot s.root.kind c = m₂.slot s.root.kind c := by
    have h : ((Space.create .counting none ⟨1⟩).after (.offering [1]) m₂).slot s.root.kind c = _ :=
      (Machine.permits_slot s.root.kind c).createSpace .counting none ⟨1⟩ (fun _ => rfl) m₂
    rwa [Act.after_of_ok hc₃] at h
  have hclean : ¬ s'.IsDirty m₃ c := by
    unfold IsDirty
    rw [hnew]
    exact Bool.eq_false_iff.mp (CpuSet.contains_empty c)
  have hactivate : s'.activate c (.offering [1]) m₃ = _ := s'.activate_active c (by rw [hnew])
  refine ⟨s, s', c, flushed, m₁, m₂, m₃, _, hc₁, hd, hslot, hc₃, hvalue, hactivate, ?_⟩
  rw [trace_activate hclean hactivate, hk', ← hk, hvalue, hkept]
  exact hslot

end Space

end NestedPaging
