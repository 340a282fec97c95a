import NestedPaging.Proofs.Objects.RemapTables
import NestedPaging.Proofs.Objects.TreesAndSpaces

/-!
# Objects come and go

A creation accesses registers at most, then asks for a page, and then makes the object of it
(`Creation.outcome`). What an object holds is given back when it is dropped (`Object.Sound.drop`). Both
leave all objects in order, and so does a creation that fails.
-/

namespace NestedPaging

open PhysAddr (IsPage)
open Machine (Accessed Beside Deed Deeds)

variable {σ : Type}

/-- what a drop gives back are pages of the object -/
theorem Object.Sound.drop {o : Object} {m : Machine σ} (h : o.Sound m) (env : Env σ) :
    ∃ F, Deeds (Beside o.cells) (o.frames m) m F (o.drop env m) := by
  cases o with
  | tree t => exact h.2.release (.refl _) env
  | space s => exact h.2.release (.inr rfl) env
  | contexts t =>
    have hs : t.Sound m.memory := h
    have hrun : (t.drop : Act σ RemapError Unit) env m = .ok () (m.giveBackAll (t.pages m.memory)) := by
      unfold ContextTables.drop
      rw [Act.bind_apply, Act.view_apply]
      exact Tree.forM_freePage env _ m
    show ∃ F, Deeds _ (t.frames m.memory) m F ((t.drop : Act σ RemapError Unit).after env m)
    rw [Act.after_of_ok hrun]
    exact ⟨_, .giveBackAll m hs.nodup fun p hp => ⟨p, hp, rfl⟩⟩
  | interrupts t => exact ⟨_, (Deed.giveBack (q := t.base) (Set.mem_singleton _)).deeds⟩
  | unit u =>
    show ∃ F, Deeds _ u.frames m F ((u.drop : Act σ RemapError Unit).after env m)
    unfold Remapper.drop
    cases hq : u.queue with
    | none => exact ⟨_, .refl⟩
    | some q =>
      have hin : q.base.frame ∈ u.frames := ⟨q, hq, rfl⟩
      exact ⟨_, (Deed.giveBack hin).deeds⟩

/-! ## creations -/

/-- the object was made of the page `q` -/
structure Object.Made (o : Object) (q : PhysAddr) (k n : Machine σ) : Prop where
  deeds : Deeds (Beside o.cells) ∅ k {q.frame} n
  sound : o.Sound n
  frames : o.frames n = {q.frame}
  cells : ∀ c ∈ o.cells, c.IsIn n ∧ ¬ c.IsIn k
  /-- an object that there was had other cells, or held this page -/
  fresh : o.cells.Nonempty ∨ q.frame ∈ o.frames k

section
variable {env : Env σ} {m k n : Machine σ} {q : PhysAddr}

theorem Tree.made {f : Format} {cleaner : Option Cleaner} {t : Tree} (hh : env.Honest)
    (h : create f cleaner env m = .ok t n) {C : Set CellRef} (hC : .tree t.cell ∈ C) :
    Deeds (Beside C) ∅ (env.supply m).1 {t.root.frame} n ∧ (Object.tree t).Sound n ∧
      t.frames n = {t.root.frame} ∧ t.cell < n.trees.next ∧ ¬ t.cell < (env.supply m).1.trees.next := by
  obtain ⟨own, ho, hf, hd⟩ := deeds_create (R := Beside C) hh h fun k es hcell => by
    have hnoted : k.Beside C (k.noteAll es) := .of_cells rfl rfl rfl rfl rfl
    exact hnoted.trans (.freshTree (hcell ▸ hC) {})
  obtain ⟨k, hk, _, hcell, rfl⟩ := create_eq h
  rw [hf] at hd
  refine ⟨hd, Object.sound_of_owns (t := t) rfl ho, ho.frames_eq.trans hf, ?_, ?_⟩
  · rw [hcell]
    exact Nat.lt_succ_self k.trees.next
  · rw [hk, hcell]
    exact Nat.lt_irrefl _

theorem Space.made {kind : Regime} {cleaner : Option Cleaner} {tag : RegimeTag} {s : Space} (hh : env.Honest)
    (h : create kind cleaner tag env m = .ok s n) : (Object.space s).Made s.tree.root (env.supply m).1 n := by
  obtain ⟨_, _, j, hj, hcell, line, rfl⟩ := create_eq h
  obtain ⟨hd, hs, hf, hin, hout⟩ := Tree.made hh hj (C := (Object.space s).cells) (.inr rfl)
  have hspaces : (env.supply m).1.spaces.next = j.spaces.next := by
    obtain ⟨k, hk, _, _, rfl⟩ := Tree.create_eq hj
    rw [hk]
    rfl
  have hnoted : Deed (Beside (Object.space s).cells) {s.tree.root.frame} j {s.tree.root.frame}
    (j.note (.logged .debug line)) := .note j trivial
  refine ⟨hd.trans (hnoted.deeds.trans (.aside rfl rfl ⟨[], .refl rfl, nofun⟩
    (.freshSpace (.inl (congrArg CellRef.space hcell.symm)) {}))), ⟨fun _ => hs.1, hs.2⟩, hf, ?_,
    .inl ⟨_, .inl rfl⟩⟩
  rintro c (rfl | rfl)
  · refine ⟨?_, fun hc => ?_⟩
    · show s.cell < j.spaces.next + 1
      rw [hcell]
      exact Nat.lt_succ_self _
    · have hlt : s.cell < (env.supply m).1.spaces.next := hc
      rw [hspaces, hcell] at hlt
      exact Nat.lt_irrefl _ hlt
  · exact ⟨hin, hout⟩

variable (hq : IsPage q) (hf : k.isLive q = false)
include hq hf

theorem Machine.deeds_take (C : Set CellRef) : Deeds (Beside C) ∅ k {q.frame} (k.take q 0) := by
  have htake : Deed (Beside C) ∅ k (insert q.frame ∅) (k.take q 0) := .take hq hf
  rw [insert_empty_eq] at htake
  exact htake.deeds

theorem ContextTables.made (c : Cleaner) :
    (Object.contexts ⟨q, c⟩).Made q k ((k.take q 0).noteAll (c.events q 4096 (k.take q 0).memory)) := by
  obtain ⟨n, hn⟩ : ∃ n, (k.take q 0).noteAll (c.events q 4096 (k.take q 0).memory) = n := ⟨_, rfl⟩
  have hzero : ∀ b < 256, n.memory.read (TableEntry.ofTable q b).address = 0 := fun b hb => by
    rw [← hn]
    exact (k.memory.read_fill q.frame 0 _).trans (if_pos (TableEntry.frame_address hq hb).symm)
  have hdeeds : Deeds (Beside ∅) ∅ k {q.frame} n := by
    rw [← hn]
    exact (Machine.deeds_take hq hf _).trans (Deed.noteAll _ (c.plain_events _ _ _)).deeds
  obtain ⟨hsound, hframes⟩ := ContextTables.blank (t := ⟨q, c⟩) hq hzero
  rw [hn]
  exact ⟨hdeeds, hsound, hframes, nofun, .inr (root_mem (t := ⟨q, c⟩))⟩

theorem InterruptTable.made (c : Cleaner) :
    (Object.interrupts ⟨q, c⟩).Made q k ((k.take q 0).noteAll (c.events q 4096 (k.take q 0).memory)) :=
  ⟨(Machine.deeds_take hq hf _).trans (Deed.noteAll _ (c.plain_events _ _ _)).deeds, hq, rfl, nofun, .inr rfl⟩

/-- the queue of a new unit starts at its first slot -/
theorem Remapper.made {u : Remapper} (hu : u.queue = some ⟨k.rings.next, q⟩) :
    (Object.unit u).Made q k { k.take q 0 with rings := (k.rings.fresh {}).2 } := by
  have hcells : ∀ c, c ∈ (Object.unit u).cells ↔ c = .ring k.rings.next := by
    intro c
    constructor
    · rintro ⟨q', hq', rfl⟩
      rw [← Option.some.inj (hu.symm.trans hq')]
    · rintro rfl
      exact ⟨_, hu, rfl⟩
  refine ⟨(Machine.deeds_take hq hf _).trans (.aside rfl rfl ⟨[], .refl rfl, nofun⟩
    (.freshRing (m := k.take q 0) ((hcells _).mpr rfl) {})), fun q' hq' => ?_, ?_, fun c hc => ?_,
    .inl ⟨_, (hcells _).mpr rfl⟩⟩
  · obtain rfl := Option.some.inj (hu.symm.trans hq')
    refine ⟨hq, ?_⟩
    show ((k.rings.fresh {}).2.get k.rings.next).tail < ringSlots
    rw [Cells.get_fresh, if_pos rfl]
    decide
  · ext i
    constructor
    · rintro ⟨q', hq', rfl⟩
      rw [← Option.some.inj (hu.symm.trans hq')]
      rfl
    · rintro rfl
      exact ⟨_, hu, rfl⟩
  · obtain rfl := (hcells c).mp hc
    exact ⟨Nat.lt_succ_self k.rings.next, Nat.lt_irrefl k.rings.next⟩

end

namespace Creation

/-- how a creation can end -/
inductive Outcome (env : Env σ) (m : Machine σ) : Option Object × Machine σ → Prop
  /-- the unit cannot be used -/
  | stopped {n : Machine σ} : m.Accessed n → Outcome env m (none, n)
  /-- a unit without a queue -/
  | bare {n : Machine σ} {u : Remapper} : m.Accessed n → u.queue = none →
      Outcome env m (some (.unit u), n)
  /-- there is no page -/
  | exhausted {j k : Machine σ} : m.Accessed j → env.supply j = (k, none) →
      Outcome env m (none, k.note .exhausted)
  | made {j k n : Machine σ} {q : PhysAddr} {o : Object} : m.Accessed j → env.supply j = (k, some q) →
      o.Made q k n → Outcome env m (some o, n)

variable {env : Env σ} {m j : Machine σ}

theorem outcome_of_supply (hh : env.Honest) (hj : m.Accessed j) {r : Option Object × Machine σ}
    (hnone : ∀ k, env.supply j = (k, none) → r = (none, k.note .exhausted))
    (hsome : ∀ k q, env.supply j = (k, some q) → IsPage q → k.isLive q = false →
      ∃ o n, r = (some o, n) ∧ o.Made q k n) : Outcome env m r := by
  cases hs : env.supply j with
  | mk k offer =>
    cases offer with
    | none =>
      rw [hnone k hs]
      exact .exhausted hj hs
    | some q =>
      obtain ⟨hq, hf⟩ := hh j q (by rw [hs])
      rw [hs] at hf
      obtain ⟨o, n, hr, ho⟩ := hsome k q hs hq hf
      rw [hr]
      exact .made hj hs ho

theorem outcome_tree (hh : env.Honest) (f : Format) (cleaner : Option Cleaner) (m : Machine σ) :
    Outcome env m (made .tree (Tree.create f cleaner env m)) := by
  refine outcome_of_supply hh (.refl m) (fun k hs => ?_) fun k q hs _ _ => ?_
  · unfold Tree.create
    rw [Act.bind_apply, Act.allocOr_none hs]
    rfl
  · obtain ⟨t, n, hrun, _, hroot, _⟩ := Tree.create_offered hs f cleaner
    obtain ⟨hd, hsound, hf, hin, hout⟩ := Tree.made hh hrun (C := (Object.tree t).cells) rfl
    rw [hs, hroot] at hd
    rw [hs] at hout
    rw [hroot] at hf
    rw [hrun]
    refine ⟨_, n, rfl, hd, hsound, hf, ?_, .inl ⟨_, rfl⟩⟩
    rintro c rfl
    exact ⟨hin, hout⟩

theorem outcome_space (hh : env.Honest) (kind : Regime) (cleaner : Option Cleaner) (tag : RegimeTag)
    (m : Machine σ) : Outcome env m (made .space (Space.create kind cleaner tag env m)) := by
  refine outcome_of_supply hh (.refl m) (fun k hs => ?_) fun k q hs _ _ => ?_
  · unfold Space.create RegimeRoot.create Tree.create
    simp only [Act.bind_apply, Act.allocOr_none hs]
    rfl
  · obtain ⟨s, n, hrun, hroot⟩ := Space.create_offered hs kind cleaner tag
    have hmade := Space.made hh hrun
    rw [hs, hroot] at hmade
    rw [hrun]
    exact ⟨_, n, rfl, hmade⟩

theorem outcome_contexts (hh : env.Honest) (cleaner : Cleaner) (m : Machine σ) :
    Outcome env m (made .contexts (ContextTables.create cleaner env m)) := by
  unfold ContextTables.create
  refine outcome_of_supply hh (.refl m) (fun k hs => ?_) fun k q hs hq hf => ?_
  · rw [Act.bind_apply, Act.allocOr_none hs]
    rfl
  · simp only [Act.bind_apply, Act.allocOr_some hs, Act.clean_apply]
    exact ⟨_, _, rfl, ContextTables.made hq hf cleaner⟩

theorem outcome_interrupts (hh : env.Honest) (cleaner : Cleaner) (m : Machine σ) :
    Outcome env m (made .interrupts (InterruptTable.create cleaner env m)) := by
  unfold InterruptTable.create
  refine outcome_of_supply hh (.refl m) (fun k hs => ?_) fun k q hs hq hf => ?_
  · rw [Act.bind_apply, Act.allocOr_none hs]
    rfl
  · simp only [Act.bind_apply, Act.allocOr_some hs, Act.clean_apply]
    exact ⟨_, _, rfl, InterruptTable.made hq hf cleaner⟩

theorem accessed_read64 {ε : Type} (r : RegisterFile) (offset : Nat) :
    (r.read64 offset : Act σ ε Word).Keeps Accessed env := by
  cases r with
  | mapped base => exact Accessed.view _
  | device cell => exact RegisterFile.accessed_read64 cell offset

/-- once its registers were read, a unit is refused, or it asks for the page of its queue, or it does
without one -/
theorem create_unit_cases (base : Word) (registers : RegisterFile) (queued : Bool) (cleaner : Cleaner)
    (env : Env σ) (m : Machine σ) :
    (∃ e n, Remapper.create base registers queued cleaner env m = .error e n ∧ m.Accessed n) ∨
      ∃ capability extended j, m.Accessed j ∧
        (Remapper.create base registers queued cleaner env m
            = .ok ⟨base, registers, capability, extended, none, cleaner⟩ j ∨
          Remapper.create base registers queued cleaner env m
            = (do
                let page ← Act.allocOr .insufficientMemory 0
                let queue ← InvalidationQueue.create page
                pure ⟨base, registers, capability, extended, some queue, cleaner⟩ :
                Act σ RemapError Remapper) env j) := by
  have hread : ∀ offset, (registers.read64 offset : Act σ RemapError Word).Keeps Accessed env :=
    accessed_read64 registers
  unfold Remapper.create
  rw [Act.bind_apply]
  have h₁ := hread Register.capability m
  unfold Act.after at h₁
  cases hc : (registers.read64 Register.capability : Act σ RemapError Word) env m with
  | error e n =>
    rw [hc] at h₁
    exact .inl ⟨e, n, rfl, h₁⟩
  | ok capability k =>
    rw [hc] at h₁
    simp only
    rw [Act.bind_apply]
    have h₂ := hread Register.extended k
    unfold Act.after at h₂
    cases he : (registers.read64 Register.extended : Act σ RemapError Word) env k with
    | error e n =>
      rw [he] at h₂
      exact .inl ⟨e, n, rfl, h₁.trans h₂⟩
    | ok extended j =>
      rw [he] at h₂
      have hj : m.Accessed j := h₁.trans h₂
      simp only
      split
      · exact .inl ⟨_, j, rfl, hj⟩
      · refine .inr ⟨capability, extended, j, hj, ?_⟩
        by_cases hq : (queued && extended.bit 1) = true
        · refine .inr ?_
          simp only [Act.bind_apply, hq, if_true]
          cases (Act.allocOr RemapError.insufficientMemory 0 : Act σ RemapError PhysAddr) env j <;> rfl
        · refine .inl ?_
          simp only [hq]
          rfl

theorem outcome_unit (hh : env.Honest) (base : Word) (registers : RegisterFile) (queued : Bool)
    (cleaner : Cleaner) (m : Machine σ) :
    Outcome env m (made .unit (Remapper.create base registers queued cleaner env m)) := by
  rcases create_unit_cases base registers queued cleaner env m with
    ⟨e, n, hr, hn⟩ | ⟨capability, extended, j, hj, hr | hr⟩ <;> rw [hr]
  · exact .stopped hn
  · exact .bare hj rfl
  · refine outcome_of_supply hh hj (fun k hs => ?_) fun k q hs hq hf => ?_
    · simp only [Act.bind_apply, Act.allocOr_none hs]
      rfl
    · simp only [Act.bind_apply, Act.allocOr_some hs]
      exact ⟨_, _, rfl, Remapper.made hq hf rfl⟩

theorem outcome (hh : env.Honest) (c : Creation) (m : Machine σ) : Outcome env m (c.run env m) := by
  cases c with
  | tree f cleaner => exact outcome_tree hh f cleaner m
  | space k cleaner tag => exact outcome_space hh k cleaner tag m
  | contexts cleaner => exact outcome_contexts hh cleaner m
  | interrupts cleaner => exact outcome_interrupts hh cleaner m
  | unit base registers queued cleaner => exact outcome_unit hh base registers queued cleaner m

end Creation

/-! ## among others -/

variable [Registry σ] {S : Terms} {w : Turn σ} {env : Env σ} {m k n : Machine σ} {o : Object} {client : σ}

/-- an object that was made did not exist before -/
theorem Object.Made.absent {q : PhysAddr} (h : o.Made q k n) (hf : k.isLive q = false)
    (hk : k.Orderly k.objects) : o ∉ k.objects := by
  intro ho
  rcases h.fresh with ⟨c, hc⟩ | hq
  · exact (h.cells c hc).2 (hk.isIn o ho c hc)
  · exact Machine.ne_of_isLive hf (hk.live o ho _ hq) rfl

/-- an object that is about to be made holds nothing yet -/
theorem Underway.fresh (hm : m.Orderly m.objects) (hcells : ∀ c ∈ w.object.cells, ¬ c.IsIn m)
    (hw : w.object.window ⊆ Registry.reserved σ) : Underway S w m ∅ m where
  amid :=
    { rest := hm.mono Set.sdiff_subset
      live := nofun
      apart := fun _ _ _ => Set.empty_disjoint _
      cells := fun b hb _ => Set.disjoint_left.mpr fun c hc hcb => hcells c hc (hm.isIn b hb c hcb)
      reserve := fun _ _ => nofun
      window := hw }
  story := .leave (Set.empty_subset _)
  stays := id
  guards b hb _ := .of_spared hb (.refl b m)

theorem goes_create (hm : m.Orderly m.objects) (hh : env.Honest)
    (hs : ∀ j : Machine σ, j.Orderly j.objects → Goes S none j (env.supply j).1)
    (ho : Creation.Outcome env m (some o, n)) (hw : o.window ⊆ Registry.reserved σ)
    (hc : Registry.objects client = insert o n.objects) :
    Goes S (some ⟨o, fun j => (env.supply j).1⟩) m { n with client } := by
  cases ho with
  | @bare _ u ha hq =>
    -- a unit without a queue holds nothing
    have hcells : ∀ c, c ∉ (Object.unit u).cells := by
      rintro c ⟨q, hq', _⟩
      rw [hq] at hq'
      cases hq'
    have hframes : u.frames = ∅ := by
      refine Set.eq_empty_of_forall_notMem ?_
      rintro i ⟨q, hq', _⟩
      rw [hq] at hq'
      cases hq'
    have hidle : Goes S (some ⟨.unit u, fun j => (env.supply j).1⟩) m n := .idle hm (.accessed ha)
    have hu : Underway S ⟨.unit u, fun j => (env.supply j).1⟩ n u.frames n := by
      rw [hframes]
      exact .fresh hidle.order (fun c hc => absurd hc (hcells c)) hw
    refine hidle.trans (hu.arrive (fun q hq' => ?_) (fun c hc => absurd hc (hcells c)) hc fun _ =>
      .of_spared ?_ (.client ..))
    · rw [hq] at hq'
      cases hq'
    · show _ ∈ Registry.objects client
      rw [hc]
      exact .inl rfl
  | @made j k _ q _ ha hsup hmade =>
    have hidle : Goes S (some ⟨o, fun j => (env.supply j).1⟩) m j := .idle hm (.accessed ha)
    obtain ⟨_, hf⟩ := hh j q (by rw [hsup])
    have hothers : Goes S (some ⟨o, fun j => (env.supply j).1⟩) j (env.supply j).1 :=
      .others (w := ⟨o, fun j => (env.supply j).1⟩) (hs j hidle.order)
    rw [hsup] at hothers hf
    have hu := (Underway.fresh (S := S) (w := ⟨o, fun j => (env.supply j).1⟩) hothers.order
      (fun c hc => (hmade.cells c hc).2) hw).deeds hmade.deeds
    rw [← hmade.frames] at hu
    exact (hidle.trans hothers).trans (hu.arrive hmade.sound (fun c hc => (hmade.cells c hc).1) hc
      fun hin => absurd hin (hmade.absent hf hothers.order))

theorem goes_fail (hm : m.Orderly m.objects)
    (hs : ∀ j : Machine σ, j.Orderly j.objects → Goes S none j (env.supply j).1)
    (ho : Creation.Outcome env m (none, n)) : Goes S none m n := by
  cases ho with
  | stopped ha => exact .idle hm (.accessed ha)
  | @exhausted j k ha hsup =>
    have hidle : Goes S none m j := .idle hm (.accessed ha)
    have hothers := hs j hidle.order
    rw [hsup] at hothers
    exact (hidle.trans hothers).trans (.idle hothers.order (.note k trivial))

theorem goes_drop (hm : m.Orderly m.objects) (env : Env σ) (ho : o ∈ m.objects) (ha : o ∈ S.acts)
    (hu : o ∉ S.used) (hb : o ∉ S.busy) (hc : Registry.objects client = m.objects \ {o}) :
    Goes S (some ⟨o, id⟩) m { o.drop env m with client } := by
  obtain ⟨F, hF⟩ := (hm.sound o ho).drop env
  obtain ⟨n, hn⟩ : ∃ n, o.drop env m = n := ⟨_, rfl⟩
  rw [hn] at hF ⊢
  have hgone : Underway S ⟨o, id⟩ m ∅ n := ((Underway.start hm ho).deeds hF).leave (Set.empty_subset F)
  have hobj : n.objects = m.objects := Machine.objects_eq (Beside.of_deeds hF).client
  rw [← hobj] at hc
  refine hgone.close (hc ▸ hgone.amid.rest) (fun b hne => ?_) ?_ fun _ =>
    ⟨fun hs => absurd hs ?_, fun hs => absurd hs hb, fun hs => absurd ha hs⟩
  · rw [hc]
    exact and_iff_left hne
  · rw [hc]
    exact (Set.eq_empty_of_forall_notMem fun i hi => hi.1.2 rfl).symm
  · rintro (hs | hs | hs)
    · exact hs ha
    · exact hu hs
    · exact hb hs

end NestedPaging
