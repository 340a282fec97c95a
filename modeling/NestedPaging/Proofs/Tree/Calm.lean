import NestedPaging.Proofs.Tree.Histories

/-!
# Operations that nobody interrupts

In calm surroundings nobody else changes the tree, though a page may be refused at any time. Then
an update that ends well has its effect and nothing else, and a walk or a failing update is quiet.
`Tree.Moved` says what the pieces of an operation do to a tree, and which tables they take off their
paths.
-/

namespace NestedPaging

open PhysAddr (IsPage)

variable {σ : Type}

/-- nobody else changes the tree -/
def Tree.Calm (t : Tree) (env : Env σ) : Prop := ∀ m, t.tables (env.supply m).1 = t.tables m

/-- the view after pieces are done one after the other -/
def Format.effects (f : Format) (split : Bool) (done : List (Mapping × Nat)) (v : View) : View :=
  done.foldl (fun v d => d.1.effect f split d.2 v) v

theorem Format.effects_append (f : Format) (split : Bool) (done more : List (Mapping × Nat))
    (v : View) : f.effects split (done ++ more) v = f.effects split more (f.effects split done v) :=
  List.foldl_append ..

/-- the request `d` covers the block of `a` at `level` -/
def Swallows (d : Mapping × Nat) (a : GuestAddr) (level : Nat) : Prop :=
  ∀ b : GuestAddr, b.block level = a.block level → d.1.Covers d.2 b

namespace Tree

/-- the tree `T₀` after the pieces `done` -/
structure Moved (t : Tree) (others : Nat → Prop) (own₀ : Layout) (T₀ : Tables)
    (done : List (Mapping × Nat)) (own : Layout) (T : Tables) : Prop where
  grows : own.Extends own₀
  owns : t.Owns others own T
  split : T.split = T₀.split
  view : t.view T.memory = t.format.effects T₀.split done (t.view T₀.memory)
  path : ∀ {a r}, t.format.inRange a = true → r ∈ t.path T₀.memory a →
    r ∈ t.path T.memory a ∨ ∃ d ∈ done, Swallows d a (r.level + 1)

variable {t : Tree} {others : Nat → Prop} {env : Env σ} {own own₀ : Layout} {T₀ : Tables}
  {m n : Machine σ} {a : GuestAddr} {p : Mapping} {order : Nat} {done : List (Mapping × Nat)}

theorem Moved.refl {T : Tables} (h : t.Owns others own T) : t.Moved others own T [] own T :=
  ⟨.refl own, h, rfl, rfl, fun _ h => .inl h⟩

theorem Moved.quiet {T T' : Tables} {own' : Layout} (h : t.Moved others own₀ T₀ done own T)
    (hq : t.Quiet others own own' T T') : t.Moved others own₀ T₀ done own' T' where
  grows := hq.grows.trans h.grows
  owns := hq.owns
  split := hq.split.trans h.split
  view := hq.view.trans h.view
  path ha hr := (h.path ha hr).imp_left fun hr' => hq.path ha hr'

theorem Calm.rely (hh : env.Honest) (hc : t.Calm env) (own₀ : Layout) (T₀ : Tables)
    (a : GuestAddr) : t.Rely others env a
      (fun own m => t.Quiet others own₀ own T₀ (t.tables m)) fun _ _ => False where
  honest := hh
  owns h := h.owns
  quiet h _ hq _ := ⟨h.trans hq, fun _ => False.elim⟩
  supply {own m} h := by
    refine ⟨own, .refl own, ?_, congrArg Tables.split (hc m), fun _ => False.elim, fun r hr => ?_⟩
    · rw [hc m]
      exact h
    · left
      rw [show (env.supply m).1.memory = m.memory from congrArg Tables.memory (hc m)]
      exact hr
  lower := id

theorem Calm.offering (t : Tree) (frames : List Nat) : t.Calm (.offering frames : Env σ) :=
  fun _ => rfl

theorem Calm.paced (hc : t.Calm env) : env.Paced := fun m => .inl (congrArg Tables.memory (hc m))

section
variable {q r : PhysAddr} {l x : Nat} {k : Machine σ} {gap : AtGap} {raw : Word}
  (hr : own r = some ⟨l + 1, x⟩) (hraw : m.memory.entry r (tableIndex a (l + 1)) = raw)
  (ht : t.format.isTable raw (l + 1) = false)
include hr hraw ht

/-- where an entry is no table and no reason to stop, the page that is offered becomes one -/
theorem Calm.child_attached (hh : env.Honest) (hc : t.Calm env) (h : t.Owns others own (t.tables m))
    (hgap : gap = .stop → raw ≠ 0) (hs : env.supply m = (k, some q)) :
    ∃ n, t.child (.through r a (l + 1)) gap env m = .ok (some q) n ∧
      Owns.Attached t own r q l x (tableIndex a (l + 1)) (t.tables m) (t.tables n) ∧
      ∃ entries, t.offerTable (.through r a (l + 1)) raw entries env m = .ok () n := by
  have hkm : t.tables k = t.tables m := by
    have e := hc m
    rwa [hs] at e
  obtain ⟨hq, hf⟩ := hh m q (by rw [hs])
  rw [hs] at hf
  rcases Rely.childWithin_bare h hr hraw ht env gap (env.rank m.client + 1) with
    ⟨hstop, h0, _⟩ | ⟨entries, hl, hlen, hlook⟩
  · exact absurd h0 (hgap hstop)
  have hsplit : k.splitExecute = m.splitExecute := congrArg Tables.split hkm
  have hwin : k.memory.entry r (tableIndex a (l + 1)) = raw := by
    rw [show k.memory = m.memory from congrArg Tables.memory hkm]
    exact hraw
  obtain ⟨n, hrun, _, hat⟩ := offerTable_attached (s := .through r a (l + 1)) entries hs (hkm ▸ h) hq
    hf hr (tableIndex_lt a _) ht (by rw [hsplit]; exact hl _) (by rw [hsplit]; exact hlen) hwin
  rw [hkm] at hat
  refine ⟨n, hlook.trans ?_, hat, entries, hrun⟩
  -- the second look finds the table
  have hagain := Rely.childWithin_of_table (p := r) t env gap hat.here (t.format.isTable_tableWord hq l)
    (env.rank m.client)
  rw [t.format.entryAddress_tableWord hq] at hagain
  simp only [Act.bind_apply, hrun]
  exact hagain

/-- and if none is offered the look fails -/
theorem child_starved (h : t.Owns others own (t.tables m)) (hgap : gap = .stop → raw ≠ 0)
    (hs : env.supply m = (k, none)) :
    t.child (.through r a (l + 1)) gap env m = .error (.failed .insufficientMemory) (k.note .exhausted) := by
  rcases Rely.childWithin_bare h hr hraw ht env gap (env.rank m.client + 1) with
    ⟨hstop, h0, _⟩ | ⟨entries, _, _, hlook⟩
  · exact absurd h0 (hgap hstop)
  · refine hlook.trans ?_
    rw [Act.bind_apply, offerTable_none hs]

end

theorem Calm.child_offered (hh : env.Honest) (hc : t.Calm env) (h : t.Owns others own (t.tables m))
    {q r : PhysAddr} {l x : Nat} {k : Machine σ} (hs : env.supply m = (k, some q))
    (hr : own r = some ⟨l + 1, x⟩) (h0 : m.memory.entry r (tableIndex a (l + 1)) = 0) :
    ∃ c n, t.child (.through r a (l + 1)) .grow env m = .ok (some c) n := by
  have hgap : AtGap.grow = .stop → (0 : Word) ≠ 0 := nofun
  obtain ⟨n, hn, _⟩ := hc.child_attached hr h0 (t.format.isTable_zero _) hh h hgap hs
  exact ⟨q, n, hn⟩

/-- a mapping just below an absent entry of the root fails if no page is offered -/
theorem update_exhausted (p : Mapping) (order : Nat) {k : Machine σ} (h : t.Owns others own (t.tables m))
    (hr : t.format.refusal? p order = none) (hmap : p.maps = true)
    (hl : t.format.rootLevel = p.leafLevel order t.format.topLeafLevel + 1)
    (hs : env.supply (t.enterWalk m) = (k, none))
    (h0 : m.memory.entry t.root (tableIndex p.gpa t.format.rootLevel) = 0) :
    t.update p order env m
      = .error (.failed .insufficientMemory) (t.leaveWalk (k.note .exhausted)) := by
  have hplace := h.root
  rw [hl] at h0 hplace
  have hgap : AtGap.grow = .stop → (0 : Word) ≠ 0 := nofun
  have hchild := child_starved (m := t.enterWalk m) hplace h0 (t.format.isTable_zero _)
    ((alike_enterWalk m).tables ▸ h) hgap hs
  have hreach := Rely.reach_below_root t env p.gpa _ .grow (t.enterWalk m) hl
  rw [Act.map_apply, hchild] at hreach
  apply update_of_reach_error p order hr
  rw [if_pos hmap]
  exact hreach

theorem Calm.update (hh : env.Honest) (hc : t.Calm env) (h : t.Owns others own (t.tables m))
    (hr : t.format.refusal? p order = none) :
    Yields env (fun own' n => t.Quiet others own own' (t.tables m) (t.tables n)) own
      (t.Updated (fun own' n => t.Quiet others own own' (t.tables m) (t.tables n))
        (fun _ _ => False) p order) (t.update p order env m) :=
  (Calm.rely hh hc own (t.tables m) p.gpa).update_yields hr (.refl h)

theorem Reachable.updated {covered : Nat} (hm : t.Reachable others m) (hh : env.Honest) (hc : t.Calm env)
    (h : t.update p order env m = .ok covered n) : t.Reachable others n := by
  have hok : (TreeReply.covered <$> t.update p order) env m = .ok (.covered covered) n := by
    rw [Act.map_apply, h]
  rw [← Act.after_of_ok hok]
  exact hm.op env (.update p order) hh fun k => .elsewhere (hc k)

theorem Calm.updated (hr : t.format.Accepts p order)
    (hJ : t.Moved others own₀ T₀ done own (t.tables m)) {covered : Nat} {own' : Layout}
    (hu : t.Updated (fun own' n => t.Quiet others own own' (t.tables m) (t.tables n))
      (fun _ _ => False) p order covered own' n) :
    t.Moved others own₀ T₀ (done ++ [(p, covered)]) own' (t.tables n) := by
  obtain ⟨rfl, k, hk, _, hl⟩ := hu
  have hsplit : k.splitExecute = m.splitExecute := hk.split
  constructor
  · exact hk.grows.trans hJ.grows
  · exact hl.owns hk.owns hr
  · exact hl.split.trans (hsplit.trans hJ.split)
  · have hv : t.view n.memory = _ :=
      (hl.view hk.owns hr fun _ => False.elim).resolve_right fun e => e.2
    show t.view n.memory = _
    rw [hv, t.format.effects_append, ← hJ.view, ← hJ.split, hsplit]
    exact congrArg _ hk.view
  · intro a r ha hra
    rcases hJ.path ha hra with hr₁ | ⟨d, hd, hs⟩
    · rcases hl.path hk.owns hr ha (hk.path ha hr₁) with hr₂ | hs
      · exact .inl hr₂
      · exact .inr ⟨_, List.mem_append_right _ (List.mem_singleton.mpr rfl), hs⟩
    · exact .inr ⟨d, List.mem_append_left _ hd, hs⟩

theorem Calm.steps (hh : env.Honest) (hc : t.Calm env) (own₀ : Layout) (T₀ : Tables) :
    t.Steps env fun done own m => t.Moved others own₀ T₀ done own (t.tables m) := by
  intro done p order own m hr hJ
  refine (Ends.of_yields (hc.update hh hJ.owns hr)).mono (fun own' n hq => hJ.quiet hq) ?_
  intro covered own' n hu
  exact ⟨hu.1, Calm.updated (Format.accepts_of_refusal? hr) hJ hu⟩

/-- any operation that nobody interrupts does its pieces, or some but the last -/
theorem Calm.perform (hh : env.Honest) (hc : t.Calm env) (h : t.Owns others own (t.tables m))
    (op : TreeOp) :
    t.Performed env (fun done own' n => t.Moved others own (t.tables m) done own' (t.tables n)) own op
      (t.perform op env m) := by
  refine (Calm.steps hh hc own (t.tables m)).perform ?_ ?_ (.refl h) op
  · intro own' k n hJ hal
    rw [hal.tables]
    exact hJ
  · intro a level own' k hl ha hJ
    exact (Ends.of_yields ((Calm.rely hh hc own' (t.tables k) a).walk_yields hl ha
      (.refl hJ.owns))).mono (fun _ _ hq => hJ.quiet hq) fun _ _ _ hv => hJ.quiet hv.1

end Tree

end NestedPaging
