import NestedPaging.Proofs.Tree.Effects
import NestedPaging.Proofs.Tree.Walking

/-!
# Updates

An update walks to its first entry and then writes its run of entries at one moment: `Tree.Lands`
is what happens there. On the path of the address it makes the view the effect of the request, and
in a table that somebody detached it changes nothing that is mapped (`Lands.view`). A table leaves
a path only if the request covers all that the table maps (`Lands.path`).
-/

namespace NestedPaging

variable {σ ε : Type}

namespace Tree

/-- `w` stored in the entry `s`; a table that the entry pointed to is recorded -/
def exchange (t : Tree) (s : Slot) (w : Word) (m : Machine σ) : Machine σ :=
  if t.format.isTable (m.memory.read s.address) s.level then
    t.changeState (fun st => { st with
        retired := st.retired.push ⟨entryAddress (m.memory.read s.address), s.level - 1⟩ })
      ((m.store s.address w).note (.detached t.cell (entryAddress (m.memory.read s.address))))
  else m.store s.address w

theorem tables_exchange (t : Tree) (s : Slot) (w : Word) (m : Machine σ) :
    t.tables (t.exchange s w m) = (t.tables m).replace t.format s.table s.level s.index w := by
  unfold exchange Tables.replace Tables.displaced
  by_cases ht : t.format.isTable (m.memory.read s.address) s.level = true
  · rw [if_pos ht,
      show t.format.isTable ((t.tables m).memory.entry s.table s.index) s.level = true from ht,
      if_pos rfl]
    simp only [tables, state, changeState, Cells.get_modify, if_true, Array.toList_push]
    rfl
  · rw [if_neg ht]
    rw [Bool.not_eq_true] at ht
    rw [show t.format.isTable ((t.tables m).memory.entry s.table s.index) s.level = false from ht,
      if_neg Bool.false_ne_true, List.append_nil]
    rfl

theorem overwrite_cons (t : Tree) (env : Env σ) (s : Slot) (w : Word) (ws : List Word) (m : Machine σ) :
    (t.overwrite s (w :: ws) : Act σ ε Unit) env m
      = (t.overwrite s.next ws : Act σ ε Unit) env (t.exchange s w m) := by
  rw [overwrite, exchange]
  by_cases ht : t.format.isTable (m.memory.read s.address) s.level = true
  · simp only [Act.bind_apply, Act.swap_apply, ht, if_true]
    rfl
  · simp only [Act.bind_apply, Act.swap_apply, ht, if_false, Bool.false_eq_true]

theorem overwrite_ok (t : Tree) (env : Env σ) (s : Slot) (ws : List Word) (m : Machine σ) :
    ∃ n, (t.overwrite s ws : Act σ ε Unit) env m = .ok () n ∧ n.client = m.client ∧
      t.tables n = (t.tables m).overwrite t.format s.table s.level s.index ws := by
  induction ws generalizing s m with
  | nil => exact ⟨m, rfl, rfl, rfl⟩
  | cons w ws ih =>
    obtain ⟨n, hn, hc, ht⟩ := ih s.next (t.exchange s w m)
    refine ⟨n, (t.overwrite_cons ..).trans hn, hc.trans ?_, ?_⟩
    · unfold exchange
      split <;> rfl
    · rw [ht, tables_exchange]
      rfl

/-- writing entries and making them visible, with `v` for a result -/
theorem write_ok (t : Tree) (p : Mapping) (s : Slot) (level count : Nat) {α : Type} (v : α)
    (env : Env σ) (m : Machine σ) :
    ∃ n, (do let split ← Act.view (·.splitExecute)
             t.overwrite s (p.entries t.format split level count)
             t.clean s.address (count * 8)
             pure v : Act σ ε α) env m = .ok v n ∧ n.client = m.client ∧
      t.tables n = (t.tables m).overwrite t.format s.table s.level s.index
        (p.entries t.format m.splitExecute level count) := by
  obtain ⟨k, hrun, hc, ht⟩ := overwrite_ok (ε := ε) t env s
    (p.entries t.format m.splitExecute level count) m
  obtain ⟨n, hrun', hal⟩ := clean_ok (ε := ε) t s.address (count * 8) env k
  refine ⟨n, ?_, hal.client.trans hc, hal.tables.trans ht⟩
  simp only [Act.bind_apply, Act.view_apply, hrun, hrun', Act.pure_apply]

/-- what an update does at the end of its walk, from `k` to `n` -/
inductive Lands (t : Tree) (E : Machine σ → Nat → Prop) (p : Mapping) (order : Nat) (own : Layout)
    (k n : Machine σ) : Prop
  /-- the entries are written -/
  | wrote {level : Nat} {q : PhysAddr} : level = p.leafLevel order t.format.topLeafLevel →
      t.Here E p.gpa own k level q →
      t.tables n = (t.tables k).overwrite t.format q level (tableIndex p.gpa level)
        (p.run t.format k.splitExecute order level) →
      Lands t E p order own k n
  /-- there was nothing to unmap below the absent entry of a table above -/
  | nothing {above : Nat} {q : PhysAddr} : p.maps = false →
      p.leafLevel order t.format.topLeafLevel < above → t.Here E p.gpa own k above q →
      k.memory.entry q (tableIndex p.gpa above) = 0 → t.tables n = t.tables k →
      Lands t E p order own k n

/-- how an update ends well -/
def Updated (t : Tree) (I : Layout → Machine σ → Prop) (E : Machine σ → Nat → Prop) (p : Mapping)
    (order covered : Nat) (own : Layout) (n : Machine σ) : Prop :=
  covered = p.coveredOrder t.format order ∧
    ∃ k, I own k ∧ n.client = k.client ∧ t.Lands E p order own k n

theorem leafLevel_le_root (t : Tree) (p : Mapping) (order : Nat) :
    p.leafLevel order t.format.topLeafLevel ≤ t.format.rootLevel :=
  Nat.le_trans (p.leafLevel_le _ _) (Nat.le_of_lt t.format.topLeafLevel_lt)

theorem update_refused {t : Tree} {p : Mapping} {order : Nat} {e : TableError}
    (h : t.format.refusal? p order = some e) (env : Env σ) (m : Machine σ) :
    t.update p order env m = .error (.failed e) m := by
  unfold update
  rw [h]
  rfl

/-- what comes after the walk of an update -/
def writeRun (t : Tree) (p : Mapping) (order : Nat) : Option Slot → Act σ TableError Nat
  | none => pure (p.coveredOrder t.format order)
  | some s => do
    let split ← Act.view (·.splitExecute)
    t.overwrite s (p.run t.format split order (p.leafLevel order t.format.topLeafLevel))
    t.clean s.address ((1 <<< (p.coveredOrder t.format order
      - levelOrder (p.leafLevel order t.format.topLeafLevel))) * 8)
    pure (p.coveredOrder t.format order)

theorem writeRun_ok (t : Tree) (p : Mapping) (order : Nat) (s : Option Slot) (env : Env σ) (m : Machine σ) :
    ∃ n, t.writeRun p order s env m = .ok (p.coveredOrder t.format order) n := by
  cases s with
  | none => exact ⟨m, rfl⟩
  | some s =>
    obtain ⟨n, hrun, _⟩ := t.write_ok p s _ _ _ env m
    exact ⟨n, hrun⟩

section
variable {t : Tree} {p : Mapping} {order : Nat} {env : Env σ} {m k : Machine σ} {s : Option Slot} {e : Stop TableError}

theorem update_of_apply {c : Nat} (h : t.format.refusal? p order = none)
    (ha : t.apply p order env (t.enterWalk m) = .ok c k) : t.update p order env m = .ok c (t.leaveWalk k) := by
  unfold update
  rw [h]
  show Act.ensuring t.leaveWalk (t.apply p order) env (t.enterWalk m) = _
  unfold Act.ensuring
  rw [ha]

theorem update_of_apply_error (h : t.format.refusal? p order = none)
    (ha : t.apply p order env (t.enterWalk m) = .error e k) : t.update p order env m = .error e (t.leaveWalk k) := by
  unfold update
  rw [h]
  show Act.ensuring t.leaveWalk (t.apply p order) env (t.enterWalk m) = _
  unfold Act.ensuring
  rw [ha]

theorem apply_of_reach (hs : t.reach p.gpa (p.leafLevel order t.format.topLeafLevel)
      (if p.maps then .grow else .stop) env m = .ok s k) : t.apply p order env m = t.writeRun p order s env k := by
  unfold apply
  rw [Act.bind_apply, hs]
  cases s <;> rfl

end

/-- an update that gets to the end of its walk ends well -/
theorem update_of_reach {t : Tree} (p : Mapping) (order : Nat) {env : Env σ} {m k : Machine σ}
    {s : Option Slot} (h : t.format.refusal? p order = none)
    (hs : t.reach p.gpa (p.leafLevel order t.format.topLeafLevel)
      (if p.maps then .grow else .stop) env (t.enterWalk m) = .ok s k) :
    ∃ n, t.update p order env m = .ok (p.coveredOrder t.format order) n := by
  obtain ⟨n, hn⟩ := t.writeRun_ok p order s env k
  exact ⟨t.leaveWalk n, update_of_apply h ((apply_of_reach hs).trans hn)⟩

theorem update_of_reach_error {t : Tree} (p : Mapping) (order : Nat) {env : Env σ} {m k : Machine σ}
    {e : Stop TableError} (h : t.format.refusal? p order = none)
    (hs : t.reach p.gpa (p.leafLevel order t.format.topLeafLevel)
      (if p.maps then .grow else .stop) env (t.enterWalk m) = .error e k) :
    t.update p order env m = .error e (t.leaveWalk k) := by
  refine update_of_apply_error h ?_
  unfold apply
  rw [Act.bind_apply, hs]

section
variable {t : Tree} {env : Env σ} {I J : Layout → Machine σ → Prop} {E : Machine σ → Nat → Prop}
  {own : Layout} {m : Machine σ}

theorem walking_yields {α : Type} {body : Act σ TableError α} {Q : α → Layout → Machine σ → Prop}
    (hJ : ∀ {own k n}, t.Alike k n → J own k → J own n)
    (hQ : ∀ {v own k n}, t.Alike k n → Q v own k → Q v own n)
    (h : Yields env J own Q (body env (t.enterWalk m))) :
    Yields env J own Q (t.walking body env m) := by
  unfold walking
  rw [Act.bind_apply, Act.change_apply]
  show Yields env J own Q (Act.ensuring t.leaveWalk body env (t.enterWalk m))
  unfold Act.ensuring
  match body env (t.enterWalk m), h with
  | .ok v n, ⟨own', hx, hv⟩ => exact ⟨own', hx, hQ (alike_leaveWalk n) hv⟩
  | .error (.failed e) n, ⟨he, own', hx, hn⟩ => exact ⟨he, own', hx, hJ (alike_leaveWalk n) hn⟩
  | .error .stuck n, ⟨he, own', hx, hn⟩ => exact ⟨he, own', hx, hJ (alike_leaveWalk n) hn⟩

variable {p : Mapping} {order : Nat}

/-- what is known of the walk to the first entry is known of the update -/
theorem apply_yields (h : Yields env J own (Rely.FoundSlot t I E p.gpa (if p.maps then .grow else .stop)
      (p.leafLevel order t.format.topLeafLevel))
    (t.reach p.gpa (p.leafLevel order t.format.topLeafLevel) (if p.maps then .grow else .stop) env m)) :
    Yields env J own (t.Updated I E p order) (t.apply p order env m) := by
  unfold apply
  refine h.bind ?_
  rintro (_ | s) own' k ⟨hI', hs⟩
  · obtain ⟨hgap, above, q, hlt, hh, h0⟩ := hs
    have hm : p.maps = false := by
      cases hm : p.maps with
      | false => rfl
      | true =>
        rw [hm, if_pos rfl] at hgap
        cases hgap
    exact ⟨own', .refl own', rfl, k, hI', rfl, .nothing hm hlt hh h0 rfl⟩
  · obtain ⟨q, rfl, hh⟩ := hs
    obtain ⟨n, hrun, hc, ht⟩ := t.write_ok p
      (.through q p.gpa (p.leafLevel order t.format.topLeafLevel)) _ _ _ env k
    exact Eq.mpr (congrArg (Yields env J own' (t.Updated I E p order)) hrun)
      ⟨own', .refl own', rfl, k, hI', hc, .wrote rfl hh ht⟩

theorem update_yields (hr : t.format.refusal? p order = none)
    (hJ : ∀ {own k n}, t.Alike k n → J own k → J own n)
    (h : Yields env J own (Rely.FoundSlot t I E p.gpa (if p.maps then .grow else .stop)
      (p.leafLevel order t.format.topLeafLevel))
    (t.reach p.gpa (p.leafLevel order t.format.topLeafLevel) (if p.maps then .grow else .stop) env (t.enterWalk m))) :
    Yields env J own (t.Updated I E p order) (t.update p order env m) := by
  unfold update
  rw [hr]
  refine walking_yields hJ ?_ (apply_yields h)
  intro covered own' n n' hal h'
  obtain ⟨hcov, k, hk, hc, hl⟩ := h'
  refine ⟨hcov, k, hk, hal.client.trans hc, ?_⟩
  cases hl with
  | wrote hlevel hh ht => exact .wrote hlevel hh (hal.tables.trans ht)
  | nothing hm hlt hh h0 ht => exact .nothing hm hlt hh h0 (hal.tables.trans ht)

theorem Rely.update_yields {others : Nat → Prop} (R : t.Rely others env p.gpa I E)
    (hr : t.format.refusal? p order = none) (hI : I own m) :
    Yields env I own (t.Updated I E p order) (t.update p order env m) :=
  Tree.update_yields hr (fun hal hk => (R.alike hk hal).1)
    (R.reach_yields (Format.accepts_of_refusal? hr).inRange _ (t.leafLevel_le_root p order)
      (R.alike hI (alike_enterWalk m)).1)

end

/-! ## what an update leaves behind -/

namespace Lands
variable {t : Tree} {others : Nat → Prop} {E : Machine σ → Nat → Prop} {p : Mapping} {order : Nat}
  {own : Layout} {k n : Machine σ} {a : GuestAddr} {ref : TableRef}

section
variable (h : t.Owns others own (t.tables k)) (hr : t.format.Accepts p order)
  (hl : t.Lands E p order own k n)
include h hr hl

theorem owns : t.Owns others own (t.tables n) := by
  cases hl with
  | wrote hlevel hh ht =>
    subst hlevel
    rw [ht]
    exact owns_run h (p.leafLevel_le ..) (p.fits_leafLevel hr t.format.topLeafLevel_le) hh.place
  | nothing _ _ _ _ ht =>
    rw [ht]
    exact h

/-- others do not notice an update -/
theorem spares : (t.tables k).Spares others (t.tables n) := by
  cases hl with
  | wrote hlevel hh ht =>
    subst hlevel
    rw [ht]
    exact spares_run h (p.leafLevel_le ..) (p.fits_leafLevel hr t.format.topLeafLevel_le) hh.place
  | nothing _ _ _ _ ht =>
    rw [ht]
    exact .refl ..

/-- on the path of the address the request takes effect, and elsewhere nothing does -/
theorem view (lower : ∀ l, E k (l + 1) → E k l) : t.view n.memory
      = p.effect t.format k.splitExecute (p.coveredOrder t.format order) (t.view k.memory) ∨
    t.view n.memory = t.view k.memory ∧ E k (p.leafLevel order t.format.topLeafLevel) := by
  have hfit := p.fits_leafLevel hr t.format.topLeafLevel_le
  have hle := p.leafLevel_le order t.format.topLeafLevel
  cases hl with
  | @wrote level q hlevel hh ht =>
    subst hlevel
    have hm := congrArg (fun T => t.view T.memory) ht
    by_cases hon : ⟨q, p.leafLevel order t.format.topLeafLevel⟩ ∈ t.path k.memory p.gpa
    · exact .inl (hm.trans (view_run_on h hle hfit hh.place hr.inRange hon))
    · exact .inr ⟨hm.trans (view_run_off h hle hfit hh.place hon), hh.path.resolve_left hon⟩
  | nothing hmap hlt hh h0 ht =>
    have hm := congrArg (fun T => t.view T.memory) ht
    rcases hh.path with hon | he
    · left
      exact hm.trans (view_gap (T := t.tables k) hmap hle hfit hlt hr.inRange hon h0
        (h.level_le hh.place)).symm
    · right
      refine ⟨hm, ?_⟩
      exact Nat.decreasingInduction (motive := fun l _ => E k l) (fun l _ => lower l) he
        (Nat.le_of_lt hlt)

theorem path (ha : t.format.inRange a = true) (hra : ref ∈ t.path k.memory a) :
    ref ∈ t.path n.memory a ∨ ∀ b : GuestAddr, b.block (ref.level + 1) = a.block (ref.level + 1) →
      p.Covers (p.coveredOrder t.format order) b := by
  cases hl with
  | wrote hlevel hh ht =>
    subst hlevel
    rw [show n.memory = _ from congrArg Tables.memory ht]
    exact path_run h (p.leafLevel_le ..) (p.fits_leafLevel hr t.format.topLeafLevel_le) hh.place
      ha hra
  | nothing _ _ _ _ ht =>
    left
    rw [show n.memory = k.memory from congrArg Tables.memory ht]
    exact hra

/-- no table comes onto a path -/
theorem mem_path_of (ha : t.format.inRange a = true) (hra : ref ∈ t.path n.memory a) : ref ∈ t.path k.memory a := by
  cases hl with
  | wrote hlevel hh ht =>
    subst hlevel
    have hle := p.leafLevel_le order t.format.topLeafLevel
    have hl4 := Nat.le_trans hle t.format.topLeafLevel_le
    have hfit := p.fits_leafLevel hr t.format.topLeafLevel_le
    rw [show n.memory = _ from congrArg Tables.memory ht] at hra
    refine Owns.mem_path_of_overwrite hh.place h ?_ (fun w hw => Mapping.bare_run hle hfit hw) ha hra
    rw [Mapping.length_run hl4]
    exact Mapping.run_le hl4 p order
  | nothing _ _ _ _ ht =>
    rw [show n.memory = k.memory from congrArg Tables.memory ht] at hra
    exact hra

end

/-- after a mapping the address goes through the table that holds its leaf -/
theorem reaches (h : t.Owns others own (t.tables k)) (hr : t.format.Accepts p order)
    (hmap : p.maps = true) (hl : t.Lands (fun _ _ => False) p order own k n) :
    ∃ c, ⟨c, p.leafLevel order t.format.topLeafLevel⟩ ∈ t.path n.memory p.gpa := by
  cases hl with
  | @wrote level q hlevel hh ht =>
    subst hlevel
    have hon := self_mem_path_run h (p.leafLevel_le ..) (p.fits_leafLevel hr t.format.topLeafLevel_le)
      hh.place hr.inRange (hh.path.resolve_right id)
    refine ⟨q, ?_⟩
    rw [show n.memory = _ from congrArg Tables.memory ht]
    exact hon
  | nothing hm _ _ _ _ =>
    rw [hmap] at hm
    cases hm

/-- a table right below the entries that are written is detached -/
theorem detaches (hl : t.Lands (fun _ _ => False) p order own k n) {c : PhysAddr} {level : Nat}
    (hc : ⟨c, level⟩ ∈ t.path k.memory p.gpa)
    (hlevel : p.leafLevel order t.format.topLeafLevel = level + 1) :
    ⟨c, level⟩ ∈ (t.tables n).retired := by
  have hle := p.leafLevel_le order t.format.topLeafLevel
  cases hl with
  | @wrote written q hw hh ht =>
    obtain rfl : written = level + 1 := hw.trans hlevel
    rw [hlevel] at hle
    obtain ⟨htab, hchild⟩ := t.format.entry_of_mem_path (hh.path.resolve_right id) hc
    rw [ht, ← hchild]
    exact mem_retired_run (T := t.tables k) hle htab
  | @nothing above q _ hlt hh h0 _ =>
    have hgap : t.format.isTable (k.memory.entry q (tableIndex p.gpa above)) above = false := by
      rw [h0]
      exact t.format.isTable_zero above
    have hbelow : above ≤ level := t.format.level_le_of_not_table (r := ⟨q, above⟩)
      (hh.path.resolve_right id) hgap hc
    omega

theorem inUse (hl : t.Lands E p order own k n) : (t.tables n).inUse = (t.tables k).inUse := by
  cases hl with
  | wrote _ _ ht =>
    rw [ht]
    exact Owns.inUse_overwrite ..
  | nothing _ _ _ _ ht => rw [ht]

theorem split (hl : t.Lands E p order own k n) : n.splitExecute = k.splitExecute := by
  cases hl with
  | wrote _ _ ht =>
    exact (congrArg Tables.split ht).trans (Owns.split_overwrite ..)
  | nothing _ _ _ _ ht => exact congrArg Tables.split ht

end Lands

end Tree

end NestedPaging
