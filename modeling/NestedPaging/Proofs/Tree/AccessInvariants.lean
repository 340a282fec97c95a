import NestedPaging.Proofs.Tree.Accesses

/-!
# What every operation on a tree sustains

`Tree.Sustains env K W` lists what an invariant `K` of layout and machine must allow, and an invariant
`W` of the walks: the moves from one point at which a processor holds nothing back to the next, and
what others do whenever a page is asked for. Then updates keep `K`, however they end
(`Sustains.update`), and a walk ends at an entry of a table that the tree owns. If `K` and `W` are the
same, every operation keeps it (`Sustains.perform`). Unlike `Tree.Rely`, this sees each access.
-/

namespace NestedPaging

variable {σ α β : Type}

/-- `K` holds after an action, and `Q` of its result if it has one -/
def Sustained (K : Layout → Machine σ → Prop) (own : Layout) (Q : α → Layout → Prop) :
    EStateM.Result (Stop TableError) (Machine σ) α → Prop
  | .ok v n => ∃ own', own'.Extends own ∧ K own' n ∧ Q v own'
  | .error _ n => ∃ own', own'.Extends own ∧ K own' n

namespace Sustained
variable {K : Layout → Machine σ → Prop} {own own' : Layout} {Q : α → Layout → Prop}
  {R : β → Layout → Prop} {env : Env σ} {m : Machine σ}

theorem weaken {r : EStateM.Result (Stop TableError) (Machine σ) α} (ho : own'.Extends own)
    (h : Sustained K own' Q r) : Sustained K own Q r := by
  match r, h with
  | .ok v n, ⟨own'', hx, hn⟩ => exact ⟨own'', hx.trans ho, hn⟩
  | .error e n, ⟨own'', hx, hn⟩ => exact ⟨own'', hx.trans ho, hn⟩

theorem bind {x : Act σ TableError α} {f : α → Act σ TableError β} (h : Sustained K own Q (x env m))
    (hf : ∀ v own' n, K own' n → Q v own' → own'.Extends own → Sustained K own' R (f v env n)) :
    Sustained K own R ((x >>= f) env m) := by
  rw [Act.bind_apply]
  cases hx : x env m with
  | ok v n =>
    rw [hx] at h
    obtain ⟨own', ho, hn, hv⟩ := h
    exact (hf v own' n hn hv ho).weaken ho
  | error e n =>
    rw [hx] at h
    exact h

theorem after {x : Act σ TableError α} (h : Sustained K own Q (x env m)) :
    ∃ own', own'.Extends own ∧ K own' (x.after env m) := by
  unfold Act.after
  cases hx : x env m with
  | ok v n =>
    rw [hx] at h
    obtain ⟨own', ho, hn, _⟩ := h
    exact ⟨own', ho, hn⟩
  | error e n =>
    rw [hx] at h
    exact h

end Sustained

namespace Tree

/-- what an invariant `K` must allow for every update of `t` to keep it, where `W` holds of walks -/
structure Sustains (t : Tree) (env : Env σ) (K W : Layout → Machine σ → Prop) : Prop where
  honest : env.Honest
  owns : ∀ {own m}, W own m → ∃ others, t.Owns others own (t.tables m)
  enter : ∀ {own m}, K own m → W own (t.enterWalk m)
  leave : ∀ {own m}, W own m → K own (t.leaveWalk m)
  moves : ∀ {own own' m n}, W own m → t.Moves own .idle m own' .idle n → W own' n
  supply : ∀ {own m}, W own m → ∃ own', own'.Extends own ∧ W own' (env.supply m).1 ∧
    (env.supply m).1.splitExecute = m.splitExecute

namespace Sustains
variable {t : Tree} {env : Env σ} {K W : Layout → Machine σ → Prop} {own own' : Layout}
  {m n : Machine σ} {p : PhysAddr} {l x : Nat}

section
variable (h : t.Sustains env K W)
include h

theorem step (hW : W own m) (hm : t.Moves own .idle m own' .idle n) :
    own'.Extends own ∧ W own' n := by
  obtain ⟨others, ho⟩ := h.owns hW
  exact ⟨(hm.owns (show t.OwnsAt others own _ .idle from ho)).1, h.moves hW hm⟩

/-! ## walks -/

theorem offerTable (hW : W own m) (hp : own p = some ⟨l + 1, x⟩) {a : GuestAddr} {old : Word}
    {entries : Bool → List Word} (hold : t.format.isTable old (l + 1) = false)
    (hl : ∀ block, MapsLike t.format m.splitExecute l block old (entries m.splitExecute))
    (hlen : (entries m.splitExecute).length ≤ 512) :
    Sustained W own (fun _ _ => True) (t.offerTable (.through p a (l + 1)) old entries env m) := by
  obtain ⟨own₁, hx, hW₁, hsplit⟩ := h.supply hW
  cases hs : env.supply m with
  | mk k offer =>
    rw [hs] at hW₁ hsplit
    cases offer with
    | none =>
      rw [offerTable_none hs]
      exact ⟨own₁, hx, h.moves hW₁ Move.exhausted.moves⟩
    | some q =>
      obtain ⟨hq, hf⟩ := h.honest m q (by rw [hs])
      rw [hs] at hf
      obtain ⟨others, ho⟩ := h.owns hW₁
      obtain ⟨own₂, n, hrun, hm⟩ := offerTable_moves (s := .through p a (l + 1)) entries hs ho hq hf
        (hx _ _ hp) (tableIndex_lt a _) hold (by rw [hsplit]; exact hl _)
        (by rw [hsplit]; exact hlen)
      rw [hrun]
      obtain ⟨hx', hn⟩ := h.step hW₁ hm
      exact ⟨own₂, hx'.trans hx, hn, trivial⟩

theorem childWithin (gap : AtGap) {tries : Nat} {a : GuestAddr} (hW : W own m)
    (hp : own p = some ⟨l + 1, x⟩) :
    Sustained W own (fun c own' => ∀ q, c = some q → ∃ y, own' q = some ⟨l, y⟩)
      (t.childWithin (.through p a (l + 1)) gap tries env m) := by
  induction tries generalizing own m with
  | zero =>
    rw [Rely.childWithin_zero]
    exact ⟨own, .refl own, hW⟩
  | succ tries ih =>
    obtain ⟨others, ho⟩ := h.owns hW
    obtain ⟨raw, hraw⟩ : ∃ raw, m.memory.entry p (tableIndex a (l + 1)) = raw := ⟨_, rfl⟩
    by_cases htab : t.format.isTable raw (l + 1) = true
    · rw [Rely.childWithin_succ t env m gap (s := .through p a (l + 1)) tries hraw,
        show t.format.isTable raw (Slot.through p a (l + 1)).level = true from htab, if_pos rfl]
      refine ⟨own, .refl own, hW, fun q hq => ?_⟩
      obtain ⟨k, hk, hc⟩ := ho.child hp (tableIndex_lt a _) (by
        rw [show (t.tables m).memory.entry p _ = raw from hraw]
        exact htab)
      obtain rfl : l = k := Nat.succ.inj hk
      rw [show (t.tables m).memory.entry p _ = raw from hraw, Option.some.inj hq] at hc
      exact ⟨_, hc⟩
    · rw [Bool.not_eq_true] at htab
      rcases Rely.childWithin_bare ho hp hraw htab env gap tries with
        ⟨rfl, rfl, hrun⟩ | ⟨entries, hl, hlen, hrun⟩
      · rw [hrun]
        exact ⟨own, .refl own, hW, nofun⟩
      · rw [hrun]
        refine (h.offerTable hW hp htab hl hlen).bind ?_
        intro _ own' n hW' _ hx
        exact ih hW' (hx _ _ hp)

theorem descend (a : GuestAddr) (gap : AtGap) (target : Nat) {depth : Nat} (hW : W own m)
    (hp : own p = some ⟨target + depth, x⟩) :
    Sustained W own (fun s own' => ∀ s', s = some s' → ∃ q y, s' = .through q a target ∧
      own' q = some ⟨target, y⟩) (t.descend a target gap depth p env m) := by
  induction depth generalizing own m p x with
  | zero =>
    refine ⟨own, .refl own, hW, fun s hs => ⟨p, x, ?_, hp⟩⟩
    exact (Option.some.inj hs).symm
  | succ depth ih =>
    unfold Tree.descend
    refine (h.childWithin (l := target + depth) gap hW hp).bind ?_
    rintro (_ | c) own' n hW' hc _
    · refine ⟨own', .refl own', hW', fun s' hs => ?_⟩
      cases hs
    · obtain ⟨y, hy⟩ := hc c rfl
      exact ih hW' hy

theorem reach (a : GuestAddr) (gap : AtGap) {target : Nat} (ht : target ≤ t.format.rootLevel)
    (hW : W own m) :
    Sustained W own (fun s own' => ∀ s', s = some s' → ∃ q y, s' = .through q a target ∧
      own' q = some ⟨target, y⟩) (t.reach a target gap env m) := by
  obtain ⟨others, ho⟩ := h.owns hW
  refine h.descend a gap target hW (x := 0) ?_
  rw [Nat.add_sub_cancel' ht]
  exact ho.root

theorem walking {body : Act σ TableError α} (hK : K own m)
    (hb : ∀ n, W own n → ∃ own', own'.Extends own ∧ W own' (body.after env n)) :
    ∃ own', own'.Extends own ∧ K own' ((t.walking body).after env m) := by
  obtain ⟨own', hx, hn⟩ := hb (t.enterWalk m) (h.enter hK)
  refine ⟨own', hx, ?_⟩
  rw [t.walking_after]
  exact h.leave hn

/-! ## operations -/

theorem apply {p : Mapping} {order : Nat} (hr : t.format.Accepts p order) (hW : W own m) :
    Sustained W own (fun _ _ => True) (t.apply p order env m) := by
  have hle := p.leafLevel_le order t.format.topLeafLevel
  have hfit := p.fits_leafLevel hr t.format.topLeafLevel_le
  have hle4 := Nat.le_trans hle t.format.topLeafLevel_le
  unfold Tree.apply
  refine (h.reach p.gpa _ (t.leafLevel_le_root p order) hW).bind ?_
  rintro (_ | s) own' n hW' hs _
  · exact ⟨own', .refl own', hW', trivial⟩
  · obtain ⟨q, y, rfl, hq⟩ := hs s rfl
    have hroom := p.run_le hle4 order
    rw [← Nat.one_shiftLeft, ← levelOrder_of_le hle4] at hroom
    obtain ⟨n', hrun, hm⟩ := t.write_moves own' (p := p)
      (.through q p.gpa (p.leafLevel order t.format.topLeafLevel)) _ _ _ env n hq hroom
      fun w hw => p.bare_run hle hfit hw
    obtain ⟨hx, hn⟩ := h.step hW' hm
    exact Eq.mpr (congrArg (Sustained W own' _) hrun) ⟨own', hx, hn, trivial⟩

theorem update (p : Mapping) (order : Nat) (hK : K own m) :
    ∃ own', own'.Extends own ∧ K own' ((t.update p order).after env m) := by
  cases hr : t.format.refusal? p order with
  | some e =>
    rw [Act.after_of_error (update_refused hr env m)]
    exact ⟨own, .refl own, hK⟩
  | none =>
    have he : t.update p order = (t.walking (t.apply p order) : Act σ TableError Nat) := by
      unfold Tree.update
      rw [hr]
    rw [he]
    exact h.walking hK fun n hn => (h.apply (Format.accepts_of_refusal? hr) hn).after

theorem installFrom (p : Mapping) (pages : Nat) (hK : K own m) :
    ∃ own', own'.Extends own ∧ K own' ((t.installFrom p pages).after env m) := by
  induction p, pages using Tree.installFrom.induct generalizing own m with
  | case1 p =>
    unfold Tree.installFrom
    exact ⟨own, .refl own, hK⟩
  | case2 p pages hne ih =>
    unfold Tree.installFrom
    rw [dif_neg hne, Act.after_bind]
    obtain ⟨own₁, hx, hn⟩ := h.update p (min pages.log2 t.format.maxOrder) hK
    unfold Act.after at hn
    cases hu : t.update p (min pages.log2 t.format.maxOrder) env m with
    | ok covered n =>
      rw [hu] at hn
      obtain ⟨own₂, hx', hn'⟩ := ih covered hn
      exact ⟨own₂, hx'.trans hx, hn'⟩
    | error e n =>
      rw [hu] at hn
      exact ⟨own₁, hx, hn⟩

theorem install (p : Mapping) (pages : Nat) (hK : K own m) :
    ∃ own', own'.Extends own ∧ K own' ((t.install p pages).after env m) := by
  unfold Tree.install
  split
  · exact h.installFrom p pages hK
  · exact ⟨own, .refl own, hK⟩

end

/-! ## operations that may leave a walk under way -/

section
variable (h : t.Sustains env K K)
include h

theorem walk (a : GuestAddr) (level : Nat) (hK : K own m) :
    ∃ own', own'.Extends own ∧ K own' ((t.walk a level).after env m) := by
  by_cases hr : t.format.levels ≤ level ∨ t.format.inRange a = false
  · obtain ⟨e, he⟩ := t.walk_refused hr env m
    rw [Act.after_of_error he]
    exact ⟨own, .refl own, hK⟩
  · rw [not_or, Bool.not_eq_false, Nat.not_le] at hr
    have ht : level ≤ t.format.rootLevel := by
      have hl := hr.1
      rw [t.format.levels_eq] at hl
      exact Nat.le_of_lt_succ hl
    have hreach := h.reach a .grow ht (h.enter hK)
    obtain ⟨f, hf, hsome, hnone⟩ : ∃ f : Option Slot → Act σ TableError Slot, (t.walk a level).after env m
        = (Act.orUndo t.leaveWalk (t.reach a level .grow >>= f)).after env (t.enterWalk m) ∧
        (∀ s n, f (some s) env n = .ok s n) ∧ ∀ n, ∃ e, f none env n = .error e n := by
      unfold Tree.walk
      rw [if_neg (Nat.not_le.mpr hr.1), hr.2]
      exact ⟨_, rfl, fun _ _ => rfl, fun _ => ⟨_, rfl⟩⟩
    rw [hf]
    unfold Act.after Act.orUndo
    rw [Act.bind_apply]
    revert hreach
    show Sustained K own _ (t.reach a level .grow env (t.enterWalk m)) → _
    cases t.reach a level .grow env (t.enterWalk m) with
    | ok s n =>
      rintro ⟨own', hx, hn, _⟩
      cases s with
      | some s =>
        simp only [hsome]
        exact ⟨own', hx, hn⟩
      | none =>
        obtain ⟨e, he⟩ := hnone n
        simp only [he]
        exact ⟨own', hx, h.leave hn⟩
    | error e n =>
      rintro ⟨own', hx, hn⟩
      exact ⟨own', hx, h.leave hn⟩

/-- every operation, however it ends -/
theorem perform (op : TreeOp) (hK : K own m) :
    ∃ own', own'.Extends own ∧ K own' ((t.perform op).after env m) := by
  cases op with
  | update p order =>
    show ∃ own', own'.Extends own ∧ K own' ((TreeReply.covered <$> t.update p order).after env m)
    rw [Act.after_map]
    exact h.update p order hK
  | install p pages =>
    show ∃ own', own'.Extends own ∧
      K own' (((fun _ => TreeReply.installed) <$> t.install p pages).after env m)
    rw [Act.after_map]
    exact h.install p pages hK
  | walk a level =>
    show ∃ own', own'.Extends own ∧ K own' ((TreeReply.found <$> t.walk a level).after env m)
    rw [Act.after_map]
    exact h.walk a level hK
  | letGo => exact ⟨own, .refl own, h.leave hK⟩
  | lookup a => exact ⟨own, .refl own, hK⟩

end

end Sustains

end Tree

end NestedPaging
