import NestedPaging.Proofs.Tree.Updating

/-!
# Operations on a tree

The operations that may run on one tree at the same time, and the single updates that each stands
for (`TreeOp.pieces`). `Tree.Steps.perform` reduces a statement about any operation to one about a
single update and one about a walk: if an operation ends well all its pieces are done, and if it
fails the last one is not.
-/

namespace NestedPaging

variable {σ : Type}

/-- how an action ends: well, or without a result, and never only if others do not let it -/
def Ends {α : Type} (env : Env σ) (own : Layout) (J : Layout → Machine σ → Prop)
    (Q : α → Layout → Machine σ → Prop) :
    EStateM.Result (Stop TableError) (Machine σ) α → Prop
  | .ok v n => ∃ own', own'.Extends own ∧ Q v own' n
  | .error e n => (e = .stuck → ¬ env.Paced) ∧ ∃ own', own'.Extends own ∧ J own' n

namespace Ends
variable {α β : Type} {env : Env σ} {J J' : Layout → Machine σ → Prop} {own own' : Layout}
  {Q : α → Layout → Machine σ → Prop} {R : β → Layout → Machine σ → Prop} {m : Machine σ}

theorem mono {r : EStateM.Result (Stop TableError) (Machine σ) α} {Q' : α → Layout → Machine σ → Prop}
    (h : Ends env own J Q r) (hJ : ∀ own n, J own n → J' own n)
    (hQ : ∀ v own n, Q v own n → Q' v own n) : Ends env own J' Q' r := by
  match r, h with
  | .ok v n, ⟨own', hx, hv⟩ => exact ⟨own', hx, hQ v own' n hv⟩
  | .error e n, ⟨hs, own', hx, hn⟩ => exact ⟨hs, own', hx, hJ own' n hn⟩

theorem weaken {r : EStateM.Result (Stop TableError) (Machine σ) α} (ho : own'.Extends own)
    (h : Ends env own' J Q r) : Ends env own J Q r := by
  match r, h with
  | .ok v n, ⟨own'', hx, hv⟩ => exact ⟨own'', hx.trans ho, hv⟩
  | .error e n, ⟨hs, own'', hx, hn⟩ => exact ⟨hs, own'', hx.trans ho, hn⟩

theorem of_yields {r : EStateM.Result (Stop TableError) (Machine σ) α} (h : Yields env J own Q r) :
    Ends env own J Q r := by
  match r, h with
  | .ok v n, h => exact h
  | .error (.failed e) n, ⟨_, h⟩ => exact ⟨nofun, h⟩
  | .error .stuck n, ⟨hp, h⟩ => exact ⟨fun _ => hp, h⟩

theorem bind {x : Act σ TableError α} {f : α → Act σ TableError β} (h : Ends env own J Q (x env m))
    (hf : ∀ v own' n, Q v own' n → Ends env own' J R (f v env n)) :
    Ends env own J R ((x >>= f) env m) := by
  rw [Act.bind_apply]
  cases hx : x env m with
  | ok v n =>
    rw [hx] at h
    obtain ⟨own', ho, hv⟩ := h
    exact (hf v own' n hv).weaken ho
  | error e n =>
    rw [hx] at h
    exact h

theorem map {x : Act σ TableError α} {f : α → β} (h : Ends env own J Q (x env m))
    (hf : ∀ v own' n, Q v own' n → R (f v) own' n) : Ends env own J R ((f <$> x) env m) := by
  rw [Act.map_apply]
  cases hx : x env m with
  | ok v n =>
    rw [hx] at h
    obtain ⟨own', ho, hv⟩ := h
    exact ⟨own', ho, hf v own' n hv⟩
  | error e n =>
    rw [hx] at h
    exact h

end Ends

/-! ## walks -/

namespace Tree
variable {t : Tree} {others : Nat → Prop} {env : Env σ} {a : GuestAddr}
  {I : Layout → Machine σ → Prop} {E : Machine σ → Nat → Prop} {own : Layout} {m : Machine σ}
  {level : Nat}

theorem walk_refused (t : Tree) (h : t.format.levels ≤ level ∨ t.format.inRange a = false)
    (env : Env σ) (m : Machine σ) : ∃ e, t.walk a level env m = .error (.failed e) m := by
  unfold walk
  by_cases hl : t.format.levels ≤ level
  · rw [if_pos hl]
    exact ⟨_, rfl⟩
  · rw [if_neg hl, h.resolve_left hl]
    exact ⟨_, rfl⟩

theorem walk_of_reach {t : Tree} {env : Env σ} {m n : Machine σ} {s : Slot} (hl : level < t.format.levels)
    (ha : t.format.inRange a = true) (h : t.reach a level .grow env (t.enterWalk m) = .ok (some s) n) :
    t.walk a level env m = .ok s n := by
  unfold walk
  rw [if_neg (Nat.not_le.mpr hl), ha]
  show Act.orUndo t.leaveWalk (t.reach a level .grow >>= _) env (t.enterWalk m) = _
  unfold Act.orUndo
  rw [Act.bind_apply, h]
  rfl

theorem Rely.walk_yields (R : t.Rely others env a I E) (hl : level < t.format.levels)
    (ha : t.format.inRange a = true) (hI : I own m) :
    Yields env I own (fun s own' n => I own' n ∧ ∃ p, s = .through p a level ∧
      t.Here E a own' n level p) (t.walk a level env m) := by
  have ht : level ≤ t.format.rootLevel := by
    rw [t.format.levels_eq] at hl
    exact Nat.le_of_lt_succ hl
  have h := R.reach_yields ha .grow ht (R.alike hI (alike_enterWalk m)).1
  unfold walk
  rw [if_neg (Nat.not_le.mpr hl), ha]
  show Yields env I own _ (Act.orUndo t.leaveWalk (t.reach a level .grow >>= _) env (t.enterWalk m))
  unfold Act.orUndo
  rw [Act.bind_apply]
  revert h
  cases t.reach a level .grow env (t.enterWalk m) with
  | ok s n =>
    intro h
    obtain ⟨own', hx, hn, hs⟩ := h
    cases s with
    | some s => exact ⟨own', hx, hn, hs⟩
    | none => cases hs.1
  | error e n =>
    intro h
    cases e with
    | failed e =>
      obtain ⟨he, own', hx, hn⟩ := h
      exact ⟨he, own', hx, (R.alike hn (alike_leaveWalk n)).1⟩
    | stuck =>
      obtain ⟨he, own', hx, hn⟩ := h
      exact ⟨he, own', hx, (R.alike hn (alike_leaveWalk n)).1⟩
    | refused => exact h

end Tree

/-! ## the pieces of an operation -/

/-- the single updates of an `install`, each with the order that it covers -/
def Format.pieces (f : Format) (p : Mapping) (pages : Nat) : List (Mapping × Nat) :=
  if _h : pages = 0 then []
  else
    let covered := p.coveredOrder f (min pages.log2 f.maxOrder)
    (p, covered) :: f.pieces (p.advance (2 ^ covered)) (pages - 2 ^ covered)
termination_by pages
decreasing_by
  have := Nat.two_pow_pos (p.coveredOrder f (min pages.log2 f.maxOrder))
  omega

/-- the operations that processors may run on a tree without waiting for each other -/
inductive TreeOp where
  | update (p : Mapping) (order : Nat)
  | install (p : Mapping) (pages : Nat)
  | walk (a : GuestAddr) (level : Nat)
  /-- let an entry go that a walk found -/
  | letGo
  | lookup (a : GuestAddr)
  deriving DecidableEq

/-- what an operation gives -/
inductive TreeReply where
  | covered (order : Nat)
  | installed
  | found (s : Slot)
  | letGone
  | leaf (l : Option Leaf)
  deriving DecidableEq

/-- the single updates that an operation consists of -/
def TreeOp.pieces (f : Format) : TreeOp → List (Mapping × Nat)
  | update p order => [(p, p.coveredOrder f order)]
  | install p pages => f.pieces p pages
  | _ => []

def Tree.perform (t : Tree) : TreeOp → Act σ TableError TreeReply
  | .update p order => .covered <$> t.update p order
  | .install p pages => (fun _ => .installed) <$> t.install p pages
  | .walk a level => .found <$> t.walk a level
  | .letGo => (fun _ => .letGone) <$> t.letGo
  | .lookup a => .leaf <$> t.lookup a

namespace Tree
variable {t : Tree} {env : Env σ} {J : List (Mapping × Nat) → Layout → Machine σ → Prop}
  {own : Layout} {m : Machine σ}

/-- `J` says what holds when certain pieces are done: an update that is not refused does one more -/
def Steps (t : Tree) (env : Env σ) (J : List (Mapping × Nat) → Layout → Machine σ → Prop) : Prop :=
  ∀ done p order own m, t.format.refusal? p order = none → J done own m →
    Ends env own (J done) (fun covered own' n => covered = p.coveredOrder t.format order ∧
      J (done ++ [(p, covered)]) own' n) (t.update p order env m)

theorem Steps.update (h : t.Steps env J) {done : List (Mapping × Nat)} (p : Mapping) (order : Nat)
    (hJ : J done own m) :
    Ends env own (J done) (fun covered own' n => covered = p.coveredOrder t.format order ∧
      J (done ++ [(p, covered)]) own' n) (t.update p order env m) := by
  cases hr : t.format.refusal? p order with
  | none => exact h done p order own m hr hJ
  | some e =>
    rw [update_refused hr]
    exact ⟨nofun, own, .refl own, hJ⟩

theorem none_done {done pieces : List (Mapping × Nat)} (h : 0 < pieces.length) (hJ : J done own m) :
    ∃ k, k < pieces.length ∧ J (done ++ pieces.take k) own m := by
  refine ⟨0, h, ?_⟩
  rw [List.take_zero, List.append_nil]
  exact hJ

/-- a failing `installFrom` leaves out the piece at which it fails -/
theorem Steps.installFrom (h : t.Steps env J) {done : List (Mapping × Nat)} {p : Mapping}
    {pages : Nat} (hJ : J done own m) :
    Ends env own
      (fun own' n => ∃ k, k < (t.format.pieces p pages).length ∧
        J (done ++ (t.format.pieces p pages).take k) own' n)
      (fun _ own' n => J (done ++ t.format.pieces p pages) own' n) (t.installFrom p pages env m) := by
  induction pages using Nat.strong_induction_on generalizing done p own m with
  | _ pages ih =>
    unfold Tree.installFrom Format.pieces
    by_cases h0 : pages = 0
    · rw [dif_pos h0, dif_pos h0]
      refine ⟨own, .refl own, ?_⟩
      rw [List.append_nil]
      exact hJ
    · rw [dif_neg h0, dif_neg h0]
      have hlt : ∀ c, pages - 2 ^ c < pages := fun c => by
        have := Nat.two_pow_pos c
        omega
      refine Ends.bind ((h.update p (min pages.log2 t.format.maxOrder) hJ).mono
        (fun _ _ hn => none_done (Nat.zero_lt_succ _) hn) fun _ _ _ hv => hv) ?_
      intro covered own' n h'
      obtain ⟨rfl, hn⟩ := h'
      rw [Nat.one_shiftLeft]
      refine (ih _ (hlt _) hn).mono ?_ ?_
      · intro own'' k h'
        obtain ⟨i, hi, hk⟩ := h'
        refine ⟨i + 1, Nat.succ_lt_succ hi, ?_⟩
        rw [List.take_succ_cons, List.append_cons]
        exact hk
      · intro _ own'' k hk
        rw [List.append_cons]
        exact hk

theorem Steps.install (h : t.Steps env J) {p : Mapping} {pages : Nat} (hJ : J [] own m) :
    Ends env own
      (fun own' n => ∃ k, k ≤ (t.format.pieces p pages).length - 1 ∧
        J ((t.format.pieces p pages).take k) own' n)
      (fun _ own' n => J (t.format.pieces p pages) own' n) (t.install p pages env m) := by
  unfold Tree.install
  by_cases hh : t.format.holds p.gpa pages = true
  · rw [if_pos hh]
    refine (h.installFrom hJ).mono ?_ fun _ _ _ hv => hv
    intro own' n h'
    obtain ⟨k, hk, hn⟩ := h'
    exact ⟨k, Nat.le_sub_one_of_lt hk, hn⟩
  · rw [if_neg hh]
    exact ⟨nofun, own, .refl own, 0, Nat.zero_le _, hJ⟩

/-- what holds after the pieces of an operation that ended well, or after some but the last -/
def Performed (t : Tree) (env : Env σ) (J : List (Mapping × Nat) → Layout → Machine σ → Prop)
    (own : Layout) (op : TreeOp) : EStateM.Result (Stop TableError) (Machine σ) TreeReply → Prop :=
  Ends env own
    (fun own' n => ∃ k, k ≤ (op.pieces t.format).length - 1 ∧
      J ((op.pieces t.format).take k) own' n)
    (fun _ own' n => J (op.pieces t.format) own' n)

/-- from single updates and walks to every operation -/
theorem Steps.perform (h : t.Steps env J)
    (halike : ∀ {own m n}, J [] own m → t.Alike m n → J [] own n)
    (hwalk : ∀ {a level own m}, level < t.format.levels → t.format.inRange a = true → J [] own m →
      Ends env own (J []) (fun _ => J []) (t.walk a level env m))
    (hJ : J [] own m) (op : TreeOp) : t.Performed env J own op (t.perform op env m) := by
  cases op with
  | update p order =>
    refine Ends.map ((h.update p order hJ).mono (fun _ _ hn => ⟨0, Nat.zero_le _, hn⟩)
      fun _ _ _ hv => hv) ?_
    intro covered own' n h'
    obtain ⟨rfl, hn⟩ := h'
    exact hn
  | install p pages => exact Ends.map (h.install hJ) fun _ _ _ hn => hn
  | walk a level =>
    refine Ends.map (Q := fun _ => J []) ?_ fun _ _ _ hn => hn
    by_cases hr : t.format.levels ≤ level ∨ t.format.inRange a = false
    · obtain ⟨e, he⟩ := t.walk_refused hr env m
      rw [he]
      exact ⟨nofun, own, .refl own, 0, Nat.zero_le _, hJ⟩
    · rw [not_or, Bool.not_eq_false] at hr
      exact (hwalk (Nat.lt_of_not_le hr.1) hr.2 hJ).mono
        (fun _ _ hn => ⟨0, Nat.zero_le _, hn⟩) fun _ _ _ hv => hv
  | letGo => exact ⟨own, .refl own, halike hJ (alike_leaveWalk m)⟩
  | lookup a => exact ⟨own, .refl own, hJ⟩

end Tree

end NestedPaging
