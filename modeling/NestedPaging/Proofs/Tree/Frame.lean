import NestedPaging.Proofs.Tree.Histories
import NestedPaging.Proofs.Machine.Traces

/-!
# What work on tables leaves alone

An update changes tables, pages and the list of detached tables, and nothing that concerns
processors.

* `Act.Keeps R env x`     however `x` ends, it leaves a machine that `R` relates to the first one;
* `Tree.Works m n`        a step on tables: no processor loads or flushes anything, and the tables
                          that the new events say were detached are those added to the list;
* `Tree.Allows.update`, `Tree.Allows.install`   every update keeps a transitive relation that allows
                          such steps and what others do whenever a page is asked for.
-/

namespace NestedPaging

variable {σ ε α β : Type}

namespace Act

/-- `x` leaves a machine that `R` relates to the one before, however it ends -/
def Keeps (R : Machine σ → Machine σ → Prop) (env : Env σ) (x : Act σ ε α) : Prop :=
  ∀ m, R m (x.after env m)

theorem after_bind (x : Act σ ε α) (f : α → Act σ ε β) (env : Env σ) (m : Machine σ) :
    (x >>= f).after env m = match x env m with
      | .ok a k => (f a).after env k
      | .error _ k => k := by
  unfold after
  rw [bind_apply]
  cases x env m <;> rfl

theorem after_map (x : Act σ ε α) (f : α → β) (env : Env σ) (m : Machine σ) :
    (f <$> x).after env m = x.after env m := by
  unfold after
  rw [map_apply]
  cases x env m <;> rfl

theorem after_ensuring (f : Machine σ → Machine σ) (x : Act σ ε α) (env : Env σ) (m : Machine σ) :
    (ensuring f x).after env m = f (x.after env m) := by
  unfold after ensuring
  cases x env m <;> rfl

namespace Keeps
variable {R : Machine σ → Machine σ → Prop} {env : Env σ}

theorem bind (ht : ∀ m k n, R m k → R k n → R m n) {x : Act σ ε α} {f : α → Act σ ε β}
    (hx : Keeps R env x) (hf : ∀ a, Keeps R env (f a)) : Keeps R env (x >>= f) := by
  intro m
  have h : R m (x.after env m) := hx m
  rw [after_bind]
  unfold after at h
  cases hr : x env m with
  | ok a k =>
    rw [hr] at h
    exact ht _ _ _ h (hf a k)
  | error e k =>
    rw [hr] at h
    exact h

theorem map {x : Act σ ε α} (f : α → β) (hx : Keeps R env x) : Keeps R env (f <$> x) := by
  intro m
  rw [after_map]
  exact hx m

/-- a register is read again and again -/
theorem poll (hr : ∀ m, R m m) (ht : ∀ m k n, R m k → R k n → R m n) {ask : Act σ ε α} (h : Keeps R env ask)
    (done : α → Bool) : Keeps R env (Act.poll ask done) := by
  have htries : ∀ tries, Keeps R env (pollFor ask done tries) := by
    intro tries
    induction tries with
    | zero => exact hr
    | succ tries ih =>
      refine bind ht h fun a => ?_
      split
      · exact hr
      · exact ih
  exact fun m => htries env.patience m

end Keeps

end Act

/-- nobody but the caller acts when a page is asked for, and only the client takes note of it -/
def Env.Alone (env : Env σ) : Prop := ∀ m, ∃ client, (env.supply m).1 = { m with client }

namespace Tree

/-- a walk is counted while it is under way, however it ends -/
theorem walking_after (t : Tree) (body : Act σ ε α) (env : Env σ) (m : Machine σ) :
    (t.walking body).after env m = t.leaveWalk (body.after env (t.enterWalk m)) := by
  unfold walking
  rw [Act.after_bind, Act.change_apply]
  exact Act.after_ensuring ..

/-- a step on the tables of `t`, with nobody else at work -/
structure Works (t : Tree) (m n : Machine σ) : Prop where
  loaded : n.loaded = m.loaded
  spaces : n.spaces = m.spaces
  walkers : (t.state n).walkers = (t.state m).walkers
  logs : ∃ es rs, m.Logs es n ∧ (∀ e ∈ es, ¬ e.OfProcessors) ∧
    (t.tables n).retired = (t.tables m).retired ++ rs ∧
    ∀ q, .detached t.cell q ∈ es ↔ ∃ r ∈ rs, r.table = q
  aloof : m.Aloof n

namespace Works
variable {t : Tree} {m k n : Machine σ}

theorem trans (h : t.Works m k) (h' : t.Works k n) : t.Works m n := by
  refine ⟨h'.loaded.trans h.loaded, h'.spaces.trans h.spaces, h'.walkers.trans h.walkers, ?_,
    h.aloof.trans h'.aloof⟩
  obtain ⟨es, rs, hl, hp, hr, hd⟩ := h.logs
  obtain ⟨fs, ss, hl', hp', hr', hd'⟩ := h'.logs
  refine ⟨es ++ fs, rs ++ ss, hl.trans hl', ?_, ?_, fun q => ?_⟩
  · intro e he
    rcases List.mem_append.mp he with he | he
    · exact hp e he
    · exact hp' e he
  · rw [hr', hr, List.append_assoc]
  · rw [List.mem_append, hd, hd']
    simp only [List.mem_append, or_and_right, exists_or]

/-- events that say nothing of processors or of detached tables, and no change of the trees -/
theorem of_logs {es : List Event} (hl : n.loaded = m.loaded) (hs : n.spaces = m.spaces)
    (ht : n.trees = m.trees) (hq : m.Quiet n) (he : m.Logs es n) (hp : ∀ e ∈ es, ¬ e.OfProcessors)
    (hd : ∀ q, .detached t.cell q ∉ es) : t.Works m n := by
  have hst : t.state n = t.state m := congrArg (·.get t.cell) ht
  refine ⟨hl, hs, by rw [hst], ⟨es, [], he, hp, ?_, fun q => ?_⟩, .of_trees hq ht⟩
  · show (t.state n).retired.toList = (t.state m).retired.toList ++ []
    rw [hst, List.append_nil]
  · simp [hd q]

theorem of_same (hl : n.loaded = m.loaded) (hs : n.spaces = m.spaces) (ht : n.trees = m.trees)
    (hq : m.Quiet n) (he : n.trace = m.trace) : t.Works m n := of_logs hl hs ht hq (.refl he) nofun nofun

theorem refl (m : Machine σ) : t.Works m m := of_same rfl rfl rfl (.refl m) rfl

/-- one event -/
theorem of_push {e : Event} (hl : n.loaded = m.loaded) (hs : n.spaces = m.spaces)
    (ht : n.trees = m.trees) (hq : m.Quiet n) (he : n.trace = m.trace.push e) (hp : ¬ e.OfProcessors)
    (hd : ∀ q, .detached t.cell q ≠ e) : t.Works m n := by
  refine of_logs hl hs ht hq (.push he) (fun e' he' => ?_) fun q hq => ?_
  · rw [List.mem_singleton.mp he']
    exact hp
  · exact hd q (List.mem_singleton.mp hq)

theorem note (m : Machine σ) {e : Event} (hp : ¬ e.OfProcessors) (hr : e.request? = none)
    (hd : ∀ q, .detached t.cell q ≠ e) : t.Works m (m.note e) :=
  of_push rfl rfl rfl (.push rfl rfl rfl hr) rfl hp hd

theorem take (m : Machine σ) (p : PhysAddr) (w : Word) : t.Works m (m.take p w) :=
  of_push rfl rfl rfl (.push rfl rfl rfl rfl) rfl id nofun

theorem giveBack (m : Machine σ) (p : PhysAddr) : t.Works m (m.giveBack p) :=
  of_push rfl rfl rfl (.push rfl rfl rfl rfl) rfl id nofun

theorem store (m : Machine σ) (a : PhysAddr) (w : Word) : t.Works m (m.store a w) :=
  of_push rfl rfl rfl (.push rfl rfl rfl rfl) rfl id nofun

theorem linesCleaned (size : Nat) (lines : List Nat) (m : Machine σ) :
    t.Works m (lines.foldl (fun m line => m.note (.lineCleaned line size)) m) := by
  induction lines generalizing m with
  | nil => exact refl m
  | cons line lines ih => exact (note m (e := .lineCleaned line size) id rfl nofun).trans (ih _)

/-- a table is put on the list when the event says that it was detached -/
theorem retire (m : Machine σ) (r : TableRef) :
    t.Works m (t.changeState (fun s => { s with retired := s.retired.push r })
      (m.note (.detached t.cell r.table))) := by
  have hst : t.state (t.changeState (fun s => { s with retired := s.retired.push r })
      (m.note (.detached t.cell r.table)))
      = { t.state m with retired := (t.state m).retired.push r } := by
    unfold state changeState
    rw [Cells.get_modify, if_pos rfl]
    rfl
  have hlogs : m.Logs [.detached t.cell r.table] (t.changeState (fun s => { s with retired := s.retired.push r })
      (m.note (.detached t.cell r.table))) := .push rfl
  refine ⟨rfl, rfl, by rw [hst], ⟨_, [r], hlogs, ?_, ?_, fun q => ?_⟩, .push rfl rfl rfl rfl, _, hlogs,
    fun cell x hx => ?_⟩
  · intro e he
    rw [List.mem_singleton.mp he]
    exact id
  · show (t.state _).retired.toList = (t.state m).retired.toList ++ [r]
    rw [hst, Array.toList_push]
  · simp [eq_comm]
  · by_cases hc : t.cell = cell
    · subst hc
      have hx : x ∈ (t.state m).retired.toList ++ [r] := by
        rw [← Array.toList_push]
        exact congrArg (fun st : TreeState => st.retired.toList) hst ▸ hx
      refine (List.mem_append.mp hx).imp_right fun hx => ?_
      rw [List.mem_singleton.mp hx]
      exact List.mem_cons_self
    · have hkept : (t.changeState (fun s => { s with retired := s.retired.push r })
          (m.note (.detached t.cell r.table))).trees.get cell = m.trees.get cell :=
        (Cells.get_modify ..).trans (if_neg hc)
      exact .inl (hkept ▸ hx)

end Works

/-- what a relation must allow for every update of `t` to keep it -/
structure Allows (t : Tree) (env : Env σ) (R : Machine σ → Machine σ → Prop) : Prop where
  trans : ∀ {m k n}, R m k → R k n → R m n
  works : ∀ {m n}, t.Works m n → R m n
  /-- a walk that begins and ends -/
  walk : ∀ {m n}, R (t.enterWalk m) n → R m (t.leaveWalk n)
  /-- what others do when a page is asked for -/
  supply : ∀ m, R m (env.supply m).1

namespace Allows
variable {t : Tree} {env : Env σ} {R : Machine σ → Machine σ → Prop} (h : t.Allows env R)
include h

theorem bind {x : Act σ ε α} {f : α → Act σ ε β} (hx : x.Keeps R env) (hf : ∀ a, (f a).Keeps R env) :
    (x >>= f).Keeps R env := Act.Keeps.bind (R := R) (fun _ _ _ => h.trans) hx hf

theorem pure (a : α) : (Pure.pure a : Act σ ε α).Keeps R env := fun m => h.works (.refl m)

theorem view (f : Machine σ → α) : (Act.view f : Act σ ε α).Keeps R env := fun m => h.works (.refl m)

theorem fail (e : ε) : (Act.fail e : Act σ ε α).Keeps R env := fun m => h.works (.refl m)

theorem stuck : (Act.stuck : Act σ ε α).Keeps R env := fun m => h.works (.refl m)

theorem store (a : PhysAddr) (w : Word) : (Act.store a w : Act σ ε Unit).Keeps R env := fun m =>
  h.works (.store m a w)

theorem allocOr (e : ε) (fill : Word) : (Act.allocOr e fill).Keeps R env := by
  refine h.bind (fun m => ?_) fun p => ?_
  · have hs := h.supply m
    unfold Act.after Act.allocPage
    cases hq : env.supply m with
    | mk k q =>
      rw [hq] at hs
      cases q with
      | some p => exact h.trans hs (h.works (.take k p fill))
      | none => exact h.trans hs (h.works (.note k id rfl nofun))
  · cases p with
    | some p => exact h.pure p
    | none => exact h.fail e

theorem cleanWith (c : Cleaner) (a : PhysAddr) (len : Nat) : (Act.clean c a len : Act σ ε Unit).Keeps R env := by
  cases c with
  | platform => exact fun m => h.works (.note m id rfl nofun)
  | lines size => exact fun m => h.works (.linesCleaned size _ m)

theorem clean (a : PhysAddr) (len : Nat) : (t.clean a len : Act σ ε Unit).Keeps R env := by
  unfold Tree.clean
  cases t.cleaner with
  | none => exact h.pure ()
  | some c => exact h.cleanWith c a len

theorem retire (r : TableRef) : (t.retire r : Act σ ε Unit).Keeps R env := fun m =>
  h.works (.retire m r)

theorem initTable (s : Slot) (ws : List Word) : (initTable s ws : Act σ ε Unit).Keeps R env := by
  induction ws generalizing s with
  | nil => exact h.pure ()
  | cons w ws ih => exact h.bind (h.store s.address w) fun _ => ih s.next

theorem publishTable (s : Slot) (old : Word) (page : PhysAddr) :
    (t.publishTable s old page : Act σ ε Unit).Keeps R env := by
  refine h.bind (fun m => ?_) fun found => ?_
  · rw [Act.after_of_ok (Act.publish_apply env m s.address old _)]
    split
    · exact h.works (.store m _ _)
    · exact h.works (.refl m)
  · split
    · exact h.clean s.address 8
    · exact fun m => h.works (.giveBack m page)

theorem offerTable (s : Slot) (old : Word) (entries : Bool → List Word) :
    (t.offerTable s old entries : Act σ TableError Unit).Keeps R env :=
  h.bind (h.allocOr _ 0) fun page => h.bind (h.view _) fun _ =>
    h.bind (h.initTable _ _) fun _ => h.bind (h.clean page 4096) fun _ => h.publishTable s old page

theorem fillGap (s : Slot) : (t.fillGap s : Act σ TableError Unit).Keeps R env :=
  h.offerTable s 0 fun _ => []

/-! ## walks -/

theorem childWithin (s : Slot) (gap : AtGap) (tries : Nat) :
    (t.childWithin s gap tries : Act σ TableError (Option PhysAddr)).Keeps R env := by
  induction tries with
  | zero => exact h.stuck
  | succ tries ih =>
    refine h.bind (h.view _) fun raw => ?_
    split
    · exact h.pure _
    split
    · exact h.bind (h.offerTable s raw _) fun _ => ih
    cases gap with
    | stop => exact h.pure none
    | grow => exact h.bind (h.fillGap s) fun _ => ih

theorem descend (a : GuestAddr) (target : Nat) (gap : AtGap) (depth : Nat) (table : PhysAddr) :
    (t.descend a target gap depth table : Act σ TableError (Option Slot)).Keeps R env := by
  induction depth generalizing table with
  | zero => exact h.pure _
  | succ depth ih =>
    refine h.bind (fun m => h.childWithin _ gap (env.rank m.client + 2) m) fun next => ?_
    cases next with
    | some next => exact ih next
    | none => exact h.pure none

theorem overwrite (s : Slot) (ws : List Word) : (t.overwrite s ws : Act σ ε Unit).Keeps R env := by
  induction ws generalizing s with
  | nil => exact h.pure ()
  | cons w ws ih =>
    refine h.bind (fun m => h.works (.store m s.address w)) fun old => ?_
    split
    · exact h.bind (h.retire _) fun _ => ih s.next
    · exact ih s.next

theorem walking {body : Act σ ε α} (hb : body.Keeps R env) : (t.walking body).Keeps R env := by
  intro m
  rw [t.walking_after]
  exact h.walk (hb (t.enterWalk m))

/-! ## updates -/

theorem apply (p : Mapping) (order : Nat) : (t.apply p order).Keeps R env := by
  refine h.bind (h.descend _ _ _ _ _) fun s => ?_
  cases s with
  | none => exact h.pure _
  | some s =>
    exact h.bind (h.view _) fun _ => h.bind (h.overwrite s _) fun _ =>
      h.bind (h.clean _ _) fun _ => h.pure _

theorem update (p : Mapping) (order : Nat) : (t.update p order).Keeps R env := by
  unfold Tree.update
  cases t.format.refusal? p order with
  | some e => exact h.fail e
  | none => exact h.walking (h.apply p order)

theorem installFrom (p : Mapping) (pages : Nat) : (t.installFrom p pages).Keeps R env := by
  induction p, pages using Tree.installFrom.induct with
  | case1 p =>
    unfold Tree.installFrom
    exact h.pure ()
  | case2 p pages hne ih =>
    unfold Tree.installFrom
    rw [dif_neg hne]
    exact h.bind (h.update p _) fun covered => ih covered

theorem install (p : Mapping) (pages : Nat) : (t.install p pages).Keeps R env := by
  unfold Tree.install
  split
  · exact h.installFrom p pages
  · exact h.fail _

end Allows

/-! ## walks under way -/

/-- a walk that begins and ends is counted and counted back -/
theorem walkers_leaveWalk {t : Tree} {m n : Machine σ}
    (h : (t.state n).walkers = (t.state (t.enterWalk m)).walkers) :
    (t.state (t.leaveWalk n)).walkers = (t.state m).walkers := by
  have he : t.state (t.enterWalk m) = { t.state m with walkers := (t.state m).walkers + 1 } := by
    unfold state enterWalk changeState
    rw [Cells.get_modify, if_pos rfl]
  have hl : t.state (t.leaveWalk n) = { t.state n with walkers := (t.state n).walkers - 1 } := by
    unfold state leaveWalk changeState
    rw [Cells.get_modify, if_pos rfl]
  rw [hl]
  show (t.state n).walkers - 1 = _
  rw [h, he, Nat.add_sub_cancel]

/-- after an update as many walks are under way as before, if others count back theirs -/
theorem allows_walkers (t : Tree) {env : Env σ}
    (hs : ∀ m, (t.state (env.supply m).1).walkers = (t.state m).walkers) :
    t.Allows env fun m n => (t.state n).walkers = (t.state m).walkers where
  trans h h' := h'.trans h
  works h := h.walkers
  walk := walkers_leaveWalk
  supply := hs

end Tree

end NestedPaging
