import NestedPaging.Proofs.Space.Syncing

/-!
# Runs

A run is any sequence of calls, syncs and destructions. During a shootdown, and whenever a page is
asked for, other processors may run in turn.

* `Call`         the single calls: the operations on spaces, those on roots, and their creation;
* `Repertoire`   which of them a run may hold;
* `Run S m n`    a run from `m` to `n`;
* `Meets S m n`  a run from `m` finds `n` between two of its steps, possibly during a shootdown;
* `Permits.run`  every run keeps a transitive relation that allows single switches and flushes;
* `Run.aloof`    no unit takes part in a run.
-/

namespace NestedPaging

variable {σ : Type}

/-- the operations on a space, apart from its syncs and its end -/
inductive SpaceOp where
  | update (p : Mapping) (order : Nat)
  | install (p : Mapping) (pages : Nat)
  | lookup (a : GuestAddr)
  | invalidate (c : CpuId)
  | activate (c : CpuId)
  | flushLocal (c : CpuId)
  | markDirty (c : CpuId)
  deriving DecidableEq

def Space.perform (s : Space) : SpaceOp → Act σ TableError Unit
  | .update p order => (fun _ => ()) <$> s.update p order
  | .install p pages => s.install p pages
  | .lookup a => (fun _ => ()) <$> s.lookup a
  | .invalidate c => s.invalidate c
  | .activate c => s.activate c
  | .flushLocal c => s.flushLocal c
  | .markDirty c => s.markDirty c

/-- the processor that an operation is for -/
def SpaceOp.cpu? : SpaceOp → Option CpuId
  | invalidate c | activate c | flushLocal c => some c
  | _ => none

/-- what may be called -/
inductive Call where
  | on (s : Space) (op : SpaceOp)
  | createSpace (k : Regime) (cleaner : Option Cleaner) (tag : RegimeTag)
  | createRoot (k : Regime) (cleaner : Option Cleaner)
  | makeCurrent (r : RegimeRoot) (c : CpuId) (tag : RegimeTag)
  | invalidate (r : RegimeRoot) (c : CpuId) (tag : RegimeTag)
  | forget (k : Regime) (c : CpuId)
  deriving DecidableEq

namespace Call

def perform : Call → Act σ TableError Unit
  | on s op => s.perform op
  | createSpace k cleaner tag => (fun _ => ()) <$> Space.create k cleaner tag
  | createRoot k cleaner => (fun _ => ()) <$> RegimeRoot.create k cleaner
  | makeCurrent r c tag => r.makeCurrent c tag
  | invalidate r c tag => r.invalidate c tag
  | forget k c => Act.forgetLoaded k c

/-- the processor that a call is for, and the kind of regime that it may switch there -/
def target? : Call → Option (Regime × CpuId)
  | on s op => op.cpu?.map fun c => (s.root.kind, c)
  | makeCurrent r c _ | invalidate r c _ => some (r.kind, c)
  | forget k c => some (k, c)
  | _ => none

end Call

/-- what a run may hold, and in which surroundings -/
structure Repertoire (σ : Type) where
  call : Call → Prop
  sync : Space → Prop
  destroy : Space → Prop
  env : Env σ → Prop

/-- the machines that lead from one to another -/
inductive Run (S : Repertoire σ) : Machine σ → Machine σ → Prop
  | refl (m : Machine σ) : Run S m m
  | trans {m k n : Machine σ} : Run S m k → Run S k n → Run S m n
  /-- whoever runs the machine takes a note -/
  | client (m : Machine σ) (client : σ) : Run S m { m with client }
  /-- a call, however it ends, with others at work whenever a page is asked for -/
  | call {c : Call} {env : Env σ} (m : Machine σ) : S.call c → S.env env →
      (∀ j, Run S j (env.supply j).1) → Run S m (c.perform.after env m)
  /-- a sync, with others at work during its shootdown -/
  | sync {s : Space} {d : Shootdown σ} (env : Env σ) (m : Machine σ) : S.sync s →
      (∀ j, Run S j (d.before j)) → Run S m ((s.sync d).after env m)
  | destroy {s : Space} {d : Shootdown σ} (env : Env σ) (m : Machine σ) : S.destroy s →
      (∀ j, Run S j (d.before j)) → Run S m ((s.destroy d).after env m)

/-- the machines between two steps of a run from `m₀`, those of its shootdowns included -/
inductive Meets (S : Repertoire σ) (m₀ : Machine σ) : Machine σ → Prop
  | start : Meets S m₀ m₀
  | run {m n : Machine σ} : Meets S m₀ m → Run S m n → Meets S m₀ n
  /-- a sync is about to flush -/
  | inSync {s : Space} {m : Machine σ} : Meets S m₀ m → S.sync s → (s.state m).phase = .active →
      Meets S m₀ (s.opened (s.enter m))
  | inDestroy {s : Space} {m : Machine σ} : Meets S m₀ m → S.destroy s →
      (s.state m).phase = .active → (s.state m).inFlight = 0 → Meets S m₀ (s.opened (s.closing m))

/-- what may run may run among more -/
theorem Run.mono {S T : Repertoire σ} (hc : ∀ c, S.call c → T.call c) (hs : ∀ s, S.sync s → T.sync s)
    (hd : ∀ s, S.destroy s → T.destroy s) (he : ∀ env, S.env env → T.env env) {m n : Machine σ}
    (h : Run S m n) : Run T m n := by
  induction h with
  | refl m => exact .refl m
  | trans _ _ ih ih' => exact .trans ih ih'
  | client m client => exact .client m client
  | call m hcall henv _ ih => exact .call m (hc _ hcall) (he _ henv) ih
  | sync env m hsync _ ih => exact .sync env m (hs _ hsync) ih
  | destroy env m hdestroy _ ih => exact .destroy env m (hd _ hdestroy) ih

/-- runs on the space `s` alone, while it lives -/
def Space.only (s : Space) (E : Env σ → Prop) : Repertoire σ where
  call c := ∃ op, c = .on s op
  sync := (· = s)
  destroy _ := False
  env := E

/-! ## relations that every run keeps -/

/-- what a transitive relation must allow for steps of the processors and regimes `P` to keep it -/
structure Permits (P : Regime → CpuId → Prop) (R : Machine σ → Machine σ → Prop) : Prop where
  trans : ∀ {m k n}, R m k → R k n → R m n
  idle : ∀ {m n}, m.Idle n → R m n
  mark : ∀ (m : Machine σ) cell, R m (m.note (.allDirty cell))
  switch : ∀ {k c} (m : Machine σ) v, P k c → R m (m.switch k c v)
  /-- a flush of what was made current just before -/
  invalidate : ∀ {k c} (m : Machine σ) v, P k c → R m ((m.switch k c v).flush k c v)
  forget : ∀ {k c} (m : Machine σ), P k c → R m (m.forget k c)

namespace Permits
variable {P : Regime → CpuId → Prop} {R : Machine σ → Machine σ → Prop} (h : Permits P R)
  {env : Env σ}
include h

theorem refl (m : Machine σ) : R m m := h.idle (.refl m)

theorem allows (t : Tree) (hs : ∀ m, R m (env.supply m).1) : t.Allows env R where
  trans := h.trans
  works hw := h.idle hw.idle
  walk hr := h.trans (h.idle (t.idle_enterWalk _)) (h.trans hr (h.idle (t.idle_leaveWalk _)))
  supply := hs

theorem whileActive {α : Type} (s : Space) {body : Act σ TableError α} (hb : body.Keeps R env) :
    (s.whileActive body).Keeps R env := by
  intro m
  rw [s.whileActive_after]
  split
  · exact h.trans (h.idle (s.idle_changeState _ m)) (h.trans (hb _) (h.idle (s.idle_changeState _ _)))
  · exact h.trans (h.idle (s.idle_changeState _ m)) (h.idle (s.idle_changeState _ _))

theorem flush (s : Space) {c : CpuId} (hc : P s.root.kind c) (m : Machine σ) : R m (s.flush c m) :=
  h.trans (h.idle (s.idle_changeState _ m)) (h.invalidate (s.unmark c m) s.value hc)

theorem turn (s : Space) {c : CpuId} (hc : P s.root.kind c) (m : Machine σ) : R m (s.turn c m) := by
  unfold Space.turn
  split
  · exact h.flush s hc m
  · exact h.trans (h.idle (s.idle_changeState _ m)) (h.switch (s.unmark c m) s.value hc)

theorem perform (s : Space) (op : SpaceOp) (hs : ∀ m, R m (env.supply m).1)
    (hc : ∀ c, op.cpu? = some c → P s.root.kind c) : (s.perform op).Keeps R env := by
  cases op with
  | update p order => exact .map _ (h.whileActive s ((h.allows s.tree hs).update p order))
  | install p pages => exact h.whileActive s ((h.allows s.tree hs).install p pages)
  | lookup a => exact fun m => h.refl m
  | invalidate c =>
    refine h.whileActive s fun m => ?_
    rw [Act.after_of_ok (s.flushLocal_apply c env m)]
    exact h.flush s (hc c rfl) m
  | activate c =>
    refine h.whileActive s fun m => ?_
    rw [Act.after_of_ok (s.activate_body c env m)]
    exact h.turn s (hc c rfl) m
  | flushLocal c =>
    intro m
    show R m ((s.flushLocal c : Act σ TableError Unit).after env m)
    rw [Act.after_of_ok (s.flushLocal_apply c env m)]
    exact h.flush s (hc c rfl) m
  | markDirty c => exact fun m => h.idle (s.idle_changeState _ m)

/-! ## creation -/

theorem createTree (f : Format) (cleaner : Option Cleaner) (hs : ∀ m, R m (env.supply m).1) :
    (Tree.create f cleaner).Keeps R env := by
  have ha := h.allows ⟨0, f, .ofFrame 0, cleaner⟩ hs
  refine ha.bind (ha.allocOr _ 0) fun root => ?_
  cases cleaner with
  | none => exact fun m => h.idle (.freshTree m)
  | some c => exact ha.bind (ha.clean root 4096) fun _ m => h.idle (.freshTree m)

theorem createRoot (k : Regime) (cleaner : Option Cleaner) (hs : ∀ m, R m (env.supply m).1) :
    (RegimeRoot.create k cleaner).Keeps R env :=
  (h.allows ⟨0, k.format, .ofFrame 0, cleaner⟩ hs).bind (h.createTree _ cleaner hs)
    fun _ m => h.refl m

theorem createSpace (k : Regime) (cleaner : Option Cleaner) (tag : RegimeTag)
    (hs : ∀ m, R m (env.supply m).1) : (Space.create k cleaner tag).Keeps R env := by
  have ha := h.allows ⟨0, k.format, .ofFrame 0, cleaner⟩ hs
  refine ha.bind (h.createRoot k cleaner hs) fun root => ha.bind (fun m => ?_) fun _ m => ?_
  · exact h.idle (.note m id rfl)
  · exact h.idle (.of_eq rfl rfl rfl rfl rfl)

/-! ## runs -/

theorem call (c : Call) (hs : ∀ m, R m (env.supply m).1)
    (hc : ∀ k d, c.target? = some (k, d) → P k d) : c.perform.Keeps R env := by
  cases c with
  | on s op =>
    refine h.perform s op hs fun d hd => hc _ _ ?_
    show op.cpu?.map _ = _
    rw [hd]
    rfl
  | createSpace k cleaner tag => exact .map _ (h.createSpace k cleaner tag hs)
  | createRoot k cleaner => exact .map _ (h.createRoot k cleaner hs)
  | makeCurrent r c tag =>
    intro m
    show R m ((r.makeCurrent c tag : Act σ TableError Unit).after env m)
    rw [Act.after_of_ok (r.makeCurrent_apply c tag env m)]
    exact h.switch m _ (hc _ _ rfl)
  | invalidate r c tag =>
    intro m
    show R m ((r.invalidate c tag : Act σ TableError Unit).after env m)
    rw [Act.after_of_ok (r.invalidate_apply c tag env m)]
    exact h.invalidate m _ (hc _ _ rfl)
  | forget k c => exact fun m => h.forget m (hc _ _ rfl)

theorem flushAll (s : Space) {cs : List CpuId} (hc : ∀ c ∈ cs, P s.root.kind c) (m : Machine σ) :
    R m (s.flushAll cs m) := by
  induction cs generalizing m with
  | nil => exact h.refl m
  | cons c cs ih =>
    have hf := h.flush s (hc c List.mem_cons_self) m
    exact h.trans hf (ih (fun c hm => hc c (List.mem_cons_of_mem _ hm)) (s.flush c m))

theorem opened (s : Space) (m : Machine σ) : R m (s.opened m) := by
  have hm := h.mark (s.tree.forgetRetired m) s.cell
  exact h.trans (h.idle (s.tree.idle_forgetRetired m))
    (h.trans hm (h.idle (s.idle_changeState _ _)))

variable {s : Space} {d : Shootdown σ} (hb : ∀ j, R j (d.before j))
  (hc : ∀ c : CpuId, c.val < d.online → P s.root.kind c)
include hb hc

/-- from the start of a settle until its flushes are done -/
theorem shot (m : Machine σ) : R m (s.shot d (s.opened m)) := by
  have ho := h.trans (h.opened s m) (hb (s.opened m))
  exact h.trans ho (h.flushAll s (fun c hm => hc c (s.mem_targets.mp hm).2) _)

theorem sync (env : Env σ) (m : Machine σ) : R m ((s.sync d).after env m) :=
  h.whileActive s (fun m => h.trans (h.shot hb hc m) (h.idle (s.idle_settle d env m))) m

theorem destroy (env : Env σ) (m : Machine σ) : R m ((s.destroy d).after env m) := by
  rcases s.destroy_cases d env m with e | e | hi
  · rw [e]
    exact h.refl m
  · rw [e]
    exact h.idle (s.idle_changeState _ m)
  · have hm : R m (s.closing m) := h.idle (s.idle_changeState _ m)
    exact h.trans hm (h.trans (h.shot hb hc (s.closing m)) (h.idle hi))

end Permits

/-- every run keeps a relation that allows the steps of all processors -/
theorem Permits.run {S : Repertoire σ} {R : Machine σ → Machine σ → Prop}
    (h : Permits (fun _ _ => True) R) {m n : Machine σ} (hr : Run S m n) : R m n := by
  induction hr with
  | refl m => exact h.refl m
  | trans _ _ ih ih' => exact h.trans ih ih'
  | client m client => exact h.idle (.of_eq rfl rfl rfl rfl rfl)
  | @call c env m _ _ _ ih => exact h.call c ih (fun _ _ _ => trivial) m
  | sync env m _ _ ih => exact h.sync ih (fun _ _ => trivial) env m
  | destroy env m _ _ ih => exact h.destroy ih (fun _ _ => trivial) env m

/-- it holds from the start of a run to every machine that the run meets -/
theorem Permits.meets {S : Repertoire σ} {R : Machine σ → Machine σ → Prop}
    (h : Permits (fun _ _ => True) R) {m₀ m : Machine σ} (hm : Meets S m₀ m) : R m₀ m := by
  induction hm with
  | start => exact h.refl m₀
  | run _ hr ih => exact h.trans ih (h.run hr)
  | @inSync s m _ _ _ ih =>
    exact h.trans ih (h.trans (h.idle (s.idle_changeState _ m)) (h.opened s (s.enter m)))
  | @inDestroy s m _ _ _ _ ih =>
    exact h.trans ih (h.trans (h.idle (s.idle_changeState _ m)) (h.opened s (s.closing m)))

/-! ## units -/

namespace Machine

theorem aloof_switch (m : Machine σ) (k : Regime) (c : CpuId) (v : Word) : m.Aloof (m.switch k c v) := by
  refine .of_trees ⟨rfl, rfl, _, m.logs_switch k c v, fun e he => ?_⟩ rfl
  rw [eq_of_mem_loadOf he]
  rfl

theorem aloof_flush (m : Machine σ) (k : Regime) (c : CpuId) (v : Word) : m.Aloof (m.flush k c v) :=
  .of_trees (.push rfl rfl rfl rfl) rfl

theorem aloof_forget (m : Machine σ) (k : Regime) (c : CpuId) : m.Aloof (m.forget k c) :=
  .of_trees (.push rfl rfl rfl rfl) rfl

/-- a relation that allows all steps in which no unit takes part is kept by all that is done to spaces -/
theorem Aloof.permits {R : Machine σ → Machine σ → Prop} (ht : ∀ {m k n}, R m k → R k n → R m n)
    (ha : ∀ {m n}, m.Aloof n → R m n) : Permits (fun _ _ => True) R where
  trans := ht
  idle hi := ha hi.aloof
  mark _ _ := ha (.of_trees (.push rfl rfl rfl rfl) rfl)
  switch m v _ := ha (m.aloof_switch _ _ v)
  invalidate m v _ := ha ((m.aloof_switch _ _ v).trans (aloof_flush _ _ _ v))
  forget m _ := ha (m.aloof_forget _ _)

end Machine

/-- no unit takes part in a run on spaces -/
theorem Run.aloof {S : Repertoire σ} {m n : Machine σ} (h : Run S m n) : m.Aloof n :=
  Permits.run (Machine.Aloof.permits .trans id) h

theorem Meets.aloof {S : Repertoire σ} {m n : Machine σ} (h : Meets S m n) : m.Aloof n :=
  (Machine.Aloof.permits .trans id).meets h

end NestedPaging
