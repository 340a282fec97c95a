import Mathlib.Logic.Relation
import NestedPaging.Proofs.Space.Destruction
import NestedPaging.Proofs.Objects.Isolation
import NestedPaging.Proofs.Platform.Runs

/-!
# Entries and the spaces they point to

A context entry holds the address of the root of a space, and nothing else ties the two together. Here
operations on objects follow one another, and devices are assigned to spaces.

* `EntryWords.PointsTo w s`      the tables that `w` holds are those of `s`;
* `ContextTables.Linked t m`     each present entry of `t` points to a space that is there and active;
* `ContextTables.Does t P m n`   an operation on an object, its creation or its end, or the assignment of a
                                 device, to a space of which `P` holds; no space ends while entries point to it.

If `P` asks for spaces that are there and active, every run keeps all entries linked (`linked`). Nothing in an
assignment sees to that: a device can be assigned to a space that was destroyed (`linked_only_active`).
-/

namespace NestedPaging

variable {σ α : Type}

/-! ## the phase of a space -/

namespace Space
variable {s : Space} {m : Machine σ} {env : Env σ} {d : Shootdown σ}

theorem phase_whileActive {body : Act σ TableError α}
    (hb : ∀ k, (s.state (body.after env k)).phase = (s.state k).phase) (m : Machine σ) :
    (s.state ((s.whileActive body).after env m)).phase = (s.state m).phase := by
  rw [s.whileActive_after]
  split
  · rw [s.phase_leave, hb, s.phase_enter]
  · rw [s.phase_leave, s.phase_enter]

/-- while nobody else is at work, no operation on a space ends it -/
theorem phase_perform (ha : env.Alone) (op : SpaceOp) (m : Machine σ) :
    (s.state ((s.perform op).after env m)).phase = (s.state m).phase := by
  have hworks : ∀ {β : Type} {x : Act σ TableError β}, x.Keeps s.tree.Works env →
      (s.state ((s.whileActive x).after env m)).phase = (s.state m).phase := fun hx =>
    phase_whileActive (fun k => congrArg (fun spaces => (spaces.get s.cell).phase) (hx k).spaces) m
  cases op with
  | update p order =>
    show (s.state (Act.after ((fun _ => ()) <$> s.update p order) env m)).phase = _
    rw [Act.after_map]
    exact hworks ((allows_works s.tree ha).update p order)
  | install p pages => exact hworks ((allows_works s.tree ha).install p pages)
  | lookup a => rfl
  | invalidate c =>
    refine phase_whileActive (fun k => ?_) m
    rw [Act.after_of_ok (s.flushLocal_apply c env k), s.phase_flush]
  | activate c =>
    refine phase_whileActive (fun k => ?_) m
    rw [Act.after_of_ok (s.activate_body c env k), s.phase_turn]
  | flushLocal c =>
    show (s.state ((s.flushLocal c : Act σ TableError Unit).after env m)).phase = _
    rw [Act.after_of_ok (s.flushLocal_apply c env m), s.phase_flush]
  | markDirty c =>
    show (s.state (s.changeState (fun st => { st with dirty := st.dirty.insert c }) m)).phase = _
    rw [s.state_changeState]

theorem phase_sync (hd : ∀ j, (s.state (d.before j)).phase = (s.state j).phase) (env : Env σ) (m : Machine σ) :
    (s.state ((s.sync d).after env m)).phase = (s.state m).phase := by
  refine phase_whileActive (fun k => ?_) m
  rcases s.settle_after (ε := TableError) d env k with e | ⟨e, -⟩
  · rw [e, s.phase_settled, hd, s.phase_opened]
  · rw [e]
    unfold shot
    rw [s.phase_flushAll, hd, s.phase_opened]

end Space

/-! ## entries -/

/-- the tables that the entry holds are those of `s` -/
def EntryWords.PointsTo (w : EntryWords) (s : Space) : Prop := w.lo = s.tree.root.bits ||| presentBit

theorem Space.pointsTo_attachment (s : Space) : s.attachment.words.PointsTo s := rfl

variable [Registry σ]

/-- no entry points to the space -/
def Space.Unlinked (s : Space) (t : ContextTables) (m : Machine σ) : Prop :=
  ∀ r, ¬ (t.entries m.memory r).PointsTo s

/-- the space is there, neither dropped nor destroyed nor about to be -/
structure Space.IsUp (s : Space) (m : Machine σ) : Prop where
  mem : .space s ∈ m.objects
  active : (s.state m).phase = .active

/-- others take notes at most -/
def Lone (f : Machine σ → Machine σ) : Prop :=
  ∀ j, ∃ client, Registry.objects client = j.objects ∧ f j = { j with client }

theorem Lone.aloof {f : Machine σ → Machine σ} (h : Lone f) (j : Machine σ) : j.Aloof (f j) := by
  obtain ⟨client, -, hf⟩ := h j
  rw [hf]
  exact .of_eq rfl rfl rfl rfl

theorem Lone.alone {env : Env σ} (h : Lone fun j => (env.supply j).1) : env.Alone := fun j => by
  obtain ⟨client, -, hc⟩ := h j
  exact ⟨client, hc⟩

theorem Lone.joint {f : Machine σ → Machine σ} (h : Lone f) (S : Terms) (j : Machine σ) : Joint S none j (f j) := by
  obtain ⟨client, hc, hf⟩ := h j
  rw [hf]
  exact .client j hc

/-- an entry that points to a space that is up says which page is the root of that space -/
theorem Space.IsUp.holds {s s' : Space} {m : Machine σ} {w : EntryWords} (h : s'.IsUp m) (hm : m.Orderly m.objects)
    (hp' : w.PointsTo s') (hp : w.PointsTo s) (hpage : s.tree.root.IsPage) :
    s.tree.root.frame ∈ (Object.space s').frames m := by
  obtain ⟨hunreleased, hwhole⟩ := hm.sound _ h.mem
  have hr := hunreleased h.active
  obtain ⟨_, _, howns⟩ := hwhole hr
  have hroot : s.tree.root = s'.tree.root := by
    rw [← ContextTables.pageOf_present hpage, ← ContextTables.pageOf_present (howns.page howns.root).1]
    exact congrArg ContextTables.pageOf (hp.symm.trans hp')
  refine ⟨hr, s'.tree.root, ?_, congrArg Addr.frame hroot.symm⟩
  rw [s'.tree.pages_eq]
  exact List.mem_append_right _ (s'.tree.format.self_mem_subtree ..)

namespace ContextTables
variable {t : ContextTables} {P : Space → Machine σ → Prop} {m k n : Machine σ} {env : Env σ} {r : RequesterId}
  {w : EntryWords} {S : Terms} {c : Option (Turn σ)}

/-- each present entry points to a space that is up -/
def Linked (t : ContextTables) (m : Machine σ) : Prop :=
  ∀ r, isPresentEntry (t.entries m.memory r).lo = true → ∃ s : Space, s.IsUp m ∧ (t.entries m.memory r).PointsTo s

/-- one operation, from its beginning to its end -/
inductive Does (t : ContextTables) (P : Space → Machine σ → Prop) : Machine σ → Machine σ → Prop
  /-- whoever runs the machine takes a note -/
  | client (m : Machine σ) {client : σ} : Registry.objects client = m.objects → Does t P m { m with client }
  /-- an operation on any other object; a space is destroyed only if no entry points to it -/
  | call (op : Operation σ) {env : Env σ} (m : Machine σ) : op.object ∈ m.objects → op.object ≠ .contexts t →
      (∀ s d, op = .destroy s d → s.Unlinked t m) → env.Honest → Lone (op.others env) →
      Does t P m (op.after env m)
  | create (c : Creation) {env : Env σ} (m : Machine σ) {o : Object} {n : Machine σ} {client : σ} : env.Honest →
      Lone (fun j => (env.supply j).1) → c.run env m = (some o, n) → o.window ⊆ Registry.reserved σ →
      Registry.objects client = insert o n.objects → Does t P m { n with client }
  /-- a creation that fails -/
  | fail (c : Creation) {env : Env σ} (m : Machine σ) {n : Machine σ} : env.Honest →
      Lone (fun j => (env.supply j).1) → c.run env m = (none, n) → Does t P m n
  /-- an object is dropped; a space only if no entry points to it -/
  | drop (o : Object) (env : Env σ) (m : Machine σ) {client : σ} : o ∈ m.objects → o ≠ .contexts t →
      (∀ s, o = .space s → s.Unlinked t m) → Registry.objects client = m.objects \ {o} →
      Does t P m { o.drop env m with client }
  /-- a device is attached to a space, or detached from it; the call may fail -/
  | configure (p : Platform) (base : Word) (s : Space) (rid : Nat) (enable : Bool) {env : Env σ} (m : Machine σ) :
      p.contexts = t → (∀ u ∈ p.units, .unit u ∈ m.objects) → (enable = true → P s m) → env.Honest →
      Lone (fun j => (env.supply j).1) → Does t P m ((p.configure base s.attachment rid enable).after env m)

/-! ## what operations leave -/

/-- tables among objects that are in order, with all entries linked -/
structure Safe (t : ContextTables) (m : Machine σ) : Prop where
  order : m.Orderly m.objects
  mem : .contexts t ∈ m.objects
  linked : t.Linked m

theorem Linked.update (h : t.Linked m) (hup : ∀ s : Space, s.IsUp m → s.IsUp n)
    (he : t.entries n.memory = Function.update (t.entries m.memory) r w)
    (hw : isPresentEntry w.lo = true → ∃ s : Space, s.IsUp m ∧ w.PointsTo s) : t.Linked n := by
  intro r' hr'
  rw [he] at hr' ⊢
  by_cases hr : r' = r
  · rw [hr, Function.update_self] at hr' ⊢
    obtain ⟨s, hs, hp⟩ := hw hr'
    exact ⟨s, hup s hs, hp⟩
  · rw [Function.update_of_ne hr] at hr' ⊢
    obtain ⟨s, hs, hp⟩ := h r' hr'
    exact ⟨s, hup s hs, hp⟩

/-- no entry points to a page that is free -/
theorem Linked.unlinked {s : Space} (h : t.Linked m) (hm : m.Orderly m.objects) (hpage : s.tree.root.IsPage)
    (hfree : s.tree.root.frame ∉ m.live) : s.Unlinked t m := fun r hp => by
  obtain ⟨s', hup, hp'⟩ := h r (by rw [show (t.entries m.memory r).lo = _ from hp]; exact isPresentEntry_present _)
  exact hfree (hm.live _ hup.mem _ (hup.holds hm hp' hp hpage))

end ContextTables

/-- an object that a run does not act on is there afterwards, and has what it had -/
theorem Goes.kept {S : Terms} {c : Option (Turn σ)} {m n : Machine σ} {b : Object} (h : Goes S c m n)
    (hm : m.Orderly m.objects) (hb : b ∈ m.objects) (hout : b ∉ S.acts) : b ∈ n.objects ∧ b.Spared m n :=
  ⟨(h.guards b hb).stays (.inl hout), (h.guards b hb).spared hout (hm.sound b hb)⟩

theorem Space.IsUp.kept {s : Space} {S : Terms} {c : Option (Turn σ)} {m n : Machine σ} (h : s.IsUp m)
    (hg : Goes S c m n) (hm : m.Orderly m.objects) (hout : .space s ∉ S.acts) : s.IsUp n := by
  obtain ⟨hn, hs⟩ := hg.kept hm h.mem hout
  exact ⟨hn, (congrArg SpaceState.phase (hs.cells (.space s.cell) (.inl rfl))).trans h.active⟩

theorem Goes.entries {S : Terms} {c : Option (Turn σ)} {m n : Machine σ} {t : ContextTables} (h : Goes S c m n)
    (hm : m.Orderly m.objects) (ht : .contexts t ∈ m.objects) (hout : .contexts t ∉ S.acts) :
    t.entries n.memory = t.entries m.memory :=
  funext fun r => congrArg (Option.getD · _) ((h.kept hm ht hout).2.same (hm.sound _ ht) r)

/-- an operation that only its caller does -/
theorem Operation.goes_lone (op : Operation σ) {env : Env σ} {m : Machine σ} (hm : m.Orderly m.objects)
    (ho : op.object ∈ m.objects) (hh : env.Honest) (hl : Lone (op.others env)) :
    Goes ⟨{op.object}, Set.univ, ∅⟩ (some (op.turn env)) m (op.after env m) :=
  (Joint.call (S := ⟨{op.object}, Set.univ, ∅⟩) op m ho rfl (fun _ => id) hh fun j => hl.joint _ j).goes hm

theorem Operation.stays_lone (op : Operation σ) {env : Env σ} {m : Machine σ} {b : Object}
    (hm : m.Orderly m.objects) (ho : op.object ∈ m.objects) (hh : env.Honest) (hl : Lone (op.others env))
    (hb : b ∈ m.objects) : b ∈ (op.after env m).objects :=
  ((op.goes_lone hm ho hh hl).guards b hb).stays (.inr (.inl trivial))

namespace ContextTables
variable {t : ContextTables} {P : Space → Machine σ → Prop} {m k n : Machine σ} {env : Env σ} {r : RequesterId}
  {S : Terms} {c : Option (Turn σ)}

namespace Safe

/-- a run that leaves the tables alone, and leaves spaces up that entries point to -/
theorem goes (h : t.Safe m) (hg : Goes S c m n) (ht : .contexts t ∉ S.acts)
    (hs : ∀ s : Space, .space s ∈ S.acts → s.IsUp m → ¬ s.Unlinked t m → s.IsUp n) : t.Safe n := by
  refine ⟨hg.order, (hg.kept h.order h.mem ht).1, fun r hr => ?_⟩
  rw [hg.entries h.order h.mem ht] at hr ⊢
  obtain ⟨s, hup, hp⟩ := h.linked r hr
  refine ⟨s, ?_, hp⟩
  by_cases hin : Object.space s ∈ S.acts
  · exact hs s hin hup fun hu => hu r hp
  · exact hup.kept hg h.order hin

theorem call (op : Operation σ) (h : t.Safe m) (ho : op.object ∈ m.objects) (ht : op.object ≠ .contexts t)
    (hd : ∀ s d, op = .destroy s d → s.Unlinked t m) (hh : env.Honest) (hl : Lone (op.others env)) :
    t.Safe (op.after env m) := by
  have hg := op.goes_lone h.order ho hh hl
  refine h.goes hg (fun he => ht he.symm) fun s hs hup hlinked => ?_
  refine ⟨op.stays_lone h.order ho hh hl hup.mem, Eq.trans ?_ hup.active⟩
  cases op with
  | space s' op =>
    obtain rfl : s = s' := Object.space.inj hs
    exact s.phase_perform (Lone.alone hl) op m
  | sync s' d =>
    obtain rfl : s = s' := Object.space.inj hs
    refine s.phase_sync (fun j => ?_) env m
    obtain ⟨client, -, hj⟩ := hl j
    have hj : d.before j = { j with client } := hj
    rw [hj]
    rfl
  | destroy s' d =>
    obtain rfl : s = s' := Object.space.inj hs
    exact absurd (hd s d rfl) hlinked
  | _ => cases hs

section
variable (h : t.Safe m) (hh : env.Honest) (hl : Lone fun j => (env.supply j).1)
include h hh hl

/-- a device is attached to a space that is up, or there is no page for its table -/
theorem attach {s : Space} (hs : s.IsUp m) (r : RequesterId) : t.Safe ((t.attach r s.attachment).after env m) := by
  have hg := Operation.goes_lone (.attach t r s.attachment) h.order h.mem hh hl
  have hmem := Operation.stays_lone (.attach t r s.attachment) h.order h.mem hh hl h.mem
  obtain ⟨n, hn⟩ : ∃ n, (t.attach r s.attachment).after env m = n := ⟨_, rfl⟩
  rw [show (Operation.attach t r s.attachment).after env m = n from hn] at hg hmem
  have hup : ∀ s' : Space, s'.IsUp m → s'.IsUp n := fun s' hs' => hs'.kept hg h.order nofun
  rw [hn]
  refine ⟨hg.order, hmem, ?_⟩
  by_cases hroom : t.table? m.memory r.bus = none → (env.supply m).2 ≠ none
  · obtain ⟨k, hk, ha⟩ := (h.order.sound _ h.mem : t.Sound m.memory).attach (h.order.live _ h.mem) hl.alone hh hroom
      s.attachment
    obtain rfl : k = n := (Act.after_of_ok hk).symm.trans hn
    exact h.linked.update hup ha.entries fun _ => ⟨s, hs, s.pointsTo_attachment⟩
  · obtain ⟨h0, hnone⟩ := Classical.not_imp.mp hroom
    obtain ⟨k, hk, -, hm, -⟩ := attach_exhausted hl.alone h0 (not_not.mp hnone) s.attachment
    obtain rfl : k = n := (Act.after_of_error hk).symm.trans hn
    refine h.linked.update (r := r) hup ?_ (h.linked r)
    rw [hm, Function.update_eq_self]

theorem detach (r : RequesterId) : t.Safe ((t.detach r : Act σ RemapError Unit).after env m) := by
  have hg := Operation.goes_lone (.detach t r) h.order h.mem hh hl
  have hmem := Operation.stays_lone (.detach t r) h.order h.mem hh hl h.mem
  obtain ⟨k, hk, ha⟩ := (h.order.sound _ h.mem : t.Sound m.memory).detach (ε := RemapError) (h.order.live _ h.mem) env
  rw [show (Operation.detach t r).after env m = k from Act.after_of_ok hk] at hg hmem
  rw [Act.after_of_ok hk]
  exact ⟨hg.order, hmem, h.linked.update (fun s' hs' => hs'.kept hg h.order nofun) ha.entries fun hw => by cases hw⟩

theorem configure {p : Platform} {base : Word} {s : Space} {rid : Nat} {enable : Bool} (hp : p.contexts = t)
    (hu : ∀ u ∈ p.units, .unit u ∈ m.objects) (hs : enable = true → s.IsUp m) :
    t.Safe ((p.configure base s.attachment rid enable).after env m) := by
  subst hp
  rcases p.configure_cases base s.attachment rid enable env m with ⟨e, -, he⟩ | ⟨u, hfound, -, he⟩
  · rw [Act.after_of_error he]
    exact h
  -- the entry is changed, and the unit is still there
  obtain ⟨k, hk⟩ : ∃ k, (p.enter s.attachment rid enable).after env m = k := ⟨_, rfl⟩
  have henter : p.contexts.Safe k ∧ .unit u ∈ k.objects := by
    rw [← hk]
    unfold Platform.enter
    cases enable with
    | true =>
      exact ⟨h.attach hh hl (hs rfl) _, Operation.stays_lone (.attach p.contexts _ s.attachment) h.order h.mem hh hl
        (hu u (Platform.unit?_mem hfound))⟩
    | false =>
      exact ⟨h.detach hh hl _, Operation.stays_lone (.detach p.contexts _) h.order h.mem hh hl
        (hu u (Platform.unit?_mem hfound))⟩
  obtain ⟨hsafe, hunit⟩ := henter
  have hafter : (p.configure base s.attachment rid enable).after env m
      = (p.enter s.attachment rid enable >>= fun _ => u.invalidateContexts).after env m := by
    unfold Act.after
    rw [he]
  rw [hafter, Act.after_bind]
  unfold Act.after at hk
  cases hr : p.enter s.attachment rid enable env m with
  | error e n =>
    rw [hr] at hk
    obtain rfl : n = k := hk
    exact hsafe
  | ok _ n =>
    rw [hr] at hk
    obtain rfl : n = k := hk
    exact hsafe.call (.invalidate u .global 0) hunit nofun nofun hh hl

end

theorem client {client : σ} (h : t.Safe m) (hc : Registry.objects client = m.objects) :
    t.Safe { m with client } :=
  h.goes (S := ⟨∅, ∅, ∅⟩) (c := none) (.client h.order hc) nofun nofun

/-- every operation keeps all entries linked -/
theorem does (h : t.Safe m) (hd : t.Does Space.IsUp m n) : t.Safe n := by
  cases hd with
  | client _ hc => exact h.client hc
  | call op _ ho ht hd hh hl => exact h.call op ho ht hd hh hl
  | create c _ hh hl hrun hw hc =>
    have hj := Joint.create (S := ⟨∅, ∅, ∅⟩) c m hh (fun j => hl.joint _ j) hrun hw hc
    exact h.goes (hj.goes h.order) nofun nofun
  | fail c _ hh hl hrun =>
    exact h.goes ((Joint.fail (S := ⟨∅, ∅, ∅⟩) c m hh (fun j => hl.joint _ j) hrun).goes h.order) nofun nofun
  | drop o env _ ho ht hd hc =>
    have hj := Joint.drop (S := ⟨{o}, ∅, ∅⟩) o env m ho rfl nofun nofun hc
    exact h.goes (hj.goes h.order) (fun he => ht he.symm) fun s hs _ hlinked => absurd (hd s hs.symm) hlinked
  | configure p base s rid enable _ hp hu hs hh hl => exact h.configure hh hl hp hu hs

/-- so does every run -/
theorem run (h : t.Safe m) (hr : Relation.ReflTransGen (t.Does Space.IsUp) m n) : t.Safe n := by
  induction hr with
  | refl => exact h
  | tail _ hd ih => exact ih.does hd

end Safe

/-- new tables have no entries yet -/
theorem safe_create {cleaner : Cleaner} {client : σ} (hm : m.Orderly m.objects) (hh : env.Honest)
    (hl : Lone fun j => (env.supply j).1) (hc : ContextTables.create cleaner env m = .ok t n)
    (hobj : Registry.objects client = insert (.contexts t) n.objects) : t.Safe { n with client } := by
  have hrun : (Creation.contexts cleaner).run env m = (some (.contexts t), n) := by
    unfold Creation.run Creation.made
    simp only [hc]
  have hj := Joint.create (S := ⟨∅, ∅, ∅⟩) _ m hh (fun j => hl.joint _ j) hrun (Set.empty_subset _) hobj
  obtain ⟨root, rfl, htook⟩ := Act.took_of_ok (f := fun root => ContextTables.mk root cleaner) hl.alone hh hc
  refine ⟨(hj.goes hm).order, ?_, fun r hr => ?_⟩
  · show _ ∈ Registry.objects client
    rw [hobj]
    exact .inl rfl
  · have hzero : entries ⟨root, cleaner⟩ n.memory r = ⟨0, 0⟩ := by
      refine entries_of_none (table?_blank ?_)
      rw [htook.memory, if_pos (TableEntry.frame_address htook.page r.bus_lt)]
    have hr : isPresentEntry (entries ⟨root, cleaner⟩ n.memory r).lo = true := hr
    rw [hzero] at hr
    cases hr

/-- In every run over new tables, of any spaces, requesters and units, where devices are attached to spaces that
are up only, and no space ends while an entry points to it, each present entry points to a space that is up. -/
theorem linked {m₀ : Machine σ} {cleaner : Cleaner} {client : σ} (h₀ : m₀.objects = ∅)
    (hV : ∀ i ∈ Registry.reserved σ, i ∈ m₀.live) (hr : Joint ⟨Set.univ, ∅, ∅⟩ none m₀ m) (hh : env.Honest)
    (hl : Lone fun j => (env.supply j).1) (hc : ContextTables.create cleaner env m = .ok t k)
    (hobj : Registry.objects client = insert (.contexts t) k.objects)
    (hn : Relation.ReflTransGen (t.Does Space.IsUp) { k with client } n) : t.Linked n := by
  have hm : m.Orderly m.objects := by
    refine (hr.goes ?_).order
    rw [h₀]
    exact .empty hV
  exact ((safe_create hm hh hl hc hobj).run hn).linked

end ContextTables

/-! ## platforms among objects -/

namespace Platform
variable {p : Platform} {caps : Nat → Capabilities} {N : Nat} {m n : Machine σ} {env : Env σ}
  {P : Space → Machine σ → Prop}

/-- a platform that came up, with its tables and units among other objects -/
structure Among (p : Platform) (caps : Nat → Capabilities) (N : Nat) (m : Machine σ) : Prop where
  order : m.Orderly m.objects
  contexts : .contexts p.contexts ∈ m.objects
  units : ∀ u ∈ p.units, .unit u ∈ m.objects
  served : p.Served caps N m

namespace Among

theorem running (h : p.Among caps N m) : p.Running caps N m := by
  refine ⟨⟨h.order.sound _ h.contexts, h.order.live _ h.contexts, fun u hu i hi => ?_, h.served.separate⟩,
    h.served.units⟩
  exact ⟨h.order.live _ (h.units u hu) i hi,
    Set.disjoint_left.mp (h.order.apart (h.units u hu) h.contexts nofun) hi⟩

/-- what is done to other objects, while no unit takes part -/
theorem goes {S : Terms} {c : Option (Turn σ)} (h : p.Among caps N m) (hg : Goes S c m n) (hq : m.Quiet n)
    (ht : .contexts p.contexts ∉ S.acts) (hu : ∀ u ∈ p.units, .unit u ∉ S.acts) : p.Among caps N n :=
  ⟨hg.order, (hg.kept h.order h.contexts ht).1, fun u hin => (hg.kept h.order (h.units u hin) (hu u hin)).1,
    h.served.quiet hq⟩

/-- a new space is up, on a page that was free, and nothing else changes -/
theorem create_space {s : Space} {kind : Regime} {cleaner : Option Cleaner} {tag : RegimeTag} {client : σ}
    (h : p.Among caps N m) (hh : env.Honest) (hl : Lone fun j => (env.supply j).1)
    (hc : Space.create kind cleaner tag env m = .ok s n) (hobj : Registry.objects client = insert (.space s) n.objects) :
    p.contexts.Does P m { n with client } ∧ p.Among caps N { n with client } ∧ s.IsUp { n with client } ∧
      p.contexts.entries n.memory = p.contexts.entries m.memory ∧ s.tree.root.IsPage ∧ s.tree.root.frame ∉ m.live := by
  have hrun : (Creation.space kind cleaner tag).run env m = (some (.space s), n) := by
    unfold Creation.run Creation.made
    simp only [hc]
  have hg := (Joint.create (S := ⟨∅, ∅, ∅⟩) _ m hh (fun j => hl.joint _ j) hrun (Set.empty_subset _) hobj).goes h.order
  have haloof := (Machine.Aloof.permits .trans id).createSpace kind cleaner tag hl.aloof m
  rw [Act.after_of_ok hc] at haloof
  have hquiet : m.Quiet { n with client } :=
    (haloof.trans (n := { n with client }) (.of_eq rfl rfl rfl rfl)).quiet
  obtain ⟨own, ho⟩ := Space.owns_create hh hc
  have hmem : .space s ∈ ({ n with client } : Machine σ).objects := by
    show _ ∈ Registry.objects client
    rw [hobj]
    exact .inl rfl
  refine ⟨.create _ m hh hl hrun (Set.empty_subset _) hobj, h.goes hg hquiet nofun fun _ _ => nofun,
    ⟨hmem, congrArg SpaceState.phase (Space.create_ok hc).2.2.1⟩, hg.entries h.order h.contexts nofun,
    (ho.page ho.root).1, fun hin => ho.apart ho.root ?_⟩
  obtain ⟨client', -, hs⟩ := hl m
  rw [show (env.supply m).1 = _ from hs]
  exact hin

section
variable {base : Word} {s : Space} {rid : Nat} {u : Remapper} (h : p.Among caps N m) (hh : env.Honest)
  (hl : Lone fun j => (env.supply j).1) (h2 : 2 ≤ env.patience) (hN : N ≤ env.patience) (hu : p.unit? base = some u)
  (hrid : rid < 0x10000) (hlevels : u.supportsLevels s.attachment.levels = true)
  (hroom : p.contexts.table? m.memory (RequesterId.bus rid.toUInt16) = none → (env.supply m).2 ≠ none)
include h hh hl h2 hN hu hrid hlevels hroom

/-- a device is attached if its unit walks such tables and there is a page, whatever became of the space -/
theorem attach : ∃ n, p.configure base s.attachment rid true env m = .ok () n ∧
    p.contexts.entries n.memory = Function.update (p.contexts.entries m.memory) rid.toUInt16 s.attachment.words ∧
    (∀ i ∈ n.live, i ∉ m.live → i ∈ p.contexts.frames n.memory ∧ ∀ j ∈ n.live, j ∉ m.live → j = i) ∧
    Joint ⟨{.contexts p.contexts, .unit u}, Set.univ, ∅⟩ none m n ∧ p.Among caps N n := by
  have hrunning := h.running
  obtain ⟨k, hk, hassigns⟩ := hrunning.enter s.attachment rid true hl.alone hh (Bool.eq_false_iff.mpr fun hnone => by
    obtain ⟨htable, hs⟩ := Bool.and_eq_true_iff.mp hnone
    exact hroom (Option.isNone_iff_eq_none.mp htable) (Option.isNone_iff_eq_none.mp hs))
  have hrunning' := hrunning.assigns hassigns
  obtain ⟨cell, hc, hready⟩ := hrunning'.units u (unit?_mem hu)
  obtain ⟨n, rs, hn, hd, hreadyn, -⟩ := hready.invalidate h2 .global 0 hN
  obtain ⟨hlaid, hsame⟩ := hrunning'.toLaid.driven (unit?_mem hu) hd
  have hframes := (hrunning'.sound.of_root fun a ha => hsame a (ha ▸ ContextTables.root_mem)).2
  have hserved := (hrunning'.driven (unit?_mem hu) hreadyn hc hd).served
  -- the two operations that the call is made of
  have henter : Joint ⟨{.contexts p.contexts, .unit u}, Set.univ, ∅⟩
      (some ((Operation.attach p.contexts rid.toUInt16 s.attachment).turn env)) m k := by
    have hj := Joint.call (S := ⟨{.contexts p.contexts, .unit u}, Set.univ, ∅⟩)
      (.attach p.contexts rid.toUInt16 s.attachment) m h.contexts (.inl rfl) (fun _ => id) hh fun j => hl.joint _ j
    rwa [show (Operation.attach p.contexts rid.toUInt16 s.attachment).after env m = k from Act.after_of_ok hk] at hj
  have hkept : ∀ b ∈ m.objects, b ∈ k.objects := fun b hb =>
    ((henter.goes h.order).guards b hb).stays (.inr (.inl trivial))
  have hinvalidate : Joint ⟨{.contexts p.contexts, .unit u}, Set.univ, ∅⟩
      (some ((Operation.invalidate u .global 0).turn env)) k n := by
    have hj := Joint.call (S := ⟨{.contexts p.contexts, .unit u}, Set.univ, ∅⟩) (.invalidate u .global 0) k
      (hkept _ (h.units u (unit?_mem hu))) (.inr rfl) (fun _ => id) hh fun j => hl.joint _ j
    rwa [show (Operation.invalidate u .global 0).after env k = n from Act.after_of_ok hn] at hj
  have hjoint := henter.turn.trans hinvalidate.turn
  have hgoes := hjoint.goes h.order
  have hstays : ∀ b ∈ m.objects, b ∈ n.objects := fun b hb => (hgoes.guards b hb).stays (.inr (.inl trivial))
  refine ⟨n, ?_, ?_, fun i hi => ?_, hjoint,
    ⟨hgoes.order, hstays _ h.contexts, fun v hv => hstays _ (h.units v hv), hserved⟩⟩
  · rw [configure_enter hu hrid hlevels, Act.bind_apply, hk]
    exact hn
  · rw [← show _ = Function.update (p.contexts.entries m.memory) rid.toUInt16 s.attachment.words from hassigns.entries]
    exact funext fun r => congrArg (Option.getD · _) (hrunning'.sound.entry?_congr hsame r)
  · rw [hd.live] at hi ⊢
    rw [hframes]
    exact hassigns.taken i hi

/-- an entry can be made to point to tables that were freed -/
theorem attach_freed (hpage : s.tree.root.IsPage) (hfree : s.tree.root.frame ∉ m.live) : ∃ n,
    p.configure base s.attachment rid true env m = .ok () n ∧
      (p.contexts.entries n.memory rid.toUInt16).PointsTo s ∧ ¬ p.contexts.Linked n := by
  obtain ⟨n, hn, hentries, htaken, -, hamong⟩ := h.attach hh hl h2 hN hu hrid hlevels hroom
  have hentry : p.contexts.entries n.memory rid.toUInt16 = s.attachment.words := by
    rw [hentries]
    exact Function.update_self ..
  have hp := s.pointsTo_attachment
  rw [← hentry] at hp
  refine ⟨n, hn, hp, fun hlinked => ?_⟩
  obtain ⟨s', hup, hp'⟩ := hlinked rid.toUInt16 (by rw [hentry]; exact ContextTables.isPresentEntry_present _)
  -- the tables of a space that is up are in use, and no context table is among them
  have hin := hup.holds hamong.order hp' hp hpage
  exact Set.disjoint_left.mp (hamong.order.apart hup.mem hamong.contexts nofun) hin
    (htaken _ (hamong.order.live _ hup.mem _ hin) hfree).1

end

end Among

/-! ## one platform -/

theorem fourPages_lone : Lone fun j : Machine σ => ((fourPages : Env σ).supply j).1 := fun j => ⟨j.client, rfl, rfl⟩

/-- a machine with two new units, where there are no objects yet -/
def bareMachine : Machine (Set Object) := { client := ∅, devices := (Remapper.unitPair {}).devices }

/-- a unit is created and started -/
theorem exists_unit {t : ContextTables} {m : Machine (Set Object)} {l : Nat} (h : t.Safe m)
    (hnew : (m.devices.get 0).New {} 0) (hfew : m.Few l) : ∃ (u : Remapper) (n : Machine (Set Object)),
      (∀ P, Relation.ReflTransGen (t.Does P) m n) ∧ .unit u ∈ n.objects ∧ u.Ready 0 {} 0 n ∧
        u.Describes 0xfed90000 0 false .platform {} ∧ n.Few (l + 1) := by
  obtain ⟨u, j, hu⟩ := Remapper.create_ok 0xfed90000 false .platform fourPages hnew.free
    (by rw [hnew.caps]; decide) fun hq => by
      rw [Bool.false_and] at hq
      cases hq
  obtain ⟨hdesc, hadd, hqueue⟩ := Remapper.of_create fourPages_alone fourPages_honest hnew.free hu
  rw [hnew.caps] at hdesc
  obtain ⟨k, hk⟩ : ∃ k, ({ j with client := insert (.unit u) j.objects } : Machine (Set Object)) = k := ⟨_, rfl⟩
  have hrun : (Creation.unit 0xfed90000 (.device 0) false .platform).run fourPages m = (some (.unit u), j) := by
    unfold Creation.run Creation.made
    simp only [hu]
  have hwindow : (Object.unit u).window ⊆ Registry.reserved (Set Object) := by
    show u.registers.window ⊆ ∅
    rw [hdesc.registers]
    exact Set.empty_subset _
  have hadded : ∀ P, t.Does P m k := fun P => hk ▸ .create _ m fourPages_honest fourPages_lone hrun hwindow rfl
  have hmem : .unit u ∈ k.objects := hk ▸ .inl rfl
  have hstart : u.Startable 0 {} 0 k := (hdesc.startable hadd hqueue hnew).untouched (hk ▸ ⟨rfl, fun _ _ => rfl⟩)
  have hpatience : 2 ≤ (fourPages : Env (Set Object)).patience := Nat.le_refl 2
  obtain ⟨n, rs, hn, hd, hready, -⟩ := hstart.start hpatience (Nat.zero_le _) (fun _ => hstart.settles
    ⟨by decide, by decide⟩ fun i hi => by
      rw [Remapper.disjoint_default.faults _ (by decide)] at hi
      cases hi) t.root none none
  have hafter : (Operation.start u t.root none none).after fourPages k = n := Act.after_of_ok hn
  have hstarted : ∀ P, t.Does P k n := fun P =>
    hafter ▸ .call (.start u t.root none none) k hmem nofun nofun fourPages_honest fourPages_lone
  refine ⟨u, n, fun P => .tail (.single (hadded P)) (hstarted P), ?_, hready, hdesc, ?_⟩
  · rw [← hafter]
    exact Operation.stays_lone (.start u t.root none none) (h.does (hadded _)).order hmem fourPages_honest
      fourPages_lone hmem
  · have hfew' : j.Few (l + 1) := hadd.few hfew
    unfold Machine.Few
    rw [hd.live, ← hk]
    exact hfew'

/-- tables are created, and a unit that walks them -/
theorem exists_among : ∃ (p : Platform) (u : Remapper) (k m : Machine (Set Object)),
    ContextTables.create .platform fourPages bareMachine = .ok p.contexts k ∧
      (∀ P, Relation.ReflTransGen (p.contexts.Does P) { k with client := insert (.contexts p.contexts) k.objects } m) ∧
      p.contexts.Safe m ∧ p.Among (fun _ => {}) 0 m ∧ p.unit? 0xfed90000 = some u ∧ u.supportsLevels 4 = true ∧
      m.Few 2 := by
  have hfew : bareMachine.Few 0 := ⟨[], Nat.le_refl 0, fun _ hi => absurd hi Std.HashSet.not_mem_empty⟩
  obtain ⟨root, k, hk, htook, hfew⟩ := exists_took (e := RemapError.insufficientMemory) .platform
    (ContextTables.mk · .platform) hfew (by decide)
  obtain ⟨t, ht⟩ : ∃ t : ContextTables, ⟨root, .platform⟩ = t := ⟨_, rfl⟩
  have hcreate : ContextTables.create .platform fourPages bareMachine = .ok t k := ht ▸ hk
  have horder : bareMachine.Orderly bareMachine.objects := .empty nofun
  have hsafe := ContextTables.safe_create horder fourPages_honest fourPages_lone hcreate
    (rfl : Registry.objects (insert (.contexts t) k.objects) = _)
  have hnew : (k.devices.get 0).New {} 0 := by
    rw [htook.devices]
    exact Remapper.unitPair_new Remapper.disjoint_default.apart 0 0 (by decide)
  obtain ⟨u, m, hruns, hunit, hready, hdesc, hfew⟩ := exists_unit hsafe hnew hfew
  have hsafe := hsafe.run (hruns _)
  obtain ⟨p, hp⟩ : ∃ p : Platform, ⟨⟨false, false, none⟩, .platform, t, ⟨t.root, .platform⟩, [u], false⟩ = p := ⟨_, rfl⟩
  obtain rfl : p.contexts = t := hp ▸ rfl
  have hunits : p.units = [u] := hp ▸ rfl
  refine ⟨p, u, k, m, hcreate, hruns, hsafe, ⟨hsafe.order, hsafe.mem, ?_, ?_, ?_⟩,
    hdesc.base ▸ unit?_singleton hunits, hdesc.supportsLevels.trans (by decide), hfew⟩
  · rw [hunits]
    exact fun v hv => List.mem_singleton.mp hv ▸ hunit
  · rw [hunits]
    exact List.pairwise_singleton ..
  · rw [hunits]
    exact fun v hv => List.mem_singleton.mp hv ▸ ⟨0, Remapper.disjoint_default, hready⟩

/-- and a space -/
theorem exists_space {p : Platform} {caps : Nat → Capabilities} {N l : Nat} {m : Machine (Set Object)}
    (h : p.Among caps N m) (hfew : m.Few l) (hl : l ≤ 3) : ∃ (s : Space) (j n : Machine (Set Object)),
      Space.create .eptp none ⟨7⟩ fourPages m = .ok s j ∧
        { j with client := insert (.space s) j.objects } = n ∧ (∀ P, p.contexts.Does P m n) ∧ p.Among caps N n ∧
        s.IsUp n ∧ p.contexts.entries n.memory = p.contexts.entries m.memory ∧ s.tree.root.IsPage ∧
        s.tree.root.frame ∉ m.live ∧ s.attachment.levels = 4 ∧ n.Few (l + 1) := by
  obtain ⟨taken, hlen, htaken⟩ := hfew
  obtain ⟨q, hq⟩ := fourPages_room (m := m) ⟨taken, Nat.le_trans hlen hl, htaken⟩
  obtain ⟨s, j, hc, -⟩ := Space.create_offered hq .eptp none ⟨7⟩
  have hcreated : ∀ P, _ := fun P => h.create_space (P := P) fourPages_honest fourPages_lone hc
    (rfl : Registry.objects (insert (.space s) j.objects) = _)
  obtain ⟨-, hamong, hup, hentries, hpage, hfree⟩ := hcreated fun _ _ => True
  obtain ⟨_, _, _, i, hi, _⟩ := Space.create_ok hc
  have hformat : s.tree.format = .extended := (Tree.create_fresh hi).1
  refine ⟨s, j, _, hc, rfl, fun P => (hcreated P).1, hamong, hup, hentries, hpage, hfree, ?_,
    q.frame :: taken, Nat.succ_le_succ hlen, fun i hi => ?_⟩
  · show s.tree.format.levels = 4
    rw [hformat]
    rfl
  · rcases Space.live_create hq hc hi with rfl | hi
    · exact List.mem_cons_self
    · exact List.mem_cons_of_mem _ (htaken i hi)

end Platform

namespace ContextTables
open Platform (fourPages fourPages_honest fourPages_lone bareMachine)

/-- a device is attached to a new space -/
theorem linked_attached : ∃ (p : Platform) (s : Space) (k m n : Machine (Set Object)),
    ContextTables.create .platform fourPages bareMachine = .ok p.contexts k ∧
      Relation.ReflTransGen (p.contexts.Does Space.IsUp)
        { k with client := insert (.contexts p.contexts) k.objects } n ∧
      p.configure 0xfed90000 s.attachment 0x310 true fourPages m = .ok () n ∧
      (p.contexts.entries n.memory 0x310).PointsTo s ∧ p.contexts.Linked n := by
  obtain ⟨p, u, k, m₁, hc, hruns, -, hamong, hunit, hlevels, hfew⟩ := Platform.exists_among
  obtain ⟨s, _, m, -, -, hdoes, hamong, hup, -, -, -, hfour, hfew⟩ := Platform.exists_space hamong hfew (by decide)
  obtain ⟨q, hq⟩ := Platform.fourPages_room hfew
  obtain ⟨n, hn, hentries, -⟩ := hamong.attach fourPages_honest fourPages_lone (Nat.le_refl 2) (Nat.zero_le 2) hunit
    (show 0x310 < 0x10000 by decide) (hfour ▸ hlevels) (fun _ => by rw [hq]; exact Option.some_ne_none q)
  have hconfigured : p.contexts.Does Space.IsUp m n := by
    have hd := Does.configure p 0xfed90000 s 0x310 true m rfl hamong.units (fun _ => hup)
      fourPages_honest fourPages_lone
    rwa [Act.after_of_ok hn] at hd
  have hrun := ((hruns _).tail (hdoes _)).tail hconfigured
  refine ⟨p, s, k, m, n, hc, hrun, hn, ?_, linked rfl nofun (.refl _) fourPages_honest fourPages_lone hc rfl hrun⟩
  rw [hentries, show (784 : Nat).toUInt16 = (0x310 : RequesterId) from rfl, Function.update_self]
  exact s.pointsTo_attachment

/-- a device is attached to a space that was destroyed, whose pages are free by then -/
theorem linked_only_active : ∃ (p : Platform) (s : Space) (k m n : Machine (Set Object)),
    ContextTables.create .platform fourPages bareMachine = .ok p.contexts k ∧
      Relation.ReflTransGen (p.contexts.Does fun s m => .space s ∈ m.objects)
        { k with client := insert (.contexts p.contexts) k.objects } n ∧
      p.configure 0xfed90000 s.attachment 0x310 true fourPages m = .ok () n ∧ (s.state m).phase = .destroyed ∧
      (p.contexts.entries n.memory 0x310).PointsTo s ∧ ¬ p.contexts.Linked n := by
  obtain ⟨p, u, k, m₁, hc, hruns, hsafe, hamong, hunit, hlevels, hfew⟩ := Platform.exists_among
  obtain ⟨s, j, m₂, hcreate, hj, hdoes, hamong₂, hup, hentries, hpage, hfree, hfour, hfew⟩ :=
    Platform.exists_space hamong hfew (by decide)
  -- no entry points to the space, and it is destroyed
  have hstate : s.state m₂ = {} := hj ▸ (Space.create_ok hcreate).2.2.1
  have htree : s.tree.state m₂ = {} := by
    obtain ⟨_, _, _, htree⟩ := Space.tables_create hcreate
    exact hj ▸ htree
  obtain ⟨flushed, m, hm, hphase, hlive⟩ := Space.destroy_unused hstate htree fourPages 1
  have hlone : Lone (id : Machine (Set Object) → Machine (Set Object)) := fun j => ⟨j.client, rfl, rfl⟩
  have hunlinked : s.Unlinked p.contexts m₂ := fun r hr =>
    hsafe.linked.unlinked hamong.order hpage hfree r (hentries ▸ hr)
  have hafter : (Operation.destroy s ⟨id, 1⟩).after fourPages m₂ = m := Act.after_of_ok hm
  have hdestroyed : ∀ P, p.contexts.Does P m₂ m := fun P => by
    rw [← hafter]
    refine .call (.destroy s ⟨id, 1⟩) m₂ hup.mem nofun (fun s' d he => ?_) fourPages_honest hlone
    obtain ⟨rfl, -⟩ := Operation.destroy.inj he
    exact hunlinked
  have hgoes := Operation.goes_lone (.destroy s ⟨id, 1⟩) hamong₂.order hup.mem fourPages_honest hlone
  rw [hafter] at hgoes
  have haloof := (Machine.Aloof.permits .trans id).destroy (s := s) (d := ⟨id, 1⟩) (fun j => hlone.aloof j)
    (fun _ _ => trivial) (fourPages : Env (Set Object)) m₂
  rw [Act.after_of_ok hm] at haloof
  have hamong := hamong₂.goes hgoes haloof.quiet nofun fun _ _ => nofun
  have hmem : .space s ∈ m.objects := (hgoes.guards _ hup.mem).stays (.inr (.inl trivial))
  -- the device is attached nevertheless
  obtain ⟨taken, hlen, htaken⟩ := hfew
  obtain ⟨q, hq⟩ := Platform.fourPages_room (m := m) ⟨taken, hlen, fun i hi => htaken i (hlive i hi).1⟩
  obtain ⟨n, hn, hp, hnot⟩ := hamong.attach_freed fourPages_honest fourPages_lone (Nat.le_refl 2) (Nat.zero_le 2) hunit
    (show 0x310 < 0x10000 by decide) (hfour ▸ hlevels) (fun _ => by rw [hq]; exact Option.some_ne_none q) hpage
    fun hin => (hlive _ hin).2 rfl
  have hconfigured : p.contexts.Does (fun s m => .space s ∈ m.objects) m n := by
    have hd := Does.configure (P := fun s m => .space s ∈ m.objects) p 0xfed90000 s 0x310 true m rfl hamong.units
      (fun _ => hmem) fourPages_honest fourPages_lone
    rwa [Act.after_of_ok hn] at hd
  exact ⟨p, s, k, m, n, hc, (((hruns _).tail (hdoes _)).tail (hdestroyed _)).tail hconfigured, hn, hphase, hp, hnot⟩

end ContextTables

end NestedPaging
