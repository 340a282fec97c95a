import NestedPaging.Proofs.Platform.Assignment
import NestedPaging.Proofs.Space.Runs

/-!
# Platforms at work

While a platform runs, devices are assigned, domains are invalidated, and any spaces are created, changed,
synced and destroyed. Whenever a page is asked for, and while a sync or a destruction waits for flushes,
others do the same.

* `Platform.Tended p N m n`   such a run;
* `Platform.Served`           what it takes to drive the units: they were brought up, and are apart;
* `Tended.upkeep`             every run keeps this, and lists only tables that it detaches;
* `Platform.Tells`            the calls that make a unit drop what it cached of a domain (`Served.tells`).
-/

namespace NestedPaging

variable {σ ε : Type}

/-! ## context tables -/

namespace ContextTables
variable {t : Tree} {env : Env σ} {R : Machine σ → Machine σ → Prop}

section
variable (h : t.Allows env R)
include h

theorem keeps_set (e : TableEntry) (w : EntryWords) (c : Cleaner) : (e.set w c : Act σ ε Unit).Keeps R env :=
  h.bind (h.store _ _) fun _ => h.bind (h.store _ _) fun _ => h.cleanWith c _ _

/-- what is done to the entry of a requester has to do with pages and memory only -/
theorem keeps_attach (tables : ContextTables) (r : RequesterId) (a : Attachment) :
    (tables.attach r a).Keeps R env := by
  refine h.bind (h.bind (h.view _) fun found => ?_) fun table => h.bind (h.view _) fun old => ?_
  · cases found with
    | some table => exact h.pure table
    | none =>
      refine h.bind (h.allocOr _ 0) fun page => h.bind (h.cleanWith _ _ _) fun _ =>
        h.bind (h.bind (fun m => ?_) fun found => ?_) fun found => ?_
      · rw [Act.after_of_ok (Act.publish_apply env m _ 0 _)]
        split
        · exact h.works (.store m _ _)
        · exact h.works (.refl m)
      · split
        · exact h.bind (h.cleanWith _ _ _) fun _ => h.pure found
        · exact h.pure found
      · split
        · exact h.pure page
        · exact h.bind (fun m => h.works (.giveBack m page)) fun _ => h.pure _
  · split
    · exact h.bind (h.store _ 0) fun _ => h.bind (h.cleanWith _ _ _) fun _ => keeps_set h _ _ _
    · exact keeps_set h _ _ _

theorem keeps_detach (tables : ContextTables) (r : RequesterId) : (tables.detach r : Act σ ε Unit).Keeps R env := by
  refine h.bind (h.view _) fun found => ?_
  cases found with
  | some table => exact h.bind (h.store _ 0) fun _ => h.bind (h.store _ 0) fun _ => h.cleanWith _ _ _
  | none => exact h.pure ()

end

end ContextTables

/-! ## units that can be driven -/

/-- an invalidation of cached mappings that covers `domain` -/
def Invalidation.Covers (i : Invalidation) (domain : UInt16) : Prop :=
  i.kind = Descriptor.iotlbKind ∧ (i.scope = Scope.global.code ∨ i.scope = Scope.domain.code ∧ i.domain = domain)

/-- after event number `i` the unit behind `cell` acted on an invalidation of cached mappings of `domain` -/
def Machine.Heard (m : Machine σ) (cell : Nat) (domain : UInt16) (i : Nat) : Prop :=
  ∃ r v, Request.invalidation? r = some v ∧ v.Covers domain ∧ m.Since i (.acted cell r)

theorem Machine.Heard.logs {m n : Machine σ} {cell i : Nat} {domain : UInt16} {es : List Event}
    (h : m.Heard cell domain i) (hl : m.Logs es n) : n.Heard cell domain i := by
  obtain ⟨r, v, hr, hv, hs⟩ := h
  exact ⟨r, v, hr, hv, hl.since hs⟩

/-- nobody hears of anything while no unit takes part -/
theorem Machine.Quiet.unheard {m n : Machine σ} {cell i : Nat} {domain : UInt16} (h : m.Quiet n)
    (hi : m.trace.size ≤ i) : ¬ n.Heard cell domain i := by
  obtain ⟨es, hl, hes⟩ := h.logs
  rintro ⟨r, v, -, -, j, hj, he⟩
  cases hes _ (hl.mem_new (Nat.le_of_lt (Nat.lt_of_le_of_lt hi hj)) he)

namespace Machine.Driven
variable {u : Remapper} {cell : Nat} {rs : List Request} {m n : Machine σ}

theorem lists (h : m.Driven u cell rs n) : m.Lists n := by
  obtain ⟨es, hes, -⟩ := h.logs
  refine ⟨es, hes, fun i r hr => .inl ?_⟩
  have hkept : n.trees.get i = m.trees.get i := h.beside.kept (.tree i) fun ⟨_, _, he⟩ => by cases he
  exact hkept ▸ hr

/-- the unit acted on an invalidation that covers `domain` -/
theorem heard {s : Scope} {domain domain' : UInt16} (h : m.Driven u cell rs n)
    (hrs : rs.filterMap Request.invalidation? = s.invalidations domain')
    (hs : s = .global ∨ s = .domain ∧ domain' = domain) {i : Nat} (hi : i < m.trace.size) :
    n.Heard cell domain i := by
  obtain ⟨es, hes, -, hreq⟩ := h.logs
  have hmem : (⟨Descriptor.iotlbKind, s.code, domain'⟩ : Invalidation) ∈ rs.filterMap Request.invalidation? := by
    rw [hrs]
    exact List.mem_cons_of_mem _ List.mem_cons_self
  obtain ⟨r, hr, hv⟩ := List.mem_filterMap.mp hmem
  have hpair : (cell, r) ∈ es.filterMap Event.request? := by
    rw [hreq]
    exact List.mem_map_of_mem hr
  obtain ⟨e, he, hacted⟩ := List.mem_filterMap.mp hpair
  obtain rfl : e = .acted cell r := by
    cases e with
    | acted cell' r' =>
      obtain ⟨rfl, rfl⟩ := Prod.mk.inj (Option.some.inj hacted)
      rfl
    | _ => cases hacted
  refine ⟨r, _, hv, ⟨rfl, ?_⟩, hes.since_old he hi⟩
  rcases hs with rfl | ⟨rfl, rfl⟩
  · exact .inl rfl
  · exact .inr ⟨rfl, rfl⟩

end Machine.Driven

namespace Platform
variable {caps : Nat → Capabilities} {p : Platform} {u : Remapper} {N cell : Nat} {m k n : Machine σ} {env : Env σ}
  {base : Word} {a : Attachment} {rid : Nat} {enable : Bool} {domain : UInt16}

theorem keeps_enter {t : Tree} {R : Machine σ → Machine σ → Prop} (h : t.Allows env R) (p : Platform) (a : Attachment)
    (rid : Nat) (enable : Bool) : (p.enter a rid enable).Keeps R env := by
  unfold enter
  split
  · exact ContextTables.keeps_attach h p.contexts _ a
  · exact ContextTables.keeps_detach h p.contexts _

/-- what is done to an entry, and then to the unit, is all there is to an assignment -/
theorem keeps_configure {t : Tree} {R : Machine σ → Machine σ → Prop} (h : t.Allows env R) (p : Platform)
    (hdrop : ∀ u, p.unit? base = some u → u.invalidateContexts.Keeps R env) :
    (p.configure base a rid enable).Keeps R env := by
  intro m
  rcases p.configure_cases base a rid enable env m with ⟨e, -, he⟩ | ⟨u, hu, -, he⟩
  · rw [Act.after_of_error he]
    exact h.works (.refl m)
  · have hkeep := h.bind (keeps_enter h p a rid enable) fun _ => hdrop u hu
    unfold Act.after at *
    rw [he]
    exact hkeep m

namespace Served

section
variable (h2 : 2 ≤ env.patience) (hN : N ≤ env.patience)
include h2 hN

/-- a unit is made to drop what it cached -/
theorem invalidate (h : p.Served caps N m) (hu : u ∈ p.units) (s : Scope) (domain : UInt16) :
    ∃ n, u.invalidate s domain env m = .ok () n ∧ p.Served caps N n ∧ m.Lists n ∧
      ∀ cell, u.registers = .device cell → u.Reaches (caps cell) → ∀ domain',
        (s = .global ∨ s = .domain ∧ domain = domain') → ∀ i < m.trace.size, n.Heard cell domain' i := by
  obtain ⟨cell, hc, hready⟩ := h.units u hu
  obtain ⟨n, rs, hn, hd, hr, hheard⟩ := hready.invalidate h2 s domain hN
  refine ⟨n, hn, h.driven hu hr hc hd, hd.lists, fun cell' hcell hreach domain' hs i hi => ?_⟩
  obtain rfl : cell' = cell := RegisterFile.device.inj (hcell.symm.trans hready.registers)
  exact hd.heard ((hheard hreach).trans (u.heard_of_disjoint hc s domain)) hs hi

/-- all units are, one after the other -/
theorem invalidateAll {us : List Remapper} (h : p.Served caps N m) (hus : ∀ u ∈ us, u ∈ p.units) (domain : UInt16) :
    ∃ n, us.forM (fun u => u.invalidateDomain domain) env m = .ok () n ∧ p.Served caps N n ∧ m.Lists n ∧
      ∀ u ∈ us, ∀ cell, u.registers = .device cell → u.Reaches (caps cell) →
        ∀ i < m.trace.size, n.Heard cell domain i := by
  induction us generalizing m with
  | nil => exact ⟨m, rfl, h, .of_trees (.refl rfl) rfl, nofun⟩
  | cons u us ih =>
    obtain ⟨k, hk, hserved, hlists, hheard⟩ := h.invalidate h2 hN (hus u List.mem_cons_self) .domain domain
    obtain ⟨n, hn, hserved', hlists', hheard'⟩ := ih hserved fun v hv => hus v (List.mem_cons_of_mem u hv)
    have ⟨es, hes, _⟩ := hlists
    have ⟨fs, hfs, _⟩ := hlists'
    refine ⟨n, Act.forM_cons_ok hk hn, hserved', hlists.trans hlists', fun v hv cell hcell hreach i hi => ?_⟩
    rcases List.mem_cons.mp hv with rfl | hv
    · exact (hheard cell hcell hreach domain (.inr ⟨rfl, rfl⟩) i hi).logs hfs
    · exact hheard' v hv cell hcell hreach i (by rw [hes.size]; omega)

end

end Served

/-! ## runs -/

/-- the units stay ready, and only tables that are detached are put on lists -/
def Upkeep (p : Platform) (caps : Nat → Capabilities) (N : Nat) (m n : Machine σ) : Prop :=
  p.Served caps N m → p.Served caps N n ∧ m.Lists n

theorem Upkeep.trans (h : p.Upkeep caps N m k) (h' : p.Upkeep caps N k n) : p.Upkeep caps N m n := fun hm => by
  obtain ⟨hk, hl⟩ := h hm
  obtain ⟨hn, hl'⟩ := h' hk
  exact ⟨hn, hl.trans hl'⟩

theorem Upkeep.of_aloof (h : m.Aloof n) : p.Upkeep caps N m n := fun hm => ⟨hm.quiet h.quiet, h.lists⟩

theorem permits_upkeep (p : Platform) (caps : Nat → Capabilities) (N : Nat) :
    Permits (σ := σ) (fun _ _ => True) (p.Upkeep caps N) := Machine.Aloof.permits .trans .of_aloof

section
variable (h2 : 2 ≤ env.patience) (hN : N ≤ env.patience)
include h2 hN

theorem upkeep_configure (p : Platform) (hs : ∀ j, p.Upkeep caps N j (env.supply j).1) (base : Word) (a : Attachment)
    (rid : Nat) (enable : Bool) : (p.configure base a rid enable).Keeps (p.Upkeep caps N) env := by
  refine keeps_configure ((p.permits_upkeep caps N).allows ⟨0, .stage2, p.contexts.root, none⟩ hs) p fun u hu k hk => ?_
  obtain ⟨n, hn, hserved, hlists, -⟩ := hk.invalidate h2 hN (unit?_mem hu) .global 0
  have hn : u.invalidateContexts env k = .ok () n := hn
  rw [Act.after_of_ok hn]
  exact ⟨hserved, hlists⟩

theorem upkeep_invalidateDomain (p : Platform) (domain : UInt16) :
    (p.invalidateDomain domain).Keeps (p.Upkeep caps N) env := fun m hm => by
  obtain ⟨n, hn, hserved, hlists, -⟩ := hm.invalidateAll h2 hN (fun _ => id) domain
  have hn : p.invalidateDomain domain env m = .ok () n := hn
  rw [Act.after_of_ok hn]
  exact ⟨hserved, hlists⟩

end

/-- a platform is at work from `m` to `n` -/
inductive Tended (p : Platform) (N : Nat) : Machine σ → Machine σ → Prop
  | refl (m : Machine σ) : Tended p N m m
  | trans {m k n : Machine σ} : Tended p N m k → Tended p N k n → Tended p N m n
  /-- whoever runs the machine takes a note -/
  | client (m : Machine σ) (client : σ) : Tended p N m { m with client }
  /-- a device is assigned, or the assignment fails -/
  | configure {env : Env σ} (base : Word) (a : Attachment) (rid : Nat) (enable : Bool) (m : Machine σ) :
      2 ≤ env.patience → N ≤ env.patience → (∀ j, Tended p N j (env.supply j).1) →
      Tended p N m ((p.configure base a rid enable).after env m)
  | invalidate {env : Env σ} (domain : UInt16) (m : Machine σ) : 2 ≤ env.patience → N ≤ env.patience →
      Tended p N m ((p.invalidateDomain domain).after env m)
  /-- an operation on a space or on a root, or the creation of one, however it ends -/
  | call {env : Env σ} (c : Call) (m : Machine σ) : (∀ j, Tended p N j (env.supply j).1) →
      Tended p N m (c.perform.after env m)
  | sync (s : Space) (d : Shootdown σ) (env : Env σ) (m : Machine σ) : (∀ j, Tended p N j (d.before j)) →
      Tended p N m ((s.sync d).after env m)
  | destroy (s : Space) (d : Shootdown σ) (env : Env σ) (m : Machine σ) : (∀ j, Tended p N j (d.before j)) →
      Tended p N m ((s.destroy d).after env m)

/-- whatever is done, the units stay ready -/
theorem Tended.upkeep (h : p.Tended N m n) (caps : Nat → Capabilities) : p.Upkeep caps N m n := by
  have hp := p.permits_upkeep (σ := σ) caps N
  induction h with
  | refl m => exact hp.refl m
  | trans _ _ ih ih' => exact ih.trans ih'
  | client m client => exact .of_aloof (.of_eq rfl rfl rfl rfl)
  | configure base a rid enable m h2 hN _ ih => exact p.upkeep_configure h2 hN ih base a rid enable m
  | invalidate domain m h2 hN => exact p.upkeep_invalidateDomain h2 hN domain m
  | call c m _ ih => exact hp.call c ih (fun _ _ _ => trivial) m
  | sync s d env m _ ih => exact hp.sync ih (fun _ _ => trivial) env m
  | destroy s d env m _ ih => exact hp.destroy ih (fun _ _ => trivial) env m

/-- so it is in a run on spaces alone, whose calls and surroundings are those of the platform -/
theorem Tended.of_run {S : Repertoire σ} (h : Run S m n) : p.Tended N m n := by
  induction h with
  | refl m => exact .refl m
  | trans _ _ ih ih' => exact .trans ih ih'
  | client m client => exact .client m client
  | @call c env m _ _ _ ih => exact .call c m ih
  | @sync s d env m _ _ ih => exact .sync s d env m ih
  | @destroy s d env m _ _ ih => exact .destroy s d env m ih

/-! ## calls that reach the caches of a unit -/

/-- a call from `m` to `n` that asks `u` to drop what it cached of `domain`: the invalidation of the domain, or
the assignment of any device behind `u` -/
inductive Tells (p : Platform) (N : Nat) (u : Remapper) (domain : UInt16) (env : Env σ) (m n : Machine σ) : Prop
  | invalidate : u ∈ p.units → p.invalidateDomain domain env m = .ok () n → Tells p N u domain env m n
  | configure {base : Word} {a : Attachment} {rid : Nat} {enable : Bool} : p.unit? base = some u →
      (∀ j, p.Tended N j (env.supply j).1) → p.configure base a rid enable env m = .ok () n →
      Tells p N u domain env m n

/-- the unit hears of it -/
theorem Served.tells (h : p.Served caps N m) (h2 : 2 ≤ env.patience) (hN : N ≤ env.patience)
    (ht : p.Tells N u domain env m n) (hr : u.registers = .device cell) (hreach : u.Reaches (caps cell)) :
    p.Served caps N n ∧ m.Lists n ∧ ∀ i < m.trace.size, n.Heard cell domain i := by
  cases ht with
  | invalidate hu hn =>
    obtain ⟨k, hk, hserved, hlists, hheard⟩ := h.invalidateAll h2 hN (fun _ => id) domain
    obtain rfl : k = n := by
      have hk : p.invalidateDomain domain env m = .ok () k := hk
      rw [hn] at hk
      injection hk with _ hk
      exact hk.symm
    exact ⟨hserved, hlists, hheard u hu cell hr hreach⟩
  | @configure base a rid enable hu hs hn =>
    rcases p.configure_cases base a rid enable env m with ⟨e, -, he⟩ | ⟨v, hv, -, he⟩
    · rw [hn] at he
      cases he
    obtain rfl : u = v := Option.some.inj (hu.symm.trans hv)
    rw [hn] at he
    obtain ⟨_, k, hk, hn⟩ := (Act.bind_eq_ok ..).mp he.symm
    have hallows := (p.permits_upkeep caps N).allows ⟨0, .stage2, p.contexts.root, none⟩ fun j => (hs j).upkeep caps
    have hupkeep := keeps_enter hallows p a rid enable m
    rw [Act.after_of_ok hk] at hupkeep
    obtain ⟨hserved, hlists⟩ := hupkeep h
    obtain ⟨j, hj, hserved', hlists', hheard⟩ := hserved.invalidate h2 hN (unit?_mem hu) .global 0
    obtain rfl : j = n := by
      have hj : u.invalidateContexts env k = .ok () j := hj
      rw [hn] at hj
      injection hj with _ hj
      exact hj.symm
    have ⟨es, hes, _⟩ := hlists
    exact ⟨hserved', hlists.trans hlists', fun i hi =>
      hheard cell hr hreach domain (.inl rfl) i (by rw [hes.size]; omega)⟩

end Platform

end NestedPaging
