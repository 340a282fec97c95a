import NestedPaging.Proofs.Platform.Units
import NestedPaging.Proofs.Unit.Invariants

/-!
# Pages that are taken and given back

* `Machine.Spent ps m n`      from `m` to `n` the free pages `ps` were taken, each once, and none was given back;
* `Machine.Restored ps m n`   they were taken and given back, each once, and no other page changed hands;
* `Spent.restored`            so it is when all that was taken is given back;
* `Remapper.create_spends`    a new unit takes the page of its queue, and one that cannot be used takes none.
-/

namespace NestedPaging

open PhysAddr (IsPage)

variable {σ ε α : Type}

/-! ## pages that change hands -/

theorem takes_append (i : Nat) (es fs : List Event) : takes i (es ++ fs) = takes i es + takes i fs :=
  List.countP_append

theorem returns_append (i : Nat) (es fs : List Event) : returns i (es ++ fs) = returns i es + returns i fs :=
  List.countP_append

/-- does a page change hands? -/
def Event.Trades : Event → Prop
  | .allocated .. | .freed .. => True
  | _ => False

theorem Event.Plain.not_trades {e : Event} (h : e.Plain) : ¬ e.Trades := by
  cases e <;> simp_all [Event.Plain, Event.Trades]

theorem takes_eq_zero {es : List Event} (h : ∀ e ∈ es, ¬ e.Trades) (i : Nat) : takes i es = 0 :=
  List.countP_eq_zero.mpr fun e he => by
    have hn := h e he
    cases e <;> simp_all [Event.Trades]

theorem returns_eq_zero {es : List Event} (h : ∀ e ∈ es, ¬ e.Trades) (i : Nat) : returns i es = 0 :=
  List.countP_eq_zero.mpr fun e he => by
    have hn := h e he
    cases e <;> simp_all [Event.Trades]

namespace Machine

/-- from `m` to `n` the pages `ps`, which were free, were taken, each once, and none was given back -/
structure Spent (ps : List PhysAddr) (m n : Machine σ) : Prop where
  nodup : (ps.map Addr.frame).Nodup
  fresh : ∀ p ∈ ps, p.frame ∉ m.live
  live : ∀ i, i ∈ n.live ↔ i ∈ ps.map Addr.frame ∨ i ∈ m.live
  logs : ∃ es, m.Logs es n ∧ ∀ i, takes i es = (ps.map Addr.frame).count i ∧ returns i es = 0

/-- from `m` to `n` the pages `ps` were taken and given back, each once, and no other page changed hands -/
structure Restored (ps : List PhysAddr) (m n : Machine σ) : Prop where
  nodup : (ps.map Addr.frame).Nodup
  live : ∀ i, i ∈ n.live ↔ i ∈ m.live
  logs : ∃ es, m.Logs es n ∧
    ∀ i, takes i es = (ps.map Addr.frame).count i ∧ returns i es = (ps.map Addr.frame).count i

namespace Spent
variable {m k n : Machine σ} {ps qs : List PhysAddr}

/-- no page changes hands -/
theorem idle (hl : n.live = m.live) (he : ∃ es, m.Logs es n ∧ ∀ e ∈ es, ¬ e.Trades) : m.Spent [] n := by
  obtain ⟨es, hlogs, hes⟩ := he
  refine ⟨List.nodup_nil, nofun, fun i => ?_, es, hlogs, fun i => ⟨takes_eq_zero hes i, returns_eq_zero hes i⟩⟩
  rw [hl]
  exact ⟨.inr, fun hi => hi.resolve_left nofun⟩

theorem refl (m : Machine σ) : m.Spent [] m := idle rfl ⟨[], .refl rfl, nofun⟩

theorem client (m : Machine σ) (client : σ) : m.Spent [] { m with client } := idle rfl ⟨[], .refl rfl, nofun⟩

theorem noteAll (m : Machine σ) {es : List Event} (he : ∀ e ∈ es, e.Plain) : m.Spent [] (m.noteAll es) :=
  idle rfl ⟨es, m.logs_noteAll es, fun e hm => (he e hm).not_trades⟩

theorem note (m : Machine σ) {e : Event} (he : e.Plain) : m.Spent [] (m.note e) := by
  have hplain : ∀ e' ∈ [e], e'.Plain := fun e' he' => by
    rw [List.mem_singleton.mp he']
    exact he
  exact noteAll m hplain

theorem store (m : Machine σ) (a : PhysAddr) (w : Word) : m.Spent [] (m.store a w) := by
  refine idle rfl ⟨[.stored a w], .push rfl, fun e he => ?_⟩
  rw [List.mem_singleton.mp he]
  exact id

theorem accessed (h : m.Accessed n) : m.Spent [] n := by
  obtain ⟨es, he, hu⟩ := h.logs
  refine idle h.live ⟨es, he, fun e hm => ?_⟩
  have hunit := hu e hm
  cases e <;> simp_all [Event.OfUnits, Event.Trades]

theorem take {q : PhysAddr} (hf : m.isLive q = false) (w : Word) : m.Spent [q] (m.take q w) := by
  refine ⟨List.nodup_singleton _, fun p hp hin => ?_, fun i => ?_, [.allocated q w], .push rfl, fun i => ?_⟩
  · rw [List.mem_singleton.mp hp] at hin
    exact ne_of_isLive hf hin rfl
  · rw [List.map_singleton, List.mem_singleton]
    exact mem_live_take
  · simp [takes, returns, List.count_singleton]

theorem trans (h : m.Spent ps k) (h' : k.Spent qs n) : m.Spent (ps ++ qs) n := by
  obtain ⟨es, he, hes⟩ := h.logs
  obtain ⟨fs, hf, hfs⟩ := h'.logs
  refine ⟨?_, fun p hp => ?_, fun i => ?_, es ++ fs, he.trans hf, fun i => ⟨?_, ?_⟩⟩
  · rw [List.map_append]
    refine List.nodup_append'.mpr ⟨h.nodup, h'.nodup, fun i hi hi' => ?_⟩
    obtain ⟨q, hq, rfl⟩ := List.mem_map.mp hi'
    exact h'.fresh q hq ((h.live _).mpr (.inl hi))
  · rcases List.mem_append.mp hp with hp | hp
    · exact h.fresh p hp
    · exact fun hin => h'.fresh p hp ((h.live _).mpr (.inr hin))
  · rw [h'.live, h.live, List.map_append, List.mem_append]
    tauto
  · rw [takes_append, (hes i).1, (hfs i).1, List.map_append, List.count_append]
  · rw [returns_append, (hes i).2, (hfs i).2]

/-- the order in which they were taken does not matter -/
theorem perm (h : m.Spent ps n) (hp : ps.Perm qs) : m.Spent qs n := by
  have hf := hp.map Addr.frame
  obtain ⟨es, he, hes⟩ := h.logs
  refine ⟨hf.nodup_iff.mp h.nodup, fun p hin => h.fresh p (hp.mem_iff.mpr hin), fun i => ?_, es, he, fun i => ?_⟩
  · rw [h.live, hf.mem_iff]
  · rw [(hes i).1, hf.count_eq]
    exact ⟨rfl, (hes i).2⟩

/-- what was taken is given back -/
theorem restored (h : m.Spent ps k) : m.Restored ps (k.giveBackAll ps) := by
  obtain ⟨es, he, hes⟩ := h.logs
  have hfreed : k.Logs (ps.map .freed) (k.giveBackAll ps) := trace_giveBackAll k ps
  refine ⟨h.nodup, fun i => ?_, es ++ ps.map .freed, he.trans hfreed, fun i => ⟨?_, ?_⟩⟩
  · rw [mem_live_giveBackAll, h.live]
    constructor
    · rintro ⟨hi | hi, hout⟩
      · obtain ⟨p, hp, e⟩ := List.mem_map.mp hi
        exact absurd e (hout p hp)
      · exact hi
    · refine fun hi => ⟨.inr hi, fun p hp e => h.fresh p hp ?_⟩
      rw [e]
      exact hi
  · have hnone : takes i (ps.map .freed) = 0 := List.countP_eq_zero.mpr fun e he => by
      obtain ⟨p, -, rfl⟩ := List.mem_map.mp he
      simp
    rw [takes_append, (hes i).1, hnone, Nat.add_zero]
  · rw [returns_append, (hes i).2, Nat.zero_add]
    unfold returns List.count
    rw [List.countP_map, List.countP_map]
    rfl

/-- actions during which no page changes hands -/
theorem bind {β : Type} {x : Act σ ε α} {f : α → Act σ ε β} {env : Env σ} (hx : x.Keeps (Spent []) env)
    (hf : ∀ a, (f a).Keeps (Spent []) env) : (x >>= f).Keeps (Spent []) env :=
  Act.Keeps.bind (R := Spent []) (fun _ _ _ => trans) hx hf

theorem clean {env : Env σ} (c : Cleaner) (a : PhysAddr) (len : Nat) :
    (Act.clean c a len : Act σ ε Unit).Keeps (Spent []) env := by
  intro m
  rw [Act.after_of_ok (Act.clean_apply c a len env m)]
  exact noteAll m (c.plain_events a len m.memory)

end Spent

theorem Restored.perm {m n : Machine σ} {ps qs : List PhysAddr} (h : m.Restored ps n) (hp : ps.Perm qs) :
    m.Restored qs n := by
  have hf := hp.map Addr.frame
  obtain ⟨es, he, hes⟩ := h.logs
  refine ⟨hf.nodup_iff.mp h.nodup, h.live, es, he, fun i => ?_⟩
  rw [(hes i).1, (hes i).2, hf.count_eq]
  exact ⟨rfl, rfl⟩

end Machine

open Machine (Spent)

namespace TableEntry
variable {env : Env σ} (e : TableEntry) (w : EntryWords) (c : Cleaner)

theorem spends_set : (e.set w c : Act σ ε Unit).Keeps (Spent []) env :=
  Spent.bind (fun m => .store m _ _) fun _ => Spent.bind (fun m => .store m _ _) fun _ => Spent.clean c _ 16

theorem spends_replace : (e.replace w c : Act σ ε Unit).Keeps (Spent []) env := by
  refine Spent.bind (fun m => .refl m) fun old => ?_
  split
  · exact Spent.bind (fun m => .store m _ _) fun _ => Spent.bind (Spent.clean c _ 16) fun _ => e.spends_set w c
  · exact e.spends_set w c

theorem spends_clear : (e.clear c : Act σ ε Unit).Keeps (Spent []) env :=
  Spent.bind (fun m => .store m _ _) fun _ => Spent.bind (fun m => .store m _ _) fun _ => Spent.clean c _ 16

end TableEntry

/-! ## tables and units that are new -/

/-- from `m` to `n` pages in use stay as they are, and queues in order -/
structure Machine.Leaves (m n : Machine σ) : Prop where
  memory : ∀ a : PhysAddr, a.frame ∈ m.live → n.memory.read a = m.memory.read a
  units : ∀ u : Remapper, u.Sound m → u.Sound n

theorem Machine.Leaves.of_eq {m n : Machine σ} (hm : n.memory = m.memory) (hr : n.rings = m.rings) : m.Leaves n :=
  ⟨fun a _ => by rw [hm], fun _ hu => hu.of_rings hr⟩

/-- a page was taken and cleaned -/
theorem Machine.Took.leaves {m n : Machine σ} {p : PhysAddr} (h : m.Took p n) : m.Leaves n := by
  refine ⟨fun a hin => ?_, fun u hu => hu.of_rings h.rings⟩
  rw [h.memory, if_neg]
  exact fun e => h.fresh (e ▸ hin)

/-- a table is made of a page, if there is one -/
theorem Act.made_spends {env : Env σ} (ha : env.Alone) (hh : env.Honest) (e : ε) (c : Cleaner) (f : PhysAddr → α)
    (m : Machine σ) :
    (∃ n, (do let page ← Act.allocOr e 0
              Act.clean c page 4096
              pure (f page)) env m = .error (.failed e) n ∧ m.Spent [] n ∧ m.Leaves n) ∨
      ∃ p n, (do let page ← Act.allocOr e 0
                 Act.clean c page 4096
                 pure (f page)) env m = .ok (f p) n ∧ m.Spent [p] n ∧ m.Took p n := by
  obtain ⟨client, hclient⟩ := ha m
  cases hs : env.supply m with
  | mk k offer =>
    obtain rfl : k = { m with client } := by rw [← hclient, hs]
    cases offer with
    | none =>
      refine .inl ⟨_, ?_, (Spent.client m client).trans (.note _ (e := .exhausted) trivial), .of_eq rfl rfl⟩
      rw [Act.bind_apply, Act.allocOr_none hs]
    | some p =>
      obtain ⟨hp, hfree⟩ := hh m p (by rw [hs])
      rw [hs] at hfree
      refine .inr ⟨p, _, ?_, ((Spent.client m client).trans (.take hfree 0)).trans
        (.noteAll _ (c.plain_events _ _ _)), Act.took ha hh hs c⟩
      simp only [Act.bind_apply, Act.allocOr_some hs, Act.clean_apply, Act.pure_apply]

namespace Remapper

/-- the page of the queue -/
def page? (u : Remapper) : Option PhysAddr := u.queue.map (·.base)

/-- a page and a ring are taken for the queue of a unit -/
theorem leaves_ring {m : Machine σ} {client : σ} {p : PhysAddr}
    (hf : ({ m with client } : Machine σ).isLive p = false) :
    m.Leaves { ({ m with client } : Machine σ).take p 0 with rings := (m.rings.fresh {}).2 } := by
  refine ⟨fun a hin => ?_, fun u hu q hq => ⟨(hu q hq).1, ?_⟩⟩
  · exact (m.memory.read_fill p.frame 0 a).trans (if_neg fun e => Machine.ne_of_isLive hf hin e.symm)
  · show ((m.rings.fresh {}).2.get q.cell).tail < ringSlots
    rw [Cells.get_fresh]
    split
    · decide
    · exact (hu q hq).2

section
variable {env : Env σ} (ha : env.Alone) (hh : env.Honest)
include ha hh

/-- a unit takes the page of its queue, or none if it cannot be used -/
theorem create_spends (base : Word) (registers : RegisterFile) (queued : Bool) (cleaner : Cleaner) (m : Machine σ) :
    (∃ e n, create base registers queued cleaner env m = .error e n ∧ m.Spent [] n ∧ m.Leaves n) ∨
      ∃ u n, create base registers queued cleaner env m = .ok u n ∧ u.site = ⟨base, registers⟩ ∧
        m.Spent u.page?.toList n ∧ m.Leaves n ∧ u.Sound n := by
  have hleaves : ∀ {n : Machine σ}, m.Accessed n → m.Leaves n := fun h => .of_eq h.memory h.rings
  rcases Creation.create_unit_cases base registers queued cleaner env m with
    ⟨e, n, hr, hn⟩ | ⟨capability, extended, j, hj, hr | hr⟩ <;> rw [hr]
  · exact .inl ⟨e, n, rfl, .accessed hn, hleaves hn⟩
  · exact .inr ⟨_, j, rfl, rfl, .accessed hj, hleaves hj, nofun⟩
  · obtain ⟨client, hclient⟩ := ha j
    cases hs : env.supply j with
    | mk i offer =>
      obtain rfl : i = { j with client } := by rw [← hclient, hs]
      cases offer with
      | none =>
        simp only [Act.bind_apply, Act.allocOr_none hs]
        exact .inl ⟨_, _, rfl, ((Spent.accessed hj).trans (.client j client)).trans
          (.note _ (e := .exhausted) trivial), .of_eq hj.memory hj.rings⟩
      | some p =>
        obtain ⟨hp, hfree⟩ := hh j p (by rw [hs])
        rw [hs] at hfree
        simp only [Act.bind_apply, Act.allocOr_some hs]
        refine .inr ⟨_, _, rfl, rfl, ?_, ?_, fun q hq => ?_⟩
        · have htake : j.Spent [p] (({ j with client } : Machine σ).take p 0) :=
            (Spent.client j client).trans (.take hfree 0)
          exact ((Spent.accessed hj).trans htake).trans (.idle rfl ⟨[], .refl rfl, nofun⟩)
        · have hring := leaves_ring hfree
          refine ⟨fun a hin => ?_, fun u hu => hring.units u ((hleaves hj).units u hu)⟩
          rw [← (hleaves hj).memory a hin]
          exact hring.memory a (hj.live ▸ hin)
        · cases hq
          refine ⟨hp, ?_⟩
          show ((j.rings.fresh {}).2.get j.rings.next).tail < ringSlots
          rw [Cells.get_fresh, if_pos rfl]
          decide

end

end Remapper

end NestedPaging
