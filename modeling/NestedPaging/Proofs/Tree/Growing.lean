import NestedPaging.Proofs.Tree.Calm

/-!
# How a tree grows

All that a walk does to a tree, when nobody interrupts it, is to attach fresh tables on the way of its
address, one below the other. `Tree.Grown` says so and counts them, so that what attaching one table
leaves alone is left alone by walks and updates.

* `Grown.quiet`, `Grown.adds`   growth is quiet, and takes a page for each table;
* `Calm.reach_grown`    a walk attaches at most one table for each level that it goes down, or fails when
                        no page is offered;
* `Calm.update_grown`   so does an update before it writes its entries;
* `Calm.update_room`    so that it ends well if there is room for these tables.
-/

namespace NestedPaging

variable {σ : Type}

/-- from `m` to `n` at most `d` pages are added to those in use -/
def Machine.Adds (d : Nat) (m n : Machine σ) : Prop :=
  ∃ taken : List Nat, taken.length ≤ d ∧ ∀ i ∈ n.live, i ∈ m.live ∨ i ∈ taken

theorem Machine.Adds.refl (d : Nat) (m : Machine σ) : m.Adds d m := ⟨[], Nat.zero_le d, fun _ => .inl⟩

theorem Machine.Adds.trans {d e : Nat} {m k n : Machine σ} (h : m.Adds d k) (h' : k.Adds e n) : m.Adds (d + e) n := by
  obtain ⟨taken, hlen, hin⟩ := h
  obtain ⟨taken', hlen', hin'⟩ := h'
  refine ⟨taken ++ taken', ?_, fun i hi => ?_⟩
  · rw [List.length_append]
    exact Nat.add_le_add hlen hlen'
  · rcases hin' i hi with hi | hi
    · exact (hin i hi).imp_right (List.mem_append_left _)
    · exact .inr (List.mem_append_right _ hi)

theorem Machine.Adds.le {d e : Nat} {m n : Machine σ} (h : m.Adds d n) (he : d ≤ e) : m.Adds e n := by
  obtain ⟨taken, hlen, hin⟩ := h
  exact ⟨taken, Nat.le_trans hlen he, hin⟩

/-- a page is offered as long as fewer than `d` pages were added to those that `m` has in use -/
def Env.Room (env : Env σ) (d : Nat) (m : Machine σ) : Prop :=
  ∀ e n, e < d → m.Adds e n → (env.supply n).2 ≠ none

theorem Env.Room.le {env : Env σ} {d e : Nat} {m : Machine σ} (h : env.Room d m) (he : e ≤ d) : env.Room e m :=
  fun i n hi hn => h i n (Nat.lt_of_lt_of_le hi he) hn

theorem Env.Room.after {env : Env σ} {d e : Nat} {m n : Machine σ} (h : env.Room (d + e) m) (hn : m.Adds d n) :
    env.Room e n :=
  fun i k hi hk => h (d + i) k (Nat.add_lt_add_left hi d) (hn.trans hk)

namespace Tree
variable {t : Tree} {others : Nat → Prop} {env : Env σ} {own own' own'' : Layout} {T T' T'' : Tables}
  {m n : Machine σ} {a : GuestAddr} {p : PhysAddr} {d e l : Nat}

/-- at most `d` fresh tables are attached on the way of `a` -/
inductive Grown (t : Tree) (a : GuestAddr) : Nat → Layout → Tables → Layout → Tables → Prop
  | refl (d : Nat) (own : Layout) (T : Tables) : Grown t a d own T own T
  | attach {d k : Nat} {own own' : Layout} {T T' T'' : Tables} {p q : PhysAddr} :
    ⟨p, k + 1⟩ ∈ t.path T.memory a →
    Owns.Attached t own p q k (a.block (k + 2)) (tableIndex a (k + 1)) T T' →
    Grown t a d (own.add q ⟨k, a.block (k + 2) * 512 + tableIndex a (k + 1)⟩) T' own' T'' →
    Grown t a (d + 1) own T own' T''

namespace Grown

theorem more (h : t.Grown a d own T own' T') (hd : d ≤ e) : t.Grown a e own T own' T' := by
  induction h generalizing e with
  | refl d own T => exact .refl e own T
  | attach hon hat _ ih =>
    obtain ⟨e, rfl⟩ := Nat.exists_eq_add_of_le' (Nat.le_trans (Nat.succ_le_succ (Nat.zero_le _)) hd)
    exact .attach hon hat (ih (Nat.le_of_succ_le_succ hd))

theorem trans (h : t.Grown a d own T own' T') (h' : t.Grown a e own' T' own'' T'') :
    t.Grown a (d + e) own T own'' T'' := by
  induction h with
  | refl d own T => exact h'.more (Nat.le_add_left ..)
  | @attach d k own own' T T' T'' p q hon hat _ ih =>
    rw [Nat.add_right_comm]
    exact .attach hon hat (ih h')

theorem quiet (h : t.Grown a d own T own' T') (ho : t.Owns others own T) : t.Quiet others own own' T T' := by
  induction h with
  | refl => exact .refl ho
  | attach _ hat _ ih => exact (ho.publish hat).trans (ih (Owns.owns_attached ho hat))

/-- each table takes a page -/
theorem inUse (h : t.Grown a d own T own' T') :
    ∃ taken : List Nat, taken.length ≤ d ∧ ∀ i, T'.inUse i → T.inUse i ∨ i ∈ taken := by
  induction h with
  | refl d => exact ⟨[], Nat.zero_le d, fun _ => .inl⟩
  | @attach d k own own' T T' T'' p q _ hat _ ih =>
    obtain ⟨taken, hlen, hin⟩ := ih
    refine ⟨q.frame :: taken, Nat.succ_le_succ hlen, fun i hi => ?_⟩
    rcases hin i hi with hi | hi
    · rcases (hat.inUse i).mp hi with hi | rfl
      · exact .inl hi
      · exact .inr List.mem_cons_self
    · exact .inr (List.mem_cons_of_mem _ hi)

theorem adds (h : t.Grown a d own (t.tables m) own' (t.tables n)) : m.Adds d n := h.inUse

end Grown

/-- after at most `d` tables were attached, no page was offered for another one -/
def Starved (t : Tree) (env : Env σ) (a : GuestAddr) (d : Nat) (own₀ : Layout) (T₀ : Tables) (own : Layout)
    (m : Machine σ) : Prop :=
  ∃ e k, e < d ∧ t.Grown a e own₀ T₀ own (t.tables k) ∧ (env.supply k).2 = none ∧ t.tables m = t.tables k

theorem Starved.after (h : t.Starved env a e own' T' own'' m) (hg : t.Grown a d own T own' T') :
    t.Starved env a (d + e) own T own'' m := by
  obtain ⟨i, k, hi, hk, hs, hm⟩ := h
  exact ⟨d + i, k, Nat.add_lt_add_left hi d, hg.trans hk, hs, hm⟩

section
variable (hh : env.Honest) (hc : t.Calm env) (h : t.Owns others own (t.tables m))
  (ha : t.format.inRange a = true)
include hh hc h ha

theorem Calm.child_grown (hp : t.Here (fun _ _ => False) a own m (l + 1) p) (gap : AtGap) :
    Yields env (t.Starved env a 1 own (t.tables m)) own
      (Rely.FoundChild t (fun own' n => t.Grown a 1 own (t.tables m) own' (t.tables n)) (fun _ _ => False) a gap l p)
      (t.child (.through p a (l + 1)) gap env m) := by
  have R : t.Rely others env a _ _ := Calm.rely hh hc own (t.tables m) a
  obtain ⟨raw, hraw⟩ : ∃ raw, m.memory.entry p (tableIndex a (l + 1)) = raw := ⟨_, rfl⟩
  by_cases htab : t.format.isTable raw (l + 1) = true
  · rw [Rely.child_of_table t env gap hraw htab]
    have hchild := R.here_child (.refl h) hp (by rw [hraw]; exact htab)
    rw [hraw] at hchild
    exact ⟨own, .refl own, .refl 1 own _, hchild⟩
  rw [Bool.not_eq_true] at htab
  by_cases hstop : gap = .stop ∧ raw = 0
  · obtain ⟨rfl, rfl⟩ := hstop
    rw [Rely.child_of_gap t env hraw]
    exact ⟨own, .refl own, .refl 1 own _, rfl, hp, hraw⟩
  have hgap : gap = .stop → raw ≠ 0 := fun hs h0 => hstop ⟨hs, h0⟩
  obtain ⟨k, offer, hs⟩ : ∃ k offer, env.supply m = (k, offer) := ⟨_, _, rfl⟩
  cases offer with
  | none =>
    rw [child_starved hp.place hraw htab h hgap hs]
    have htables : t.tables k = t.tables m := by
      have e := hc m
      rwa [hs] at e
    exact ⟨rfl, own, .refl own, 0, m, Nat.zero_lt_one, .refl 0 own _, by rw [hs], htables⟩
  | some q =>
    obtain ⟨n, hn, hat, _⟩ := hc.child_attached hp.place hraw htab hh h hgap hs
    have hgrown : t.Grown a 1 own (t.tables m) _ (t.tables n) := .attach (hp.path.resolve_right id) hat (.refl 0 _ _)
    have hquiet := hgrown.quiet h
    have hq : t.format.isTable (n.memory.entry p (tableIndex a (l + 1))) (l + 1) = true := by
      rw [show n.memory.entry p _ = _ from hat.here]
      exact t.format.isTable_tableWord hat.page l
    have hchild := R.here_child hquiet
      ⟨hquiet.grows _ _ hp.place, .inl (hquiet.path ha (hp.path.resolve_right id))⟩ hq
    rw [show n.memory.entry p _ = _ from hat.here, t.format.entryAddress_tableWord hat.page] at hchild
    rw [hn]
    exact ⟨_, hquiet.grows, hgrown, hchild⟩

theorem Calm.descend_grown (target : Nat) (gap : AtGap) {depth : Nat}
    (hp : t.Here (fun _ _ => False) a own m (target + depth) p) :
    Yields env (t.Starved env a depth own (t.tables m)) own
      (Rely.FoundSlot t (fun own' n => t.Grown a depth own (t.tables m) own' (t.tables n)) (fun _ _ => False) a gap target)
      (t.descend a target gap depth p env m) := by
  induction depth generalizing own m p with
  | zero => exact ⟨own, .refl own, .refl 0 own _, p, rfl, hp⟩
  | succ depth ih =>
    unfold descend
    refine ((hc.child_grown hh h ha hp gap).mono (fun own' n hn => ?_) fun _ _ _ => id).bind ?_
    · obtain ⟨e, k, he, hk⟩ := hn
      exact ⟨e, k, by omega, hk⟩
    rintro (_ | c) own' n ⟨hg, hfound⟩
    · exact ⟨own', .refl own', hg.more (by omega), hfound.1, target + depth + 1, p, by omega, hfound.2⟩
    · refine (ih (hg.quiet h).owns hfound).mono (fun own'' k hk => ?_) fun s own'' k hk => ?_
      · rw [Nat.add_comm]
        exact hk.after hg
      · refine ⟨?_, hk.2⟩
        rw [Nat.add_comm]
        exact hg.trans hk.1

theorem Calm.reach_grown {target : Nat} (ht : target ≤ t.format.rootLevel) (gap : AtGap) :
    Yields env (t.Starved env a (t.format.rootLevel - target) own (t.tables m)) own
      (Rely.FoundSlot t (fun own' n => t.Grown a (t.format.rootLevel - target) own (t.tables m) own' (t.tables n))
        (fun _ _ => False) a gap target) (t.reach a target gap env m) := by
  apply hc.descend_grown hh h ha target gap
  rw [Nat.add_sub_cancel' ht]
  refine ⟨?_, .inl (t.root_mem_path _ a)⟩
  rw [h.root, (t.format.inRange_iff_root a).mp ha]

end

section
variable (hh : env.Honest) (hc : t.Calm env) (h : t.Owns others own (t.tables m)) {p : Mapping} {order : Nat}
  (hr : t.format.refusal? p order = none)
include hh hc h hr

/-- an update that nobody interrupts grows the tree on the way to its entries, and then writes them -/
theorem Calm.update_grown (hd : t.format.rootLevel - p.leafLevel order t.format.topLeafLevel = d) :
    Yields env (t.Starved env p.gpa d own (t.tables m)) own
      (t.Updated (fun own' n => t.Grown p.gpa d own (t.tables m) own' (t.tables n)) (fun _ _ => False) p order)
      (t.update p order env m) := by
  subst hd
  have henter : t.tables (t.enterWalk m) = t.tables m := (alike_enterWalk m).tables
  have hreach := hc.reach_grown hh (henter ▸ h) (Format.accepts_of_refusal? hr).inRange
    (t.leafLevel_le_root p order) (if p.maps then .grow else .stop)
  rw [henter] at hreach
  refine update_yields hr ?_ hreach
  rintro own' k n hal ⟨e, i, he, hi, hs, hk⟩
  exact ⟨e, i, he, hi, hs, hal.tables.trans hk⟩

/-- it ends well if there is room for a table at each level between the root and its entries -/
theorem Calm.update_room (hroom : env.Room (t.format.rootLevel - p.leafLevel order t.format.topLeafLevel) m) :
    ∃ n own' k, t.update p order env m = .ok (p.coveredOrder t.format order) n ∧
      t.Quiet others own own' (t.tables m) (t.tables k) ∧ t.Lands (fun _ _ => False) p order own' k n ∧
      m.Adds (t.format.rootLevel - p.leafLevel order t.format.topLeafLevel) n := by
  have hy := hc.update_grown hh h hr rfl
  cases hrun : t.update p order env m with
  | ok covered n =>
    rw [hrun] at hy
    obtain ⟨own', _, hcov, k, hg, _, hl⟩ := hy
    obtain ⟨taken, hlen, hin⟩ := hg.adds
    refine ⟨n, own', k, by rw [hcov], hg.quiet h, hl, taken, hlen, fun i hi => hin i ?_⟩
    exact (congrFun hl.inUse i).mp hi
  | error e n =>
    rw [hrun] at hy
    match e, hy with
    | .failed _, ⟨_, own', _, i, k, hi, hg, hs, _⟩ => exact absurd hs (hroom i k hi hg.adds)
    | .stuck, ⟨hstuck, _⟩ => exact absurd hc.paced hstuck

/-- and leaves the rest of the room to those after it -/
theorem Calm.update_leaves_room (hd : t.format.rootLevel - p.leafLevel order t.format.topLeafLevel ≤ d)
    (hroom : env.Room (d + e) m) : ∃ n own', t.update p order env m = .ok (p.coveredOrder t.format order) n ∧
      t.Owns others own' (t.tables n) ∧ env.Room e n := by
  obtain ⟨n, own', k, hn, hq, hl, hadds⟩ := hc.update_room hh h hr (hroom.le (Nat.le_trans hd (Nat.le_add_right ..)))
  exact ⟨n, own', hn, hl.owns hq.owns (Format.accepts_of_refusal? hr), hroom.after (hadds.le hd)⟩

end

end Tree

end NestedPaging
