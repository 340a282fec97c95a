import NestedPaging.Proofs.Tree.Freeing
import NestedPaging.Proofs.Tree.Operations

/-!
# Histories of a tree

`Tree.Reachable` says which machines a tree can be found in: after its creation and any operations,
each among other processors that run operations of the same kind whenever a page is asked for
(`Tree.Peers`), and any number of reclaims. Every such tree owns its pages (`Reachable.owns`).
-/

namespace NestedPaging

open PhysAddr (IsPage)

variable {σ ε α : Type}

/-- the machine that an action leaves behind, however it ends -/
def Act.after (x : Act σ ε α) (env : Env σ) (m : Machine σ) : Machine σ :=
  match x env m with
  | .ok _ n => n
  | .error _ n => n

theorem Act.after_of_ok {x : Act σ ε α} {env : Env σ} {m n : Machine σ} {v : α}
    (h : x env m = .ok v n) : x.after env m = n := by
  unfold after
  rw [h]

theorem Act.after_of_error {x : Act σ ε α} {env : Env σ} {m n : Machine σ} {e : Stop ε}
    (h : x env m = .error e n) : x.after env m = n := by
  unfold after
  rw [h]

theorem Ends.after {x : Act σ TableError α} {env : Env σ} {m : Machine σ} {own : Layout}
    {J : Layout → Machine σ → Prop} (h : Ends env own J (fun _ => J) (x env m)) :
    ∃ own', own'.Extends own ∧ J own' (x.after env m) := by
  unfold Act.after
  cases hx : x env m with
  | ok v n =>
    rw [hx] at h
    exact h
  | error e n =>
    rw [hx] at h
    exact h.2

/-- an allocator with the pages `frames` that nobody else uses -/
def Env.offering (frames : List Nat) : Env σ where
  supply m := (m, (frames.find? fun n => !m.live.contains n).map PhysAddr.ofFrame)
  rank _ := 0
  patience := 0

theorem Env.offering_free {n : Nat} {frames : List Nat} {m : Machine σ} (h : n ∉ m.live) :
    (offering (n :: frames)).supply m = (m, some (.ofFrame n)) := by
  have hc : m.live.contains n = false := Bool.eq_false_iff.mpr h
  show (m, ((n :: frames).find? fun n => !m.live.contains n).map PhysAddr.ofFrame) = _
  rw [List.find?_cons_of_pos (by rw [hc]; rfl), Option.map_some]

theorem Env.offering_nil (m : Machine σ) : (offering [] : Env σ).supply m = (m, none) := rfl

theorem Env.offering_used {n : Nat} {frames : List Nat} {m : Machine σ} (h : n ∈ m.live) :
    (offering (n :: frames)).supply m = (offering frames).supply m := by
  have hc : m.live.contains n = true := h
  show (m, ((n :: frames).find? fun n => !m.live.contains n).map PhysAddr.ofFrame) = _
  rw [List.find?_cons_of_neg (by rw [hc]; exact Bool.false_ne_true)]
  rfl

theorem PhysAddr.toNat_ofFrame {n : Nat} (h : n < 2 ^ 36) : (ofFrame n).bits.toNat = n * 4096 :=
  UInt64.toNat_ofNat_of_lt' (by simp only [UInt64.size]; omega)

theorem PhysAddr.frame_ofFrame {n : Nat} (h : n < 2 ^ 36) : (ofFrame n).frame = n := by
  unfold Addr.frame
  rw [toNat_ofFrame h]
  omega

theorem PhysAddr.IsPage.ofFrame_frame {p : PhysAddr} (h : IsPage p) : .ofFrame p.frame = p :=
  Addr.ext_toNat ((toNat_ofFrame h.frame_lt).trans h.frame_mul)

theorem Env.honest_offering {frames : List Nat} (h : ∀ n ∈ frames, n < 2 ^ 36) :
    (offering frames : Env σ).Honest := by
  intro m q hq
  obtain ⟨n, hn, rfl⟩ := Option.map_eq_some_iff.mp hq
  have hlt := h n (List.mem_of_find?_eq_some hn)
  have hfree := List.find?_some hn
  refine ⟨⟨?_, ?_⟩, ?_⟩
  · rw [Addr.isPageAligned_iff, PhysAddr.toNat_ofFrame hlt]
    exact Nat.dvd_mul_left ..
  · rw [PhysAddr.toNat_ofFrame hlt]
    omega
  · unfold Machine.isLive
    rw [PhysAddr.frame_ofFrame hlt]
    exact Bool.not_eq_true' _ |>.mp hfree

namespace Tree

/-- what other processors may do to a tree while one of them waits for a page -/
inductive Peers (t : Tree) : Machine σ → Machine σ → Prop
  /-- something that does not concern the tree -/
  | elsewhere {m n : Machine σ} : t.tables n = t.tables m → Peers t m n
  | trans {m k n : Machine σ} : Peers t m k → Peers t k n → Peers t m n
  /-- an operation, with others at work whenever it asks for a page itself -/
  | op {m : Machine σ} (env : Env σ) (op : TreeOp) : env.Honest →
      (∀ k, Peers t k (env.supply k).1) → Peers t m ((t.perform op).after env m)

/-- the machines that a tree can be found in, where `others` are the pages that were in use before
the tree took its root -/
inductive Reachable (t : Tree) (others : Nat → Prop) : Machine σ → Prop
  | create {f : Format} {cleaner : Option Cleaner} {env : Env σ} {m n : Machine σ} :
      env.Honest → (∀ k, others k ↔ k ∈ (env.supply m).1.live) →
      Tree.create f cleaner env m = .ok t n → Reachable t others n
  /-- an operation, however it ends -/
  | op {m : Machine σ} (env : Env σ) (op : TreeOp) : env.Honest →
      (∀ k, t.Peers k (env.supply k).1) → Reachable t others m →
      Reachable t others ((t.perform op).after env m)
  | reclaim {env : Env σ} {m n : Machine σ} : Reachable t others m →
      (t.reclaim : Act σ TableError Unit) env m = .ok () n → Reachable t others n
  | elsewhere {m n : Machine σ} : Reachable t others m → t.tables n = t.tables m →
      Reachable t others n

variable {t : Tree} {others : Nat → Prop} {env : Env σ} {own : Layout} {m n : Machine σ}

/-- others leave the tree owning its pages, and it leaves theirs alone -/
def Kept (t : Tree) (others : Nat → Prop) (m n : Machine σ) : Prop :=
  ∀ own, t.Owns others own (t.tables m) → ∃ own', own'.Extends own ∧
    t.Owns others own' (t.tables n) ∧ n.splitExecute = m.splitExecute ∧
    (t.tables m).Spares others (t.tables n)

/-- the tree owns its pages, and the pages of others and the way that execution is told apart are
those of `T₀` -/
structure Kept.Holds (t : Tree) (others : Nat → Prop) (T₀ : Tables) (own : Layout) (m : Machine σ) :
    Prop where
  owns : t.Owns others own (t.tables m)
  split : m.splitExecute = T₀.split
  spares : T₀.Spares others (t.tables m)

theorem Kept.rely (hh : env.Honest) (hk : ∀ k, t.Kept others k (env.supply k).1) (T₀ : Tables)
    (a : GuestAddr) : t.Rely others env a (Kept.Holds t others T₀) fun _ _ => True where
  honest := hh
  owns h := h.owns
  quiet h _ hq hs :=
    ⟨⟨hq.owns, hq.split.trans h.split, h.spares.trans hs⟩, fun _ _ => trivial⟩
  supply {own m} h := by
    obtain ⟨own', hx, ho, hs, hp⟩ := hk m own h.owns
    exact ⟨own', hx, ⟨ho, hs.trans h.split, h.spares.trans hp⟩, hs, fun _ _ => trivial,
      fun _ _ => .inr trivial⟩
  lower _ := trivial

theorem Kept.steps (hh : env.Honest) (hk : ∀ k, t.Kept others k (env.supply k).1) (T₀ : Tables) :
    t.Steps env fun _ => Kept.Holds t others T₀ := by
  intro done p order own m hr hJ
  refine (Ends.of_yields ((Kept.rely hh hk T₀ p.gpa).update_yields hr hJ)).mono (fun _ _ h => h) ?_
  intro covered own' n h'
  obtain ⟨hc, k, hk', _, hl⟩ := h'
  have hacc := Format.accepts_of_refusal? hr
  exact ⟨hc, hl.owns hk'.owns hacc, hl.split.trans hk'.split,
    hk'.spares.trans (hl.spares hk'.owns hacc)⟩

theorem Kept.perform (hh : env.Honest) (hk : ∀ k, t.Kept others k (env.supply k).1) (op : TreeOp)
    (m : Machine σ) : t.Kept others m ((t.perform op).after env m) := by
  intro own ho
  have hp : t.Performed env (fun _ => Kept.Holds t others (t.tables m)) own op
      (t.perform op env m) := by
    refine (Kept.steps hh hk (t.tables m)).perform (fun h hal => ?_) (fun hl ha hJ => ?_)
      ⟨ho, rfl, .refl ..⟩ op
    · refine ⟨?_, (congrArg Tables.split hal.tables).trans h.split, ?_⟩
      · rw [hal.tables]
        exact h.owns
      · rw [hal.tables]
        exact h.spares
    · refine (Ends.of_yields ((Kept.rely hh hk (t.tables m) _).walk_yields hl ha hJ)).mono ?_ ?_
      · exact fun _ _ h => h
      · exact fun _ _ _ h => h.1
  obtain ⟨own', hx, h⟩ := Ends.after (hp.mono (fun _ _ ⟨_, _, h⟩ => h) fun _ _ _ h => h)
  exact ⟨own', hx, h.owns, h.split, h.spares⟩

theorem Peers.kept (h : t.Peers m n) : t.Kept others m n := by
  induction h with
  | elsewhere he =>
    intro own ho
    refine ⟨own, .refl own, he ▸ ho, congrArg Tables.split he, ?_⟩
    rw [he]
    exact .refl ..
  | trans _ _ ih ih' =>
    intro own ho
    obtain ⟨own', hx, ho', hs, hp⟩ := ih own ho
    obtain ⟨own'', hx', ho'', hs', hp'⟩ := ih' own' ho'
    exact ⟨own'', hx'.trans hx, ho'', hs'.trans hs, hp.trans hp'⟩
  | op env op hh _ ih => exact Kept.perform hh ih op _

/-! ## a new tree -/

/-- the root is taken and made visible, and the tree gets a cell of its own -/
theorem create_cleans {f : Format} {cleaner : Option Cleaner} (h : create f cleaner env m = .ok t n) :
    ∃ k j, env.supply m = (k, some t.root) ∧ t.format = f ∧ t.cleaner = cleaner ∧
      (t.clean t.root 4096 : Act σ TableError Unit) env (k.take t.root 0) = .ok () j ∧
      t.cell = j.trees.next ∧ n = { j with trees := (j.trees.fresh {}).2 } := by
  unfold create at h
  cases hs : env.supply m with
  | mk k offer =>
    cases offer with
    | none =>
      simp only [Act.bind_apply, Act.allocOr, Act.allocPage, hs, Act.fail_apply] at h
      cases h
    | some q =>
      simp only [Act.bind_apply, Act.allocOr, Act.allocPage, hs, Act.pure_apply] at h
      cases cleaner with
      | none =>
        injection h with ht hn
        subst ht
        exact ⟨k, k.take q 0, rfl, rfl, rfl, rfl, rfl, hn.symm⟩
      | some c =>
        obtain ⟨_, j, hj, h⟩ := (Act.bind_eq_ok ..).mp h
        injection h with ht hn
        subst ht
        exact ⟨k, j, rfl, rfl, rfl, hj, rfl, hn.symm⟩

theorem state_create {f : Format} {cleaner : Option Cleaner} (h : create f cleaner env m = .ok t n) :
    t.state n = {} := by
  obtain ⟨_, j, _, _, _, _, hcell, rfl⟩ := create_cleans h
  unfold state
  rw [hcell]
  exact (Cells.get_fresh ..).trans (if_pos rfl)

theorem create_ok {f : Format} {cleaner : Option Cleaner} (h : create f cleaner env m = .ok t n) :
    ∃ k, env.supply m = (k, some t.root) ∧ t.tables n = {
      memory := k.memory.fill t.root.frame 0
      inUse := fun i => i ∈ k.live.insert t.root.frame
      split := k.splitExecute
      retired := []
      released := false } := by
  have hstate := state_create h
  obtain ⟨k, j, hs, _, _, hj, _, rfl⟩ := create_cleans h
  -- cleaning the root changes nothing that concerns any tree
  obtain ⟨i, hi, hal⟩ := t.clean_ok (ε := TableError) t.root 4096 env (k.take t.root 0)
  obtain rfl : j = i := by
    rw [hi] at hj
    injection hj with _ e
    exact e.symm
  have hmem : j.memory = k.memory.fill t.root.frame 0 := congrArg Tables.memory hal.tables
  have huse : (fun i => i ∈ j.live) = fun i => i ∈ k.live.insert t.root.frame :=
    congrArg Tables.inUse hal.tables
  have hsplit : j.splitExecute = k.splitExecute := congrArg Tables.split hal.tables
  refine ⟨k, hs, ?_⟩
  show Tables.mk j.memory (fun i => i ∈ j.live) j.splitExecute
    (t.state _).retired.toList (t.state _).released = _
  rw [hstate, hmem, hsplit, huse]

/-- the layout of a tree that has no table but its root -/
def rootOnly (t : Tree) : Layout := fun p => if p = t.root then some ⟨t.format.rootLevel, 0⟩ else none

theorem rootOnly_root (t : Tree) : t.rootOnly t.root = some ⟨t.format.rootLevel, 0⟩ := if_pos rfl

theorem eq_of_rootOnly {p : PhysAddr} {r : Region} (h : t.rootOnly p = some r) :
    p = t.root ∧ r = ⟨t.format.rootLevel, 0⟩ := by
  unfold rootOnly at h
  split at h
  · rename_i e
    exact ⟨e, (Option.some.inj h).symm⟩
  · cases h

theorem Owns.rootOnly {T : Tables} {k : Memory} (hq : IsPage t.root) (hm : T.memory = k.fill t.root.frame 0)
    (hn : T.retired = []) (hd : T.released = false) (hu : ∀ i, T.inUse i ↔ others i ∨ i = t.root.frame)
    (hf : ¬ others t.root.frame) : t.Owns others t.rootOnly T := by
  have hzero : ∀ i, i < 512 → T.memory.entry t.root i = 0 := fun i hi => by
    rw [hm, entry_fill k 0 hq hq hi, if_pos rfl]
  exact {
    root := t.rootOnly_root
    page := fun hp => by
      obtain ⟨rfl, rfl⟩ := eq_of_rootOnly hp
      exact ⟨hq, Nat.le_refl _⟩
    inUse := fun n => by
      rw [hu]
      refine or_congr Iff.rfl ⟨?_, ?_⟩
      · rintro rfl
        exact ⟨t.root, _, t.rootOnly_root, rfl⟩
      · intro h'
        obtain ⟨p, r, hp, rfl⟩ := h'
        rw [(eq_of_rootOnly hp).1]
    apart := fun hp => by
      rw [(eq_of_rootOnly hp).1]
      exact hf
    entry := fun hp hi => by
      obtain ⟨rfl, rfl⟩ := eq_of_rootOnly hp
      rw [hzero _ hi]
      exact .bare .absent
    record := fun hr' => by
      rw [hn] at hr'
      cases hr'
    once := fun hp => by
      obtain ⟨rfl, rfl⟩ := eq_of_rootOnly hp
      refine ⟨.root, rfl, fun g hg => ?_⟩
      cases g with
      | root => rfl
      | entry c i =>
        obtain ⟨r, hc, hi, ht, _⟩ := hg
        obtain ⟨rfl, rfl⟩ := eq_of_rootOnly hc
        rw [hzero _ hi, t.format.isTable_zero] at ht
        exact absurd ht Bool.false_ne_true
      | record n =>
        obtain ⟨l, hl⟩ := hg
        rw [hn] at hl
        cases hl
    unreleased := hd }

/-- a new tree owns its root, and what was in use before belongs to others -/
theorem Owns.create {f : Format} {cleaner : Option Cleaner} (hh : env.Honest)
    (ho : ∀ i, others i ↔ i ∈ (env.supply m).1.live) (h : create f cleaner env m = .ok t n) :
    t.Owns others t.rootOnly (t.tables n) := by
  obtain ⟨k, hs, hT⟩ := create_ok h
  obtain ⟨hq, hf⟩ := hh m t.root (by rw [hs])
  rw [hs] at ho hf
  have hfree : ¬ others t.root.frame := fun hin => by
    have hl : k.isLive t.root = true := (ho _).mp hin
    rw [hf] at hl
    exact absurd hl Bool.false_ne_true
  rw [hT]
  refine .rootOnly hq rfl rfl rfl (fun i => ?_) hfree
  rw [ho]
  show i ∈ k.live.insert t.root.frame ↔ _
  rw [Std.HashSet.mem_insert, beq_iff_eq, or_comm, eq_comm (a := t.root.frame)]

theorem create_offered {k : Machine σ} {q : PhysAddr} (hs : env.supply m = (k, some q)) (f : Format)
    (cleaner : Option Cleaner) :
    ∃ t n, create f cleaner env m = .ok t n ∧ t.format = f ∧ t.root = q ∧ t.cleaner = cleaner := by
  unfold create
  obtain ⟨k', hrun, _⟩ := clean_ok (ε := TableError) ⟨0, f, q, cleaner⟩ q 4096 env (k.take q 0)
  unfold clean at hrun
  simp only [Act.bind_apply, Act.allocOr, Act.allocPage, hs, Act.pure_apply]
  cases cleaner with
  | none => exact ⟨_, _, rfl, rfl, rfl, rfl⟩
  | some c =>
    simp only at hrun
    refine ⟨⟨(k'.trees.fresh {}).1, f, q, some c⟩, { k' with trees := (k'.trees.fresh {}).2 },
      (Act.bind_apply (ε := TableError) env (k.take q 0) (Act.clean c q 4096) _).trans ?_, rfl, rfl, rfl⟩
    rw [hrun]

/-! ## every history -/

theorem Owns.reclaim (h : t.Owns others own (t.tables m))
    (hr : (t.reclaim : Act σ TableError Unit) env m = .ok () n) :
    t.Owns others (own.without (t.retiredPages (t.tables m))) (t.tables n) := by
  by_cases hd : t.Drained m
  · rw [t.reclaim_ok env hd] at hr
    injection hr with _ hn
    subst hn
    obtain ⟨hm, ht, hs, _⟩ :=
      (t.forgetRetired m).giveBackAll_same (t.retiredPages (t.tables m))
    have hT := t.tables_forgetRetired m
    have hstate : t.state ((t.forgetRetired m).giveBackAll (t.retiredPages (t.tables m)))
        = t.state (t.forgetRetired m) := by
      unfold state
      rw [ht]
    refine h.reclaimed hm hs ?_ ?_ fun i => Machine.mem_live_giveBackAll
    · show (t.state _).retired.toList = []
      rw [hstate]
      exact congrArg Tables.retired hT
    · show (t.state _).released = _
      rw [hstate]
      exact congrArg Tables.released hT
  · rw [t.reclaim_stuck env hd] at hr
    cases hr

/-- a tree owns its pages whenever no operation is under way -/
theorem Reachable.owns (h : t.Reachable others m) : ∃ own, t.Owns others own (t.tables m) := by
  induction h with
  | create hh ho hc => exact ⟨_, .create hh ho hc⟩
  | op env op hh hp _ ih =>
    obtain ⟨own, ho⟩ := ih
    obtain ⟨own', _, ho', _⟩ := Kept.perform hh (fun k => (hp k).kept) op _ own ho
    exact ⟨own', ho'⟩
  | reclaim _ hr ih =>
    obtain ⟨own, ho⟩ := ih
    exact ⟨_, ho.reclaim hr⟩
  | elsewhere _ he ih => exact he ▸ ih

/-- an empty tree on page 1, which is the only page in use -/
theorem Reachable.exists_empty (f : Format) (client : σ) :
    ∃ (t : Tree) (m : Machine σ), t.Reachable (fun _ => False) m ∧ t.format = f ∧
      (∀ i, i ∈ m.live ↔ i = 1) ∧ t.state m = {} ∧ ∀ i, i < 512 → m.memory.entry t.root i = 0 := by
  have hh : (Env.offering [1] : Env σ).Honest := Env.honest_offering (by decide)
  have hs : (Env.offering [1] : Env σ).supply { client } = ({ client }, some (.ofFrame 1)) :=
    Env.offering_free Std.HashSet.not_mem_empty
  obtain ⟨t, m, hcr, hf, hroot, _⟩ := create_offered hs f none
  obtain ⟨k, hk, hT⟩ := create_ok hcr
  rw [hs] at hk
  obtain ⟨rfl, _⟩ := Prod.mk.inj hk
  have hm : t.Reachable (fun _ => False) m := .create hh (fun i => by
    rw [hs]
    exact ⟨False.elim, Std.HashSet.not_mem_empty⟩) hcr
  obtain ⟨own, ho⟩ := hm.owns
  refine ⟨t, m, hm, hf, fun i => ?_, state_create hcr, fun i hi => ?_⟩
  · have e : (t.tables m).inUse i ↔ i ∈ ({} : Std.HashSet Nat).insert t.root.frame := by rw [hT]
    rw [hroot, PhysAddr.frame_ofFrame (by decide), Std.HashSet.mem_insert, beq_iff_eq] at e
    exact e.trans ⟨fun h => (h.resolve_right Std.HashSet.not_mem_empty).symm, fun h => .inl h.symm⟩
  · have hr := ho.isPage ho.root
    rw [show m.memory = _ from congrArg Tables.memory hT, entry_fill _ 0 hr hr hi, if_pos rfl]

end Tree

end NestedPaging
