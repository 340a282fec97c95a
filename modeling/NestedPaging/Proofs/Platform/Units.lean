import NestedPaging.Proofs.Unit.Addition
import NestedPaging.Proofs.Objects.Creation
import NestedPaging.Proofs.Tree.Provision
import NestedPaging.SecondStage

/-!
# Platforms and their units

All units of a platform share its context tables. `Platform.Laid` says that these own their pages, and
that the units neither share registers nor rings, nor have queues in pages of the tables. So each unit can
be driven without a change to what the tables say or to another unit.

* `Platform.Waiting`   the units were added and can be started;
* `Platform.Running`   they were started;
* `Platform.bringUp`   from nothing to a platform that runs (`running_bringUp`).
-/

namespace NestedPaging

open PhysAddr (IsPage)

variable {σ ε α : Type}

/-! ## pages that are taken -/

/-- from `m` to `n` the page `p` was taken and made blank -/
structure Machine.Took (p : PhysAddr) (m n : Machine σ) : Prop where
  page : IsPage p
  fresh : p.frame ∉ m.live
  live : ∀ i, i ∈ n.live ↔ i = p.frame ∨ i ∈ m.live
  memory : ∀ a : PhysAddr, n.memory.read a = if a.frame = p.frame then 0 else m.memory.read a
  devices : n.devices = m.devices
  rings : n.rings = m.rings

/-- nobody else is at work, and a page is taken and cleaned -/
theorem Act.took {env : Env σ} {m k : Machine σ} {p : PhysAddr} (ha : env.Alone) (hh : env.Honest)
    (hs : env.supply m = (k, some p)) (c : Cleaner) :
    m.Took p ((k.take p 0).noteAll (c.events p 4096 (k.take p 0).memory)) := by
  obtain ⟨client, hclient⟩ := ha m
  obtain rfl : k = { m with client } := by rw [← hclient, hs]
  obtain ⟨hp, hfree⟩ := hh m p (by rw [hs])
  rw [hs] at hfree
  refine ⟨hp, fun hin => Machine.ne_of_isLive hfree hin rfl, fun i =>
    Machine.mem_live_take (m := { m with client }) (w := 0), fun a => ?_, rfl, rfl⟩
  refine (m.memory.read_fill p.frame 0 a).trans ?_
  simp only [eq_comm]

/-- so do those who make tables of it -/
theorem Act.took_of_ok {env : Env σ} {m n : Machine σ} {e : ε} {c : Cleaner} {f : PhysAddr → α} {t : α}
    (ha : env.Alone) (hh : env.Honest) (h : (do
      let page ← Act.allocOr e 0
      Act.clean c page 4096
      pure (f page)) env m = .ok t n) : ∃ p, t = f p ∧ m.Took p n := by
  obtain ⟨k, p, hs, ht, rfl⟩ := Act.eq_of_made h
  exact ⟨p, ht, took ha hh hs c⟩

/-- cleaning up after a failure is no concern of an action that ends well -/
theorem Act.ok_of_orElseRun {body : Act σ ε α} {cleanup : Act σ ε Unit} {env : Env σ} {m n : Machine σ} {a : α}
    (h : Act.orElseRun body cleanup env m = .ok a n) : body env m = .ok a n := by
  unfold Act.orElseRun at h
  cases hb : body env m with
  | ok a' n' =>
    rw [hb] at h
    exact h
  | error e n' =>
    rw [hb] at h
    simp only at h
    split at h <;> cases h

theorem Act.orElseRun_of_ok {body : Act σ ε α} {cleanup : Act σ ε Unit} {env : Env σ} {m n : Machine σ} {a : α}
    (h : body env m = .ok a n) : Act.orElseRun body cleanup env m = .ok a n := by
  unfold Act.orElseRun
  rw [h]

theorem Act.orElseRun_of_error {body : Act σ ε α} {cleanup : Act σ ε Unit} {env : Env σ} {m k n : Machine σ}
    {e : Stop ε} (h : body env m = .error e k) (hc : cleanup env k = .ok () n) :
    Act.orElseRun body cleanup env m = .error e n := by
  unfold Act.orElseRun
  rw [h]
  simp only [hc]

/-- at most `k` pages are in use -/
def Machine.Few (k : Nat) (m : Machine σ) : Prop :=
  ∃ taken : List Nat, taken.length ≤ k ∧ ∀ i ∈ m.live, i ∈ taken

/-- one more page is in use -/
theorem Machine.Few.grow {m n : Machine σ} {k : Nat} (h : m.Few k)
    (hone : ∀ i ∈ n.live, i ∉ m.live → ∀ j ∈ n.live, j ∉ m.live → j = i) : n.Few (k + 1) := by
  obtain ⟨taken, hlen, hl⟩ := h
  by_cases hnew : ∃ i ∈ n.live, i ∉ m.live
  · obtain ⟨i, hi, hin⟩ := hnew
    refine ⟨i :: taken, Nat.succ_le_succ hlen, fun j hj => ?_⟩
    by_cases hjm : j ∈ m.live
    · exact List.mem_cons_of_mem _ (hl j hjm)
    · rw [hone i hi hin j hj hjm]
      exact List.mem_cons_self
  · exact ⟨taken, Nat.le_succ_of_le hlen, fun i hi => hl i (by_contra fun hin => hnew ⟨i, hi, hin⟩)⟩

/-- the others are free -/
theorem Machine.Few.spare {m : Machine σ} {k d : Nat} {frames : List Nat} (h : m.Few k) (hn : frames.Nodup)
    (hd : k + d ≤ frames.length) : m.Spare frames d := by
  obtain ⟨taken, hlen, hl⟩ := h
  refine ⟨frames.filter (· ∉ taken), hn.filter _, ?_, fun i hi => ?_⟩
  · have htaken : (frames.filter (· ∈ taken)).length ≤ taken.length :=
      (List.subperm_of_subset (hn.filter _) fun i hi => of_decide_eq_true (List.mem_filter.mp hi).2).length_le
    have hsum := List.length_eq_length_filter_add (l := frames) fun i => decide (i ∈ taken)
    simp only [decide_not]
    omega
  · obtain ⟨hin, hout⟩ := List.mem_filter.mp hi
    exact ⟨hin, fun hlive => of_decide_eq_true hout (hl i hlive)⟩

theorem Machine.Took.few {m n : Machine σ} {q : PhysAddr} {k : Nat} (h : m.Took q n) (hm : m.Few k) :
    n.Few (k + 1) := by
  obtain ⟨taken, hlen, hl⟩ := hm
  refine ⟨q.frame :: taken, Nat.succ_le_succ hlen, fun i hi => ?_⟩
  rcases (h.live i).mp hi with rfl | hi
  · exact List.mem_cons_self
  · exact List.mem_cons_of_mem _ (hl i hi)

/-- a unit takes one page at most -/
theorem Remapper.Added.few {u : Remapper} {cell k : Nat} {m n : Machine σ} (h : u.Added cell m n) (hm : m.Few k) :
    n.Few (k + 1) := by
  obtain ⟨taken, hlen, hl⟩ := hm
  cases hq : u.queue with
  | none =>
    refine ⟨taken, Nat.le_succ_of_le hlen, fun i hi => hl i (((h.live i).mp hi).resolve_left ?_)⟩
    rintro ⟨q, hu, -⟩
    cases hq.symm.trans hu
  | some q =>
    refine ⟨q.base.frame :: taken, Nat.succ_le_succ hlen, fun i hi => ?_⟩
    rcases (h.live i).mp hi with ⟨q', hu, rfl⟩ | hi
    · cases hq.symm.trans hu
      exact List.mem_cons_self
    · exact List.mem_cons_of_mem _ (hl i hi)

/-- where a unit was found -/
def Remapper.site (u : Remapper) : UnitSite := ⟨u.base, u.registers⟩

theorem Remapper.Describes.site {u : Remapper} {base : Word} {cell : Nat} {queued : Bool} {cleaner : Cleaner}
    {c : Capabilities} (h : u.Describes base cell queued cleaner c) : u.site = ⟨base, .device cell⟩ := by
  unfold Remapper.site
  rw [h.base, h.registers]

/-- a new unit, found at a device; `caps` are the capabilities of the units behind all devices -/
def UnitSite.IsNew (caps : Nat → Capabilities) (N : Nat) (s : UnitSite) (m : Machine σ) : Prop :=
  ∃ cell, s.registers = .device cell ∧ (caps cell).Disjoint ∧ (m.devices.get cell).New (caps cell) N

namespace Platform
variable {caps : Nat → Capabilities} {p p' : Platform} {u : Remapper} {cell N : Nat} {rs : List Request} {m k n : Machine σ} {env : Env σ}

/-! ## units beside the tables they walk -/

/-- context tables with pages of their own, and units that are apart from them and from each other -/
structure Laid (p : Platform) (m : Machine σ) : Prop where
  sound : p.contexts.Sound m.memory
  live : ∀ i ∈ p.contexts.frames m.memory, i ∈ m.live
  queues : ∀ u ∈ p.units, ∀ i ∈ u.frames, i ∈ m.live ∧ i ∉ p.contexts.frames m.memory
  separate : p.units.Pairwise Remapper.Separate

/-- where tables and queues are as they were -/
theorem Laid.of_tables (h : p.Laid m)
    (hm : ∀ a : PhysAddr, a.frame ∈ p.contexts.frames m.memory → n.memory.read a = m.memory.read a)
    (hl : ∀ i ∈ m.live, i ∈ n.live) : p.Laid n ∧ p.contexts.frames n.memory = p.contexts.frames m.memory := by
  obtain ⟨hsound, hframes⟩ := h.sound.of_root fun a ha => hm a (ha ▸ ContextTables.root_mem)
  refine ⟨⟨hsound, ?_, ?_, h.separate⟩, hframes⟩
  · rw [hframes]
    exact fun i hi => hl i (h.live i hi)
  · rw [hframes]
    exact fun u hu i hi => ⟨hl i (h.queues u hu i hi).1, (h.queues u hu i hi).2⟩

/-- a unit is driven: the tables say what they said -/
theorem Laid.driven (h : p.Laid m) (hu : u ∈ p.units) (hd : m.Driven u cell rs n) :
    p.Laid n ∧ ∀ a : PhysAddr, a.frame ∈ p.contexts.frames m.memory → n.memory.read a = m.memory.read a := by
  have hm : ∀ a : PhysAddr, a.frame ∈ p.contexts.frames m.memory → n.memory.read a = m.memory.read a :=
    fun a ha => hd.memory a fun hin => (h.queues u hu _ hin).2 ha
  exact ⟨(h.of_tables hm fun i hi => hd.live ▸ hi).1, hm⟩

/-- the units were added, and none of them was started -/
structure Waiting (p : Platform) (caps : Nat → Capabilities) (N : Nat) (m : Machine σ) : Prop
    extends p.Laid m where
  rings : ∀ u ∈ p.units, ∀ q, u.queue = some q → q.cell < m.rings.next
  units : ∀ u ∈ p.units, ∃ cell, (caps cell).Disjoint ∧ u.Startable cell (caps cell) N m

/-- all units were started -/
structure Running (p : Platform) (caps : Nat → Capabilities) (N : Nat) (m : Machine σ) : Prop
    extends p.Laid m where
  units : ∀ u ∈ p.units, ∃ cell, (caps cell).Disjoint ∧ u.Ready cell (caps cell) N m

/-! ## units are added -/

/-- there are no units yet -/
theorem waiting_create {config : RemapConfig} {cleaner : Cleaner} (ha : env.Alone) (hh : env.Honest)
    (h : create config cleaner env m = .ok p n) (caps : Nat → Capabilities) (N : Nat) :
    p.Waiting caps N n ∧ p.units = [] ∧ n.devices = m.devices := by
  obtain ⟨t, k, ht, h⟩ := (Act.bind_eq_ok ..).mp h
  obtain ⟨root, rfl, htook⟩ := Act.took_of_ok (f := fun root => ContextTables.mk root cleaner) ha hh ht
  obtain ⟨i, j, hi, h⟩ := (Act.bind_eq_ok ..).mp h
  have hi : InterruptTable.create cleaner env k = .ok i j := Act.ok_of_orElseRun hi
  obtain ⟨base, rfl, htook'⟩ := Act.took_of_ok (f := fun base => InterruptTable.mk base cleaner) ha hh hi
  injection h with hp hn
  subst hp hn
  have hblank : ∀ a : PhysAddr, a.frame = root.frame → j.memory.read a = 0 := fun a ha => by
    rw [htook'.memory, htook.memory, if_pos ha, if_neg]
    rintro e
    exact htook'.fresh (e ▸ ha ▸ (htook.live _).mpr (.inl rfl))
  obtain ⟨hsound, hframes⟩ := ContextTables.blank (t := ⟨root, cleaner⟩) htook.page fun b hb =>
    hblank _ (TableEntry.frame_address htook.page hb)
  refine ⟨⟨⟨hsound, ?_, nofun, .nil⟩, nofun, nofun⟩, rfl, htook'.devices.trans htook.devices⟩
  rw [hframes]
  rintro i rfl
  exact (htook'.live _).mpr (.inr ((htook.live _).mpr (.inl rfl)))

section
variable (ha : env.Alone) (hh : env.Honest)
include ha hh

/-- a new unit joins the others -/
theorem Waiting.addUnit {base : Word} (h : p.Waiting caps N m)
    (hnew : (m.devices.get cell).New (caps cell) N) (hc : (caps cell).Disjoint) (hother : ∀ u ∈ p.units, u.registers ≠ .device cell)
    (hrun : p.addUnit base (.device cell) env m = .ok p' n) :
    p'.Waiting caps N n ∧ (∀ i, i ≠ cell → n.devices.get i = m.devices.get i) ∧
      ∃ u, u.site = ⟨base, .device cell⟩ ∧ p' = { p with units := p.units ++ [u] } := by
  unfold Platform.addUnit at hrun
  split at hrun
  · cases hrun
  obtain ⟨u, k, hu, hrun⟩ := (Act.bind_eq_ok ..).mp hrun
  injection hrun with hp hn
  obtain ⟨hdesc, hadd, hqueue⟩ := Remapper.of_create ha hh hnew.free hu
  rw [hnew.caps] at hdesc
  have hk : ∀ (w : Remapper) cell c, w.Startable cell c N k → w.Startable cell c N n := fun w cell c hw =>
    hw.untouched (hn ▸ ⟨rfl, fun _ _ => rfl⟩)
  have hmemory : n.memory = k.memory := hn ▸ rfl
  have hlive : n.live = k.live := hn ▸ rfl
  have hrings : n.rings = k.rings := hn ▸ rfl
  have hdevices : n.devices = k.devices := hn ▸ rfl
  obtain ⟨hlaid, hframes⟩ := h.toLaid.of_tables (n := n)
    (fun a hin => hmemory ▸ hadd.memory a (h.live _ hin)) fun i hi => hlive ▸ (hadd.live i).mpr (.inr hi)
  refine ⟨?_, fun i hi => hdevices ▸ hadd.devices i hi, u, hdesc.site, hp.symm⟩
  subst hp
  refine ⟨⟨hlaid.sound, hlaid.live, fun w hw => ?_, ?_⟩, fun w hw q hq => ?_, fun w hw => ?_⟩
  · rcases List.mem_append.mp hw with hw | hw
    · exact hlaid.queues w hw
    · rw [List.mem_singleton.mp hw]
      refine fun i hi => ⟨hlive ▸ (hadd.live i).mpr (.inl hi), fun hin => hadd.free i hi (h.live i ?_)⟩
      rwa [← hframes]
  · refine List.pairwise_append.mpr ⟨h.separate, List.pairwise_singleton _ _, fun w hw v hv => ?_⟩
    rw [List.mem_singleton.mp hv]
    obtain ⟨i, _, hi⟩ := h.units w hw
    exact hadd.separate hdesc.registers hi.registers (fun e => hother w hw (e ▸ hi.registers)) (h.rings w hw)
  · rw [hrings]
    rcases List.mem_append.mp hw with hw | hw
    · exact Nat.lt_of_lt_of_le (h.rings w hw q hq) hadd.next
    · rw [List.mem_singleton.mp hw] at hq
      exact (hadd.ring q hq).2
  · rcases List.mem_append.mp hw with hw | hw
    · obtain ⟨i, hd, hi⟩ := h.units w hw
      refine ⟨i, hd, hk _ _ _ (hi.untouched (hadd.untouched ?_ (h.rings w hw)))⟩
      exact fun e => hother w hw (e ▸ hi.registers)
    · rw [List.mem_singleton.mp hw]
      exact ⟨cell, hc, hk _ _ _ (hdesc.startable hadd hqueue hnew)⟩

/-- units are added one after the other -/
theorem Waiting.addUnits {sites : List UnitSite} (h : p.Waiting caps N m)
    (hnew : ∀ s ∈ sites, s.IsNew caps N m)
    (hdistinct : ((p.units.map Remapper.site ++ sites).map UnitSite.registers).Nodup)
    (hrun : SecondStage.addUnits p sites env m = .ok p' n) :
    p'.Waiting caps N n ∧ p'.units.map Remapper.site = p.units.map Remapper.site ++ sites := by
  induction sites generalizing p m with
  | nil =>
    injection hrun with hp hn
    subst hp hn
    exact ⟨h, (List.append_nil _).symm⟩
  | cons s sites ih =>
    obtain ⟨cell, hs, hc, hdev⟩ := hnew s List.mem_cons_self
    obtain ⟨j, k, hj, hrun⟩ := (Act.bind_eq_ok ..).mp hrun
    have hj : p.addUnit s.base (.device cell) env m = .ok j k := by
      rw [← hs]
      exact Act.ok_of_orElseRun hj
    have hne : ∀ s' ∈ p.units.map Remapper.site ++ sites, s'.registers ≠ .device cell := by
      rw [List.map_append, List.map_cons, List.nodup_middle, List.nodup_cons, hs, ← List.map_append] at hdistinct
      exact fun s' hs' e => hdistinct.1 (e ▸ List.mem_map_of_mem hs')
    obtain ⟨hw, hothers, u, hu, rfl⟩ := h.addUnit ha hh hdev hc
      (fun u hu => hne _ (List.mem_append_left _ (List.mem_map_of_mem hu))) hj
    have hunits : (p.units ++ [u]).map Remapper.site ++ sites = p.units.map Remapper.site ++ s :: sites := by
      rw [List.map_append, List.map_singleton, List.append_assoc, hu, ← hs]
      rfl
    rw [← hunits]
    refine ih hw (fun s' hs' => ?_) (hunits ▸ hdistinct) hrun
    obtain ⟨i, hi, hd, hdi⟩ := hnew s' (List.mem_cons_of_mem s hs')
    refine ⟨i, hi, hd, ?_⟩
    rw [hothers i fun e => hne s' (List.mem_append_right _ hs') (e ▸ hi)]
    exact hdi

end

/-! ## units are started -/

section
variable (h2 : 2 ≤ env.patience) (hN : N ≤ env.patience)
include h2 hN

/-- units are started one after the other, and those that ran before go on -/
theorem Laid.start {us : List Remapper} {root : PhysAddr} {interrupts : Option Word} {event : Option FaultEvent}
    (h : p.Laid m) (hin : ∀ u ∈ us, u ∈ p.units) (hsep : us.Pairwise Remapper.Separate)
    (hstart : ∀ u ∈ us, ∃ cell, (caps cell).Disjoint ∧ u.Startable cell (caps cell) N m)
    (hrun : us.forM (fun u => u.start root interrupts event) env m = .ok () n) :
    p.Laid n ∧ (∀ u ∈ us, ∃ cell, (caps cell).Disjoint ∧ u.Ready cell (caps cell) N n) ∧
      ∀ (v : Remapper) cell c, (∀ u ∈ us, v.Separate u) → v.Ready cell c N m → v.Ready cell c N n := by
  induction us generalizing m with
  | nil =>
    injection hrun with _ hn
    subst hn
    exact ⟨h, nofun, fun _ _ _ _ hv => hv⟩
  | cons u us ih =>
    obtain ⟨_, k, hk, hrun⟩ := (Act.bind_eq_ok ..).mp hrun
    have hk : u.start root interrupts event env m = .ok () k := hk
    obtain ⟨cell, hc, hu⟩ := hstart u List.mem_cons_self
    obtain ⟨k', rs, hk', hd, hready, -⟩ := hu.start h2 hN (Remapper.start_settles h2 hu hk) root interrupts event
    obtain rfl : k = k' := by
      rw [hk] at hk'
      injection hk'
    obtain ⟨hfirst, hrest⟩ := List.pairwise_cons.mp hsep
    obtain ⟨hlaid, -⟩ := h.driven (hin u List.mem_cons_self) hd
    obtain ⟨hl, hus, hvs⟩ := ih hlaid (fun w hw => hin w (List.mem_cons_of_mem u hw)) hrest
      (fun w hw => by
        obtain ⟨i, hd', hw'⟩ := hstart w (List.mem_cons_of_mem u hw)
        exact ⟨i, hd', hw'.untouched ((hfirst w hw).symm.untouched hw'.registers hu.registers hd)⟩) hrun
    refine ⟨hl, fun w hw => ?_, fun v i d hv hready' => ?_⟩
    · rcases List.mem_cons.mp hw with rfl | hw
      · exact ⟨cell, hc, hvs w cell _ hfirst hready⟩
      · exact hus w hw
    · refine hvs v i d (fun w hw => hv w (List.mem_cons_of_mem u hw)) (hready'.untouched ?_)
      exact (hv u List.mem_cons_self).untouched hready'.registers hu.registers hd

theorem Waiting.startUnits (h : p.Waiting caps N m) (hrun : p.startUnits env m = .ok () n) :
    p.Running caps N n := by
  obtain ⟨hlaid, hunits, -⟩ := h.toLaid.start h2 hN (fun _ => id) h.separate h.units hrun
  exact ⟨hlaid, hunits⟩

end

/-! ## bring-up -/

/-- the shared tables and the units at `sites`, all of them started -/
def bringUp (config : RemapConfig) (cleaner : Cleaner) (sites : List UnitSite) : Act σ RemapError Platform := do
  let p ← SecondStage.addUnits (← Platform.create config cleaner) sites
  p.decideRemapping.startUnits
  pure p.decideRemapping

/-- what a bring-up did, one after the other -/
theorem bringUp_steps {config : RemapConfig} {cleaner : Cleaner} {sites : List UnitSite}
    (h : bringUp config cleaner sites env m = .ok p n) :
    ∃ p₀ k p₁ j, Platform.create config cleaner env m = .ok p₀ k ∧
      SecondStage.addUnits p₀ sites env k = .ok p₁ j ∧ p₁.decideRemapping.startUnits env j = .ok () n ∧
        p = p₁.decideRemapping := by
  obtain ⟨p₀, k, hp₀, h⟩ := (Act.bind_eq_ok ..).mp h
  obtain ⟨p₁, j, hp₁, h⟩ := (Act.bind_eq_ok ..).mp h
  obtain ⟨_, i, hi, h⟩ := (Act.bind_eq_ok ..).mp h
  injection h with hp hn
  exact ⟨p₀, k, p₁, j, hp₀, hp₁, hn ▸ hi, hp.symm⟩

theorem running_bringUp {config : RemapConfig} {cleaner : Cleaner} {sites : List UnitSite} (ha : env.Alone)
    (hh : env.Honest) (h2 : 2 ≤ env.patience) (hN : N ≤ env.patience) (hnew : ∀ s ∈ sites, s.IsNew caps N m)
    (hdistinct : (sites.map UnitSite.registers).Nodup) (h : bringUp config cleaner sites env m = .ok p n) :
    p.Running caps N n ∧ p.units.map Remapper.site = sites := by
  obtain ⟨p₀, k, p₁, j, hp₀, hp₁, hn, rfl⟩ := bringUp_steps h
  obtain ⟨hw₀, hnone, hdev⟩ := waiting_create ha hh hp₀ caps N
  obtain ⟨hw₁, hregs⟩ := hw₀.addUnits ha hh (fun s hs => by
    obtain ⟨cell, hs', hc, hd⟩ := hnew s hs
    exact ⟨cell, hs', hc, hdev ▸ hd⟩) (by
      rw [hnone]
      exact hdistinct) hp₁
  rw [hnone] at hregs
  have hw : p₁.decideRemapping.Waiting caps N j := ⟨⟨hw₁.sound, hw₁.live, hw₁.queues, hw₁.separate⟩, hw₁.rings, hw₁.units⟩
  exact ⟨hw.startUnits h2 hN hn, hregs⟩

/-! ## a platform with one unit -/

/-- an allocator with four pages -/
def fourPages : Env σ := { Env.offering [0x100, 0x101, 0x102, 0x103] with patience := 2 }

theorem fourPages_alone : (fourPages : Env σ).Alone := fun m => ⟨m.client, rfl⟩

theorem fourPages_honest : (fourPages : Env σ).Honest :=
  show (Env.offering [0x100, 0x101, 0x102, 0x103] : Env σ).Honest from Env.honest_offering (by decide)

/-- there is a page as long as fewer than four are in use -/
theorem fourPages_room (h : m.Few 3) : ∃ q, (fourPages : Env σ).supply m = (m, some q) := by
  have hspare : m.Spare [0x100, 0x101, 0x102, 0x103] 1 := h.spare (by decide) (by decide)
  obtain ⟨q, hs⟩ := hspare.next
  exact ⟨.ofFrame q, hs⟩

/-- a table is made of one more page -/
theorem exists_took {k : Nat} {e : ε} (c : Cleaner) (f : PhysAddr → α) (hm : m.Few k) (hk : k ≤ 3) : ∃ q n,
    (do let page ← Act.allocOr e 0
        Act.clean c page 4096
        pure (f page)) fourPages m = .ok (f q) n ∧ m.Took q n ∧ n.Few (k + 1) := by
  obtain ⟨taken, hlen, hl⟩ := hm
  obtain ⟨q, hs⟩ := fourPages_room (m := m) ⟨taken, Nat.le_trans hlen hk, hl⟩
  have htook := Act.took fourPages_alone fourPages_honest hs c
  refine ⟨q, _, ?_, htook, htook.few ⟨taken, hlen, hl⟩⟩
  simp only [Act.bind_apply, Act.allocOr_some hs, Act.clean_apply, Act.pure_apply]

theorem exists_create (config : RemapConfig) (hm : m.Few 0) :
    ∃ p n, Platform.create config .platform fourPages m = .ok p n ∧ n.Few 2 ∧ p.config = config ∧ p.cleaner = .platform := by
  obtain ⟨root, k, hk, -, hfew⟩ := exists_took (e := RemapError.insufficientMemory) .platform
    (ContextTables.mk · .platform) hm (by decide)
  obtain ⟨table, n, hn, -, hfew'⟩ := exists_took (e := RemapError.insufficientMemory) .platform
    (InterruptTable.mk · .platform) hfew (by decide)
  refine ⟨⟨config, .platform, ⟨root, .platform⟩, ⟨table, .platform⟩, [], false⟩, n, ?_, hfew', rfl, rfl⟩
  have hcontexts : ContextTables.create .platform fourPages m = .ok ⟨root, .platform⟩ k := hk
  have hinterrupts : InterruptTable.create .platform fourPages k = .ok ⟨table, .platform⟩ n := hn
  unfold Platform.create
  rw [Act.bind_apply, hcontexts]
  simp only
  rw [Act.bind_apply, Act.orElseRun_of_ok hinterrupts]
  rfl

/-- the only unit is started -/
theorem startUnits_singleton (h : p.units = [u]) (env : Env σ) (m : Machine σ) : p.startUnits env m
    = u.start p.contexts.root (if p.remapping then some p.interruptTable.register else none) p.config.event env m := by
  obtain ⟨x, hx⟩ : ∃ x : Act σ RemapError Unit, u.start p.contexts.root
    (if p.remapping then some p.interruptTable.register else none) p.config.event = x := ⟨_, rfl⟩
  have hrun : p.startUnits = (x >>= fun _ => pure () : Act σ RemapError Unit) := by
    unfold startUnits
    rw [h, ← hx]
    rfl
  rw [hrun, hx, Act.bind_apply]
  cases x env m <;> rfl

section
variable {c : Capabilities} (config : RemapConfig) (base : Word) (hm : m.Few 0)
  (hnew : (m.devices.get cell).New c N) (hN : N ≤ 2) (hlevels : c.word.bit 10 = true)
include hm hnew hlevels

/-- a platform over one new unit, which waits to be started -/
theorem exists_waiting : ∃ p₀ k p n u,
    Platform.create config .platform fourPages m = .ok p₀ k ∧
      SecondStage.addUnits p₀ [⟨base, .device cell⟩] fourPages k = .ok p n ∧ p.units = [u] ∧ p.config = config ∧
      u.Describes base cell config.queued .platform c ∧ u.Startable cell c N n ∧ n.Few 3 ∧
      (m.devices.get cell).Like (n.devices.get cell) ∧ ∀ i, i ≠ cell → n.devices.get i = m.devices.get i := by
  obtain ⟨p₀, k, hp₀, hfew, hconfig, hcleaner⟩ := exists_create config hm
  obtain ⟨taken, hlen, hl⟩ := hfew
  obtain ⟨-, hnone, hdev⟩ := waiting_create fourPages_alone fourPages_honest hp₀ (fun _ => c) N
  rw [← hdev] at hnew ⊢
  have hcaps := hnew.caps
  obtain ⟨u, n, hu⟩ := Remapper.create_ok base p₀.config.queued p₀.cleaner fourPages hnew.free
    (hcaps ▸ hlevels) fun _ j hj => by
      obtain ⟨q, hq⟩ := fourPages_room (m := j) ⟨taken, Nat.le_succ_of_le hlen, fun i hi => hl i (hj.live ▸ hi)⟩
      exact ⟨j, q, hq⟩
  obtain ⟨hdesc, hadd, hqueue⟩ := Remapper.of_create fourPages_alone fourPages_honest hnew.free hu
  rw [hcaps] at hdesc
  obtain ⟨line, hline⟩ : ∃ line, "Remapping unit " ++ hex base.toNat ++ " uses "
    ++ (if u.isQueued then "queued" else "register") ++ " invalidation" = line := ⟨_, rfl⟩
  have hp : p₀.addUnit base (.device cell) fourPages k
      = .ok { p₀ with units := [u] } (n.note (.logged .debug line)) := by
    unfold Platform.addUnit
    rw [hnone]
    simp only [List.length_nil, List.nil_append]
    rw [if_neg (by decide)]
    show (Remapper.create base (.device cell) p₀.config.queued p₀.cleaner >>= _) fourPages k = _
    rw [Act.bind_apply, hu, ← hline]
    rfl
  refine ⟨p₀, k, { p₀ with units := [u] }, n.note (.logged .debug line), u, hp₀, ?_, rfl, hconfig,
    hconfig ▸ hcleaner ▸ hdesc, (hdesc.startable hadd hqueue hnew).untouched ⟨rfl, fun _ _ => rfl⟩,
    hadd.few ⟨taken, hlen, hl⟩, hadd.like, hadd.devices⟩
  unfold SecondStage.addUnits
  rw [Act.bind_apply, Act.orElseRun_of_ok hp]
  rfl

variable (hset : ∀ (u : Remapper) (k : Machine σ), u.Startable cell c N k → u.queue = none →
    ∀ offset ∈ u.commandOffsets, (k.devices.get cell).unit.Settles offset)
include hN hset

/-- a platform over one new unit comes up, if the commands of the unit settle; other devices are left alone -/
theorem exists_bringUp_beside : ∃ p n u,
    bringUp config .platform [⟨base, .device cell⟩] fourPages m = .ok p n ∧ p.units = [u] ∧ p.config = config ∧
      u.Describes base cell config.queued .platform c ∧ n.Few 3 ∧
      ∀ i, i ≠ cell → n.devices.get i = m.devices.get i := by
  obtain ⟨p₀, k, p, j, u, hp₀, hp, hunits, hconfig, hdesc, hstart, hfew, -, hdevices⟩ :=
    exists_waiting config base hm hnew hlevels
  have hpatience : 2 ≤ (fourPages : Env σ).patience := Nat.le_refl 2
  obtain ⟨p', hp'⟩ : ∃ p', p.decideRemapping = p' := ⟨_, rfl⟩
  have hunits' : p'.units = [u] := hp' ▸ hunits
  obtain ⟨n, rs, hn, hd, -⟩ := hstart.start hpatience hN (hset u _ hstart) p'.contexts.root
    (if p'.remapping then some p'.interruptTable.register else none) p'.config.event
  have hn : p'.startUnits fourPages j = .ok () n := (startUnits_singleton hunits' fourPages j).trans hn
  refine ⟨p', n, u, ?_, hunits', hp' ▸ hconfig, hdesc, ?_, fun i hi => (hd.devices i hi).trans (hdevices i hi)⟩
  · unfold bringUp
    simp only [Act.bind_apply, hp₀, hp, hp', hn, Act.pure_apply]
  · unfold Machine.Few
    rw [hd.live]
    exact hfew

theorem exists_bringUp : ∃ p n u,
    bringUp config .platform [⟨base, .device cell⟩] fourPages m = .ok p n ∧ p.units = [u] ∧
      u.Describes base cell config.queued .platform c ∧ n.Few 3 := by
  obtain ⟨p, n, u, hrun, hunits, -, hu, hfew, -⟩ := exists_bringUp_beside config base hm hnew hN hlevels hset
  exact ⟨p, n, u, hrun, hunits, hu, hfew⟩

end

end Platform

end NestedPaging
