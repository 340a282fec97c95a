import NestedPaging.Proofs.Platform.PagesHeld
import NestedPaging.Proofs.Unit.BringUpOrder
import NestedPaging.Proofs.Platform.Runs

/-!
# In which order a platform is brought up

The units of a platform are started one after the other, and may be started again later, between other calls.
`Platform.InOrder` says what must have happened before a unit acts on a command that switches something on.

* `Remapper.starts_allowed`   the first start of all units, however it ends;
* `Machine.Persists`          later nothing is switched on any more, as all of it is on (`Called.persists`);
* `Platform.brought_up_in_order`   both together.

A unit without a queue whose IOTLB registers cannot be reported never hears that mappings are to be dropped
(`far_switched_on`).
-/

namespace NestedPaging

variable {σ ε α : Type}

open Command (Allowed)

/-! ## units that are started one after the other -/

namespace Remapper
variable {caps : Nat → Capabilities} {N : Nat} {m n : Machine σ} {env : Env σ} {us : List Remapper}

/-- the commands that bring up the units behind the device `cell` -/
def commandsOf (us : List Remapper) (interrupts : Bool) (cell : Nat) : List UInt32 :=
  us.flatMap fun u => if u.registers = .device cell then u.bringUp interrupts else []

theorem starts_issue (hr : ∀ u ∈ us, ∃ i, u.registers = .device i) (root : PhysAddr) (interrupts : Option Word)
    (event : Option FaultEvent) (cell : Nat) : (us.forM fun u => u.start root interrupts event).Issues cell env
      (commandsOf us interrupts.isSome cell) := by
  refine .forM fun u hu => ?_
  obtain ⟨i, hi⟩ := hr u hu
  split
  · rename_i hcell
    exact start_issues hcell root interrupts event
  · rename_i hne
    refine start_issues_nil hi (fun e => hne ?_) root interrupts event
    rw [hi, e]

section
variable (h2 : 2 ≤ env.patience) (hN : N ≤ env.patience)
include h2 hN

/-- Each unit is brought up in order, whatever the others do. If they do not all come up, the wait for one of them does
not end. -/
theorem starts_allowed (hsep : us.Pairwise Remapper.Separate) (hpages : us.Pairwise fun u v => ∀ i ∈ v.frames, i ∉ u.frames)
    (hstart : ∀ u ∈ us, ∃ cell, (caps cell).Disjoint ∧ u.Startable cell (caps cell) N m) (root : PhysAddr)
    (interrupts : Option Word) (event : Option FaultEvent) :
    (∀ e n, (us.forM fun u => u.start root interrupts event) env m = .error e n → e = .stuck) ∧ ∃ es,
      m.Logs es ((us.forM fun u => u.start root interrupts event).after env m) ∧ ∀ u ∈ us, ∀ cell,
        u.registers = .device cell → Allowed cell (u.InOrder cell (caps cell) root interrupts m) [] es := by
  induction us generalizing m with
  | nil => exact ⟨nofun, [], .refl rfl, nofun⟩
  | cons u us ih =>
    rw [List.forall_mem_cons] at hstart
    obtain ⟨⟨cell, hc, hu⟩, hrest⟩ := hstart
    obtain ⟨hfirst, hsep⟩ := List.pairwise_cons.mp hsep
    obtain ⟨hfirst', hpages⟩ := List.pairwise_cons.mp hpages
    obtain ⟨es, hes, hallowed⟩ := hu.start_allowed hc h2 hN root interrupts event
    have hne : ∀ v ∈ us, ∀ i, v.registers = .device i → cell ≠ i := fun v hv i hi e =>
      (hfirst v hv).registers (hu.registers.trans (e ▸ hi.symm))
    -- the first unit's bring-up is no concern of the others
    have hothers : ∀ v ∈ us, ∀ i, v.registers = .device i → ∀ b, .acted i (.global b) ∉ es := by
      intro v hv i hi
      obtain ⟨j, -, hj⟩ := hrest v hv
      obtain rfl : j = i := RegisterFile.device.inj (hj.registers.symm.trans hi)
      exact ((start_issues_nil hu.registers (hne v hv j hi) root interrupts event).commanded_nil
        hj.wakes.free).not_mem hes
    have hcons : ((u :: us).forM fun u => u.start root interrupts event : Act σ RemapError Unit) =
      (u.start root interrupts event >>= fun _ => us.forM fun u => u.start root interrupts event) := rfl
    rw [hcons, Act.after_bind, Act.bind_apply]
    cases hrun : u.start root interrupts event env m with
    | error e k =>
      rw [Act.after_of_error hrun] at hes
      refine ⟨fun e' n h => ?_, es, hes, fun v hv i hi => ?_⟩
      · injection h with he
        exact he ▸ hu.start_error h2 hN hrun
      rcases List.mem_cons.mp hv with rfl | hv
      · exact RegisterFile.device.inj (hu.registers.symm.trans hi) ▸ hallowed
      · exact .of_none (hothers v hv i hi)
    | ok _ k =>
      rw [Act.after_of_ok hrun] at hes
      obtain ⟨k', rs, hk', hd, hready, -⟩ := hu.start h2 hN (start_settles h2 hu hrun) root interrupts event
      obtain rfl : k = k' := by
        rw [hrun] at hk'
        injection hk'
      have huntouched : ∀ v ∈ us, ∀ i, v.registers = .device i → v.Untouched i m k := fun v hv i hi =>
        (hfirst v hv).symm.untouched hi hu.registers hd
      have hfills : ∀ v ∈ us, ∀ q, v.queue = some q → ∀ e ∈ es, ¬ e.Fills q.base := fun v hv q hq =>
        hu.start_fills (hfirst' v hv _ ⟨q, hq, rfl⟩) root interrupts event (Act.after_of_ok hrun ▸ hes)
      have hrest' : ∀ v ∈ us, ∃ i, (caps i).Disjoint ∧ v.Startable i (caps i) N k := fun v hv => by
        obtain ⟨i, hi, hv'⟩ := hrest v hv
        exact ⟨i, hi, hv'.untouched (huntouched v hv i hv'.registers)⟩
      obtain ⟨hstuck, fs, hfs, hallowed'⟩ := ih hsep hpages hrest'
      have hnone : ∀ b, .acted cell (.global b) ∉ fs := by
        refine ((Act.Issues.forM_nil fun v hv => ?_).commanded_nil hready.wakes.free).not_mem hfs
        obtain ⟨i, -, hi⟩ := hrest v hv
        exact start_issues_nil hi.registers (hne v hv i hi.registers).symm root interrupts event
      refine ⟨hstuck, es ++ fs, hes.trans hfs, fun v hv i hi => ?_⟩
      rcases List.mem_cons.mp hv with rfl | hv
      · exact RegisterFile.device.inj (hu.registers.symm.trans hi) ▸ hallowed.append (.of_none hnone)
      · exact (Allowed.of_none (hothers v hv i hi)).append
          ((hallowed' v hv i hi).behind fun es' b h => h.behind (huntouched v hv i hi) (hfills v hv))

end

end Remapper

/-! ## what is on stays on -/

namespace Machine

/-- the unit behind `cell` answers freely, and what `bs` are for is on -/
structure On (cell : Nat) (bs : List UInt32) (m : Machine σ) : Prop where
  free : (m.devices.get cell).Free
  on : ∀ b ∈ bs, (m.devices.get cell).unit.status &&& b ≠ 0

/-- if all of it is on in `m`, it is on in `n`, and meanwhile the unit acted on one-shot commands at most -/
def Persists (cell : Nat) (bs : List UInt32) (m n : Machine σ) : Prop :=
  m.On cell bs → n.On cell bs ∧ ∃ es, m.Logs es n ∧ ∀ b, .acted cell (.global b) ∈ es → b &&& Command.oneShot ≠ 0

variable {cell : Nat} {bs cs : List UInt32} {m k n : Machine σ} {env : Env σ} {x : Act σ ε α}

namespace Persists

theorem refl (m : Machine σ) : m.Persists cell bs m := fun h => ⟨h, [], .refl rfl, nofun⟩

theorem trans (h : m.Persists cell bs k) (h' : k.Persists cell bs n) : m.Persists cell bs n := by
  intro hm
  obtain ⟨hk, es, hes, he⟩ := h hm
  obtain ⟨hn, fs, hfs, hf⟩ := h' hk
  exact ⟨hn, es ++ fs, hes.trans hfs, fun b hb => (List.mem_append.mp hb).elim (he b) (hf b)⟩

/-- no unit takes part -/
theorem of_quiet (h : m.Quiet n) : m.Persists cell bs n := by
  rintro ⟨hfree, hon⟩
  obtain ⟨es, hes, hnone⟩ := h.logs
  exact ⟨⟨h.devices ▸ hfree, h.devices ▸ hon⟩, es, hes, fun b hb => by cases hnone _ hb⟩

/-- commands are issued again -/
theorem of_issues (h : x.Issues cell env cs) (hsub : ∀ c ∈ cs, c ∈ bs) : x.Keeps (Persists cell bs) env := by
  rintro m ⟨hfree, hon⟩
  obtain ⟨ds, hpre, hcommanded, -⟩ := h m hfree
  obtain ⟨es, hes, hissued⟩ := hcommanded.logs
  exact ⟨⟨hcommanded.free, fun b hb => hissued.still_on (hon b hb)⟩, es, hes, fun b =>
    hissued.oneShot_of_on fun c hc => hon c (hsub c (hpre.subset hc))⟩

theorem of_issues_nil (h : x.Issues cell env []) : x.Keeps (Persists cell bs) env :=
  of_issues h fun _ hc => absurd hc List.not_mem_nil

end Persists

/-- once all of it was issued, it is on -/
theorem Commanded.turnedOn (h : m.Commanded cell bs n) : n.On cell bs := by
  obtain ⟨es, -, hissued⟩ := h.logs
  exact ⟨h.free, fun b => hissued.on⟩

end Machine

open Machine (Persists)

namespace Platform
variable {p : Platform} {env : Env σ} {cell : Nat}

/-- the commands that bring up the units of the platform behind the device `cell` -/
def commandsOf (p : Platform) (cell : Nat) : List UInt32 := Remapper.commandsOf p.units p.remapping cell

section
variable (hr : ∀ u ∈ p.units, ∃ i, u.registers = .device i)
include hr

theorem startUnits_issues : p.startUnits.Issues cell env (p.commandsOf cell) := by
  have hsome : (if p.remapping then some p.interruptTable.register else none).isSome = p.remapping := by
    cases p.remapping <;> rfl
  unfold commandsOf
  rw [← hsome]
  exact Remapper.starts_issue hr p.contexts.root _ p.config.event cell

theorem handleFaults_issues : (p.handleFaults : Act σ ε Nat).Issues cell env [] := by
  have hfold : ∀ us : List Remapper, (∀ u ∈ us, u ∈ p.units) → ∀ drained,
      (us.foldlM (fun n u => do pure (n + (← u.handleFaults))) drained : Act σ ε Nat).Issues cell env [] := by
    intro us hin
    induction us with
    | nil => exact fun _ => .pure _
    | cons u us ih =>
      rw [List.forall_mem_cons] at hin
      obtain ⟨i, hi⟩ := hr u hin.1
      intro drained
      rw [List.foldlM_cons]
      exact ((Act.Issues.handleFaults hi).before fun _ => .pure _).before fun _ => ih hin.2 _
  exact hfold p.units (fun _ => id) 0

end

end Platform

namespace PlatformCall
variable {p : Platform} {env : Env σ} {cell : Nat}

/-- no call switches anything on that is on already -/
theorem persists (hr : ∀ u ∈ p.units, ∃ i, u.registers = .device i) (ha : env.Alone) (c : PlatformCall) :
    (c.perform p).Keeps (Persists (σ := σ) cell (p.commandsOf cell)) env := by
  have hsupply : ∀ m : Machine σ, m.Persists cell (p.commandsOf cell) (env.supply m).1 := fun m => by
    obtain ⟨client, h⟩ := ha m
    rw [h]
    exact .of_quiet (.of_eq rfl rfl rfl)
  have hallows := (Machine.Aloof.permits (R := Persists (σ := σ) cell (p.commandsOf cell)) .trans
    fun h => .of_quiet h.quiet).allows ⟨0, .stage2, p.contexts.root, none⟩ hsupply
  have hunits : ∀ f : Remapper → Act σ RemapError Unit, (∀ u i, u.registers = .device i → (f u).Issues cell env []) →
      (p.units.forM f).Keeps (Persists cell (p.commandsOf cell)) env := fun f hf =>
    .of_issues_nil (.forM_nil fun u hu => (hr u hu).elim (hf u))
  cases c with
  | start => exact .of_issues (Platform.startUnits_issues hr) fun _ => id
  | configure base a rid enable =>
    refine Platform.keeps_configure hallows p fun u hu => ?_
    obtain ⟨i, hi⟩ := hr u (Platform.unit?_mem hu)
    exact .of_issues_nil (.invalidate hi .global 0)
  | routeInterrupt i r =>
    have hset : (p.interruptTable.set i r : Act σ RemapError Unit).Keeps (Persists cell (p.commandsOf cell)) env := by
      unfold InterruptTable.set
      by_cases hi : interruptEntries ≤ i
      · rw [if_pos hi]
        exact .refl
      · rw [if_neg hi]
        exact ContextTables.keeps_set hallows _ _ _
    show (p.routeInterrupt i r).Keeps (Persists cell (p.commandsOf cell)) env
    unfold Platform.routeInterrupt
    split
    · exact hallows.bind hset fun _ => hunits _ fun u j hj => .invalidateInterrupts hj true
    · exact .refl
  | invalidateDomain domain => exact hunits _ fun u i hi => .invalidate hi .domain domain
  | handleFaults => exact .map _ (.of_issues_nil (Platform.handleFaults_issues hr))

end PlatformCall

namespace Platform
variable {p : Platform} {m n : Machine σ} {cs : List PlatformCall}

/-- nor do many calls -/
theorem Called.persists (h : p.Called m cs n) (hr : ∀ u ∈ p.units, ∃ i, u.registers = .device i) (cell : Nat) :
    m.Persists cell (p.commandsOf cell) n := by
  induction h with
  | refl => exact .refl m
  | @call cs k env c _ ha _ ih => exact ih.trans (c.persists hr ha k)

/-! ## the whole history -/

/-- what must have happened from `m` on before the unit `u` of the platform acts on the command `b` -/
structure InOrder (p : Platform) (u : Remapper) (cell : Nat) (c : Capabilities) (m : Machine σ) (es : List Event)
    (b : UInt32) : Prop where
  translation : b = Command.dmaRemapping → u.Flushed cell c p.contexts.root es
  remapping : b = Command.interruptRemapping →
    (∃ rs, LastWrote cell Register.interruptTable p.interruptTable.register rs es ∧
      .global Command.setInterruptTable ∈ rs) ∧ ∀ v ∈ p.units, v.remapsInterrupts ∧ v.isQueued
  queue : b = Command.queuedInvalidation → ∃ q, u.queue = some q ∧ q.Posted cell m es

/-- from `m` to `n` each unit of the platform acted on commands in their order -/
def Ordered (p : Platform) (caps : Nat → Capabilities) (m n : Machine σ) : Prop :=
  ∀ u ∈ p.units, ∀ cell, u.registers = .device cell →
    ∃ es, m.Logs es n ∧ Allowed cell (p.InOrder u cell (caps cell) m) [] es

variable {caps : Nat → Capabilities} {N : Nat} {k : Machine σ} {env : Env σ}

/-- one-shot commands come whenever they are issued -/
theorem InOrder.oneShot {u : Remapper} {cell : Nat} {c : Capabilities} {es : List Event} {b : UInt32}
    (h : b &&& Command.oneShot ≠ 0) : p.InOrder u cell c m es b := by
  refine ⟨fun hb => ?_, fun hb => ?_, fun hb => ?_⟩ <;> rw [hb] at h <;> exact absurd h (by decide)

/-- interrupts are remapped only if all units can -/
theorem remaps_of_decided (h : p.remapping = p.canRemapInterrupts) (hr : p.remapping = true) :
    ∀ v ∈ p.units, v.remapsInterrupts ∧ v.isQueued := by
  rw [h] at hr
  unfold canRemapInterrupts at hr
  rw [Bool.and_eq_true, List.all_eq_true] at hr
  exact fun v hv => Bool.and_eq_true_iff.mp (hr.2 v hv)

namespace Waiting

theorem registers (h : p.Waiting caps N m) : ∀ u ∈ p.units, ∃ i, u.registers = .device i := fun u hu => by
  obtain ⟨i, -, hi⟩ := h.units u hu
  exact ⟨i, hi.registers⟩

section
variable (h : p.Waiting caps N m) (hpages : p.units.Pairwise fun u v => ∀ i ∈ v.frames, i ∉ u.frames)
  (hdecided : p.remapping = p.canRemapInterrupts) (h2 : 2 ≤ env.patience) (hN : N ≤ env.patience)
include h hpages hdecided h2 hN

/-- the first start, however it ends: with all units up, or never -/
theorem start_ordered :
    (∀ e k, p.startUnits env m = .error e k → e = .stuck) ∧ p.Ordered caps m (p.startUnits.after env m) := by
  obtain ⟨hstuck, es, hes, hallowed⟩ := Remapper.starts_allowed h2 hN h.separate hpages h.units p.contexts.root
    (if p.remapping then some p.interruptTable.register else none) p.config.event
  refine ⟨hstuck, fun u hu cell hcell => ⟨es, hes, (hallowed u hu cell hcell).mono fun es₁ b _ hb => ⟨hb.translation, fun hi => ?_,
    hb.queue⟩⟩⟩
  obtain ⟨table, rs, htable, hlast, hset⟩ := hb.remapping hi
  split at htable
  · rename_i hremaps
    exact ⟨⟨rs, Option.some.inj htable ▸ hlast, hset⟩, remaps_of_decided hdecided hremaps⟩
  · cases htable

/-- and any calls after it -/
theorem calls_ordered (hk : p.startUnits env m = .ok () k) (hcalls : p.Called k cs n) : p.Ordered caps m n := by
  intro u hu cell hcell
  obtain ⟨es, hes, hallowed⟩ := (h.start_ordered hpages hdecided h2 hN).2 u hu cell hcell
  rw [Act.after_of_ok hk] at hes
  have hfree : (m.devices.get cell).Free := by
    obtain ⟨i, -, hi⟩ := h.units u hu
    exact RegisterFile.device.inj (hi.registers.symm.trans hcell) ▸ hi.wakes.free
  have hon := ((startUnits_issues h.registers).commanded hfree hk).turnedOn
  obtain ⟨-, fs, hfs, hone⟩ := hcalls.persists h.registers cell hon
  exact ⟨es ++ fs, hes.trans hfs, hallowed.append fun fs₁ b fs₂ he => .oneShot (hone b
    (he ▸ List.mem_append_right _ List.mem_cons_self))⟩

end

end Waiting

/-- units that are added have different pages for their queues -/
theorem queues_apart_of_added {config : RemapConfig} {cleaner : Cleaner} {sites : List UnitSite} {p₀ : Platform}
    {m₀ m₁ : Machine σ} (ha : env.Alone) (hh : env.Honest) (hsites : ∀ s ∈ sites, ∃ cell, s.registers = .device cell)
    (hcreate : create config cleaner env m₀ = .ok p₀ m₁) (hadd : SecondStage.addUnits p₀ sites env m₁ = .ok p m) :
    p.units.Pairwise fun u v => ∀ i ∈ v.frames, i ∉ u.frames := by
  have hwindows : ∀ s ∈ sites, ∀ i ∈ s.registers.window, i ∈ m₀.live := fun s hs i hi => by
    obtain ⟨cell, hcell⟩ := hsites s hs
    rw [hcell] at hi
    cases hi
  rcases create_spends ha hh config cleaner m₀ with ⟨e, n, -, hn, -⟩ | ⟨p₁, n, hn, hholds, -⟩
  · cases hcreate.symm.trans hn
  cases hcreate.symm.trans hn
  rcases hholds.addUnits ha hh hwindows with ⟨e, n, -, hn, -⟩ | ⟨p₁, n, hn, hholds, -⟩
  · cases hadd.symm.trans hn
  cases hadd.symm.trans hn
  exact hholds.queues_apart

/-- Units are added to a platform and started. Either all of them come up and there may be any further calls, also such
that start them again, or the start never ends: each time a unit acts on a command, that comes in its order. -/
theorem brought_up_in_order {config : RemapConfig} {cleaner : Cleaner} {sites : List UnitSite} {p₀ : Platform}
    {m₀ m₁ : Machine σ} {env' : Env σ} (ha : env.Alone) (hh : env.Honest) (hnew : ∀ s ∈ sites, s.IsNew caps N m₀)
    (hdistinct : (sites.map UnitSite.registers).Nodup) (hcreate : create config cleaner env m₀ = .ok p₀ m₁)
    (hadd : SecondStage.addUnits p₀ sites env m₁ = .ok p m) (h2 : 2 ≤ env'.patience) (hN : N ≤ env'.patience) :
    p.units.map Remapper.site = sites ∧
      (∀ e k, p.decideRemapping.startUnits env' m = .error e k → e = .stuck) ∧
      p.decideRemapping.Ordered caps m (p.decideRemapping.startUnits.after env' m) ∧ ∀ k,
        p.decideRemapping.startUnits env' m = .ok () k → ∀ cs n, p.decideRemapping.Called k cs n →
          p.decideRemapping.Ordered caps m n := by
  obtain ⟨hw₀, hnone, hdev⟩ := waiting_create ha hh hcreate caps N
  obtain ⟨hw, hsites⟩ := hw₀.addUnits ha hh (fun s hs => by
    obtain ⟨cell, hs', hc, hd⟩ := hnew s hs
    exact ⟨cell, hs', hc, hdev ▸ hd⟩) (by
      rw [hnone]
      exact hdistinct) hadd
  rw [hnone] at hsites
  have hpages := queues_apart_of_added ha hh (fun s hs => (hnew s hs).imp fun _ h => h.1) hcreate hadd
  have hw : p.decideRemapping.Waiting caps N m := ⟨⟨hw.sound, hw.live, hw.queues, hw.separate⟩, hw.rings, hw.units⟩
  obtain ⟨hstuck, hstarted⟩ := hw.start_ordered hpages rfl h2 hN
  exact ⟨hsites, hstuck, hstarted, fun k hk cs n => hw.calls_ordered hpages rfl h2 hN hk⟩

/-- a unit with a queue and remapped interrupts is started twice, and is switched on in its order -/
theorem brought_up_in_order_again : ∃ (p₀ p : Platform) (u : Remapper) (m₁ m k n : Machine Unit) (es : List Event),
    create ⟨true, true, none⟩ .platform fourPages (Remapper.unitPair {}) = .ok p₀ m₁ ∧
      SecondStage.addUnits p₀ [⟨0xfed90000, .device 0⟩] fourPages m₁ = .ok p m ∧ p.units = [u] ∧
      p.decideRemapping.startUnits fourPages m = .ok () k ∧ p.decideRemapping.startUnits.after fourPages k = n ∧
      m.Logs es n ∧ Allowed 0 (p.decideRemapping.InOrder u 0 {} m) [] es ∧
      ∀ b ∈ [Command.interruptRemapping, Command.queuedInvalidation, Command.dmaRemapping],
        .acted 0 (.global b) ∈ es := by
  have hc := Remapper.disjoint_default
  have hnew := Remapper.unitPair_new hc.apart 0 0 (by decide)
  obtain ⟨p₀, m₁, p, m, u, hcreate, hadd, hunits, hconfig, hdesc, hstart, -, hlike, -⟩ :=
    exists_waiting ⟨true, true, none⟩ 0xfed90000 (unitPair_few {}) hnew (by decide)
  have hqueued : u.isQueued = true := hdesc.isQueued
  have hremaps : p.decideRemapping.remapping = true := by
    have hu : u.remapsInterrupts = true := by
      unfold Remapper.remapsInterrupts
      rw [hdesc.extended]
      decide
    show p.canRemapInterrupts = true
    unfold canRemapInterrupts
    rw [hconfig, hunits]
    simp [hu, hqueued]
  have hpatience : 2 ≤ (fourPages : Env Unit).patience := Nat.le_refl 2
  obtain ⟨k, -, hk, -⟩ := hstart.start hpatience (Nat.zero_le 2) (fun hu => by
    rw [Remapper.isQueued, hu] at hqueued
    cases hqueued) p.decideRemapping.contexts.root (if p.decideRemapping.remapping then
      some p.decideRemapping.interruptTable.register else none) p.decideRemapping.config.event
  have hk : p.decideRemapping.startUnits fourPages m = .ok () k :=
    (startUnits_singleton (p := p.decideRemapping) hunits fourPages m).trans hk
  have hcalls : p.decideRemapping.Called k [.start] (p.decideRemapping.startUnits.after fourPages k) :=
    .call fourPages .start .refl fourPages_alone fourPages_honest
  obtain ⟨-, -, -, hordered⟩ := brought_up_in_order fourPages_alone fourPages_honest (unitPair_isNew hc 0xfed90000 0)
    (List.nodup_singleton _) hcreate hadd hpatience (Nat.zero_le 2)
  obtain ⟨es, hes, hallowed⟩ := hordered k hk _ _ hcalls u (hunits ▸ List.mem_singleton.mpr rfl) 0 hdesc.registers
  refine ⟨p₀, p, u, m₁, m, k, _, es, hcreate, hadd, hunits, hk, rfl, hes, hallowed, fun b hb => ?_⟩
  have hregisters : ∀ v ∈ p.decideRemapping.units, ∃ i, v.registers = .device i := fun v hv =>
    ⟨0, List.mem_singleton.mp (hunits ▸ hv) ▸ hdesc.registers⟩
  have hcommanded : m.Commanded 0 (p.decideRemapping.commandsOf 0) k :=
    (startUnits_issues hregisters).commanded hstart.wakes.free hk
  obtain ⟨fs, hfs, -⟩ := hcommanded.logs
  obtain ⟨-, gs, hgs, -⟩ := hcalls.persists hregisters 0 hcommanded.turnedOn
  have hcommands : p.decideRemapping.commandsOf 0 = u.bringUp true := by
    unfold commandsOf Remapper.commandsOf
    rw [hremaps, show p.decideRemapping.units = [u] from hunits, List.flatMap_singleton, if_pos hdesc.registers]
  have hin : ∀ b ∈ [Command.interruptRemapping, Command.queuedInvalidation, Command.dmaRemapping],
      b ∈ u.bringUp true ∧ b ∈ Command.issued := by
    unfold Remapper.bringUp
    rw [hqueued]
    exact List.forall_mem_cons.mpr ⟨by decide, List.forall_mem_cons.mpr ⟨by decide,
      List.forall_mem_singleton.mpr (by decide)⟩⟩
  have hoff : (m.devices.get 0).unit.status &&& b = 0 := by
    rw [hlike.unit, Remapper.unitPair_get {} (by decide)]
    exact UInt32.zero_and
  rw [hes.inj (hfs.trans hgs)]
  exact List.mem_append_left _ (hcommanded.acted_of_off hfs (hcommands ▸ (hin b hb).1) (hin b hb).2 hoff)

/-- A unit whose IOTLB registers lie too far away to be reported is switched on although it acted on no invalidation of
mappings. -/
theorem far_switched_on : far.Disjoint ∧ ∃ (p : Platform) (n : Machine Unit),
    bringUp ⟨false, false, none⟩ .platform [⟨0xfed90000, .device 0⟩] fourPages (Remapper.unitPair far) = .ok p n ∧
      .acted 0 (.global Command.dmaRemapping) ∈ n.trace.toList ∧
      n.invalidations 0 = [⟨Descriptor.contextKind, 1, 0⟩] := by
  have hnew := Remapper.unitPair_new far_disjoint.apart 0 0 (by decide)
  have hpatience : 2 ≤ (fourPages : Env Unit).patience := Nat.le_refl 2
  obtain ⟨p₀, m₁, p, m, u, hcreate, hadd, hunits, -, hdesc, hstart, -, hlike, -⟩ :=
    exists_waiting ⟨false, false, none⟩ 0xfed90000 (unitPair_few far) hnew (by decide)
  obtain ⟨interrupts, hi⟩ : ∃ interrupts, (if p.decideRemapping.remapping then
    some p.decideRemapping.interruptTable.register else none) = interrupts := ⟨_, rfl⟩
  have hqueue : u.queue = none :=
    Option.not_isSome_iff_eq_none.mp (Bool.eq_false_iff.mp (hdesc.isQueued.trans (Bool.false_and _)))
  have hunit : (m.devices.get 0).unit = .create far := by
    rw [hlike.unit, Remapper.unitPair_get far (by decide)]
  obtain ⟨j, rs, hj, hdj, hrs, hready⟩ := hstart.idle.opens hpatience (fun _ => far_settles hstart)
    p.decideRemapping.contexts.root interrupts p.decideRemapping.config.event
  obtain ⟨k, rs₁, rs₂, hk, hdk, hreadyk, hrs₁, -, hrs₂⟩ := hready.invalidate_commanded hpatience .global 0 hqueue
  obtain ⟨n, rs₃, hn, hdn, hrs₃, -⟩ := Remapper.enable_dropped (Nat.zero_lt_two) hk hdk hreadyk interrupts.isSome
  have hrun := hj.trans hn
  have hstarted : p.decideRemapping.startUnits fourPages m = .ok () n :=
    (startUnits_singleton (p := p.decideRemapping) hunits fourPages m).trans (hi ▸ hrun)
  refine ⟨far_disjoint, p.decideRemapping, n, ?_, ?_, ?_⟩
  · unfold bringUp
    simp only [Act.bind_apply, hcreate, hadd, hstarted, Act.pure_apply]
  · have hcommanded := (Remapper.start_issues hdesc.registers _ _ _).commanded hstart.wakes.free hrun
    obtain ⟨es, hes, -⟩ := hcommanded.logs
    rw [hes]
    refine List.mem_append_right _ (hcommanded.acted_of_off hes (b := Command.dmaRemapping) ?_ (by decide) ?_)
    · exact List.mem_append_right _ (List.mem_append_right _ (List.mem_singleton.mpr rfl))
    · rw [hunit]
      rfl
  · rw [if_pos (far_disjoint.faults _ (by decide))] at hrs₁
    rw [(hdj.trans hdn).invalidations, hrs₁, hrs₂ (far_iotlbOffset hdesc.extended) (far_disjoint.faults _ (by decide)),
      List.filterMap_append, List.filterMap_append, hrs, hrs₃]
    unfold Machine.invalidations
    rw [hunit]
    rfl

end Platform

end NestedPaging
