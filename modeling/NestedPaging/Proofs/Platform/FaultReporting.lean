import NestedPaging.Proofs.Unit.Addition
import NestedPaging.Proofs.Unit.FaultDraining
import NestedPaging.Remap.Platform

/-!
# Faults of several units

Units record faults, raise events and are handled, alone or all of a platform at once (`FaultStep`). Whatever
happened, the logs are those of the units (`FaultStep.forM_ok`), so that a handler reports what was recorded last in
each slot, and leaves nothing (`drains_after`).

This takes units whose capability registers say where their records are. A handler that was told another place
looks for faults there for ever (`drains_astray`).

* `Remapper.reportsAll`, `Remapper.handledAll`   what several units report, one after the other;
* `FaultStep.logs`   the logs of new units after some steps.
-/

namespace NestedPaging

variable {σ ε : Type}

namespace Remapper

/-! ## units side by side -/

/-- the unit was found at one of the devices `cells`; `caps` are the capabilities of the units behind them -/
def Among (caps : Nat → Capabilities) (cells : Set Nat) (u : Remapper) : Prop :=
  ∃ cell ∈ cells, u.Reads cell (caps cell)

/-- the lines that report all faults of the unit -/
def reports (u : Remapper) (logs : Nat → FaultLog) : List String :=
  match u.registers with
  | .device cell => (logs cell).inOrder.map u.faultLine
  | .mapped _ => []

/-- the logs of all units once the faults of this one are handled -/
def handled (u : Remapper) (logs : Nat → FaultLog) : Nat → FaultLog :=
  match u.registers with
  | .device cell => Function.update logs cell (logs cell).handled
  | .mapped _ => logs

/-- the lines that report all faults of several units, one after the other; if units share a device, the first of
them reports its faults -/
def reportsAll : List Remapper → (Nat → FaultLog) → List String
  | [], _ => []
  | u :: us, logs => u.reports logs ++ reportsAll us (u.handled logs)

def handledAll (us : List Remapper) (logs : Nat → FaultLog) : Nat → FaultLog :=
  us.foldl (fun logs u => u.handled logs) logs

end Remapper

/-- the devices `cells` answer freely, and `logs` are the logs of their units -/
def Machine.Records (caps : Nat → Capabilities) (cells : Set Nat) (logs : Nat → FaultLog) (m : Machine σ) : Prop :=
  ∀ cell ∈ cells, (m.devices.get cell).Records (caps cell) (logs cell)

section
variable {caps : Nat → Capabilities} {cells : Set Nat} {logs : Nat → FaultLog} {u : Remapper} {us : List Remapper}
  {cell i : Nat} {l : FaultLog} {m n : Machine σ} {env : Env σ}

/-- one device changes -/
theorem Machine.Records.update (h : m.Records caps cells logs)
    (hd : (n.devices.get cell).Records (caps cell) l) (ho : ∀ i, i ≠ cell → n.devices.get i = m.devices.get i) :
    n.Records caps cells (Function.update logs cell l) := by
  intro i hi
  by_cases hic : i = cell
  · subst hic
    rwa [Function.update_self]
  · rw [Function.update_of_ne hic, ho i hic]
    exact h i hi

namespace Remapper

theorem reports_device (hr : u.registers = .device cell) :
    u.reports logs = (logs cell).inOrder.map u.faultLine := by
  unfold reports
  rw [hr]

theorem handled_device (hr : u.registers = .device cell) :
    u.handled logs = Function.update logs cell (logs cell).handled := by
  unfold handled
  rw [hr]

theorem handled_mapped {base : PhysAddr} (hr : u.registers = .mapped base) : u.handled logs = logs := by
  unfold handled
  rw [hr]

/-- a unit that is quiet stays so while others are handled -/
theorem quiet_handled (u : Remapper) (h : (logs i).Quiet) : (u.handled logs i).Quiet := by
  cases hr : u.registers with
  | mapped base => rwa [handled_mapped hr]
  | device cell =>
    rw [handled_device hr]
    by_cases hic : i = cell
    · subst hic
      rw [Function.update_self]
      exact (logs i).quiet_handled
    · rwa [Function.update_of_ne hic]

theorem quiet_handledAll (hu : u ∈ us) (hr : u.registers = .device cell) : (handledAll us logs cell).Quiet := by
  have hkeep : ∀ (us : List Remapper) (logs : Nat → FaultLog), (logs cell).Quiet → (handledAll us logs cell).Quiet := by
    intro us
    induction us with
    | nil => exact fun _ => id
    | cons v us ih => exact fun logs h => ih _ (v.quiet_handled h)
  induction us generalizing logs with
  | nil => exact absurd hu List.not_mem_nil
  | cons v us ih =>
    rcases List.mem_cons.mp hu with rfl | hu
    · refine hkeep us (u.handled logs) ?_
      rw [handled_device hr, Function.update_self]
      exact (logs cell).quiet_handled
    · exact ih hu

/-- units that are quiet have nothing to report -/
theorem reportsAll_quiet (h : ∀ u ∈ us, ∀ cell, u.registers = .device cell → (logs cell).Quiet) :
    reportsAll us logs = [] := by
  induction us generalizing logs with
  | nil => rfl
  | cons u us ih =>
    have hu : u.reports logs = [] := by
      cases hr : u.registers with
      | mapped base =>
        unfold reports
        rw [hr]
      | device cell =>
        rw [reports_device hr, FaultLog.inOrder_of_pending (h u List.mem_cons_self cell hr).pending, List.map_nil]
    unfold reportsAll
    rw [hu, List.nil_append]
    exact ih fun v hv cell hr => u.quiet_handled (h v (List.mem_cons_of_mem u hv) cell hr)

/-- units of different devices report as if each was alone -/
theorem reportsAll_of_pairwise (h : us.Pairwise fun u v => u.registers ≠ v.registers) :
    reportsAll us logs = us.flatMap fun u => u.reports logs := by
  induction us generalizing logs with
  | nil => rfl
  | cons u us ih =>
    obtain ⟨hne, hrest⟩ := List.pairwise_cons.mp h
    have hkeep : us.flatMap (fun v => v.reports (u.handled logs)) = us.flatMap fun v => v.reports logs := by
      refine List.flatMap_congr fun v hv => ?_
      have huv := hne v hv
      cases hu : u.registers with
      | mapped base => rw [handled_mapped hu]
      | device i =>
        cases hv : v.registers with
        | mapped base =>
          unfold reports
          rw [hv]
        | device j =>
          have hji : j ≠ i := fun e => huv (by rw [hu, hv, e])
          rw [reports_device hv, reports_device hv, handled_device hu, Function.update_of_ne hji]
    unfold reportsAll
    rw [ih hrest, hkeep, List.flatMap_cons]

end Remapper

variable (hc : ∀ cell ∈ cells, (caps cell).Locates) (h2 : 2 ≤ env.patience)
include hc h2

theorem Remapper.Among.handleFaults (hu : u.Among caps cells) (h : m.Records caps cells logs) :
    ∃ n, (u.handleFaults : Act σ ε Nat) env m = .ok (u.reports logs).length n ∧
      n.warnings = m.warnings ++ u.reports logs ∧ n.Records caps cells (u.handled logs) := by
  obtain ⟨cell, hcell, hr⟩ := hu
  obtain ⟨n, hn, hmn, hnd⟩ := handleFaults_ok (ε := ε) hr (hc cell hcell) env h2 (h cell hcell)
  rw [reports_device hr.registers, handled_device hr.registers, List.length_map, FaultLog.length_inOrder]
  exact ⟨n, hn, hmn.warnings, h.update hnd hmn.driven.devices⟩

theorem Platform.handleFaults_ok (p : Platform) (hu : ∀ u ∈ p.units, u.Among caps cells)
    (h : m.Records caps cells logs) :
    ∃ n, (p.handleFaults : Act σ ε Nat) env m = .ok (Remapper.reportsAll p.units logs).length n ∧
      n.warnings = m.warnings ++ Remapper.reportsAll p.units logs ∧
      n.Records caps cells (Remapper.handledAll p.units logs) := by
  have hsum : ∀ (us : List Remapper) (drained : Nat) (logs : Nat → FaultLog) (m : Machine σ),
      (∀ u ∈ us, u.Among caps cells) → m.Records caps cells logs → ∃ n,
        (us.foldlM (fun n u => do pure (n + (← u.handleFaults))) drained : Act σ ε Nat) env m
          = .ok (drained + (Remapper.reportsAll us logs).length) n ∧
        n.warnings = m.warnings ++ Remapper.reportsAll us logs ∧
        n.Records caps cells (Remapper.handledAll us logs) := by
    intro us
    induction us with
    | nil => exact fun drained logs m _ h => ⟨m, rfl, (List.append_nil _).symm, h⟩
    | cons u us ih =>
      intro drained logs m hu h
      obtain ⟨k, hk, hmk, hkr⟩ := (hu u List.mem_cons_self).handleFaults (ε := ε) hc h2 h
      obtain ⟨n, hn, hkn, hnr⟩ := ih (drained + (u.reports logs).length) (u.handled logs) k
        (fun v hv => hu v (List.mem_cons_of_mem u hv)) hkr
      refine ⟨n, ?_, ?_, hnr⟩
      · unfold Remapper.reportsAll
        rw [List.foldlM_cons, List.length_append, ← Nat.add_assoc]
        simp only [Act.bind_apply, hk, Act.pure_apply, hn]
      · unfold Remapper.reportsAll
        rw [hkn, hmk, List.append_assoc]
  obtain ⟨n, hn, h⟩ := hsum p.units 0 logs m hu h
  rw [Nat.zero_add] at hn
  exact ⟨n, hn, h⟩

end

/-! ## histories -/

/-- what happens to the faults of units -/
inductive FaultStep where
  /-- the unit behind the device `cell` notices a fault, and records it in slot `i` -/
  | inject (cell i : Nat) (r : FaultRecord)
  | raise (cell : Nat) (bits : UInt32)
  | handle (u : Remapper)
  | interrupt (p : Platform)

namespace FaultStep

def perform : FaultStep → Act σ ε Unit
  | inject cell i r => Act.injectFault cell i r
  | raise cell bits => Act.raiseFaults cell bits
  | handle u => do let _ ← u.handleFaults
  | interrupt p => do let _ ← p.handleFaults

/-- the unit has such a slot, only event bits are raised, and handlers are those of the units -/
def Allowed (caps : Nat → Capabilities) (cells : Set Nat) : FaultStep → Prop
  | inject cell i _ => cell ∈ cells ∧ i < (caps cell).faultRecords
  | raise cell bits => cell ∈ cells ∧ bits &&& FaultLog.eventBits = bits
  | handle u => u.Among caps cells
  | interrupt p => ∀ u ∈ p.units, u.Among caps cells

/-- the logs of all units after a step -/
def noted (logs : Nat → FaultLog) : FaultStep → (Nat → FaultLog)
  | inject cell i r => Function.update logs cell ((logs cell).inject i r)
  | raise cell bits => Function.update logs cell ((logs cell).raise bits)
  | handle u => u.handled logs
  | interrupt p => Remapper.handledAll p.units logs

/-- the logs of new units after some steps -/
def logs (caps : Nat → Capabilities) (steps : List FaultStep) : Nat → FaultLog :=
  steps.foldl noted fun cell => .blank (caps cell).faultRecords

end FaultStep

section
variable {caps : Nat → Capabilities} {cells : Set Nat} {logs : Nat → FaultLog} {steps : List FaultStep} {s : FaultStep}
  {cell i : Nat} {m m₀ n : Machine σ} {env : Env σ}

/-- a unit changes, and its log with it -/
theorem Act.changeDevice_records (h : m.Records caps cells logs) (hcell : cell ∈ cells) {f : Emulated → Emulated}
    {g : FaultLog → FaultLog} (hcaps : ∀ e, (f e).caps = e.caps) (hlog : ∀ e, (f e).faultLog = g e.faultLog)
    (hfits : (g (logs cell)).Fits (caps cell)) (env : Env σ) :
    ∃ n, (changeDevice cell (fun _ d => { d with unit := f d.unit }) : Act σ ε Unit) env m = .ok () n ∧
      n.Records caps cells (Function.update logs cell (g (logs cell))) := by
  have hd := h cell hcell
  refine ⟨_, rfl, h.update ?_ fun i hi => ?_⟩
  · rw [devices_notes, Cells.get_modify, if_pos rfl]
    exact hd.change (hcaps _) ((hlog _).trans (congrArg g hd.log)) hfits
  · rw [devices_notes, Cells.get_modify, if_neg (Ne.symm hi)]

theorem Act.injectFault_ok (h : m.Records caps cells logs) (hcell : cell ∈ cells) (hi : i < (caps cell).faultRecords)
    (r : FaultRecord) (env : Env σ) : ∃ n, (injectFault cell i r : Act σ ε Unit) env m = .ok () n ∧
      n.Records caps cells (Function.update logs cell ((logs cell).inject i r)) := by
  have hlatched := (h cell hcell).fits.latch hi
  obtain ⟨k, hk, hkr⟩ := changeDevice_records (ε := ε) h hcell (f := fun e => e.latchFault i) (g := fun l => l.latch i)
    (fun e => by unfold Emulated.latchFault; split <;> rfl) (fun e => e.faultLog_latch i) hlatched env
  obtain ⟨n, hn, hnr⟩ := changeDevice_records (ε := ε) hkr hcell
    (f := fun e => e.recordFault i r.address (FaultRecord.upper r.source r.reason r.isRead))
    (g := fun l => l.fill i r) (fun e => rfl) (fun e => e.faultLog_record i r)
    (by rw [Function.update_self]; exact hlatched.fill i r) env
  rw [Function.update_idem, Function.update_self] at hnr
  refine ⟨n, ?_, hnr⟩
  unfold injectFault
  simp only [bind_apply, view_apply, hk, (h cell hcell).size, if_neg (Nat.not_le.mpr hi), hn]

variable (hc : ∀ cell ∈ cells, (caps cell).Locates) (h2 : 2 ≤ env.patience)
include hc h2

theorem FaultStep.perform_ok (h : m.Records caps cells logs) (hs : s.Allowed caps cells) :
    ∃ n, (s.perform : Act σ ε Unit) env m = .ok () n ∧ n.Records caps cells (s.noted logs) := by
  cases s with
  | inject cell i r => exact Act.injectFault_ok h hs.1 hs.2 r env
  | raise cell bits =>
    exact Act.changeDevice_records h hs.1 (f := fun e => e.raise bits) (g := fun l => l.raise bits) (fun e => rfl)
      (fun e => e.faultLog_raise bits) ((h cell hs.1).fits.raise hs.2) env
  | handle u =>
    obtain ⟨n, hn, -, hnr⟩ := Remapper.Among.handleFaults (ε := ε) hc h2 hs h
    refine ⟨n, ?_, hnr⟩
    unfold perform
    simp only [Act.bind_apply, hn, Act.pure_apply]
  | interrupt p =>
    obtain ⟨n, hn, -, hnr⟩ := p.handleFaults_ok (ε := ε) hc h2 hs h
    refine ⟨n, ?_, hnr⟩
    unfold perform
    simp only [Act.bind_apply, hn, Act.pure_apply]

/-- whatever happened, the logs are those of the units -/
theorem FaultStep.forM_ok (h : m.Records caps cells logs) (hs : ∀ s ∈ steps, s.Allowed caps cells) :
    ∃ n, (steps.forM FaultStep.perform : Act σ ε Unit) env m = .ok () n ∧
      n.Records caps cells (steps.foldl FaultStep.noted logs) := by
  induction steps generalizing m logs with
  | nil => exact ⟨m, rfl, h⟩
  | cons s steps ih =>
    obtain ⟨k, hk, hkr⟩ := perform_ok (ε := ε) hc h2 h (hs s List.mem_cons_self)
    obtain ⟨n, hn, hnr⟩ := ih hkr fun s hin => hs s (List.mem_cons_of_mem _ hin)
    exact ⟨n, Act.forM_cons_ok hk hn, hnr⟩

/-! ## handlers after any history -/

omit hc h2 in
theorem Device.records_new {c : Capabilities} {d : Device} (hf : d.Free) (hu : d.unit = .create c)
    (hc : c.Locates) : d.Records c (.blank c.faultRecords) :=
  ⟨hf, hu ▸ rfl, hu ▸ Emulated.faultLog_create c, FaultLog.fits_blank hc.records_pos⟩

omit hc h2 in
theorem Device.Records.quiet {c : Capabilities} {l : FaultLog} {d : Device} (h : d.Records c l) (hq : l.Quiet) :
    d.unit.pendingFaults = 0 ∧ d.unit.faultStatus = 0 := by
  rw [Emulated.pendingFaults_eq, Emulated.faultStatus_eq, h.log]
  exact ⟨hq.pending, hq.status⟩

end

/-- the handler of `u` drains its unit, with the log `l`, and then finds nothing more -/
def Remapper.Drains (ε : Type) (env : Env σ) (u : Remapper) (cell : Nat) (l : FaultLog) (m : Machine σ) : Prop :=
  ∃ n k, (u.handleFaults : Act σ ε Nat) env m = .ok (m.devices.get cell).unit.pendingFaults n ∧
    n.warnings = m.warnings ++ l.inOrder.map u.faultLine ∧
    l.inOrder.length = (m.devices.get cell).unit.pendingFaults ∧
    (n.devices.get cell).unit.pendingFaults = 0 ∧ (n.devices.get cell).unit.faultStatus = 0 ∧
    (∀ i, i ≠ cell → n.devices.get i = m.devices.get i) ∧
    (u.handleFaults : Act σ ε Nat) env n = .ok 0 k ∧ k.warnings = n.warnings

/-- the faults that are pending in a unit -/
def Remapper.pendingFaults (u : Remapper) (m : Machine σ) : Nat :=
  match u.registers with
  | .device cell => (m.devices.get cell).unit.pendingFaults
  | .mapped _ => 0

/-- the handler of all units of `p` drains each of them, and then finds nothing more -/
def Platform.Drains (ε : Type) (env : Env σ) (p : Platform) (logs : Nat → FaultLog) (m : Machine σ) : Prop :=
  ∃ n k, (p.handleFaults : Act σ ε Nat) env m = .ok (Remapper.reportsAll p.units logs).length n ∧
    n.warnings = m.warnings ++ Remapper.reportsAll p.units logs ∧
    ((p.units.Pairwise fun u v => u.registers ≠ v.registers) →
      Remapper.reportsAll p.units logs = p.units.flatMap (fun u => u.reports logs) ∧
        (Remapper.reportsAll p.units logs).length = (p.units.map fun u => u.pendingFaults m).sum) ∧
    (∀ u ∈ p.units, ∀ cell, u.registers = .device cell →
      (n.devices.get cell).unit.pendingFaults = 0 ∧ (n.devices.get cell).unit.faultStatus = 0) ∧
    (p.handleFaults : Act σ ε Nat) env n = .ok 0 k ∧ k.warnings = n.warnings

section
variable {caps : Nat → Capabilities} {cells : Set Nat} {logs : Nat → FaultLog} {steps : List FaultStep}
  {u : Remapper} {cell : Nat} {m m₀ : Machine σ} {env : Env σ}
variable (hc : ∀ cell ∈ cells, (caps cell).Locates) (h2 : 2 ≤ env.patience)
include hc h2

theorem Machine.Records.drains (h : m.Records caps cells logs) (hcell : cell ∈ cells)
    (hu : u.Reads cell (caps cell)) : u.Drains ε env cell (logs cell) m := by
  have hd := h cell hcell
  obtain ⟨n, hn, hmn, hnd⟩ := Remapper.handleFaults_ok (ε := ε) hu (hc cell hcell) env h2 hd
  obtain ⟨k, hk, hnk, -⟩ := Remapper.handleFaults_ok (ε := ε) hu (hc cell hcell) env h2 hnd
  have hq := (logs cell).quiet_handled
  have hpending : (m.devices.get cell).unit.pendingFaults = (logs cell).pending := by
    rw [Emulated.pendingFaults_eq, hd.log]
  obtain ⟨hnone, hstatus⟩ := hnd.quiet hq
  refine ⟨n, k, ?_, hmn.warnings, ?_, hnone, hstatus, hmn.driven.devices, ?_, ?_⟩
  · rw [hn, hpending]
  · rw [FaultLog.length_inOrder, hpending]
  · rw [hk, hq.pending]
  · rw [hnk.warnings, FaultLog.inOrder_of_pending hq.pending, List.map_nil, List.append_nil]

omit hc h2 in
theorem Machine.Records.length_reports (h : m.Records caps cells logs) (hu : u.Among caps cells) :
    (u.reports logs).length = u.pendingFaults m := by
  obtain ⟨cell, hcell, hr⟩ := hu
  have hpending : u.pendingFaults m = (m.devices.get cell).unit.pendingFaults := by
    unfold Remapper.pendingFaults
    rw [hr.registers]
  rw [Remapper.reports_device hr.registers, List.length_map, FaultLog.length_inOrder, hpending,
    Emulated.pendingFaults_eq, (h cell hcell).log]

theorem Machine.Records.drainsAll (h : m.Records caps cells logs) {p : Platform}
    (hu : ∀ u ∈ p.units, u.Among caps cells) : p.Drains ε env logs m := by
  obtain ⟨n, hn, hmn, hnr⟩ := p.handleFaults_ok (ε := ε) hc h2 hu h
  obtain ⟨k, hk, hnk, -⟩ := p.handleFaults_ok (ε := ε) hc h2 hu hnr
  have hnone : Remapper.reportsAll p.units (Remapper.handledAll p.units logs) = [] :=
    Remapper.reportsAll_quiet fun u hin cell hr => Remapper.quiet_handledAll hin hr
  rw [hnone] at hk hnk
  refine ⟨n, k, hn, hmn, fun hp => ?_, fun u hin cell hr => ?_, hk, ?_⟩
  · have hall : Remapper.reportsAll p.units logs = p.units.flatMap fun u => u.reports logs :=
      Remapper.reportsAll_of_pairwise hp
    refine ⟨hall, ?_⟩
    rw [hall, List.length_flatMap]
    exact congrArg List.sum (List.map_congr_left fun u hin => h.length_reports (hu u hin))
  · obtain ⟨cell', hcell, hread⟩ := hu u hin
    rw [hread.registers] at hr
    injection hr with hr
    subst hr
    exact (hnr cell' hcell).quiet (Remapper.quiet_handledAll hin hread.registers)
  · rw [hnk, List.append_nil]

/-- Whatever was recorded, raised and handled since the units were new, every handler ends: that of a unit drains it,
and reports the faults that were recorded last in its slots, once each and in ring order; that of a platform does the
same to each unit. -/
theorem drains_after (hnew : ∀ cell ∈ cells, (m₀.devices.get cell).Free ∧
      (m₀.devices.get cell).unit = .create (caps cell)) (hs : ∀ s ∈ steps, s.Allowed caps cells) :
    ∃ m, (steps.forM FaultStep.perform : Act σ ε Unit) env m₀ = .ok () m ∧
      (∀ u : Remapper, ∀ cell ∈ cells, u.Reads cell (caps cell) →
        u.Drains ε env cell (FaultStep.logs caps steps cell) m) ∧
      ∀ p : Platform, (∀ u ∈ p.units, u.Among caps cells) → p.Drains ε env (FaultStep.logs caps steps) m := by
  have hblank : m₀.Records caps cells fun cell => .blank (caps cell).faultRecords := fun cell hcell =>
    Device.records_new (hnew cell hcell).1 (hnew cell hcell).2 (hc cell hcell)
  obtain ⟨m, hm, hr⟩ := FaultStep.forM_ok (ε := ε) hc h2 hblank hs
  exact ⟨m, hm, fun u cell hcell hu => hr.drains hc h2 hcell hu, fun p hu => hr.drainsAll hc h2 hu⟩

end

/-- the usual layout can be told -/
theorem Capabilities.locates_default : ({} : Capabilities).Locates :=
  locates (by decide) (by decide) (by decide) (by decide) (by decide) Remapper.disjoint_default.faults

/-- two faults and an event, after an earlier fault was handled -/
theorem drains_after_two : ∃ (u : Remapper) (steps : List FaultStep) (env : Env Unit) (m : Machine Unit),
    steps = [.inject 0 3 ⟨0x310, 5, true, 0x5fff⟩, .handle u, .raise 0 1, .inject 0 2 ⟨0xf8, 6, false, 0x6000⟩,
      .inject 0 1 ⟨0x310, 5, true, 0x7abc⟩] ∧
    (steps.forM FaultStep.perform : Act Unit RemapError Unit) env (Remapper.unitPair {}) = .ok () m ∧
    (FaultStep.logs (fun _ => {}) steps 0).inOrder
      = [⟨0xf8, 6, false, 0x6000⟩, ⟨0x310, 5, true, 0x7000⟩] ∧
    u.Drains RemapError env 0 (FaultStep.logs (fun _ => {}) steps 0) m := by
  obtain ⟨u, hu⟩ : ∃ u : Remapper, u = ⟨0xfed90000, .device 0, ({} : Capabilities).word,
    ({} : Capabilities).extendedWord, none, .platform⟩ := ⟨_, rfl⟩
  have hreads : u.Reads 0 {} := ⟨hu ▸ rfl, hu ▸ rfl⟩
  have hpatience : 2 ≤ ({ Env.offering [] with patience := 2 } : Env Unit).patience := Nat.le_refl 2
  have hnew : ∀ cell ∈ ({0} : Set Nat), ((Remapper.unitPair {}).devices.get cell).Free ∧
      ((Remapper.unitPair {}).devices.get cell).unit = .create {} := by
    rintro cell rfl
    rw [Remapper.unitPair_get {} (by decide)]
    exact ⟨Remapper.free_create _, rfl⟩
  have hallowed : ∀ s ∈ ([.inject 0 3 ⟨0x310, 5, true, 0x5fff⟩, .handle u, .raise 0 1,
      .inject 0 2 ⟨0xf8, 6, false, 0x6000⟩, .inject 0 1 ⟨0x310, 5, true, 0x7abc⟩] : List FaultStep),
      s.Allowed (fun _ => {}) {0} := by
    simp only [List.forall_mem_cons]
    exact ⟨⟨rfl, by decide⟩, ⟨0, rfl, hreads⟩, ⟨rfl, by decide⟩, ⟨rfl, by decide⟩, ⟨rfl, by decide⟩, nofun⟩
  obtain ⟨m, hm, hdrains, -⟩ := drains_after (ε := RemapError) (fun _ _ => Capabilities.locates_default) hpatience hnew
    hallowed
  refine ⟨u, _, _, m, rfl, hm, ?_, hdrains u 0 rfl hreads⟩
  subst hu
  decide

/-! ## records that are not where the capability register says -/

namespace Remapper

/-- the unit reports a fault, and the handler looks for it where nothing is recorded -/
structure Astray (u : Remapper) (e : Emulated) : Prop where
  offset : ∀ i < u.faultRecords, u.faultOffset i ≠ Register.queueHead ∧ u.faultOffset i + 8 ≠ Register.queueHead
  empty : ∀ i < u.faultRecords,
    FaultRecord.decode? (e.read64 (u.faultOffset i)) (e.read64 (u.faultOffset i + 8)) = none
  status : e.faultStatus &&& FaultStatus.events ≠ 0
  events : e.faultEvents = 0

namespace Astray
variable {u : Remapper} {cell i : Nat} {is : List Nat} {d : Device} {m : Machine σ} (h : u.Astray d.unit)
  (hr : u.registers = .device cell) (env : Env σ)
include h hr

theorem takeFault (hd : d.Like (m.devices.get cell)) (hi : i < u.faultRecords) :
    ∃ n, (u.takeFault i : Act σ ε (Option FaultRecord)) env m = .ok none n ∧ d.Like (n.devices.get cell) := by
  obtain ⟨hlo, hhi⟩ := h.offset i hi
  obtain ⟨k, hk, -, -, hlk⟩ := RegisterFile.read64_free (ε := ε) env u hd.free (u.faultOffset i) hlo
  obtain ⟨n, hn, -, -, hln⟩ := RegisterFile.read64_free (ε := ε) env u hlk.free (u.faultOffset i + 8) hhi
  rw [hd.unit] at hk
  rw [hlk.unit, hd.unit] at hn
  refine ⟨n, ?_, hln.unit.trans (hlk.unit.trans hd.unit), hln.wakeAfter.trans (hlk.wakeAfter.trans hd.wakeAfter),
    hln.free⟩
  unfold Remapper.takeFault
  simp only [hr, Act.bind_apply, hk, hn, h.empty i hi, Act.pure_apply]

theorem drainSlots (hd : d.Like (m.devices.get cell)) (hi : ∀ i ∈ is, i < u.faultRecords) :
    ∃ n, (u.drainSlots is : Act σ ε Nat) env m = .ok 0 n ∧ d.Like (n.devices.get cell) := by
  induction is generalizing m with
  | nil => exact ⟨m, rfl, hd⟩
  | cons i is ih =>
    obtain ⟨k, hk, hkd⟩ := h.takeFault (ε := ε) hr env hd (hi i List.mem_cons_self)
    obtain ⟨n, hn, hnd⟩ := ih hkd fun j hj => hi j (List.mem_cons_of_mem i hj)
    refine ⟨n, ?_, hnd⟩
    unfold Remapper.drainSlots
    simp only [Act.bind_apply, hk, hn]

/-- a round changes nothing, so that there is always another -/
theorem drainFaults (hd : d.Like (m.devices.get cell)) (tries : Nat) :
    ∃ n, (u.drainFaults tries : Act σ ε Nat) env m = .error .stuck n := by
  induction tries generalizing m with
  | zero => exact ⟨m, rfl⟩
  | succ tries ih =>
    obtain ⟨k, hk, -, -, hlk⟩ := RegisterFile.read32_free (ε := ε) env u hd.free Register.faultStatus (by decide)
    have hkd : d.Like (k.devices.get cell) :=
      ⟨hlk.unit.trans hd.unit, hlk.wakeAfter.trans hd.wakeAfter, hlk.free⟩
    obtain ⟨s, hs⟩ : ∃ s, d.unit.faultStatus = s := ⟨_, rfl⟩
    have hread : (m.devices.get cell).unit.read32 Register.faultStatus = s := by
      rw [hd.unit, ← hs]
      rfl
    rw [hread] at hk
    obtain ⟨v, hv⟩ : ∃ v, s &&& FaultStatus.events &&& ~~~FaultStatus.pending = v := ⟨_, rfl⟩
    obtain ⟨j, hj, hjd⟩ : ∃ j, (if s &&& FaultStatus.pending != 0 then
        u.drainSlots (ringFrom u.faultRecords (s.toNat / 256 % 256 % u.faultRecords)) else pure 0 : Act σ ε Nat) env k
          = .ok 0 j ∧ d.Like (j.devices.get cell) := by
      split
      · exact h.drainSlots hr env hkd fun i => FaultLog.lt_of_mem_ringFrom
      · exact ⟨k, rfl, hkd⟩
    obtain ⟨i, hi, -, -, hid⟩ := RegisterFile.write32_free (ε := ε) env u hjd.free Register.faultStatus v
      (List.append_nil _).symm
    have hsame : (j.devices.get cell).unit.write32 Register.faultStatus v = d.unit := by
      have hevents : d.unit.faultEvents &&& ~~~(v &&& FaultStatus.events &&& ~~~FaultStatus.pending)
          = d.unit.faultEvents := by rw [h.events, UInt32.zero_and]
      rw [hjd.unit]
      exact congrArg (fun b => { d.unit with faultEvents := b }) hevents
    have hlike : d.Like (i.devices.get cell) := by
      rw [hid]
      exact ⟨hsame, hjd.wakeAfter, hjd.free.allowance, hjd.free.unscripted⟩
    obtain ⟨n, hn⟩ := ih hlike
    refine ⟨n, ?_⟩
    unfold Remapper.drainFaults
    simp only [hr, Act.bind_apply, hk, if_neg (hs ▸ h.status), hv]
    by_cases hp : (s &&& FaultStatus.pending != 0) = true
    · rw [if_pos hp] at hj ⊢
      simp only [Act.bind_apply, hj, hi, hn]
    · rw [if_neg hp] at hj ⊢
      simp only [Act.bind_apply, hj, hi, hn]

end Astray

end Remapper

/-- a unit that claims to support depths of four and of sixteen levels: the latter reaches up into the field that says
where its fault records are -/
def Capabilities.spilling : Capabilities := { widths := 0x10004 }

/-- such a unit with a fault in slot 0 -/
def Emulated.spilling : Emulated :=
  (create .spilling).recordFault 0 0x5000 (FaultRecord.upper 0x310 5 true)

/-- what is made of it -/
def Remapper.spilling : Remapper :=
  ⟨0xfed90000, .device 0, Capabilities.spilling.word, Capabilities.spilling.extendedWord, none, .platform⟩

theorem Emulated.faultLog_spilling : spilling.faultLog = (FaultLog.blank 4).fill 0 ⟨0x310, 5, true, 0x5000⟩ :=
  (faultLog_record (create .spilling) 0 ⟨0x310, 5, true, 0x5000⟩).trans
    (congrArg (fun l : FaultLog => l.fill 0 ⟨0x310, 5, true, 0x5000⟩) (faultLog_create .spilling))

theorem Remapper.astray_spilling : spilling.Astray .spilling := by
  have hlast : FaultRecord.decode? (Emulated.spilling.read64 0x240) (Emulated.spilling.read64 0x248) = none := by
    have hread : Emulated.spilling.read64 0x248 = ({} : Std.HashMap Nat Word).getD 0x248 0 := rfl
    rw [hread, Std.HashMap.getD_empty]
    rfl
  have hcount : spilling.faultRecords = 4 := by decide
  refine ⟨by decide, fun i hi => ?_, ?_, rfl⟩
  · -- the handler starts one record too far, so that its last one is beyond the others
    rcases Nat.lt_or_eq_of_le (Nat.le_of_lt_succ (hcount ▸ hi)) with hlt | rfl
    · revert i
      decide
    · have hoffset : spilling.faultOffset 3 = 0x240 := by decide
      rw [hoffset]
      exact hlast
  · rw [Emulated.faultStatus_eq, Emulated.faultLog_spilling]
    decide

/-- The handler of such a unit is called for the fault in slot 0, and looks for it for ever. -/
theorem drains_astray : ∃ (c : Capabilities) (u : Remapper) (m k n : Machine Unit) (env : Env Unit),
    c.widths = 0x10004 ∧ (1 ≤ c.faultRecords ∧ c.faultRecords ≤ 256) ∧
    (Capabilities.faultBytes ∣ c.faultOffset ∧ c.faultOffset ≤ 0x3ff0) ∧ c.Disjoint ∧
    m = Remapper.unitPair c ∧ Remapper.create 0xfed90000 (.device 0) false .platform env m = .ok u k ∧
    (FaultStep.perform (.inject 0 0 ⟨0x310, 5, true, 0x5000⟩) : Act Unit RemapError Unit) env k = .ok () n ∧
    (n.devices.get 0).unit.pendingFaults = 1 ∧
    ∀ env : Env Unit, ∃ n', (u.handleFaults : Act Unit RemapError Nat) env n = .error .stuck n' := by
  have hnew := Remapper.unitPair_get .spilling (show 0 < 2 by decide)
  have hfree : ((Remapper.unitPair .spilling).devices.get 0).Free := hnew ▸ Remapper.free_create _
  obtain ⟨k, -, hk, -, hcreate⟩ := Remapper.create_look 0xfed90000 false .platform (.offering []) hfree
    (c := .spilling) (by rw [hnew]; rfl)
  rw [hnew] at hk
  have hmake : Remapper.make 0xfed90000 (.device 0) false .platform .spilling (.offering []) k
      = .ok Remapper.spilling k := by
    unfold Remapper.make
    rw [if_pos (by decide), Bool.false_and, if_neg Bool.false_ne_true]
    rfl
  obtain ⟨j, hj, -, hjd⟩ := Act.changeDevice_ok (ε := RemapError) 0
    (fun _ d => { d with unit := d.unit.latchFault 0 }) (.offering []) k
  obtain ⟨n, hn, -, hnd⟩ := Act.changeDevice_ok (ε := RemapError) 0 (fun _ d => { d with
    unit := d.unit.recordFault 0 0x5000 (FaultRecord.upper 0x310 5 true) }) (.offering []) j
  have hunit : (n.devices.get 0).unit = .spilling := by
    have hlatch : (Emulated.create .spilling).latchFault 0 = .create .spilling := by
      unfold Emulated.latchFault
      split <;> rfl
    rw [hnd, hjd, hk.unit]
    exact congrArg (fun e : Emulated => e.recordFault 0 0x5000 (FaultRecord.upper 0x310 5 true)) hlatch
  refine ⟨.spilling, .spilling, _, k, n, .offering [], rfl, by decide, by decide, ?_, rfl, hcreate.trans hmake,
    ?_, ?_, fun env => ?_⟩
  · exact ⟨Remapper.disjoint_default.iotlb, Remapper.disjoint_default.blocks, Remapper.disjoint_default.faults⟩
  · have hsize : (k.devices.get 0).unit.faults.size = 4 := by
      rw [hk.unit]
      rfl
    unfold FaultStep.perform Act.injectFault
    simp only [Act.bind_apply, Act.view_apply, hj, hsize]
    rw [if_neg (by decide)]
    exact hn
  · rw [hunit, Emulated.pendingFaults_eq, Emulated.faultLog_spilling]
    rfl
  · have hlike : (n.devices.get 0).Like (n.devices.get 0) := by
      refine ⟨rfl, rfl, ?_⟩
      rw [hnd, hjd]
      exact ⟨hk.free.allowance, hk.free.unscripted⟩
    have hastray : Remapper.spilling.Astray (n.devices.get 0).unit := by
      rw [hunit]
      exact Remapper.astray_spilling
    exact hastray.drainFaults rfl env hlike env.patience

end NestedPaging
