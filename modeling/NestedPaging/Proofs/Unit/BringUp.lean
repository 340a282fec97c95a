import NestedPaging.Proofs.Unit.Commanding

/-!
# Bringing a unit up

Bring-up first points the unit at its tables (`aim`), then turns its queue on (`openQueue`), and last drops
what is cached and turns DMA remapping on (`enable`). Only the second step matters to the queue, and only
the third asks for invalidations: `Prepares` is what the others may do.

* `Idle.start`      a unit at rest comes up ready, having acted on one global invalidation, whether it was up before or
  is new (`Startable.start`);
* `start_stuck`     a unit whose commands do not settle never comes up.
-/

namespace NestedPaging

variable {σ ε : Type}

namespace Remapper

/-! ## the three steps -/

/-- point the unit at its tables, and say where faults go -/
def aim (u : Remapper) (root : PhysAddr) (interrupts : Option Word) (event : Option FaultEvent) :
    Act σ ε Unit := do
  u.routeFaults event
  u.registers.write64 Register.rootTable root.bits
  u.command Command.setRootTable
  match interrupts with
  | some table => do
    u.registers.write64 Register.interruptTable table
    u.command Command.setInterruptTable
    u.command Command.interruptRemapping
  | none => pure ()

/-- turn the queue on, if there is one -/
def openQueue (u : Remapper) : Act σ ε Unit :=
  match u.queue with
  | some q => do
    u.registers.write64 Register.queueTail (← q.pointers).tailRegister
    u.registers.write64 Register.queueAddress q.base.bits
    u.command Command.queuedInvalidation
  | none => pure ()

/-- drop what is cached, turn DMA remapping on, and report the unit -/
def enable (u : Remapper) (interrupts : Bool) : Act σ RemapError Unit := do
  u.invalidateContexts
  u.command Command.dmaRemapping
  let version ← u.registers.read32 Register.version
  Act.log .info (u.reportLine version interrupts)

theorem start_eq (u : Remapper) (root : PhysAddr) (interrupts : Option Word) (event : Option FaultEvent) :
    (u.start root interrupts event : Act σ RemapError Unit) =
      (do u.aim root interrupts event
          u.openQueue
          u.enable interrupts.isSome) := by
  unfold start aim openQueue enable
  cases interrupts <;> cases u.queue <;> simp

/-! ## steps that leave queue and commands alone -/

/-- from `m` to `n` the unit was set up, without a change to its queue and without any invalidation -/
structure Prepares (u : Remapper) (cell : Nat) (m n : Machine σ) : Prop where
  accessed : m.Accessed n
  driven : ∃ rs, m.Driven u cell rs n ∧ rs.filterMap Request.invalidation? = []
  free : (n.devices.get cell).Free
  wakeAfter : (n.devices.get cell).wakeAfter = (m.devices.get cell).wakeAfter
  steady : (m.devices.get cell).unit.Steady (n.devices.get cell).unit

variable {u : Remapper} {cell N : Nat} {c : Capabilities} {m k n : Machine σ} {env : Env σ}

namespace Prepares

theorem refl (hf : (m.devices.get cell).Free) : u.Prepares cell m m :=
  ⟨.refl m, ⟨[], .refl m, rfl⟩, hf, rfl, .refl _⟩

theorem trans (h : u.Prepares cell m k) (h' : u.Prepares cell k n) : u.Prepares cell m n := by
  obtain ⟨rs, hd, hr⟩ := h.driven
  obtain ⟨rs', hd', hr'⟩ := h'.driven
  refine ⟨h.accessed.trans h'.accessed, ⟨rs ++ rs', hd.trans hd', ?_⟩, h'.free,
    h'.wakeAfter.trans h.wakeAfter, h.steady.trans h'.steady⟩
  rw [List.filterMap_append, hr, hr', List.append_nil]

theorem wakes (h : u.Prepares cell m n) (hw : (m.devices.get cell).Wakes N) : (n.devices.get cell).Wakes N :=
  hw.akin h.free h.wakeAfter (.of_steady h.steady)

/-- a unit that was brought up stays so -/
theorem ready (h : u.Prepares cell m n) (hr : u.Ready cell c N m) : u.Ready cell c N n := by
  have hs := h.steady
  refine ⟨hr.registers, hs.caps.trans hr.caps, hr.extended, h.wakes hr.wakes, fun q hu => ?_, fun hu => ?_⟩
  · have hh := hr.queue q hu
    have hq : q.state n = q.state m := congrArg (·.get q.cell) h.accessed.rings
    rw [hq, h.accessed.memory]
    exact ⟨⟨h.wakes hr.wakes, hh.page, hs.queued ▸ hh.on, hs.address ▸ hh.address, hs.head ▸ hh.head,
      hs.tail ▸ hh.pointer, hh.software, hs.head ▸ hh.count, hh.behind, rfl⟩, fun _ => rfl⟩
  · exact fun offset ho => Emulated.Akin.settles (.of_steady hs) (hr.settles hu offset ho)

end Prepares

section
variable (u : Remapper) (env : Env σ) (hf : (m.devices.get cell).Free)
include hf

theorem prepares_read32 (offset : Nat) (ho : offset ≠ Register.queueHead) :
    ∃ n, ((RegisterFile.device cell).read32 offset : Act σ ε UInt32) env m
        = .ok ((m.devices.get cell).unit.read32 offset) n ∧
      (m.devices.get cell).Like (n.devices.get cell) ∧ u.Prepares cell m n := by
  obtain ⟨n, hn, ha, hd, hl⟩ := RegisterFile.read32_free (ε := ε) env u hf offset ho
  exact ⟨n, hn, hl, ha, ⟨[], hd, rfl⟩, hl.free, hl.wakeAfter, hl.unit ▸ .refl _⟩

theorem prepares_write32 (offset : Nat) (hg : offset ≠ Register.globalCommand) (hs : offset ≠ Register.faultStatus)
    (hq : offset ≠ Register.queueAddress) (v : UInt32) :
    ∃ n, ((RegisterFile.device cell).write32 offset v : Act σ ε Unit) env m = .ok () n ∧
      u.Prepares cell m n := by
  have hw : (m.devices.get cell).unit.write32 offset v
      = (m.devices.get cell).unit.setRegister offset v.toUInt64 := by
    unfold Emulated.write32
    rw [if_neg hg, if_neg hs]
  obtain ⟨n, hn, ha, hd, hnd⟩ := RegisterFile.write32_free (ε := ε) env u hf offset v
    (by rw [hw]; exact (List.append_nil _).symm)
  refine ⟨n, hn, ha, ⟨[], hd, rfl⟩, ?_, ?_, ?_⟩
  · rw [hnd]
    exact ⟨hf.allowance, hf.unscripted⟩
  · rw [hnd]
  · rw [hnd, hw]
    exact Emulated.steady_setRegister _ hq _

theorem prepares_write64 (hc : (m.devices.get cell).unit.caps.Apart) (offset : Nat)
    (ho : Register.IsFixed offset) (ht : offset ≠ Register.queueTail) (hq : offset ≠ Register.queueAddress)
    (hcc : offset ≠ Register.contextCommand) (v : Word) :
    ∃ n, ((RegisterFile.device cell).write64 offset v : Act σ ε Unit) env m = .ok () n ∧
      u.Prepares cell m n := by
  obtain ⟨hw, hacted⟩ := Emulated.steady_write64 hc ho ht hq hcc v
  obtain ⟨n, hn, ha, hd, hnd⟩ := RegisterFile.write64_free (ε := ε) env u hf offset v
    (by rw [hacted, List.append_nil])
  refine ⟨n, hn, ha, ⟨[], hd, rfl⟩, ?_, ?_, ?_⟩
  · rw [hnd]
    exact ⟨hf.allowance, hf.unscripted⟩
  · rw [hnd]
  · rw [hnd]
    exact hw

/-- a global command is done at once -/
theorem command_ok (hr : u.registers = .device cell) (hp : 0 < env.patience) {b : UInt32}
    (hb : b ∈ Command.issued) : ∃ n rs, (u.command b : Act σ ε Unit) env m = .ok () n ∧ m.Accessed n ∧
      m.Driven u cell rs n ∧ rs.filterMap Request.invalidation? = [] ∧
      ({ m.devices.get cell with unit := (m.devices.get cell).unit.issue b } : Device).Like
        (n.devices.get cell) := by
  obtain ⟨k, hk, hak, hdk, hlk⟩ := RegisterFile.read32_free (ε := ε) env u hf Register.globalStatus
    (by decide)
  have hstatus : ∀ e : Emulated, e.read32 Register.globalStatus = e.status := fun e => rfl
  have hwrite : ∀ e : Emulated, e.write32 Register.globalCommand ((e.status &&& ~~~Command.oneShot) ||| b)
      = e.issue b := fun e => rfl
  obtain ⟨rs, hrs, hglobal⟩ := Emulated.acted_issue hb (k.devices.get cell).unit
  rw [← hwrite] at hrs
  obtain ⟨j, hj, haj, hdj, hjd⟩ := RegisterFile.write32_free (ε := ε) env u hlk.free _ _ hrs
  rw [hwrite] at hjd
  have hfree : (j.devices.get cell).Free := by
    rw [hjd]
    exact ⟨hlk.free.allowance, hlk.free.unscripted⟩
  obtain ⟨n, hn, han, hdn, hln⟩ := RegisterFile.read32_free (ε := ε) env u hfree Register.globalStatus
    (by decide)
  have hdone : (((j.devices.get cell).unit.read32 Register.globalStatus) &&& b != 0) = true := by
    rw [hstatus, hjd, Emulated.status_issue hb, Emulated.or_and, UInt32.and_self]
    exact bne_iff_ne.mpr (Command.or_issued_ne_zero hb _)
  have hdrive := hdk.trans (hdj.trans hdn)
  rw [List.nil_append, List.append_nil] at hdrive
  refine ⟨n, rs, ?_, hak.trans (haj.trans han), hdrive, ?_, ?_⟩
  · have hpoll : (Act.poll ((RegisterFile.device cell).read32 Register.globalStatus) fun s => s &&& b != 0 :
        Act σ ε UInt32) env j = .ok ((j.devices.get cell).unit.read32 Register.globalStatus) n :=
      Act.poll_ok hp hn hdone
    rw [hlk.unit] at hj
    unfold command
    rw [Command.bits_issued hb, hr]
    simp only [List.length_singleton, ne_eq, not_true_eq_false, if_false, Act.bind_apply, Act.pure_apply, hk,
      hstatus, hj, hpoll]
  · exact List.filterMap_eq_nil_iff.mpr fun r h => by
      rw [hglobal r h]
      rfl
  · rw [hjd, hlk.unit] at hln
    exact ⟨hln.unit, hln.wakeAfter.trans hlk.wakeAfter, hln.free⟩

/-- and all commands but that for the queue leave the queue alone -/
theorem prepares_command (hr : u.registers = .device cell) (hp : 0 < env.patience) {b : UInt32}
    (hb : b ∈ Command.issued) (hne : b ≠ Command.queuedInvalidation) :
    ∃ n, (u.command b : Act σ ε Unit) env m = .ok () n ∧ u.Prepares cell m n := by
  obtain ⟨n, rs, hn, ha, hd, hrs, hl⟩ := command_ok (ε := ε) u env hf hr hp hb
  exact ⟨n, hn, ha, ⟨rs, hd, hrs⟩, hl.free, hl.wakeAfter, hl.unit ▸ Emulated.steady_issue hb hne _⟩

end

end Remapper

/-! ## bring-up -/

namespace Emulated
variable {e : Emulated} {t : Word}

/-- the unit `e` after its queue was opened at `base` and turned on, with the tail `t` -/
def opened (e : Emulated) (t base : Word) : Emulated :=
  (({ e with tail := t } : Emulated).setRegister Register.queueAddress base).issue Command.queuedInvalidation

/-- a unit that is at the tail, or whose queue is off, has nothing to consume when the tail is written again -/
theorem write64_tail_idle {memory : Memory} (e : Emulated) (h : e.caps.Apart)
    (hon : e.status &&& Command.queuedInvalidation ≠ 0 → e.head = slotOfPointer t) :
    e.write64 memory Register.queueTail t = { e with tail := t } := by
  rw [write64_tail h t]
  by_cases h0 : e.status &&& Command.queuedInvalidation = 0
  · exact consume_off (e := { e with tail := t }) h0
  · exact consume_idle (e := { e with tail := t }) (hon h0)

/-- a queue that is opened is on and empty -/
theorem opened_at (e : Emulated) (base : Word)
    (hon : e.status &&& Command.queuedInvalidation ≠ 0 → e.head = slotOfPointer t)
    (hoff : e.status &&& Command.queuedInvalidation = 0 → slotOfPointer t = 0) :
    e.Akin (e.opened t base) ∧ (e.opened t base).tail = t ∧
      (e.opened t base).register Register.queueAddress = base ∧ (e.opened t base).head = slotOfPointer t ∧
      (e.opened t base).status &&& Command.queuedInvalidation ≠ 0 := by
  obtain ⟨e', he'⟩ : ∃ e', ({ e with tail := t } : Emulated).setRegister Register.queueAddress base = e' := ⟨_, rfl⟩
  have haddress : e'.register Register.queueAddress = base :=
    he' ▸ (register_setRegister ..).trans (if_pos rfl)
  have hstatus : e'.status = e.status := he' ▸ rfl
  have hturned : (e'.issue Command.queuedInvalidation).status &&& Command.queuedInvalidation ≠ 0 := by
    rw [status_issue (by decide), or_and, UInt32.and_self]
    exact Command.or_issued_ne_zero (by decide) _
  unfold opened
  rw [he']
  refine ⟨?_, ?_, ?_, ?_, hturned⟩ <;> rw [issue_queued, hstatus] <;> split
  · exact he' ▸ ⟨rfl, rfl, fun _ => rfl⟩
  · exact he' ▸ ⟨rfl, rfl, fun _ => rfl⟩
  · exact he' ▸ rfl
  · exact he' ▸ rfl
  · exact haddress
  · exact haddress
  · rename_i h0
    exact (hoff h0).symm
  · rename_i h0
    exact (show e'.head = e.head from he' ▸ rfl).trans (hon h0)

end Emulated

namespace Remapper
variable {u : Remapper} {cell N : Nat} {c : Capabilities} {m k n : Machine σ} {env : Env σ}

/-- a new unit with capabilities `c`, and for its queue a page and a new ring -/
structure Startable (u : Remapper) (cell : Nat) (c : Capabilities) (N : Nat) (m : Machine σ) : Prop where
  registers : u.registers = .device cell
  caps : (m.devices.get cell).unit.caps = c
  extended : u.extended = c.extendedWord
  wakes : (m.devices.get cell).Wakes N
  off : (m.devices.get cell).unit.status &&& Command.queuedInvalidation = 0
  queue : ∀ q, u.queue = some q → q.base.IsPage ∧ q.state m = {}

/-- a unit with capabilities `c` at rest, brought up or not: its queue has a page, and the unit is at the tail of it, or
the queue is off and nothing was ever put into it -/
structure Idle (u : Remapper) (cell : Nat) (c : Capabilities) (N : Nat) (m : Machine σ) : Prop where
  registers : u.registers = .device cell
  caps : (m.devices.get cell).unit.caps = c
  extended : u.extended = c.extendedWord
  wakes : (m.devices.get cell).Wakes N
  page : ∀ q, u.queue = some q → q.base.IsPage
  software : ∀ q, u.queue = some q → (q.state m).head < ringSlots ∧ (q.state m).tail < ringSlots
  on : ∀ q, u.queue = some q → (m.devices.get cell).unit.status &&& Command.queuedInvalidation ≠ 0 →
    (m.devices.get cell).unit.head = (q.state m).tail
  off : ∀ q, u.queue = some q → (m.devices.get cell).unit.status &&& Command.queuedInvalidation = 0 →
    (q.state m).tail = 0

theorem Startable.idle (h : u.Startable cell c N m) : u.Idle cell c N m := by
  refine ⟨h.registers, h.caps, h.extended, h.wakes, fun q hu => (h.queue q hu).1, fun q hu => ?_,
    fun q _ hon => absurd h.off hon, fun q hu _ => ?_⟩
  · rw [(h.queue q hu).2]
    decide
  · rw [(h.queue q hu).2]

theorem Ready.idle (h : u.Ready cell c N m) : u.Idle cell c N m := by
  refine ⟨h.registers, h.caps, h.extended, h.wakes, fun q hu => (h.queue q hu).page, fun q hu => ?_, fun q hu _ => ?_,
    fun q hu hoff => absurd hoff (h.queue q hu).on⟩
  · exact ⟨(h.queue q hu).software, (h.queue q hu).tail_lt⟩
  · rw [(h.queue q hu).count]
    exact (Nat.mod_eq_of_lt (h.queue q hu).head).symm

theorem Prepares.idle (h : u.Prepares cell m n) (hi : u.Idle cell c N m) : u.Idle cell c N n := by
  have hs := h.steady
  have hq : ∀ q : InvalidationQueue, q.state n = q.state m := fun q => congrArg (·.get q.cell) h.accessed.rings
  refine ⟨hi.registers, hs.caps.trans hi.caps, hi.extended, h.wakes hi.wakes, hi.page, fun q hu => ?_,
    fun q hu hon => ?_, fun q hu hoff => ?_⟩
  · exact hq q ▸ hi.software q hu
  · rw [hq, hs.head]
    exact hi.on q hu (hs.queued ▸ hon)
  · rw [hq]
    exact hi.off q hu (hs.queued ▸ hoff)

theorem Startable.untouched (h : u.Startable cell c N m) (hn : u.Untouched cell m n) : u.Startable cell c N n := by
  have hd := hn.device
  refine ⟨h.registers, hd ▸ h.caps, h.extended, hd ▸ h.wakes, hd ▸ h.off, fun q hu => ?_⟩
  rw [hn.ring q hu]
  exact h.queue q hu

variable (env) in
theorem routeFaults_ok (hr : u.registers = .device cell) (hf : (m.devices.get cell).Free)
    (event : Option FaultEvent) :
    ∃ n, (u.routeFaults event : Act σ ε Unit) env m = .ok () n ∧ u.Prepares cell m n := by
  obtain ⟨k, hk, hpk⟩ := prepares_write32 (ε := ε) u env hf Register.faultControl (by decide)
    (by decide) (by decide) FaultControl.masked
  unfold routeFaults
  rw [hr]
  cases event with
  | none =>
    refine ⟨k, ?_, hpk⟩
    simp only [Act.bind_apply, hk]
    rfl
  | some e =>
    obtain ⟨j, hj, hpj⟩ := prepares_write32 (ε := ε) u env hpk.free Register.faultData (by decide)
      (by decide) (by decide) e.data
    obtain ⟨i, hi, hpi⟩ := prepares_write32 (ε := ε) u env hpj.free Register.faultAddress (by decide)
      (by decide) (by decide) e.address
    obtain ⟨n, hn, hpn⟩ := prepares_write32 (ε := ε) u env hpi.free Register.faultControl (by decide)
      (by decide) (by decide) 0
    refine ⟨n, ?_, hpk.trans (hpj.trans (hpi.trans hpn))⟩
    simp only [Act.bind_apply, hk, hj, hi, hn]

section
variable (hp : 0 < env.patience)
include hp

theorem aim_ok (hr : u.registers = .device cell) (hw : (m.devices.get cell).Wakes N) (root : PhysAddr)
    (interrupts : Option Word) (event : Option FaultEvent) : ∃ n,
    (u.aim root interrupts event : Act σ ε Unit) env m = .ok () n ∧ u.Prepares cell m n := by
  obtain ⟨k₁, hk₁, hp₁⟩ := routeFaults_ok (ε := ε) env hr hw.free event
  have hapart : ∀ {k : Machine σ}, u.Prepares cell m k → (k.devices.get cell).unit.caps.Apart :=
    fun h => (h.wakes hw).apart
  obtain ⟨k₂, hk₂, hp₂⟩ := prepares_write64 (ε := ε) u env hp₁.free (hapart hp₁) Register.rootTable
    (by decide) (by decide) (by decide) (by decide) root.bits
  obtain ⟨k₃, hk₃, hp₃⟩ := prepares_command (ε := ε) u env hp₂.free hr hp (b := Command.setRootTable) (by decide)
    (by decide)
  have h₃ := hp₁.trans (hp₂.trans hp₃)
  unfold aim
  cases interrupts with
  | none =>
    refine ⟨k₃, ?_, h₃⟩
    simp only [Act.bind_apply, hk₁, hr, hk₂, hk₃, Act.pure_apply]
  | some table =>
    obtain ⟨k₄, hk₄, hp₄⟩ := prepares_write64 (ε := ε) u env h₃.free (hapart h₃)
      Register.interruptTable (by decide) (by decide) (by decide) (by decide) table
    obtain ⟨k₅, hk₅, hp₅⟩ := prepares_command (ε := ε) u env hp₄.free hr hp (b := Command.setInterruptTable)
      (by decide) (by decide)
    obtain ⟨n, hn, hpn⟩ := prepares_command (ε := ε) u env hp₅.free hr hp (b := Command.interruptRemapping)
      (by decide) (by decide)
    refine ⟨n, ?_, h₃.trans (hp₄.trans (hp₅.trans hpn))⟩
    simp only [Act.bind_apply, hk₁, hr, hk₂, hk₃, hk₄, hk₅, hn]

/-- what is written to turn the queue `q` on -/
theorem openQueue_runs {q : InvalidationQueue} (hs : u.Idle cell c N m) (hu : u.queue = some q) : ∃ n rs,
    (u.openQueue : Act σ ε Unit) env m = .ok () n ∧ m.Accessed n ∧ m.Driven u cell rs n ∧
      rs.filterMap Request.invalidation? = [] ∧
      ({ m.devices.get cell with
          unit := (m.devices.get cell).unit.opened (q.state m).tailRegister q.base.bits } : Device).Like
        (n.devices.get cell) := by
  obtain ⟨e, he⟩ : ∃ e, (m.devices.get cell).unit = e := ⟨_, rfl⟩
  obtain ⟨t, ht⟩ : ∃ t, (q.state m).tailRegister = t := ⟨_, rfl⟩
  have hapart : e.caps.Apart := he ▸ hs.wakes.apart
  have hw₁ : e.write64 m.memory Register.queueTail t = { e with tail := t } := by
    refine e.write64_tail_idle hapart fun hon => ?_
    rw [← ht, RingState.tailRegister, Emulated.slotOfPointer_shift (hs.software q hu).2]
    exact he ▸ hs.on q hu (he.symm ▸ hon)
  obtain ⟨k, hk, hak, hdk, hkd⟩ := RegisterFile.write64_free (ε := ε) env u (m := m)
    hs.wakes.free Register.queueTail t
    (by rw [he, hw₁]; exact (List.append_nil _).symm)
  rw [he, hw₁] at hkd
  have hkfree : (k.devices.get cell).Free := by
    rw [hkd]
    exact ⟨hs.wakes.free.allowance, hs.wakes.free.unscripted⟩
  have hw₂ : (k.devices.get cell).unit.write64 k.memory Register.queueAddress q.base.bits
      = ({ e with tail := t } : Emulated).setRegister Register.queueAddress q.base.bits := by
    rw [hkd]
    exact Emulated.write64_address (e := { e with tail := t }) hapart _
  obtain ⟨j, hj, haj, hdj, hjd⟩ := RegisterFile.write64_free (ε := ε) env u (m := k)
    hkfree Register.queueAddress q.base.bits
    (by rw [hw₂, hkd]; exact (List.append_nil _).symm)
  rw [hw₂, hkd] at hjd
  have hjfree : (j.devices.get cell).Free := by
    rw [hjd]
    exact ⟨hs.wakes.free.allowance, hs.wakes.free.unscripted⟩
  obtain ⟨n, rs, hn, han, hdn, hrs, hln⟩ := command_ok (ε := ε) u env hjfree hs.registers hp
    (b := Command.queuedInvalidation) (by decide)
  rw [hjd] at hln
  rw [he, ht]
  refine ⟨n, [] ++ ([] ++ rs), ?_, (hak.trans haj).trans han, hdk.trans (hdj.trans hdn), hrs,
    hln.unit, hln.wakeAfter, hln.free⟩
  unfold openQueue
  rw [hu, hs.registers]
  simp only [Act.bind_apply, InvalidationQueue.pointers, Act.view_apply, ht, hk, hj, hn]

/-- the queue is turned on, or was on before; either way there is nothing to consume -/
theorem openQueue_ok (hs : u.Idle cell c N m)
    (hset : u.queue = none → ∀ offset ∈ u.commandOffsets, (m.devices.get cell).unit.Settles offset) : ∃ n rs,
    (u.openQueue : Act σ ε Unit) env m = .ok () n ∧ m.Driven u cell rs n ∧
      rs.filterMap Request.invalidation? = [] ∧ u.Ready cell c N n := by
  cases hu : u.queue with
  | none =>
    refine ⟨m, [], ?_, .refl m, rfl, hs.registers, hs.caps, hs.extended, hs.wakes, fun q hq => ?_, hset⟩
    · unfold openQueue
      rw [hu]
      rfl
    · cases hu.symm.trans hq
  | some q =>
    obtain ⟨hhead, htail⟩ := hs.software q hu
    obtain ⟨n, rs, hn, han, hdrive, hrs, hln⟩ := openQueue_runs (ε := ε) hp hs hu
    have hslot : slotOfPointer (q.state m).tailRegister = (q.state m).tail :=
      Emulated.slotOfPointer_shift htail
    obtain ⟨hakin, hpointer, haddress, hat, hturned⟩ := (m.devices.get cell).unit.opened_at q.base.bits
      (fun hon => (hs.on q hu hon).trans hslot.symm) fun hoff => hslot.trans (hs.off q hu hoff)
    have hunit : (n.devices.get cell).unit
        = (m.devices.get cell).unit.opened (q.state m).tailRegister q.base.bits := hln.unit
    rw [← hunit] at hakin hpointer haddress hat hturned
    rw [hslot] at hat
    have hend : q.state n = q.state m := congrArg (·.get q.cell) han.rings
    have hwakes : (n.devices.get cell).Wakes N := hs.wakes.akin hln.free hln.wakeAfter hakin
    refine ⟨n, rs, hn, hdrive, hrs, hs.registers, hdrive.caps.trans hs.caps, hs.extended, hwakes,
      fun q' hq' => ?_, fun hq' => ?_⟩
    · cases hu.symm.trans hq'
      rw [hend]
      refine ⟨⟨hwakes, hs.page q hu, hturned, haddress, ?_, ?_, hhead, ?_, Nat.zero_le _, rfl⟩, fun _ => rfl⟩
      · rwa [hat]
      · rw [hpointer, hslot]
      · rw [hat]
        exact (Nat.mod_eq_of_lt htail).symm
    · cases hu.symm.trans hq'

/-- once what is cached was dropped, the unit is turned on -/
theorem enable_dropped {rs : List Request} (hk : u.invalidateContexts env m = .ok () k) (hd : m.Driven u cell rs k)
    (hr : u.Ready cell c N k) (interrupts : Bool) : ∃ n rs', u.enable interrupts env m = .ok () n ∧
      m.Driven u cell (rs ++ rs') n ∧ rs'.filterMap Request.invalidation? = [] ∧ u.Ready cell c N n := by
  obtain ⟨j, hj, hpj⟩ := prepares_command (ε := RemapError) u env hr.wakes.free hr.registers hp
    (b := Command.dmaRemapping) (by decide) (by decide)
  obtain ⟨i, hi, -, hpi⟩ := prepares_read32 (ε := RemapError) u env hpj.free Register.version
    (by decide)
  obtain ⟨rs', hd', hrs'⟩ := (hpj.trans hpi).driven
  have hri : u.Ready cell c N i := (hpj.trans hpi).ready hr
  obtain ⟨line, hline⟩ : ∃ line, u.reportLine ((j.devices.get cell).unit.read32 Register.version) interrupts
      = line := ⟨_, rfl⟩
  have hdrive := hd.trans (hd'.trans (.note i (e := .logged .info line) trivial rfl))
  rw [List.append_nil] at hdrive
  refine ⟨i.note (.logged .info line), rs', ?_, hdrive, hrs', hri.untouched ⟨rfl, fun _ _ => rfl⟩⟩
  unfold enable
  rw [hr.registers]
  simp only [Act.bind_apply, hk, hj, hi, hline]
  rfl

/-- a unit that is ready drops what it cached, and is turned on -/
theorem enable_ok (hr : u.Ready cell c N m) (h2 : 2 ≤ env.patience) (hN : N ≤ env.patience) (interrupts : Bool) :
    ∃ n rs, u.enable interrupts env m = .ok () n ∧ m.Driven u cell rs n ∧ u.Ready cell c N n ∧
      (u.Reaches c → rs.filterMap Request.invalidation? = u.heard c .global 0) := by
  obtain ⟨k, rs, hk, hdk, hrk, hreq⟩ := hr.invalidate h2 .global 0 hN
  obtain ⟨n, rs', hn, hdn, hrs', hrn⟩ := enable_dropped hp hk hdk hrk interrupts
  refine ⟨n, rs ++ rs', hn, hdn, hrn, fun hreach => ?_⟩
  rw [List.filterMap_append, hreq hreach, hrs', List.append_nil]

end

section
variable (h2 : 2 ≤ env.patience) {root : PhysAddr} {interrupts : Option Word} {event : Option FaultEvent}
include h2

/-- up to the invalidation nothing can go wrong with a unit at rest whose commands settle -/
theorem Idle.opens (hs : u.Idle cell c N m)
    (hset : u.queue = none → ∀ offset ∈ u.commandOffsets, (m.devices.get cell).unit.Settles offset) (root : PhysAddr)
    (interrupts : Option Word) (event : Option FaultEvent) : ∃ n rs,
    u.start root interrupts event env m = u.enable interrupts.isSome env n ∧ m.Driven u cell rs n ∧
      rs.filterMap Request.invalidation? = [] ∧ u.Ready cell c N n := by
  have hp : 0 < env.patience := Nat.lt_of_lt_of_le Nat.zero_lt_two h2
  obtain ⟨k, hk, hpk⟩ := aim_ok (ε := RemapError) hp hs.registers hs.wakes root interrupts event
  obtain ⟨rs, hdk, hrs⟩ := hpk.driven
  obtain ⟨n, rs', hn, hdn, hrs', hrn⟩ := openQueue_ok (ε := RemapError) hp (hpk.idle hs) fun hu offset ho =>
    Emulated.Akin.settles (.of_steady hpk.steady) (hset hu offset ho)
  refine ⟨n, rs ++ rs', ?_, hdk.trans hdn, ?_, hrn⟩
  · rw [start_eq]
    simp only [Act.bind_apply, hk, hn]
  · rw [List.filterMap_append, hrs, hrs']
    rfl

/-- a unit at rest whose commands settle comes up ready, with nothing cached -/
theorem Idle.start (hs : u.Idle cell c N m) (hN : N ≤ env.patience)
    (hset : u.queue = none → ∀ offset ∈ u.commandOffsets, (m.devices.get cell).unit.Settles offset) (root : PhysAddr)
    (interrupts : Option Word) (event : Option FaultEvent) : ∃ n rs,
    u.start root interrupts event env m = .ok () n ∧ m.Driven u cell rs n ∧ u.Ready cell c N n ∧
      (u.Reaches c → rs.filterMap Request.invalidation? = u.heard c .global 0) := by
  have hp : 0 < env.patience := Nat.lt_of_lt_of_le Nat.zero_lt_two h2
  obtain ⟨k, rs, hk, hdk, hrs, hrk⟩ := hs.opens h2 hset root interrupts event
  obtain ⟨n, rs', hn, hdn, hrn, hreq⟩ := enable_ok hp hrk h2 hN interrupts.isSome
  refine ⟨n, rs ++ rs', hk.trans hn, hdk.trans hdn, hrn, fun hreach => ?_⟩
  rw [List.filterMap_append, hrs, hreq hreach]
  rfl

theorem Startable.start (hs : u.Startable cell c N m) (hN : N ≤ env.patience)
    (hset : u.queue = none → ∀ offset ∈ u.commandOffsets, (m.devices.get cell).unit.Settles offset) (root : PhysAddr)
    (interrupts : Option Word) (event : Option FaultEvent) : ∃ n rs,
    u.start root interrupts event env m = .ok () n ∧ m.Driven u cell rs n ∧ u.Ready cell c N n ∧
      (u.Reaches c → rs.filterMap Request.invalidation? = u.heard c .global 0) :=
  hs.idle.start h2 hN hset root interrupts event

/-- a unit whose commands do not settle never comes up, if it needs them -/
theorem start_stuck (hr : u.registers = .device cell) (hw : (m.devices.get cell).Wakes N) (hu : u.queue = none)
    (hset : ¬ ∀ offset ∈ u.commandOffsets, (m.devices.get cell).unit.Settles offset) (root : PhysAddr)
    (interrupts : Option Word) (event : Option FaultEvent) :
    ∃ n, u.start root interrupts event env m = .error .stuck n := by
  have hp : 0 < env.patience := Nat.lt_of_lt_of_le Nat.zero_lt_two h2
  obtain ⟨k, hk, hpk⟩ := aim_ok (ε := RemapError) hp hr hw root interrupts event
  obtain ⟨j, hj⟩ := invalidate_stuck (m := k) rfl hr (hpk.wakes hw) hu
    (fun h => hset fun offset ho => Emulated.Akin.settles (Emulated.Akin.of_steady hpk.steady).symm (h offset ho)) hp
    .global 0
  have hopen : (u.openQueue : Act σ RemapError Unit) env k = .ok () k := by
    unfold openQueue
    rw [hu]
    rfl
  refine ⟨j, ?_⟩
  rw [start_eq]
  simp only [Act.bind_apply, hk, hopen, enable, invalidateContexts, hj]

/-- a unit that came up has commands that settle, if it needs them -/
theorem start_settles (hs : u.Startable cell c N m) (h : u.start root interrupts event env m = .ok () n)
    (hu : u.queue = none) : ∀ offset ∈ u.commandOffsets, (m.devices.get cell).unit.Settles offset := by
  by_contra hset
  obtain ⟨j, hj⟩ := start_stuck h2 hs.registers hs.wakes hu hset root interrupts event
  cases hj.symm.trans h

/-- a new unit that does not come up is waited for without end -/
theorem Startable.start_error (hs : u.Startable cell c N m) (hN : N ≤ env.patience) {e : Stop RemapError}
    (h : u.start root interrupts event env m = .error e n) : e = .stuck := by
  by_cases hset : u.queue = none → ∀ offset ∈ u.commandOffsets, (m.devices.get cell).unit.Settles offset
  · obtain ⟨k, -, hk, -⟩ := hs.start h2 hN hset root interrupts event
    cases hk.symm.trans h
  · obtain ⟨hu, hnot⟩ := Classical.not_imp.mp hset
    obtain ⟨k, hk⟩ := start_stuck h2 hs.registers hs.wakes hu hnot root interrupts event
    cases hk.symm.trans h
    rfl

end

end Remapper

end NestedPaging
