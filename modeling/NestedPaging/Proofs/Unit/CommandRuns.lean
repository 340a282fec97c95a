import NestedPaging.Proofs.Unit.Disciplines
import NestedPaging.Proofs.Unit.GlobalCommands

/-!
# Runs of commands

A unit may be brought up again and asked for commands that were done before, in any order. What the commands before
left behind in its status does not matter: each is triggered alone.

* `UnitCall`             a call that issues commands;
* `UnitCall.forM_issues` what a run of them issues, however it ends;
* `Idle.forM_ok`         a run ends, and the unit is at rest again;
* `commands_issued`      both, for a unit that was new.

A unit without a queue is brought up only if it finds its IOTLB registers. It looks for those of `adrift` in front of
them, and waits there for something that never answers (`start_adrift`).
-/

namespace NestedPaging

variable {σ : Type}

/-- a call that issues commands: bring-up, or a command that is a single bit of the register -/
inductive UnitCall where
  | start (root : PhysAddr) (interrupts : Option Word) (event : Option FaultEvent)
  | command (b : UInt32) (single : b ∈ Command.issued)

/-- the status of the unit behind the device `cell` -/
def Machine.status (m : Machine σ) (cell : Nat) : UInt32 := (m.devices.get cell).unit.status

namespace UnitCall

def perform (u : Remapper) : UnitCall → Act σ RemapError Unit
  | start root interrupts event => u.start root interrupts event
  | command b _ => u.command b

/-- the commands that a call is to issue -/
def requests (u : Remapper) : UnitCall → List UInt32
  | start _ interrupts _ => u.bringUp interrupts.isSome
  | command b _ => [b]

/-- can the call be done by a unit with capabilities `c`? Only bring-up invalidates anything -/
def Reaches (u : Remapper) (c : Capabilities) : UnitCall → Prop
  | start .. => u.Reaches c
  | command .. => True

variable {u : Remapper} {cell : Nat} {env : Env σ}

variable (env) in
theorem perform_issues (hr : u.registers = .device cell) (call : UnitCall) :
    (call.perform u).Issues cell env (call.requests u) := by
  cases call with
  | start root interrupts event => exact Remapper.start_issues hr root interrupts event
  | command b single => exact Remapper.command_issues hr single

variable (env) in
theorem forM_issues (hr : u.registers = .device cell) (calls : List UnitCall) :
    (calls.forM (perform u)).Issues cell env (calls.flatMap (requests u)) :=
  .forM fun call _ => perform_issues env hr call

/-- what was on after a run is on after a longer one -/
theorem forM_grows (hr : u.registers = .device cell) {m : Machine σ} (hf : (m.devices.get cell).Free)
    {calls : List UnitCall} {n : Machine σ} (hn : (calls.forM (perform u)).after env m = n) (more : List UnitCall) :
    n.status cell &&& (((calls ++ more).forM (perform u)).after env m).status cell = n.status cell := by
  have hsplit : ((calls ++ more).forM (perform u) : Act σ RemapError Unit)
      = calls.forM (perform u) >>= fun _ => more.forM (perform u) := List.forM_append
  rw [hsplit, Act.after_bind]
  cases hrun : calls.forM (perform u) env m with
  | error e k =>
    obtain rfl : k = n := (Act.after_of_error hrun).symm.trans hn
    exact UInt32.and_self
  | ok a k =>
    obtain rfl : k = n := (Act.after_of_ok hrun).symm.trans hn
    have hk := (forM_issues env hr calls).commanded hf hrun
    obtain ⟨bs, -, hcommanded, -⟩ := forM_issues env hr more k hk.free
    obtain ⟨es, -, hissued⟩ := hcommanded.logs
    exact hissued.grows

end UnitCall

namespace Remapper
variable {u : Remapper} {cell N : Nat} {c : Capabilities} {m : Machine σ} {env : Env σ}

namespace Idle

/-- a command leaves a unit at rest; one that turns the queue on finds nothing in it -/
theorem command {ε : Type} (h : u.Idle cell c N m) (hp : 0 < env.patience) {b : UInt32} (hb : b ∈ Command.issued) :
    ∃ n, (u.command b : Act σ ε Unit) env m = .ok () n ∧ u.Idle cell c N n := by
  by_cases hne : b = Command.queuedInvalidation
  · subst hne
    obtain ⟨n, rs, hn, ha, hd, -, hl⟩ := command_ok (ε := ε) u env h.wakes.free h.registers hp hb
    have hq : ∀ q : InvalidationQueue, q.state n = q.state m := fun q => congrArg (·.get q.cell) ha.rings
    have hunit := hl.unit
    have hissued : ∀ e : Emulated, e.Akin (e.issue Command.queuedInvalidation) := by
      intro e
      rw [Emulated.issue_queued]
      split <;> exact ⟨rfl, rfl, fun _ => rfl⟩
    refine ⟨n, hn, h.registers, hd.caps.trans h.caps, h.extended, ?_, h.page, fun q hu => hq q ▸ h.software q hu,
      fun q hu _ => ?_, fun q hu hoff => ?_⟩
    · exact h.wakes.akin hl.free hl.wakeAfter (hunit ▸ hissued _)
    · rw [hunit, hq, Emulated.issue_queued]
      split
      · rename_i h0
        exact (h.off q hu h0).symm
      · rename_i h0
        exact h.on q hu h0
    · rw [hunit, Emulated.status_issue hb, Emulated.or_and, UInt32.and_self] at hoff
      exact absurd hoff (Command.or_issued_ne_zero hb _)
  · obtain ⟨n, hn, hpn⟩ := prepares_command (ε := ε) u env h.wakes.free h.registers hp hb hne
    exact ⟨n, hn, hpn.idle h⟩

variable (hc : c.Disjoint) (h2 : 2 ≤ env.patience) (hN : N ≤ env.patience)
include hc h2 hN

theorem perform (h : u.Idle cell c N m) {call : UnitCall} (hr : call.Reaches u c) :
    ∃ n, call.perform u env m = .ok () n ∧ u.Idle cell c N n := by
  cases call with
  | start root interrupts event =>
    have hset : u.queue = none → ∀ offset ∈ u.commandOffsets, (m.devices.get cell).unit.Settles offset := fun hu =>
      h.settles (hr hu) fun i hi => by
        rw [hc.faults _ (by decide)] at hi
        cases hi
    obtain ⟨n, -, hn, -, hready, -⟩ := h.start h2 hN hset root interrupts event
    exact ⟨n, hn, hready.idle⟩
  | command b single => exact h.command (Nat.lt_of_lt_of_le Nat.zero_lt_two h2) single

/-- every call of a run ends -/
theorem forM_ok (h : u.Idle cell c N m) {calls : List UnitCall} (hr : ∀ call ∈ calls, call.Reaches u c) :
    ∃ n, (calls.forM (UnitCall.perform u)) env m = .ok () n ∧ u.Idle cell c N n := by
  induction calls generalizing m with
  | nil => exact ⟨m, rfl, h⟩
  | cons call calls ih =>
    obtain ⟨k, hk, hik⟩ := h.perform hc h2 hN (hr call List.mem_cons_self)
    obtain ⟨n, hn, hin⟩ := ih hik fun call hin => hr call (List.mem_cons_of_mem _ hin)
    exact ⟨n, Act.forM_cons_ok hk hn, hin⟩

end Idle

section
variable {base : Word} {queued : Bool} {cleaner : Cleaner} {env₀ : Env σ} {m₀ : Machine σ} (hc : c.Disjoint)
  (hfree : (m₀.devices.get cell).Free) (hnew : (m₀.devices.get cell).unit = .create c) (ha : env₀.Alone)
  (hh : env₀.Honest) (h : create base (.device cell) queued cleaner env₀ m₀ = .ok u m)
include hc hfree hnew ha hh h

/-- Whatever is asked of a unit that was new, each write to its command register triggers the command that it was meant
for, or nothing if this one holds a state that is on. No state is ever left, and no write is a violation. Every call
returns, if those that bring up the unit find its registers; and a value that is not a single bit is refused. -/
theorem commands_issued (calls : List UnitCall) (env : Env σ) :
    (∃ bs es n, (calls.forM (UnitCall.perform u)).after env m = n ∧ m.Logs es n ∧
      bs <+: calls.flatMap (UnitCall.requests u) ∧ Command.Issued cell 0 es (n.status cell) bs ∧
      (n.devices.get cell).unit.violations = 0 ∧ n.status cell = bs.foldl (· ||| ·) 0 ∧
      (∀ more : List UnitCall,
        n.status cell &&& (((calls ++ more).forM (UnitCall.perform u)).after env m).status cell = n.status cell) ∧
      (2 ≤ env.patience → (∀ call ∈ calls, call.Reaches u c) →
        (calls.forM (UnitCall.perform u)) env m = .ok () n ∧ bs = calls.flatMap (UnitCall.requests u))) ∧
    ∀ (k : Machine σ) (b : UInt32), (Command.bits b).length ≠ 1 →
      (u.command b : Act σ RemapError Unit) env k = .error .refused k := by
  obtain ⟨hd, had, hq⟩ := of_create ha hh hfree h
  have hunit : (m.devices.get cell).unit = .create c := had.like.unit.trans hnew
  have hstart : u.Startable cell c 0 m := by
    refine ⟨hd.registers, hunit ▸ rfl, ?_, ⟨had.like.free, hunit ▸ hc.apart, ?_⟩, hunit ▸ UInt32.zero_and, hq⟩
    · rw [hd.extended, hnew]
      rfl
    · rw [hunit]
      exact nofun
  obtain ⟨bs, hbs, hcommanded, hall⟩ := UnitCall.forM_issues env hd.registers calls m had.like.free
  obtain ⟨es, hes, hissued⟩ := hcommanded.logs
  have hstatus : (m.devices.get cell).unit.status = 0 := hunit ▸ rfl
  rw [hstatus] at hissued
  refine ⟨⟨bs, es, _, rfl, hes, hbs, hissued, ?_, hissued.status_eq, fun more => ?_, fun h2 hr => ?_⟩, fun k b hb =>
    command_refused u hb env k⟩
  · rw [hcommanded.violations, hunit]
    rfl
  · exact UnitCall.forM_grows hd.registers had.like.free rfl more
  · obtain ⟨n, hn, -⟩ := hstart.idle.forM_ok hc h2 (Nat.zero_le _) hr
    rw [Act.after_of_ok hn]
    exact ⟨hn, hall () n hn⟩

end

/-- a unit with a queue is brought up twice, with commands between that were done before -/
theorem commands_issued_again : ∃ (u : Remapper) (m n : Machine Unit) (es : List Event),
    create 0xfed90000 (.device 0) true .platform onePage (unitPair {}) = .ok u m ∧
    ([.start (.ofFrame 1) (some 0x2000) none, .command Command.setRootTable (by decide),
      .command Command.dmaRemapping (by decide), .start (.ofFrame 1) none none].forM (UnitCall.perform u)) onePage m
        = .ok () n ∧
    m.Logs es n ∧
    Command.Issued 0 0 es 0xc7000000 [Command.setRootTable, Command.setInterruptTable, Command.interruptRemapping,
      Command.queuedInvalidation, Command.dmaRemapping, Command.setRootTable, Command.dmaRemapping,
      Command.setRootTable, Command.queuedInvalidation, Command.dmaRemapping] := by
  have hget : (unitPair {}).devices.get 0 = { unit := .create {} } := unitPair_get {} (by decide)
  have hfree : ((unitPair {}).devices.get 0).Free := hget ▸ free_create _
  obtain ⟨u, -, m, -, hu, -⟩ := exists_unitPair disjoint_default.apart (by decide)
  obtain ⟨hd, -, -⟩ := of_create onePage_alone onePage_honest hfree hu
  have hqueued : u.isQueued = true := by
    rw [hd.isQueued, hget]
    rfl
  obtain ⟨⟨bs, es, n, -, hes, -, hissued, -, hstatus, -, hends⟩, -⟩ := commands_issued disjoint_default hfree
    (hget ▸ rfl) onePage_alone onePage_honest hu [.start (.ofFrame 1) (some 0x2000) none,
      .command Command.setRootTable (by decide), .command Command.dmaRemapping (by decide),
      .start (.ofFrame 1) none none] onePage
  have hreaches : u.Reaches {} := fun _ => ⟨by decide, by decide⟩
  obtain ⟨hn, rfl⟩ := hends (by decide) (by
    simp only [List.forall_mem_cons]
    exact ⟨hreaches, trivial, trivial, hreaches, nofun⟩)
  refine ⟨u, m, n, es, hu, hn, hes, ?_⟩
  rw [hstatus] at hissued
  simp only [List.flatMap_cons, List.flatMap_nil, UnitCall.requests, bringUp, hqueued] at hissued
  exact hissued

/-- IOTLB registers in the middle of the unit in which the extended capability register counts -/
def adrift : Capabilities := { iotlbOffset := 0x108 }

theorem adrift_disjoint : adrift.Disjoint := ⟨by decide, by decide, faults_of_above (by decide)⟩

/-- a unit without a queue is never brought up then, however long it is waited for -/
theorem start_adrift : adrift.Disjoint ∧ ∃ (u : Remapper) (m : Machine Unit),
    create 0xfed90000 (.device 0) false .platform onePage (unitPair adrift) = .ok u m ∧
    (m.devices.get 0).unit.stalled = false ∧
    ∀ env : Env Unit, 2 ≤ env.patience → ∃ n, u.start (.ofFrame 7) none none env m = .error .stuck n := by
  have hnew := unitPair_new adrift_disjoint.apart 0 0 (by decide)
  obtain ⟨u, m, hu⟩ := create_ok 0xfed90000 false .platform onePage hnew.free (by rw [hnew.caps]; decide) fun hq => by
    rw [Bool.false_and] at hq
    cases hq
  obtain ⟨hd, had, hq⟩ := of_create onePage_alone onePage_honest hnew.free hu
  rw [hnew.caps] at hd
  have hs := hd.startable had hq hnew
  have hnone : u.queue = none :=
    Option.not_isSome_iff_eq_none.mp (Bool.eq_false_iff.mp (hd.isQueued.trans (Bool.false_and _)))
  have hoffset : u.iotlbOffset = 0x108 := by
    unfold iotlbOffset
    rw [hd.extended]
    decide
  have hset : ¬ ∀ offset ∈ u.commandOffsets, (m.devices.get 0).unit.Settles offset := fun h => by
    have h108 := h _ u.iotlb_mem
    unfold Emulated.Settles at h108
    rw [hoffset, hs.caps, if_neg (by decide), show adrift.faultSlot? 0x108 = none by decide] at h108
    have hown : 0x108 = Register.contextCommand ∨ 0x108 = adrift.iotlbOffset + Register.iotlbCommand := h108
    exact absurd hown (by decide)
  refine ⟨adrift_disjoint, u, m, hu, ?_, fun env h2 => start_stuck h2 hs.registers hs.wakes hnone hset _ _ _⟩
  rw [had.like.unit, unitPair_get adrift (by decide)]
  rfl

end Remapper

end NestedPaging
