import NestedPaging.Proofs.Objects.RemapTables
import NestedPaging.Proofs.Unit.BringUp

/-!
# New units

A unit is added by a look at its capabilities, and by a page and a ring if it is to have a queue.
`Remapper.Added` says that nothing else happens, so that a new unit can be started (`Describes.startable`)
and units that were there before go on as they were.
-/

namespace NestedPaging

open PhysAddr (IsPage)

variable {σ : Type}

/-- the extended capability register says whether there is a queue -/
theorem Capabilities.bit_queued (c : Capabilities) : c.extendedWord.bit 1 = c.queued := by
  have hshift : Word.bit ((c.iotlbOffset / 16).toUInt64 <<< 8) 1 = false := by
    unfold Word.bit
    rw [UInt64.toNat_shiftLeft, show (8 : UInt64).toNat % 64 = 8 by decide, Nat.testBit_mod_two_pow,
      Nat.testBit_shiftLeft]
    rfl
  have hflag : ∀ (b : Bool) (k : Nat), k < 64 → (Word.flag b k).bit 1 = (b && decide (k = 1)) := by
    intro b k hk
    cases b with
    | false => exact Word.bit_zero 1
    | true => exact Word.bit_single hk 1
  unfold extendedWord
  rw [Word.bit_or, Word.bit_or, Word.bit_or, hshift, hflag _ 0 (by decide), hflag _ 1 (by decide),
    hflag _ 3 (by decide)]
  simp

/-- nobody has driven the unit yet; its queue is off -/
structure Device.New (c : Capabilities) (N : Nat) (d : Device) : Prop extends d.Wakes N where
  caps : d.unit.caps = c
  off : d.unit.status &&& Command.queuedInvalidation = 0
  idle : d.unit.acted = #[]

namespace Remapper

/-- from `m` to `n` the unit `u` was added: at most a page was taken and a ring made for it -/
structure Added (u : Remapper) (cell : Nat) (m n : Machine σ) : Prop where
  memory : ∀ a : PhysAddr, a.frame ∈ m.live → n.memory.read a = m.memory.read a
  live : ∀ i, i ∈ n.live ↔ i ∈ u.frames ∨ i ∈ m.live
  free : ∀ i ∈ u.frames, i ∉ m.live
  like : (m.devices.get cell).Like (n.devices.get cell)
  devices : ∀ i, i ≠ cell → n.devices.get i = m.devices.get i
  rings : ∀ i < m.rings.next, n.rings.get i = m.rings.get i
  ring : ∀ q, u.queue = some q → m.rings.next ≤ q.cell ∧ q.cell < n.rings.next
  next : m.rings.next ≤ n.rings.next

variable {u : Remapper} {base : Word} {cell N : Nat} {queued : Bool} {cleaner : Cleaner} {env : Env σ}
  {m n : Machine σ} {c : Capabilities}

/-- what the registers of a unit say about it -/
structure Describes (u : Remapper) (base : Word) (cell : Nat) (queued : Bool) (cleaner : Cleaner)
    (c : Capabilities) : Prop where
  base : u.base = base
  registers : u.registers = .device cell
  capability : u.capability = c.word
  extended : u.extended = c.extendedWord
  isQueued : u.isQueued = (queued && c.queued)
  cleaner : u.cleaner = cleaner

theorem Describes.supportsLevels (h : u.Describes base cell queued cleaner c) :
    u.supportsLevels 4 = c.word.bit 10 := by
  unfold Remapper.supportsLevels
  rw [h.capability]
  rfl

theorem Describes.queue_eq_none (h : u.Describes base cell false cleaner c) : u.queue = none := by
  have hnone := h.isQueued
  rw [Bool.false_and] at hnone
  exact Option.not_isSome_iff_eq_none.mp (Bool.eq_false_iff.mp hnone)

/-- what is made of a unit once its capabilities are known -/
def make (base : Word) (registers : RegisterFile) (queued : Bool) (cleaner : Cleaner) (c : Capabilities) :
    Act σ RemapError Remapper :=
  if c.word.bit 10 then
    if queued && c.queued then do
      let page ← Act.allocOr .insufficientMemory 0
      let q ← InvalidationQueue.create page
      pure ⟨base, registers, c.word, c.extendedWord, some q, cleaner⟩
    else pure ⟨base, registers, c.word, c.extendedWord, none, cleaner⟩
  else Act.fail .missingLevels

variable (base queued cleaner) in
/-- a unit is created by a look at its capabilities -/
theorem create_look (env : Env σ) (hf : (m.devices.get cell).Free)
    (hc : (m.devices.get cell).unit.caps = c) : ∃ j, m.Accessed j ∧
      (m.devices.get cell).Like (j.devices.get cell) ∧ (∀ i, i ≠ cell → j.devices.get i = m.devices.get i) ∧
      create base (.device cell) queued cleaner env m = make base (.device cell) queued cleaner c env j := by
  -- whose unit is read does not matter
  obtain ⟨u⟩ : Nonempty Remapper := ⟨⟨base, .device cell, 0, 0, none, cleaner⟩⟩
  obtain ⟨k, hk, hak, hdk, hlk⟩ := RegisterFile.read64_free (ε := RemapError) env u (m := m) hf
    Register.capability (by decide)
  obtain ⟨j, hj, haj, hdj, hlj⟩ := RegisterFile.read64_free (ε := RemapError) env u (m := k) hlk.free
    Register.extended (by decide)
  have hcap : (m.devices.get cell).unit.read64 Register.capability = c.word := hc ▸ rfl
  have hext : (k.devices.get cell).unit.read64 Register.extended = c.extendedWord := by
    rw [hlk.unit, ← hc]
    rfl
  rw [hcap] at hk
  rw [hext] at hj
  refine ⟨j, hak.trans haj, ⟨hlj.unit.trans hlk.unit, hlj.wakeAfter.trans hlk.wakeAfter, hlj.free⟩,
    (hdk.trans hdj).devices, ?_⟩
  unfold create make
  simp only [Act.bind_apply, hk, hj, c.bit_queued]
  cases c.word.bit 10 with
  | false => rfl
  | true =>
    cases queued && c.queued with
    | false => rfl
    | true => simp

variable (base queued cleaner env) in
/-- nothing stands in the way of a unit with four-level tables, but a page that it may need -/
theorem create_ok (hf : (m.devices.get cell).Free) (hlevels : (m.devices.get cell).unit.caps.word.bit 10 = true)
    (hoffer : (queued && (m.devices.get cell).unit.caps.queued) = true → ∀ j, m.Accessed j →
      ∃ k p, env.supply j = (k, some p)) :
    ∃ u n, create base (.device cell) queued cleaner env m = .ok u n := by
  obtain ⟨j, hj, -, -, hrun⟩ := create_look base queued cleaner env hf rfl
  rw [hrun]
  unfold make
  rw [if_pos hlevels]
  split
  · rename_i hq
    obtain ⟨k, p, hs⟩ := hoffer hq j hj
    rw [Act.bind_apply, Act.allocOr_some hs]
    exact ⟨_, _, rfl⟩
  · exact ⟨_, _, rfl⟩

/-- a unit without a queue takes nothing -/
theorem Added.of_accessed (ha : m.Accessed n) (hl : (m.devices.get cell).Like (n.devices.get cell))
    (hd : ∀ i, i ≠ cell → n.devices.get i = m.devices.get i) (hu : u.queue = none) : u.Added cell m n := by
  have hnone : ∀ i, ¬ i ∈ u.frames := by
    rintro i ⟨q, hq, -⟩
    cases hu.symm.trans hq
  refine ⟨fun a _ => by rw [ha.memory], fun i => ?_, fun i hi => absurd hi (hnone i), hl, hd,
    fun i _ => by rw [ha.rings], fun q hq => ?_, Nat.le_of_eq (congrArg Cells.next ha.rings).symm⟩
  · rw [ha.live]
    exact ⟨.inr, fun hi => hi.resolve_left (hnone i)⟩
  · cases hu.symm.trans hq

/-- a unit with a queue takes a page and a ring -/
theorem Added.of_taken {j : Machine σ} {client : σ} {p : PhysAddr} (ha : m.Accessed j)
    (hl : (m.devices.get cell).Like (j.devices.get cell))
    (hd : ∀ i, i ≠ cell → j.devices.get i = m.devices.get i) (hfree : j.isLive p = false)
    (hu : u.queue = some ⟨j.rings.next, p⟩)
    (hn : n = { ({ j with client } : Machine σ).take p 0 with rings := (j.rings.fresh {}).2 }) :
    u.Added cell m n := by
  subst hn
  have hnew : p.frame ∉ m.live := fun hin => Machine.ne_of_isLive hfree
    (show p.frame ∈ j.live from ha.live ▸ hin) rfl
  have hframes : ∀ i, i ∈ u.frames ↔ i = p.frame := by
    intro i
    constructor
    · rintro ⟨q, hq, rfl⟩
      cases hu.symm.trans hq
      rfl
    · rintro rfl
      exact ⟨_, hu, rfl⟩
  have hrings : (j.rings.fresh {}).2 = (m.rings.fresh {}).2 := by rw [ha.rings]
  refine ⟨fun a hin => ?_, fun i => ?_, fun i hi => ?_, hl, hd, fun i hi => ?_, fun q hq => ?_, ?_⟩
  · rw [← ha.memory]
    exact (j.memory.read_fill p.frame 0 a).trans (if_neg fun e => hnew (by rwa [e]))
  · rw [hframes, ← ha.live]
    exact Machine.mem_live_take (m := { j with client }) (w := 0)
  · rw [(hframes i).mp hi]
    exact hnew
  · show (j.rings.fresh {}).2.get i = _
    rw [hrings, Cells.get_fresh, if_neg (Nat.ne_of_gt hi)]
  · cases hu.symm.trans hq
    show m.rings.next ≤ j.rings.next ∧ j.rings.next < (j.rings.fresh {}).2.next
    rw [ha.rings]
    exact ⟨Nat.le_refl _, Nat.lt_succ_self _⟩
  · show m.rings.next ≤ (j.rings.fresh {}).2.next
    rw [hrings]
    exact Nat.le_succ _

/-- a unit that is created is as its registers say, and has a new ring in a page of its own if it has a
queue -/
theorem of_create (ha : env.Alone) (hh : env.Honest) (hf : (m.devices.get cell).Free)
    (h : create base (.device cell) queued cleaner env m = .ok u n) :
    u.Describes base cell queued cleaner (m.devices.get cell).unit.caps ∧ u.Added cell m n ∧
      ∀ q, u.queue = some q → IsPage q.base ∧ q.state n = {} := by
  obtain ⟨c, hc⟩ : ∃ c, (m.devices.get cell).unit.caps = c := ⟨_, rfl⟩
  obtain ⟨j, hacc, hlike, hdev, hrun⟩ := create_look base queued cleaner env hf hc
  rw [hc]
  rw [hrun] at h
  unfold make at h
  split at h
  · split at h
    · rename_i hq
      obtain ⟨client, hclient⟩ := ha j
      obtain ⟨i, offer, hs⟩ : ∃ i offer, env.supply j = (i, offer) := ⟨_, _, rfl⟩
      obtain rfl : i = { j with client } := by rw [← hclient, hs]
      cases offer with
      | none =>
        rw [Act.bind_apply, Act.allocOr_none hs] at h
        cases h
      | some p =>
        obtain ⟨hp, hfree⟩ := hh j p (by rw [hs])
        rw [hs] at hfree
        rw [Act.bind_apply, Act.allocOr_some hs] at h
        injection h with hu hn
        have hqueue : u.queue = some ⟨j.rings.next, p⟩ := by
          rw [← hu]
          rfl
        refine ⟨?_, .of_taken hacc hlike hdev hfree hqueue hn.symm, fun q hq => ?_⟩
        · rw [← hu]
          exact ⟨rfl, rfl, rfl, rfl, hq.symm, rfl⟩
        · cases hqueue.symm.trans hq
          refine ⟨hp, ?_⟩
          rw [← hn]
          exact (Cells.get_fresh ..).trans (if_pos rfl)
    · rename_i hq
      injection h with hu hn
      subst hu hn
      exact ⟨⟨rfl, rfl, rfl, rfl, (Bool.eq_false_of_not_eq_true hq).symm, rfl⟩, .of_accessed hacc hlike hdev rfl, nofun⟩
  · cases h

theorem Describes.startable (hu : u.Describes base cell queued cleaner c) (ha : u.Added cell m n)
    (hq : ∀ q, u.queue = some q → IsPage q.base ∧ q.state n = {}) (hd : (m.devices.get cell).New c N) :
    u.Startable cell c N n := by
  have hl := ha.like
  refine ⟨hu.registers, hl.unit ▸ hd.caps, hu.extended, ⟨hl.free, hl.unit ▸ hd.apart, ?_⟩, hl.unit ▸ hd.off, hq⟩
  rw [hl.unit, hl.wakeAfter]
  exact hd.wakes

/-- a unit that was there before is left alone -/
theorem Added.untouched {v : Remapper} {i : Nat} (h : u.Added cell m n) (hi : i ≠ cell)
    (hv : ∀ q, v.queue = some q → q.cell < m.rings.next) : v.Untouched i m n :=
  ⟨h.devices i hi, fun q hq => h.rings q.cell (hv q hq)⟩

/-- and shares nothing with the new one -/
theorem Added.separate {v : Remapper} {i : Nat} (h : u.Added cell m n) (hu : u.registers = .device cell)
    (hr : v.registers = .device i) (hi : i ≠ cell) (hv : ∀ q, v.queue = some q → q.cell < m.rings.next) :
    v.Separate u := by
  refine ⟨fun e => hi ?_, fun q q' hq hq' => ?_⟩
  · rw [hu, hr] at e
    injection e
  · exact Nat.ne_of_lt (Nat.lt_of_lt_of_le (hv q hq) (h.ring q' hq').1)

/-- a unit whose command registers no fault record covers has commands that settle -/
theorem Idle.settles (h : u.Idle cell c N m) (hc : c.Reported)
    (hcontext : ∀ i, c.faultSlot? Register.contextCommand ≠ some (i, false)) :
    ∀ offset ∈ u.commandOffsets, (m.devices.get cell).unit.Settles offset := by
  have hcaps := h.caps
  have hapart : c.Apart := hcaps ▸ h.wakes.apart
  have hoffset : u.iotlbOffset = c.iotlbOffset + Register.iotlbCommand := by
    unfold iotlbOffset
    rw [h.extended, hc.field]
  intro offset ho
  unfold Emulated.Settles
  rw [hcaps]
  rcases List.mem_cons.mp ho with rfl | ho
  · rw [if_neg (by decide)]
    cases hslot : c.faultSlot? Register.contextCommand with
    | none => exact .inl rfl
    | some slot =>
      obtain ⟨i, upper⟩ := slot
      cases upper with
      | true => exact .inl rfl
      | false => exact absurd hslot (hcontext i)
  · rw [List.mem_singleton.mp ho, hoffset, if_neg (hapart.ne_command _ (by decide)).symm, hapart.faultSlot_command]
    exact .inr rfl

theorem Startable.settles (h : u.Startable cell c N m) (hc : c.Reported)
    (hcontext : ∀ i, c.faultSlot? Register.contextCommand ≠ some (i, false)) :
    ∀ offset ∈ u.commandOffsets, (m.devices.get cell).unit.Settles offset := h.idle.settles hc hcontext

/-! ## two new units -/

/-- a machine with two new units -/
def unitPair (c : Capabilities) : Machine Unit where
  client := ()
  devices := ((Cells.fresh {} ({ unit := .create c } : Device)).2.fresh ({ unit := .create c } : Device)).2

/-- fault records above the registers that are always there cover none of them -/
theorem faults_of_above {c : Capabilities} (h : ∀ r ∈ Register.fixed, r.1 + r.2 ≤ c.faultOffset) (offset : Nat)
    (ho : Register.IsFixed offset) : c.faultSlot? offset = none := by
  obtain ⟨r, hr, -, hlt⟩ := ho
  exact if_neg fun hin => Nat.not_lt.mpr hin.1 (Nat.lt_of_lt_of_le hlt (h r hr))

/-- a unit with the usual layout -/
theorem disjoint_default : ({} : Capabilities).Disjoint :=
  ⟨by decide, by decide, faults_of_above (by decide)⟩

/-- a device as it is made answers freely -/
theorem free_create (e : Emulated) : ({ unit := e } : Device).Free :=
  ⟨rfl, fun offset => by simp [Device.nextAnswer?]⟩

theorem new_create (hc : c.Apart) (N : Nat) : ({ unit := .create c } : Device).New c N :=
  ⟨⟨free_create _, hc, nofun⟩, rfl, UInt32.zero_and, rfl⟩

theorem unitPair_get (c : Capabilities) {cell : Nat} (h : cell < 2) :
    (unitPair c).devices.get cell = { unit := .create c } := by
  refine (Cells.get_fresh ..).trans ?_
  split
  · rfl
  · rename_i hne
    refine (Cells.get_fresh ..).trans (if_pos ?_)
    have hne : cell ≠ 1 := fun e => hne e.symm
    show 0 = cell
    omega

theorem unitPair_new (hc : c.Apart) (N cell : Nat) (h : cell < 2) :
    ((unitPair c).devices.get cell).New c N := by
  rw [unitPair_get c h]
  exact new_create hc N

end Remapper

end NestedPaging
