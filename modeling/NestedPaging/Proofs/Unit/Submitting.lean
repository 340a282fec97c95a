import NestedPaging.Proofs.Unit.Completion
import NestedPaging.Proofs.Unit.Emulation

/-!
# Descriptors on their way

`InvalidationQueue.Holds` says that the descriptors `ds` wait in a queue, oldest first: they lie in the
slots from where the unit consumes up to the tail, the head that software knows lies at or behind that of
the unit, and nothing waits unless the unit is stalled, which at most `N` reads of its head will end.

* `Holds.noticeRead`   a read of the head may wake the unit, which then consumes all that waits;
* `Holds.moveHead`     the head that the unit reports is always a possible one, and leaves room;
* `Holds.push`         one more descriptor waits, or is consumed at once;
* `Feeds.append`, `Feeds.submit`   appending never fails, and a submission returns when all of it is
                       consumed, once each and in order.
-/

namespace NestedPaging

open PhysAddr (IsPage)

variable {σ ε : Type}

/-! ## slots -/

namespace InvalidationQueue
variable {q : InvalidationQueue} {memory memory' : Memory}

theorem descriptorsFrom_congr {i n : Nat} (hi : i < ringSlots)
    (h : ∀ j < n, q.descriptor memory' ((i + j) % ringSlots) = q.descriptor memory ((i + j) % ringSlots)) :
    q.descriptorsFrom memory' i n = q.descriptorsFrom memory i n := by
  induction n generalizing i with
  | zero => rfl
  | succ n ih =>
    have h0 := h 0 (Nat.succ_pos n)
    rw [Nat.add_zero, Nat.mod_eq_of_lt hi] at h0
    unfold descriptorsFrom
    rw [h0, ih (Nat.mod_lt _ (by decide)) fun j hj => ?_]
    have hj' := h (j + 1) (Nat.succ_lt_succ hj)
    rwa [Nat.mod_add_mod, Nat.add_assoc, Nat.add_comm 1 j]

theorem descriptorsFrom_snoc (q : InvalidationQueue) (memory : Memory) {i : Nat} (hi : i < ringSlots)
    (n : Nat) : q.descriptorsFrom memory i (n + 1)
      = q.descriptorsFrom memory i n ++ [q.descriptor memory ((i + n) % ringSlots)] := by
  induction n generalizing i with
  | zero =>
    simp only [descriptorsFrom, List.nil_append, Nat.add_zero, Nat.mod_eq_of_lt hi]
  | succ n ih =>
    rw [descriptorsFrom, ih (Nat.mod_lt _ (by decide))]
    conv_rhs => rw [descriptorsFrom]
    rw [List.cons_append, Nat.mod_add_mod, Nat.add_assoc, Nat.add_comm 1 n]

/-- the slot that a descriptor is written to holds it, and the others hold what they held -/
theorem descriptor_write (hp : IsPage q.base) {i j : Nat} (hi : i < ringSlots) (hj : j < ringSlots)
    (memory : Memory) (d : Descriptor) :
    q.descriptor ((memory.write (q.slotAddress i) d.lo).write ((q.slotAddress i).add 8) d.hi) j
      = if i = j then d else q.descriptor memory j := by
  have hpair : ∀ M : Memory, q.descriptor M j = ⟨((TableEntry.ofTable q.base j).readWords M).lo,
      ((TableEntry.ofTable q.base j).readWords M).hi⟩ := fun _ => rfl
  rw [hpair, hpair memory]
  show Descriptor.mk ((TableEntry.ofTable q.base j).readWords
    ((memory.write (TableEntry.ofTable q.base i).address d.lo).write
      (TableEntry.ofTable q.base i).hiAddress d.hi)).lo ((TableEntry.ofTable q.base j).readWords
    ((memory.write (TableEntry.ofTable q.base i).address d.lo).write
      (TableEntry.ofTable q.base i).hiAddress d.hi)).hi = _
  rw [TableEntry.readWords_write_hi hp hi hj, TableEntry.readWords_write_lo hp hi hj]
  split
  · rename_i h
    subst h
    rw [Memory.read_write_same ⟨rfl, rfl⟩]
  · rfl

end InvalidationQueue

/-! ## what waits -/

/-- the unit answers freely, and a stalled one wakes after at most `N` reads of its head -/
structure Device.Wakes (N : Nat) (d : Device) : Prop where
  free : d.Free
  apart : d.unit.caps.Apart
  wakes : d.unit.stalled = true → ∃ n ≤ N, d.wakeAfter = some n

/-- the descriptors `ds` lie in `memory` between the head of the unit of `d` and the tail, oldest first -/
structure InvalidationQueue.Backlog (q : InvalidationQueue) (N : Nat) (d : Device) (r : RingState)
    (memory : Memory) (ds : List Descriptor) : Prop extends d.Wakes N where
  page : IsPage q.base
  on : d.unit.status &&& Command.queuedInvalidation ≠ 0
  address : d.unit.register Register.queueAddress = q.base.bits
  head : d.unit.head < ringSlots
  pointer : slotOfPointer d.unit.tail = r.tail
  software : r.head < ringSlots
  count : r.tail = (d.unit.head + ds.length) % ringSlots
  behind : ds.length ≤ r.outstanding
  waiting : q.descriptorsFrom memory d.unit.head ds.length = ds

/-- the descriptors `ds` wait to be consumed, which only a stalled unit lets them do -/
structure InvalidationQueue.Holds (q : InvalidationQueue) (N : Nat) (d : Device) (r : RingState)
    (memory : Memory) (ds : List Descriptor) : Prop extends q.Backlog N d r memory ds where
  moving : d.unit.stalled = false → ds = []

namespace InvalidationQueue.Backlog
variable {q : InvalidationQueue} {N : Nat} {d d' : Device} {r : RingState} {memory : Memory}
  {ds : List Descriptor} (h : q.Backlog N d r memory ds)
include h

theorem length_lt : ds.length < ringSlots :=
  Nat.lt_of_le_of_lt h.behind (Nat.mod_lt _ (by decide))

theorem tail_lt : r.tail < ringSlots := by
  rw [h.count]
  exact Nat.mod_lt _ (by decide)

/-- a unit that is not stalled, or not any more, consumes the backlog -/
theorem consumed (d' : Device) (hf : d'.Free) (hd : d'.unit = Emulated.consume memory { d.unit with stalled := false })
    (N' : Nat) : d'.unit.acted.toList = d.unit.acted.toList ++ ds.map .queued ∧
      q.Holds N' d' r memory [] := by
  have hn : (r.tail + ringSlots - d.unit.head) % ringSlots = ds.length := by
    have := h.length_lt
    have := h.head
    rw [h.count]
    unfold ringSlots at *
    omega
  have he : d'.unit = { d.unit with
      stalled := false
      acted := d.unit.acted ++ ds.map Request.queued
      head := r.tail } := by
    rw [hd]
    refine (Emulated.consume_eq (e := { d.unit with stalled := false }) h.page rfl h.on h.address h.head).trans ?_
    simp only [h.pointer, hn, h.waiting]
  refine ⟨by rw [he, Array.toList_appendList], ⟨⟨⟨hf, ?_, ?_⟩, h.page, ?_, ?_, ?_, ?_, h.software, ?_,
    Nat.zero_le _, rfl⟩, fun _ => rfl⟩⟩
  all_goals rw [he]
  · exact h.apart
  · exact nofun
  · exact h.on
  · exact h.address
  · exact h.tail_lt
  · exact h.pointer
  · exact (Nat.mod_eq_of_lt h.tail_lt).symm

end InvalidationQueue.Backlog

namespace InvalidationQueue.Holds
variable {q : InvalidationQueue} {N : Nat} {d d' : Device} {r : RingState} {memory : Memory}
  {ds : List Descriptor} (h : q.Holds N d r memory ds)
include h

theorem like (hd : d.Like d') : q.Holds N d' r memory ds := by
  obtain ⟨hu, hw, hf⟩ := hd
  refine ⟨⟨⟨hf, hu ▸ h.apart, ?_⟩, h.page, hu ▸ h.on, hu ▸ h.address, hu ▸ h.head, hu ▸ h.pointer, h.software,
    hu ▸ h.count, h.behind, hu ▸ h.waiting⟩, hu ▸ h.moving⟩
  rw [hu, hw]
  exact h.wakes

theorem mono {N' : Nat} (hN : N ≤ N') : q.Holds N' d r memory ds := by
  refine ⟨{ h.toBacklog with wakes := fun hs => ?_ }, h.moving⟩
  obtain ⟨n, hn, hw⟩ := h.wakes hs
  exact ⟨n, Nat.le_trans hn hN, hw⟩

/-- a read of the head may wake the unit, which then consumes all that waits -/
theorem noticeRead : ∃ rs ds',
    (d.noticeRead memory Register.queueHead).unit.acted.toList = d.unit.acted.toList ++ rs ∧
      rs ++ ds'.map .queued = ds.map .queued ∧ (ds' = [] ∨ 2 ≤ N) ∧
      q.Holds (N - 1) (d.noticeRead memory Register.queueHead) r memory ds' := by
  unfold Device.noticeRead
  rw [if_pos rfl]
  cases hw : d.wakeAfter with
  | none =>
    have hs : d.unit.stalled = false := by
      by_contra hs
      obtain ⟨n, _, hn⟩ := h.wakes (by simpa using hs)
      rw [hw] at hn
      cases hn
    obtain rfl := h.moving hs
    refine ⟨[], [], (List.append_nil _).symm, rfl, .inl rfl, { h.toBacklog with wakes := fun hs' => ?_ }, h.moving⟩
    rw [hs] at hs'
    cases hs'
  | some n =>
    simp only
    split
    · obtain ⟨ha, hh⟩ := h.consumed (d.release memory) ⟨h.free.allowance, h.free.unscripted⟩ rfl (N - 1)
      exact ⟨ds.map .queued, [], ha, List.append_nil _, .inl rfl, hh⟩
    · rename_i h1
      have hN : d.unit.stalled = true → n ≤ N := fun hs => by
        obtain ⟨n', hn', hw'⟩ := h.wakes hs
        rw [hw] at hw'
        cases hw'
        exact hn'
      refine ⟨[], ds, (List.append_nil _).symm, rfl, ?_,
        { h.toBacklog with
          free := ⟨h.free.allowance, h.free.unscripted⟩
          wakes := fun hs => ⟨n - 1, ?_, rfl⟩ }, h.moving⟩
      · cases hs : d.unit.stalled with
        | false => exact .inl (h.moving hs)
        | true =>
          have := hN hs
          exact .inr (by omega)
      · have := hN hs
        omega

/-- the head that the unit reports lies between head and tail -/
theorem moveHead : r.moveHead d.unit.head = .ok { r with head := d.unit.head } ∧
    q.Holds N d { r with head := d.unit.head } memory ds ∧
    (ds.length + 1 < ringSlots → ({ r with head := d.unit.head } : RingState).isFull = false) := by
  have hlen := h.length_lt
  have hhead := h.head
  have hsoft := h.software
  have hcount := h.count
  have hbehind := h.behind
  have htail := h.tail_lt
  have hout : ({ r with head := d.unit.head } : RingState).outstanding = ds.length := by
    unfold RingState.outstanding
    simp only
    unfold ringSlots at *
    omega
  refine ⟨?_, ⟨{ h.toBacklog with software := h.head, behind := hout ▸ Nat.le_refl _ }, h.moving⟩,
    fun hroom => ?_⟩
  · unfold RingState.moveHead
    rw [if_neg]
    unfold RingState.outstanding at hbehind
    unfold ringSlots at *
    omega
  · unfold RingState.isFull
    simp only
    rw [beq_eq_false_iff_ne]
    unfold ringSlots at *
    omega

/-- a descriptor is written to the slot of the tail, and the tail is published -/
theorem push (hfull : r.isFull = false) (x : Descriptor) {memory' : Memory}
    (hm : memory' = (memory.write (q.slotAddress r.tail) x.lo).write ((q.slotAddress r.tail).add 8) x.hi) :
    ∃ rs ds', (d.unit.write64 memory' Register.queueTail r.advance.tailRegister).acted.toList
        = d.unit.acted.toList ++ rs ∧
      rs ++ ds'.map .queued = (ds ++ [x]).map .queued ∧
      q.Holds N { d with unit := d.unit.write64 memory' Register.queueTail r.advance.tailRegister }
        r.advance memory' ds' := by
  have hhead := h.head
  have hcount := h.count
  have htail := h.tail_lt
  have hout : ds.length + 1 ≤ r.advance.outstanding := by
    have hbehind := h.behind
    have hsoft := h.software
    unfold RingState.isFull at hfull
    rw [beq_eq_false_iff_ne] at hfull
    unfold RingState.outstanding at hbehind
    show ds.length + 1 ≤ ((r.tail + 1) % ringSlots + ringSlots - r.head) % ringSlots
    unfold ringSlots at *
    omega
  have hlen : ds.length + 1 < ringSlots := Nat.lt_of_le_of_lt hout (Nat.mod_lt _ (by decide))
  have hslots : q.descriptorsFrom memory' d.unit.head (ds.length + 1) = ds ++ [x] := by
    rw [descriptorsFrom_snoc q memory' hhead, ← hcount, hm, descriptor_write h.page htail htail, if_pos rfl,
      descriptorsFrom_congr hhead fun j hj => ?_, h.waiting]
    rw [descriptor_write h.page htail (Nat.mod_lt _ (by decide)), if_neg]
    unfold ringSlots at *
    omega
  have hb : q.Backlog N { d with unit := { d.unit with tail := r.advance.tailRegister } } r.advance memory'
      (ds ++ [x]) := by
    have hadv : r.advance.tail < ringSlots := Nat.mod_lt _ (by decide)
    refine { h.toBacklog with
      free := ⟨h.free.allowance, h.free.unscripted⟩
      pointer := Emulated.slotOfPointer_shift hadv, count := ?_, behind := ?_, waiting := ?_ }
    · show (r.tail + 1) % ringSlots = _
      rw [List.length_append, List.length_singleton, hcount, Nat.mod_add_mod]
      rfl
    · rwa [List.length_append]
    · rw [List.length_append]
      exact hslots
  rw [Emulated.write64_tail h.apart]
  rcases Bool.eq_false_or_eq_true d.unit.stalled with hs | hs
  · rw [Emulated.consume_stalled (e := { d.unit with tail := r.advance.tailRegister }) hs]
    exact ⟨[], ds ++ [x], (List.append_nil _).symm, rfl, hb, fun hs' => absurd (hs.symm.trans hs') nofun⟩
  · obtain ⟨ha, hh⟩ := hb.consumed
      { d with unit := Emulated.consume memory' { d.unit with tail := r.advance.tailRegister } }
      ⟨h.free.allowance, h.free.unscripted⟩ (by simp only [hs]) N
    exact ⟨_, [], ha, List.append_nil _, hh⟩

end InvalidationQueue.Holds

/-! ## submissions -/

namespace Remapper

/-- the descriptors `ds` wait in the queue `q` of `u`, whose unit is behind the device `cell` -/
structure Feeds (u : Remapper) (q : InvalidationQueue) (cell N : Nat) (m : Machine σ)
    (ds : List Descriptor) : Prop where
  queue : u.queue = some q
  registers : u.registers = .device cell
  holds : q.Holds N (m.devices.get cell) (q.state m) m.memory ds

namespace Feeds
variable {u : Remapper} {q : InvalidationQueue} {cell N : Nat} {m : Machine σ} {ds : List Descriptor}
  {env : Env σ} (h : u.Feeds q cell N m ds)
include h

theorem readHead (env : Env σ) : ∃ n rs ds',
    (u.registers.read64 Register.queueHead : Act σ ε Word) env m
        = .ok (n.devices.get cell).unit.headRegister n ∧
      m.Accessed n ∧ m.Driven u cell rs n ∧ u.Feeds q cell (N - 1) n ds' ∧
      rs ++ ds'.map .queued = ds.map .queued ∧ (ds' = [] ∨ 2 ≤ N) := by
  obtain ⟨rs, ds', hrs, heq, hN, hh⟩ := h.holds.noticeRead
  obtain ⟨n, hn, ha, hd, hl⟩ := RegisterFile.read64_head (ε := ε) env u h.holds.free rfl hrs
  refine ⟨n, rs, ds', ?_, ha, hd, ⟨h.queue, h.registers, ?_⟩, heq, hN⟩
  · rw [h.registers, hn, Emulated.read64_head hh.apart, hl.unit]
  · have hring : q.state n = q.state m := congrArg (·.get q.cell) ha.rings
    rw [hring, ha.memory]
    exact hh.like hl

/-- there is room for one more, if need be after a look at the head of the unit -/
theorem awaitRoom (hroom : ds.length + 1 < ringSlots) (hp : 2 ≤ env.patience) : ∃ n rs ds',
    Act.withPatience (u.awaitRoom q) env m = .ok () n ∧ m.Driven u cell rs n ∧
      u.Feeds q cell N n ds' ∧ rs ++ ds'.map .queued = ds.map .queued ∧ (q.state n).isFull = false := by
  obtain ⟨tries, htries⟩ := Nat.exists_eq_add_of_le' hp
  unfold Act.withPatience
  rw [htries]
  unfold Remapper.awaitRoom
  cases hfull : (q.state m).isFull with
  | false =>
    refine ⟨m, [], ds, ?_, .refl m, h, rfl, hfull⟩
    simp only [Act.bind_apply, InvalidationQueue.pointers, Act.view_apply, hfull]
    rfl
  | true =>
    obtain ⟨k, rs, ds', hk, ha, hd, hf, heq, _⟩ := h.readHead (ε := RemapError) env
    obtain ⟨hmove, hholds, hempty⟩ := hf.holds.moveHead
    have hlen : ds'.length ≤ ds.length := by
      have hl := congrArg List.length heq
      simp only [List.length_append, List.length_map] at hl
      omega
    obtain ⟨n, hn⟩ : ∃ n, ({ k with rings := k.rings.modify q.cell fun _ =>
        { q.state k with head := (k.devices.get cell).unit.head } } : Machine σ) = n := ⟨_, rfl⟩
    have hstate : q.state n = { q.state k with head := (k.devices.get cell).unit.head } := by
      rw [← hn]
      exact (Cells.get_modify ..).trans (if_pos rfl)
    have hdrive : k.Driven u cell [] n := hn ▸ .ring h.queue k _
    have hfree : (q.state n).isFull = false := by
      rw [hstate]
      exact hempty (by omega)
    have hslot : slotOfPointer (k.devices.get cell).unit.headRegister = (k.devices.get cell).unit.head :=
      Emulated.slotOfPointer_shift hf.holds.head
    refine ⟨n, rs, ds', ?_, ?_, ⟨h.queue, h.registers, ?_⟩, heq, hfree⟩
    · simp only [Act.bind_apply, InvalidationQueue.pointers, Act.view_apply, hfull, if_true, hk,
        InvalidationQueue.moveHead, hslot, hmove, Act.ofExcept, Act.pure_apply, Act.change_apply, hn]
      unfold Remapper.awaitRoom
      simp only [Act.bind_apply, InvalidationQueue.pointers, Act.view_apply, hfree]
      rfl
    · have hdriven := hd.trans hdrive
      rwa [List.append_nil] at hdriven
    · rw [hstate, ← hn]
      exact hholds.mono (Nat.sub_le N 1)

/-- the words of a descriptor are stored in the slot of the tail and written back, and the tail moves -/
theorem push (env : Env σ) (hfull : (q.state m).isFull = false) (x : Descriptor) : ∃ j n,
    (q.push x : Act σ RemapError Unit) env m = .ok () j ∧
      j.noteAll (u.cleaner.events (q.slotAddress (q.state m).tail) 16 j.memory) = n ∧ m.Driven u cell [] n ∧
      n.devices = m.devices ∧
      n.memory = (m.memory.write (q.slotAddress (q.state m).tail) x.lo).write
        ((q.slotAddress (q.state m).tail).add 8) x.hi ∧
      q.state n = (q.state m).advance := by
  obtain ⟨slot, hslot⟩ : ∃ slot, q.slotAddress (q.state m).tail = slot := ⟨_, rfl⟩
  obtain ⟨j, hj⟩ : ∃ j, ({ (m.store slot x.lo).store (slot.add 8) x.hi with
      rings := m.rings.modify q.cell (·.advance) } : Machine σ) = j := ⟨_, rfl⟩
  have hframe : slot.frame ∈ u.frames ∧ (slot.add 8).frame ∈ u.frames := by
    rw [← hslot]
    exact ⟨⟨q, h.queue, (TableEntry.frame_address h.holds.page h.holds.tail_lt).symm⟩,
      ⟨q, h.queue, (TableEntry.frame_hiAddress h.holds.page h.holds.tail_lt).symm⟩⟩
  have hstores : m.Driven u cell [] ((m.store slot x.lo).store (slot.add 8) x.hi) :=
    (Machine.Driven.store m hframe.1 x.lo).trans (.store _ hframe.2 x.hi)
  have hring : m.Driven u cell [] j := hj ▸ hstores.trans (.ring h.queue _ (·.advance))
  rw [hslot]
  refine ⟨j, _, ?_, rfl, hring.trans (.clean _ u.cleaner slot 16), ?_, ?_, ?_⟩
  · unfold InvalidationQueue.push
    simp only [Act.bind_apply, InvalidationQueue.pointers, Act.view_apply, hfull, hslot, ← hj]
    rfl
  · rw [← hj]
    rfl
  · rw [← hj]
    rfl
  · show q.state j = _
    rw [← hj]
    exact (Cells.get_modify ..).trans (if_pos rfl)

/-- one more descriptor is appended -/
theorem append (x : Descriptor) (hroom : ds.length + 1 < ringSlots) (hp : 2 ≤ env.patience) : ∃ n rs ds',
    u.append q x env m = .ok () n ∧ m.Driven u cell rs n ∧ u.Feeds q cell N n ds' ∧
      rs ++ ds'.map .queued = (ds ++ [x]).map .queued := by
  obtain ⟨k, rs, ds', hk, hdk, hfk, heq, hfull⟩ := h.awaitRoom hroom hp
  obtain ⟨j, i, hj, hi, hdi, hdev, hmem, hstate⟩ := hfk.push env hfull x
  obtain ⟨rs', ds'', hacted, heq', hholds⟩ := hfk.holds.push hfull x hmem
  rw [← hdev] at hacted hholds
  obtain ⟨n, hn, ha, hdn, hnd⟩ := RegisterFile.write64_free (ε := RemapError) env u
    (m := i) (by rw [hdev]; exact hfk.holds.free) _ _ hacted
  refine ⟨n, rs ++ rs', ds'', ?_, ?_, ⟨h.queue, h.registers, ?_⟩, ?_⟩
  · unfold Remapper.append
    simp only [Act.bind_apply, hk, InvalidationQueue.pointers, Act.view_apply, hj, Act.clean_apply,
      hi, hstate, h.registers, hn]
  · have hd := hdk.trans (hdi.trans hdn)
    rwa [List.nil_append] at hd
  · have hend : q.state n = (q.state k).advance := (congrArg (·.get q.cell) ha.rings).trans hstate
    rw [hnd, hend, ha.memory]
    exact hholds
  · rw [List.append_assoc, heq', List.map_append, ← List.append_assoc, heq, List.map_append]

/-- descriptors are appended one after the other -/
theorem appendAll (xs : List Descriptor) (hroom : ds.length + xs.length < ringSlots) (hp : 2 ≤ env.patience) :
    ∃ n rs ds', (xs.forM (u.append q) : Act σ RemapError Unit) env m = .ok () n ∧ m.Driven u cell rs n ∧
      u.Feeds q cell N n ds' ∧ rs ++ ds'.map .queued = (ds ++ xs).map .queued := by
  induction xs generalizing m ds with
  | nil => exact ⟨m, [], ds, rfl, .refl m, h, by rw [List.append_nil, List.nil_append]⟩
  | cons x xs ih =>
    rw [List.length_cons] at hroom
    obtain ⟨k, rs, ds', hk, hdk, hfk, heq⟩ := h.append x (by omega) hp
    have hlen : ds'.length ≤ ds.length + 1 := by
      have hl := congrArg List.length heq
      simp only [List.length_append, List.length_map, List.length_singleton] at hl
      omega
    obtain ⟨n, rs', ds'', hn, hdn, hfn, heq'⟩ := ih hfk (by omega)
    refine ⟨n, rs ++ rs', ds'', Act.forM_cons_ok hk hn, hdk.trans hdn, hfn, ?_⟩
    rw [List.append_assoc, heq', List.map_append, ← List.append_assoc, heq, ← List.map_append, List.append_assoc,
      List.singleton_append]

/-- what is pending as the pointers are read is what waits afterwards -/
theorem readPointers (env : Env σ) : ∃ n rs ds' head,
    u.readPointers (ε := ε) env m = .ok (head, (q.state m).tail) n ∧ q.state n = q.state m ∧
      m.Driven u cell rs n ∧ u.Feeds q cell (N - 1) n ds' ∧ rs ++ ds'.map .queued = ds.map .queued ∧
      (ds' = [] ∨ 2 ≤ N) ∧ isPending (q.state m).tail head (q.state m).tail = decide (ds' ≠ []) := by
  obtain ⟨k, rs, ds', hk, hak, hdk, hfk, heq, hwait⟩ := h.readHead (ε := ε) env
  obtain ⟨n, hn, han, hdn, hln⟩ := RegisterFile.read64_free (ε := ε) env u (m := k)
    hfk.holds.free Register.queueTail (by decide)
  have hring : q.state k = q.state m := congrArg (·.get q.cell) hak.rings
  have hstate : q.state n = q.state k := congrArg (·.get q.cell) han.rings
  have hdrive := hdk.trans hdn
  rw [List.append_nil] at hdrive
  refine ⟨n, rs, ds', (k.devices.get cell).unit.head, ?_, hstate.trans hring, hdrive,
    ⟨h.queue, h.registers, ?_⟩, heq, hwait, ?_⟩
  · rw [h.registers] at hk
    unfold Remapper.readPointers
    simp only [Act.bind_apply, h.registers, hk, hn, Act.pure_apply, Emulated.read64_tail hfk.holds.apart]
    rw [hfk.holds.pointer, hring]
    exact congrArg (fun i => EStateM.Result.ok (i, (q.state m).tail) n)
      (Emulated.slotOfPointer_shift hfk.holds.head)
  · rw [hstate, han.memory]
    exact hfk.holds.like hln
  · have hcount := hfk.holds.count
    have hhead := hfk.holds.head
    have hlen := hfk.holds.length_lt
    rw [hring] at hcount
    unfold isPending
    refine decide_eq_decide.mpr ?_
    rw [ne_eq, ← List.length_eq_zero_iff]
    unfold ringSlots at *
    omega

/-- asking for the pointers until nothing is pending ends, and then all is consumed -/
theorem poll (env : Env σ) {tries : Nat} (hN : N ≤ tries) (hpos : 0 < tries) : ∃ n a,
    Act.pollFor (ε := ε) u.readPointers (fun (head, tail) => !isPending (q.state m).tail head tail) tries env m
        = .ok a n ∧
      m.Driven u cell (ds.map .queued) n ∧ u.Feeds q cell N n [] := by
  induction tries generalizing m ds N with
  | zero => exact absurd hpos (Nat.lt_irrefl 0)
  | succ tries ih =>
    obtain ⟨k, rs, ds', head, hread, hstate, hdrive, hfk, heq, hwait, hpending⟩ := h.readPointers (ε := ε) env
    unfold Act.pollFor
    rw [Act.bind_apply, hread]
    simp only [hpending]
    by_cases hd : ds' = []
    · subst hd
      rw [List.map_nil, List.append_nil] at heq
      exact ⟨k, (head, (q.state m).tail), by simp, heq ▸ hdrive, h.queue, h.registers,
        hfk.holds.mono (Nat.sub_le N 1)⟩
    · have h2 := hwait.resolve_left hd
      obtain ⟨n, a, hn, hdn, hfn⟩ := ih hfk (by omega) (by omega)
      rw [hstate] at hn
      refine ⟨n, a, ?_, heq ▸ hdrive.trans hdn, h.queue, h.registers, hfn.holds.mono (Nat.sub_le N 1)⟩
      simpa [hd] using hn

end Feeds

/-- a submission to a queue in which nothing waits returns when all of it is consumed, in order -/
theorem Feeds.submit {u : Remapper} {q : InvalidationQueue} {cell N : Nat} {m : Machine σ} {env : Env σ}
    (h : u.Feeds q cell N m []) (xs : List Descriptor) (hroom : xs.length < ringSlots) (hp : 2 ≤ env.patience)
    (hN : N ≤ env.patience) : ∃ n, u.submit q xs env m = .ok () n ∧
      m.Driven u cell (xs.map .queued) n ∧ u.Feeds q cell N n [] := by
  obtain ⟨k, rs, ds', hk, hdk, hfk, heq⟩ := h.appendAll xs (by simpa using hroom) hp
  obtain ⟨n, a, hn, hdn, hfn⟩ := hfk.poll (ε := RemapError) env hN (Nat.lt_of_lt_of_le Nat.zero_lt_two hp)
  have hpoll : (Act.poll u.readPointers fun (head, tail) => !isPending (q.state k).tail head tail :
      Act σ RemapError _) env k = .ok a n := hn
  have hdrive := hdk.trans hdn
  rw [heq, List.nil_append] at hdrive
  refine ⟨n, ?_, hdrive, hfn⟩
  unfold Remapper.submit
  simp only [Act.bind_apply, hk, InvalidationQueue.pointers, Act.view_apply, hpoll, Act.pure_apply]

end Remapper

end NestedPaging
