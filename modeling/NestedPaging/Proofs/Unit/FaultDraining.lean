import NestedPaging.Proofs.Unit.FaultRecording

/-!
# Draining faults

A handler asks the unit for its status, visits every slot once around the ring, and acknowledges what the status
said. After one round nothing is left, so that the next one ends it.

* `Remapper.takeFault_ok`, `Remapper.drainSlots_ok`   one slot, and several;
* `Remapper.drainFaults_ok`   a round, and the look that ends it;
* `Remapper.handleFaults_ok`  the handler, if it is patient enough for both.
-/

namespace NestedPaging

variable {σ ε : Type}

/-! ## warnings -/

/-- the line of a warning -/
def Event.warning? : Event → Option String
  | .logged .warn line => some line
  | _ => none

namespace Machine
variable {m k n : Machine σ}

/-- the warnings so far -/
def warnings (m : Machine σ) : List String := m.trace.toList.filterMap Event.warning?

theorem Accessed.warnings (h : m.Accessed n) : n.warnings = m.warnings := by
  obtain ⟨es, hes, hunits⟩ := h.logs
  have hnone : es.filterMap Event.warning? = [] := List.filterMap_eq_nil_iff.mpr fun e he => by
    have := hunits e he
    cases e <;> first | rfl | exact this.elim
  unfold Machine.warnings
  rw [hes, List.filterMap_append, hnone, List.append_nil]

theorem warnings_note_warn (m : Machine σ) (line : String) :
    (m.note (.logged .warn line)).warnings = m.warnings ++ [line] := by
  unfold Machine.warnings
  rw [Logs.note m, List.filterMap_append]
  rfl

end Machine

/-! ## devices with faults -/

/-- a device that answers freely, with a unit whose log of faults is `l` -/
structure Device.Records (c : Capabilities) (l : FaultLog) (d : Device) : Prop where
  free : d.Free
  caps : d.unit.caps = c
  log : d.unit.faultLog = l
  fits : l.Fits c

namespace Device.Records
variable {c : Capabilities} {l l' : FaultLog} {d d' : Device}

theorem like (h : d.Records c l) (hl : d.Like d') : d'.Records c l :=
  ⟨hl.free, hl.unit ▸ h.caps, hl.unit ▸ h.log, h.fits⟩

/-- the unit changes -/
theorem change (h : d.Records c l) {e : Emulated} (hc : e.caps = d.unit.caps) (hl : e.faultLog = l') (hf : l'.Fits c) :
    ({ d with unit := e } : Device).Records c l' :=
  ⟨⟨h.free.allowance, h.free.unscripted⟩, hc.trans h.caps, hl, hf⟩

theorem size (h : d.Records c l) : d.unit.faults.size = c.faultRecords := by
  rw [← h.fits.length, ← h.log]
  unfold Emulated.faultLog
  rw [List.length_map, Array.length_toList]

theorem status (h : d.Records c l) : d.unit.read32 Register.faultStatus = l.status := by
  rw [← h.log, ← Emulated.faultStatus_eq]
  rfl

end Device.Records

namespace Remapper
variable {u : Remapper} {cell i : Nat} {is : List Nat} {c : Capabilities} {l : FaultLog} {m k n : Machine σ}
  {env : Env σ}

/-- the line that reports a fault -/
def faultLine (u : Remapper) (r : FaultRecord) : String :=
  "Remapping unit " ++ hex u.base.toNat ++ ": DMA fault " ++ r.text

/-- the unit was found at the device `cell`, with capabilities `c` -/
structure Reads (u : Remapper) (cell : Nat) (c : Capabilities) : Prop where
  registers : u.registers = .device cell
  capability : u.capability = c.word

theorem Reads.faultRecords (h : u.Reads cell c) (hc : c.Locates) : u.faultRecords = c.faultRecords := by
  unfold Remapper.faultRecords
  rw [h.capability, hc.count]

theorem Reads.faultOffset (h : u.Reads cell c) (hc : c.Locates) (i : Nat) :
    u.faultOffset i = c.faultOffset + i * 16 := by
  have hoffset : c.word.field 24 10 * 16 = c.faultOffset := hc.offset
  unfold Remapper.faultOffset
  rw [h.capability, hoffset]

/-- from `m` to `n` only `u` was driven, and `lines` were reported -/
structure Reports (u : Remapper) (cell : Nat) (lines : List String) (m n : Machine σ) : Prop where
  driven : m.Driven u cell [] n
  warnings : n.warnings = m.warnings ++ lines

namespace Reports
variable {lines lines' : List String}

theorem trans (h : u.Reports cell lines m k) (h' : u.Reports cell lines' k n) :
    u.Reports cell (lines ++ lines') m n :=
  ⟨h.driven.trans h'.driven, by rw [h'.warnings, h.warnings, List.append_assoc]⟩

theorem accessed (hd : m.Driven u cell [] n) (ha : m.Accessed n) : u.Reports cell [] m n :=
  ⟨hd, by rw [ha.warnings, List.append_nil]⟩

theorem line (u : Remapper) (cell : Nat) (m : Machine σ) (line : String) :
    u.Reports cell [line] m (m.note (.logged .warn line)) :=
  ⟨.note m trivial rfl, m.warnings_note_warn line⟩

end Reports

section
variable (hu : u.Reads cell c) (hc : c.Locates) (env : Env σ)
include hu hc

/-- what a slot holds is taken out of it -/
theorem takeFault_ok (hd : (m.devices.get cell).Records c l) (hi : i < c.faultRecords) :
    ∃ n, (u.takeFault i : Act σ ε (Option FaultRecord)) env m = .ok (l.slots.getD i none) n ∧
      u.Reports cell [] m n ∧ (n.devices.get cell).Records c (l.clear i) := by
  obtain ⟨k, hk, hak, hdk, hlk⟩ := RegisterFile.read64_free (ε := ε) env u hd.free (c.faultOffset + i * 16)
    (hc.ne_of_slot (Capabilities.faultSlot_lower hi) (by decide))
  obtain ⟨j, hj, haj, hdj, hlj⟩ := RegisterFile.read64_free (ε := ε) env u hlk.free (c.faultOffset + i * 16 + 8)
    (hc.ne_of_slot (Capabilities.faultSlot_upper hi) (by decide))
  have hjd : (j.devices.get cell).Records c l := (hd.like hlk).like hlj
  have hread := Emulated.decode?_read64 hc hd.caps hd.size hi
  rw [hd.log] at hread
  rw [hlk.unit] at hj
  have hmj := (Reports.accessed hdk hak).trans (.accessed hdj haj)
  unfold takeFault
  simp only [hu.registers, hu.faultOffset hc, Act.bind_apply, hk, hj, hread]
  cases hs : l.slots.getD i none with
  | none =>
    refine ⟨j, rfl, hmj, ?_⟩
    rwa [FaultLog.clear_of_none hs]
  | some r =>
    have hlog : ((j.devices.get cell).unit.write64 j.memory (c.faultOffset + i * 16 + 8) (Word.single 63)).faultLog
        = l.clear i := by rw [Emulated.faultLog_clear hjd.caps hi, hjd.log]
    have hacted : ((j.devices.get cell).unit.write64 j.memory (c.faultOffset + i * 16 + 8) (Word.single 63)).acted
        = (j.devices.get cell).unit.acted := by rw [Emulated.write64_upper hjd.caps hi]
    obtain ⟨n, hn, han, hdn, hnd⟩ := RegisterFile.write64_free (ε := ε) env u hjd.free
      (c.faultOffset + i * 16 + 8) (Word.single 63) (by rw [hacted, List.append_nil])
    refine ⟨n, ?_, hmj.trans (.accessed hdn han), ?_⟩
    · simp only [Act.bind_apply, hn, Act.pure_apply]
    · rw [hnd]
      exact hjd.change (Emulated.caps_write64 ..) hlog (hjd.fits.clear i)

/-- each slot is visited once, so that what it holds is still there when its turn comes -/
theorem drainSlots_ok (hd : (m.devices.get cell).Records c l) (hn : is.Nodup) (hi : ∀ i ∈ is, i < c.faultRecords) :
    ∃ n, (u.drainSlots is : Act σ ε Nat) env m = .ok (l.found is).length n ∧
      u.Reports cell ((l.found is).map u.faultLine) m n ∧ (n.devices.get cell).Records c (l.clearAll is) := by
  induction is generalizing l m with
  | nil => exact ⟨m, rfl, .accessed (.refl m) (.refl m), hd⟩
  | cons i is ih =>
    obtain ⟨hnot, hnodup⟩ := List.nodup_cons.mp hn
    obtain ⟨k, hk, hmk, hkd⟩ := takeFault_ok (ε := ε) hu hc env hd (hi i List.mem_cons_self)
    have hrest := fun j hj => hi j (List.mem_cons_of_mem i hj)
    unfold drainSlots
    simp only [Act.bind_apply, hk]
    cases hs : l.slots.getD i none with
    | none =>
      obtain ⟨n, hrun, hkn, hnd⟩ := ih hkd hnodup hrest
      have hfound : l.found (i :: is) = (l.clear i).found is := by
        rw [FaultLog.found_clear hnot]
        exact List.filterMap_cons_none hs
      exact ⟨n, hfound ▸ hrun, hfound ▸ hmk.trans hkn, hnd⟩
    | some r =>
      obtain ⟨n, hrun, hkn, hnd⟩ := ih (m := k.note (.logged .warn (u.faultLine r))) hkd hnodup hrest
      have hfound : l.found (i :: is) = r :: (l.clear i).found is := by
        rw [FaultLog.found_clear hnot]
        exact List.filterMap_cons_some hs
      refine ⟨n, ?_, ?_, hnd⟩
      · rw [hfound]
        unfold Act.log Act.note
        simp only [Act.change_apply, Act.bind_apply]
        have hline : "Remapping unit " ++ hex u.base.toNat ++ ": DMA fault " ++ r.text = u.faultLine r := rfl
        rw [hline, hrun]
        rfl
      · rw [hfound]
        exact hmk.trans ((Reports.line u cell k (u.faultLine r)).trans hkn)

/-- once nothing is left, the status says so -/
theorem drainFaults_quiet (hd : (m.devices.get cell).Records c l) (hq : l.Quiet) (tries : Nat) :
    ∃ n, (u.drainFaults (tries + 1) : Act σ ε Nat) env m = .ok 0 n ∧ u.Reports cell [] m n ∧
      (n.devices.get cell).Records c l := by
  obtain ⟨n, hn, han, hdn, hln⟩ := RegisterFile.read32_free (ε := ε) env u hd.free Register.faultStatus (by decide)
  refine ⟨n, ?_, .accessed hdn han, hd.like hln⟩
  unfold drainFaults
  simp only [hu.registers, Act.bind_apply, hn, hd.status, (hd.fits.quiet_iff hc).mpr hq, if_true, Act.pure_apply]

/-- the slots are visited if a fault is pending; otherwise they are empty anyway -/
theorem visit_ok (hd : (m.devices.get cell).Records c l) : ∃ n l',
    (if l.status &&& FaultStatus.pending != 0 then
        u.drainSlots (ringFrom u.faultRecords (l.status.toNat / 256 % 256 % u.faultRecords))
      else pure 0 : Act σ ε Nat) env m = .ok l.pending n ∧ u.Reports cell (l.inOrder.map u.faultLine) m n ∧
    (n.devices.get cell).Records c l' ∧ l'.events = l.events ∧ { l' with events := 0 } = l.handled := by
  rw [hd.fits.pending_status hc]
  by_cases hp : l.pending = 0
  · rw [if_pos hp, hp, FaultLog.inOrder_of_pending hp]
    exact ⟨m, l, rfl, .accessed (.refl m) (.refl m), hd, rfl, (FaultLog.handled_of_pending hp).symm⟩
  · rw [if_neg hp, hu.faultRecords hc, hd.fits.first_status hc hp]
    have hnodup : (ringFrom c.faultRecords l.first).Nodup := by
      rw [FaultLog.ringFrom_eq hd.fits.first.le, List.nodup_rotate]
      exact List.nodup_range
    obtain ⟨n, hn, hmn, hnd⟩ := drainSlots_ok (ε := ε) hu hc env hd hnodup fun i => FaultLog.lt_of_mem_ringFrom
    rw [hd.fits.found_ringFrom] at hn hmn
    rw [l.length_inOrder] at hn
    exact ⟨n, _, hn, hmn, hnd, by rw [FaultLog.clearAll_eq], hd.fits.clearAll_ringFrom⟩

/-- one round empties every slot and acknowledges every event -/
theorem drainFaults_ok (hd : (m.devices.get cell).Records c l) (tries : Nat) :
    ∃ n, (u.drainFaults (tries + 2) : Act σ ε Nat) env m = .ok l.pending n ∧
      u.Reports cell (l.inOrder.map u.faultLine) m n ∧ (n.devices.get cell).Records c l.handled := by
  by_cases hq : l.Quiet
  · obtain ⟨n, hn, hmn, hnd⟩ := drainFaults_quiet (ε := ε) hu hc env hd hq (tries + 1)
    rw [hq.pending, FaultLog.inOrder_of_pending hq.pending, hq.handled]
    exact ⟨n, hn, hmn, hnd⟩
  obtain ⟨k, hk, hak, hdk, hlk⟩ := RegisterFile.read32_free (ε := ε) env u hd.free Register.faultStatus (by decide)
  obtain ⟨j, l', hj, hkj, hjd, hevents, hl'⟩ := visit_ok (ε := ε) hu hc env (hd.like hlk)
  obtain ⟨v, hv⟩ : ∃ v, l.status &&& FaultStatus.events &&& ~~~FaultStatus.pending = v := ⟨_, rfl⟩
  obtain ⟨i, hi, hai, hdi, hid⟩ := RegisterFile.write32_free (ε := ε) env u hjd.free Register.faultStatus v
    (List.append_nil _).symm
  have hlog : ((j.devices.get cell).unit.write32 Register.faultStatus v).faultLog = l.handled := by
    rw [Emulated.faultLog_acknowledge, hjd.log, hevents, ← hv, hd.fits.acknowledged hc, hl']
  have hidr : (i.devices.get cell).Records c l.handled := by
    rw [hid]
    exact hjd.change (Emulated.caps_write32 ..) hlog hd.fits.handled
  obtain ⟨n, hn, hin, hnd⟩ := drainFaults_quiet (ε := ε) hu hc env hidr l.quiet_handled tries
  refine ⟨n, ?_, ?_, hnd⟩
  · unfold drainFaults
    simp only [hu.registers, Act.bind_apply, hk, hd.status, if_neg fun h0 => hq ((hd.fits.quiet_iff hc).mp h0), hv]
    by_cases hp : (l.status &&& FaultStatus.pending != 0) = true
    · rw [if_pos hp] at hj ⊢
      simp only [Act.bind_apply, hj, hi, hn, Act.pure_apply, Nat.add_zero]
    · rw [if_neg hp] at hj ⊢
      simp only [Act.bind_apply, hj, hi, hn, Act.pure_apply, Nat.add_zero]
  · have hreports := (Reports.accessed hdk hak).trans (hkj.trans ((Reports.accessed hdi hai).trans hin))
    rwa [List.nil_append, List.nil_append, List.append_nil] at hreports

/-- a handler that is patient enough for two rounds drains all there is -/
theorem handleFaults_ok (h2 : 2 ≤ env.patience) (hd : (m.devices.get cell).Records c l) :
    ∃ n, (u.handleFaults : Act σ ε Nat) env m = .ok l.pending n ∧
      u.Reports cell (l.inOrder.map u.faultLine) m n ∧ (n.devices.get cell).Records c l.handled := by
  obtain ⟨tries, htries⟩ := Nat.exists_eq_add_of_le' h2
  obtain ⟨n, hn, h⟩ := drainFaults_ok (ε := ε) hu hc env hd tries
  refine ⟨n, ?_, h⟩
  unfold handleFaults Act.withPatience
  rw [htries, hn]

end

end Remapper

end NestedPaging
