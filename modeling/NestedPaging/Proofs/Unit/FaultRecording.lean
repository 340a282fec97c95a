import NestedPaging.Proofs.Unit.Emulation

/-!
# What a unit records of faults

A unit keeps its faults in a ring of records, remembers the record that was written when none was pending,
and raises status bits. `FaultLog` is the same as a list of what the records say, and `Emulated.faultLog` is
the log of a unit: it changes with the unit (`faultLog_latch`, `faultLog_record`, `faultLog_raise`,
`faultLog_clear`, `faultLog_acknowledge`), and the fault status register can be read off it (`faultStatus_eq`).

The capability register of a unit has fields for where the records are and how many. A unit is understood if
they say the truth (`Capabilities.Locates`); it is if the depths it claims to support stay below these fields
(`Capabilities.locates`).
-/

namespace NestedPaging

/-! ## where the records are -/

namespace Capabilities
variable {c : Capabilities} {i : Nat}

/-- the bytes of a fault record -/
def faultBytes : Nat := 16

/-- the capability register says where the fault records are, and they cover no other register -/
structure Locates (c : Capabilities) : Prop where
  count : c.word.field 40 8 + 1 = c.faultRecords
  offset : c.word.field 24 10 * faultBytes = c.faultOffset
  apart : ∀ offset, Register.IsFixed offset → c.faultSlot? offset = none

/-- it does if its fields have room for what they say, and the one below them does not reach up to them -/
theorem locates (hw : c.widths.toNat < 2 ^ 16) (hr : 1 ≤ c.faultRecords) (hr' : c.faultRecords ≤ 256)
    (ha : faultBytes ∣ c.faultOffset) (ho : c.faultOffset ≤ 0x3ff0)
    (apart : ∀ offset, Register.IsFixed offset → c.faultSlot? offset = none) : c.Locates := by
  have hoffset : c.faultOffset / 16 * 16 = c.faultOffset := Nat.div_mul_cancel ha
  have hword : c.word.toNat
      = 2 ^ 40 * (c.faultRecords - 1) + (2 ^ 24 * (c.faultOffset / 16) + 2 ^ 8 * c.widths.toNat) := by
    have hwidths : (c.widths <<< 8).toNat = 2 ^ 8 * c.widths.toNat := by
      rw [UInt64.toNat_shiftLeft, Nat.shiftLeft_eq]
      show c.widths.toNat * 2 ^ 8 % 2 ^ 64 = _
      omega
    have hfault : ((c.faultOffset / 16).toUInt64 <<< 24).toNat = 2 ^ 24 * (c.faultOffset / 16) :=
      (Word.toNat_shifted (k := 24) (m := 10) (by omega) (by decide)).trans (Nat.mul_comm ..)
    have hcount : ((c.faultRecords - 1).toUInt64 <<< 40).toNat = 2 ^ 40 * (c.faultRecords - 1) :=
      (Word.toNat_shifted (k := 40) (m := 8) (by omega) (by decide)).trans (Nat.mul_comm ..)
    have hlow : 2 ^ 8 * c.widths.toNat ||| 2 ^ 24 * (c.faultOffset / 16)
        = 2 ^ 24 * (c.faultOffset / 16) + 2 ^ 8 * c.widths.toNat := by
      rw [Nat.or_comm, ← Nat.two_pow_add_eq_or_of_lt (by omega)]
    unfold word
    rw [UInt64.toNat_or, UInt64.toNat_or, hwidths, hfault, hcount, hlow, Nat.or_comm,
      ← Nat.two_pow_add_eq_or_of_lt (by omega)]
  refine ⟨?_, ?_, apart⟩
  · rw [Word.field_eq, Nat.shiftRight_eq_div_pow, hword]
    omega
  · rw [Word.field_eq, Nat.shiftRight_eq_div_pow, hword]
    show _ * 16 = _
    omega

theorem faultSlot_lower (hi : i < c.faultRecords) : c.faultSlot? (c.faultOffset + i * 16) = some (i, false) := by
  have hsub : c.faultOffset + i * 16 - c.faultOffset = i * 16 := Nat.add_sub_cancel_left ..
  unfold faultSlot?
  rw [if_pos (by omega), hsub, Nat.mul_div_cancel _ (by decide), Nat.mul_mod_left]
  rfl

theorem faultSlot_upper (hi : i < c.faultRecords) : c.faultSlot? (c.faultOffset + i * 16 + 8) = some (i, true) := by
  have hdiv : (c.faultOffset + i * 16 + 8 - c.faultOffset) / 16 = i := by omega
  have hmod : (c.faultOffset + i * 16 + 8 - c.faultOffset) % 16 = 8 := by omega
  unfold faultSlot?
  rw [if_pos (by omega), hdiv, hmod]
  rfl

/-- no record is at the offset of another register -/
theorem Locates.ne_of_slot (h : c.Locates) {offset other : Nat} {slot : Nat × Bool}
    (hs : c.faultSlot? offset = some slot) (ho : Register.IsFixed other) : offset ≠ other := by
  rintro rfl
  cases (h.apart _ ho).symm.trans hs

theorem Locates.records_pos (h : c.Locates) : 0 < c.faultRecords := by
  rw [← h.count]
  exact Nat.succ_pos _

theorem Locates.records_le (h : c.Locates) : c.faultRecords ≤ 256 := by
  rw [← h.count, Word.field_eq]
  exact Nat.mod_lt _ (by decide)

end Capabilities

/-! ## one record -/

namespace FaultRecord

/-- the record as it is read back: of the address it says the page -/
def paged (r : FaultRecord) : FaultRecord := { r with address := r.address &&& ~~~0xfff }

/-- the fields of the upper word side by side -/
theorem toNat_upper (source : UInt16) (reason : UInt8) (isRead : Bool) : (upper source reason isRead).toNat
    = 2 ^ 63 * 1 + (2 ^ 62 * isRead.toNat + (2 ^ 32 * reason.toNat + source.toNat)) := by
  have hreason : (reason.toUInt64 <<< 32).toNat = 2 ^ 32 * reason.toNat := by
    have := reason.toNat_lt
    rw [UInt64.toNat_shiftLeft, UInt8.toNat_toUInt64, Nat.shiftLeft_eq]
    show reason.toNat * 2 ^ 32 % 2 ^ 64 = _
    omega
  have hread : (Word.flag isRead 62).toNat = 2 ^ 62 * isRead.toNat := by cases isRead <;> rfl
  have hbool := isRead.toNat_le
  have hbyte := reason.toNat_lt
  have hsource := source.toNat_lt
  unfold upper
  rw [UInt64.toNat_or, UInt64.toNat_or, UInt64.toNat_or, Word.toNat_single (by decide), hread, hreason,
    UInt16.toNat_toUInt64, Nat.or_assoc, Nat.or_assoc, ← Nat.two_pow_add_eq_or_of_lt (i := 32) (by omega),
    ← Nat.two_pow_add_eq_or_of_lt (i := 62) (by omega), Nat.two_pow_add_eq_or_of_lt (i := 63) (by omega) 1,
    Nat.mul_one]

theorem decode?_isSome (lo hi : Word) : (decode? lo hi).isSome = hi.bit 63 := by
  unfold decode?
  split
  · rename_i h
    exact h.symm
  · rename_i h
    exact (Bool.eq_false_of_not_eq_true h).symm

/-- what is recorded is read back, but for the offset into the page -/
theorem decode?_upper (r : FaultRecord) : decode? r.address (upper r.source r.reason r.isRead) = some r.paged := by
  have hupper := toNat_upper r.source r.reason r.isRead
  have hbool := r.isRead.toNat_le
  have hbyte := r.reason.toNat_lt
  have hsource := r.source.toNat_lt
  have h32 : (32 : UInt64).toNat % 64 = 32 := by decide
  have hvalid : (upper r.source r.reason r.isRead).bit 63 = true := by
    unfold Word.bit
    rw [hupper, Nat.testBit_eq_decide_div_mod_eq, decide_eq_true_eq]
    omega
  unfold decode? paged
  rw [if_pos hvalid]
  congr
  · refine UInt16.toNat_inj.mp ?_
    rw [UInt64.toNat_toUInt16, hupper]
    omega
  · refine UInt8.toNat_inj.mp ?_
    rw [UInt64.toNat_toUInt8, UInt64.toNat_shiftRight, h32, Nat.shiftRight_eq_div_pow, hupper]
    omega
  · unfold Word.bit
    rw [Nat.testBit_eq_decide_div_mod_eq, hupper]
    cases r.isRead
    · exact decide_eq_false (by simp only [Bool.toNat_false]; omega)
    · exact decide_eq_true (by simp only [Bool.toNat_true]; omega)

/-- a record is cleared by writing its valid bit -/
theorem decode?_cleared (lo hi : Word) : decode? lo (hi &&& ~~~(Word.single 63 &&& Word.single 63)) = none := by
  have hclear : (~~~(Word.single 63 &&& Word.single 63)).bit 63 = false := by decide
  unfold decode?
  rw [Word.bit_and, hclear, Bool.and_false, if_neg Bool.false_ne_true]

end FaultRecord

/-! ## the log of a unit -/

/-- the faults of a unit as whoever reports them wants to know them -/
structure FaultLog where
  /-- what each slot holds, if a fault is pending there -/
  slots : List (Option FaultRecord)
  /-- the slot that was filled when no other was -/
  first : Nat
  /-- the bits that report events, but for the one that says that a fault is pending -/
  events : UInt32
  deriving DecidableEq

namespace FaultLog

/-- the log of a new unit with `n` slots -/
def blank (n : Nat) : FaultLog := ⟨List.replicate n none, 0, 0⟩

/-- how many faults are pending -/
def pending (l : FaultLog) : Nat := l.slots.countP (·.isSome)

/-- slot `i` is the first, unless another is filled already -/
def latch (l : FaultLog) (i : Nat) : FaultLog := { l with first := if l.pending = 0 then i else l.first }

def fill (l : FaultLog) (i : Nat) (r : FaultRecord) : FaultLog := { l with slots := l.slots.set i (some r.paged) }

/-- a fault is noticed -/
def inject (l : FaultLog) (i : Nat) (r : FaultRecord) : FaultLog := (l.latch i).fill i r

def raise (l : FaultLog) (bits : UInt32) : FaultLog := { l with events := l.events ||| bits }

/-- slot `i` is emptied -/
def clear (l : FaultLog) (i : Nat) : FaultLog := { l with slots := l.slots.set i none }

/-- all slots are emptied and all events acknowledged -/
def handled (l : FaultLog) : FaultLog := { l with slots := l.slots.map fun _ => none, events := 0 }

/-- the pending faults in ring order, from the slot that was filled first -/
def inOrder (l : FaultLog) : List FaultRecord := (l.slots.rotate l.first).filterMap id

/-- the fault status register -/
def status (l : FaultLog) : UInt32 :=
  if l.pending = 0 then l.events else l.events ||| FaultStatus.pending ||| (l.first.toUInt32 <<< 8)

/-- the bits that report events besides the one that says that a fault is pending -/
def eventBits : UInt32 := FaultStatus.events &&& ~~~FaultStatus.pending

/-- a log that a unit with capabilities `c` can have -/
structure Fits (c : Capabilities) (l : FaultLog) : Prop where
  length : l.slots.length = c.faultRecords
  first : l.first < c.faultRecords
  events : l.events &&& eventBits = l.events

end FaultLog

/-- the log that the records and the status of a unit amount to -/
def Emulated.faultLog (e : Emulated) : FaultLog :=
  ⟨e.faults.toList.map fun f => FaultRecord.decode? f.1 f.2, e.firstFault, e.faultEvents⟩

namespace Emulated
variable {e : Emulated} {i : Nat}

theorem pendingFaults_eq (e : Emulated) : e.pendingFaults = e.faultLog.pending := by
  unfold pendingFaults faultLog FaultLog.pending
  rw [← Array.countP_eq_size_filter, ← Array.countP_toList, List.countP_map]
  refine List.countP_congr fun f _ => ?_
  rw [Function.comp_apply, FaultRecord.decode?_isSome]

/-- whether a fault is pending -/
theorem any_faults (e : Emulated) : (e.faults.any fun f => f.2.bit 63) = true ↔ e.faultLog.pending ≠ 0 := by
  unfold faultLog FaultLog.pending
  rw [← Nat.pos_iff_ne_zero, List.countP_map, List.countP_pos_iff, ← Array.any_toList, List.any_eq_true]
  simp only [Function.comp_apply, FaultRecord.decode?_isSome]

theorem faultStatus_eq (e : Emulated) : e.faultStatus = e.faultLog.status := by
  unfold faultStatus FaultLog.status
  by_cases h : e.faultLog.pending = 0
  · rw [if_neg fun ha => (any_faults e).mp ha h, if_pos h]
    rfl
  · rw [if_pos ((any_faults e).mpr h), if_neg h]
    rfl

theorem faultLog_create (c : Capabilities) : (create c).faultLog = .blank c.faultRecords := by
  unfold faultLog create FaultLog.blank
  rw [Array.toList_replicate, List.map_replicate]
  rfl

/-- a record that changes says the same whatever it said before -/
theorem slots_modify (faults : Array (Word × Word)) (i : Nat) {f : Word × Word → Word × Word}
    {o : Option FaultRecord} (h : ∀ r, FaultRecord.decode? (f r).1 (f r).2 = o) :
    ((faults.modify i f).toList.map fun r => FaultRecord.decode? r.1 r.2)
      = (faults.toList.map fun r => FaultRecord.decode? r.1 r.2).set i o := by
  refine List.ext_getElem? fun j => ?_
  rw [Array.toList_modify, List.getElem?_map, List.getElem?_modify, List.getElem?_set', List.getElem?_map]
  by_cases hij : i = j
  · subst hij
    cases faults.toList[i]? <;> simp [h]
  · cases faults.toList[j]? <;> simp [hij]

theorem faultLog_latch (e : Emulated) (i : Nat) : (e.latchFault i).faultLog = e.faultLog.latch i := by
  unfold latchFault FaultLog.latch
  by_cases h : e.faultLog.pending = 0
  · rw [if_neg fun ha => (any_faults e).mp ha h, if_pos h]
    rfl
  · rw [if_pos ((any_faults e).mpr h), if_neg h]

theorem faultLog_record (e : Emulated) (i : Nat) (r : FaultRecord) :
    (e.recordFault i r.address (FaultRecord.upper r.source r.reason r.isRead)).faultLog = e.faultLog.fill i r :=
  congrArg (FaultLog.mk · e.firstFault e.faultEvents) (slots_modify e.faults i fun _ => FaultRecord.decode?_upper r)

theorem faultLog_raise (e : Emulated) (bits : UInt32) : (e.raise bits).faultLog = e.faultLog.raise bits := rfl

/-- a record is cleared through its upper word -/
theorem write64_upper {c : Capabilities} {memory : Memory} (hc : e.caps = c) (hi : i < c.faultRecords) (v : Word) :
    e.write64 memory (c.faultOffset + i * 16 + 8) v
      = { e with faults := e.faults.modify i (fun f => (f.1, f.2 &&& ~~~(v &&& Word.single 63))) } := by
  unfold write64
  rw [hc, Capabilities.faultSlot_upper hi]
  rfl

theorem faultLog_clear {c : Capabilities} {memory : Memory} (hc : e.caps = c) (hi : i < c.faultRecords) :
    (e.write64 memory (c.faultOffset + i * 16 + 8) (Word.single 63)).faultLog = e.faultLog.clear i := by
  have hslots := slots_modify e.faults i (f := fun f => (f.1, f.2 &&& ~~~(Word.single 63 &&& Word.single 63)))
    fun f => FaultRecord.decode?_cleared f.1 f.2
  rw [write64_upper hc hi]
  exact congrArg (FaultLog.mk · e.firstFault e.faultEvents) hslots

/-- what is read of record `i` -/
theorem decode?_read64 {c : Capabilities} (h : c.Locates) (hc : e.caps = c) (hs : e.faults.size = c.faultRecords)
    (hi : i < c.faultRecords) :
    FaultRecord.decode? (e.read64 (c.faultOffset + i * 16)) (e.read64 (c.faultOffset + i * 16 + 8))
      = e.faultLog.slots.getD i none := by
  have hlo := Capabilities.faultSlot_lower hi
  have hhi := Capabilities.faultSlot_upper hi
  have hread : ∀ {offset : Nat} {slot : Nat × Bool}, c.faultSlot? offset = some slot → e.read64 offset
      = if slot.2 then (e.faults.getD slot.1 (0, 0)).2 else (e.faults.getD slot.1 (0, 0)).1 := by
    intro offset slot hslot
    unfold read64
    rw [if_neg (h.ne_of_slot hslot (by decide)), if_neg (h.ne_of_slot hslot (by decide)), hc, hslot]
  have hget : e.faults.getD i (0, 0) = e.faults[i] := by
    rw [Array.getD_eq_getD_getElem?, Array.getElem?_eq_getElem (by omega)]
    rfl
  rw [hread hlo, hread hhi, if_neg Bool.false_ne_true, if_pos rfl, hget]
  unfold faultLog
  rw [List.getD_eq_getElem?_getD, List.getElem?_map, Array.getElem?_toList, Array.getElem?_eq_getElem (by omega)]
  rfl

/-- events are acknowledged, but for the bit that says that a fault is pending -/
theorem faultLog_acknowledge (e : Emulated) (v : UInt32) : (e.write32 Register.faultStatus v).faultLog
    = { e.faultLog with events := e.faultLog.events &&& ~~~(v &&& FaultStatus.events &&& ~~~FaultStatus.pending) } :=
  rfl

end Emulated

/-! ## logs that fit a unit -/

namespace FaultLog
variable {c : Capabilities} {l : FaultLog} {i : Nat}

theorem length_inOrder (l : FaultLog) : l.inOrder.length = l.pending := by
  unfold inOrder pending
  rw [List.length_filterMap_eq_countP]
  exact (List.rotate_perm l.slots l.first).countP_eq _

theorem pending_handled (l : FaultLog) : l.handled.pending = 0 := by
  unfold pending handled
  rw [List.countP_map, List.countP_eq_zero]
  exact fun _ _ => Bool.false_ne_true

theorem inOrder_of_pending (h : l.pending = 0) : l.inOrder = [] := by
  rw [← List.length_eq_zero_iff, l.length_inOrder, h]

theorem handled_of_pending (h : l.pending = 0) : l.handled = { l with events := 0 } := by
  have hslots : l.slots.map (fun _ => none) = l.slots := by
    refine (List.map_congr_left fun o ho => ?_).trans l.slots.map_id
    exact (Option.not_isSome_iff_eq_none.mp (List.countP_eq_zero.mp h o ho)).symm
  unfold handled
  rw [hslots]

/-- no fault is pending, and no event is reported -/
structure Quiet (l : FaultLog) : Prop where
  pending : l.pending = 0
  events : l.events = 0

theorem quiet_handled (l : FaultLog) : l.handled.Quiet := ⟨l.pending_handled, rfl⟩

theorem Quiet.status (h : l.Quiet) : l.status = 0 := by
  unfold FaultLog.status
  rw [if_pos h.pending, h.events]

/-- there is nothing left to handle -/
theorem Quiet.handled (h : l.Quiet) : l.handled = l := by
  rw [handled_of_pending h.pending, ← h.events]

theorem fits_blank (h : 0 < c.faultRecords) : (blank c.faultRecords).Fits c :=
  ⟨List.length_replicate, h, UInt32.zero_and⟩

namespace Fits

theorem latch (h : l.Fits c) (hi : i < c.faultRecords) : (l.latch i).Fits c := by
  refine ⟨h.length, ?_, h.events⟩
  show (if l.pending = 0 then i else l.first) < _
  split
  · exact hi
  · exact h.first

theorem fill (h : l.Fits c) (i : Nat) (r : FaultRecord) : (l.fill i r).Fits c :=
  ⟨List.length_set.trans h.length, h.first, h.events⟩

theorem raise (h : l.Fits c) {bits : UInt32} (hb : bits &&& eventBits = bits) : (l.raise bits).Fits c := by
  refine ⟨h.length, h.first, ?_⟩
  show (l.events ||| bits) &&& eventBits = l.events ||| bits
  rw [Emulated.or_and, h.events, hb]

theorem clear (h : l.Fits c) (i : Nat) : (l.clear i).Fits c :=
  ⟨List.length_set.trans h.length, h.first, h.events⟩

theorem handled (h : l.Fits c) : l.handled.Fits c :=
  ⟨(List.length_map _).trans h.length, h.first, UInt32.zero_and⟩

/-- the event bits fill the low byte -/
theorem toNat_events_lt (h : l.Fits c) : (l.events ||| FaultStatus.pending).toNat < 2 ^ 8 := by
  have hevents : l.events.toNat ≤ eventBits.toNat := by
    rw [← h.events, UInt32.toNat_and]
    exact Nat.and_le_right
  rw [UInt32.toNat_or]
  exact Nat.or_lt_two_pow (Nat.lt_of_le_of_lt hevents (by decide)) (by decide)

/-- the low byte of the status reports events, the next one says which fault was first -/
theorem toNat_status (h : l.Fits c) (hc : c.Locates) (hp : l.pending ≠ 0) :
    l.status.toNat = 2 ^ 8 * l.first + (l.events ||| FaultStatus.pending).toNat := by
  have hfirst : l.first < 2 ^ 8 := Nat.lt_of_lt_of_le h.first hc.records_le
  have hshift : (l.first.toUInt32 <<< 8).toNat = 2 ^ 8 * l.first := by
    have hnat : l.first.toUInt32.toNat = l.first := UInt32.toNat_ofNat_of_lt' (Nat.lt_trans hfirst (by decide))
    rw [UInt32.toNat_shiftLeft, hnat, Nat.shiftLeft_eq]
    show l.first * 2 ^ 8 % 2 ^ 32 = _
    omega
  unfold status
  rw [if_neg hp, UInt32.toNat_or, hshift, Nat.or_comm, ← Nat.two_pow_add_eq_or_of_lt h.toNat_events_lt]

theorem first_status (h : l.Fits c) (hc : c.Locates) (hp : l.pending ≠ 0) :
    l.status.toNat / 256 % 256 % c.faultRecords = l.first := by
  have hfirst : l.first < 2 ^ 8 := Nat.lt_of_lt_of_le h.first hc.records_le
  have hbyte : l.status.toNat / 256 % 256 = l.first := by
    have := h.toNat_events_lt
    rw [h.toNat_status hc hp]
    omega
  rw [hbyte, Nat.mod_eq_of_lt h.first]

/-- a word that holds the event bits leaves events as they are -/
theorem events_and (h : l.Fits c) {w : UInt32} (hw : eventBits &&& w = eventBits) : l.events &&& w = l.events := by
  rw [← h.events, UInt32.and_assoc, hw]

theorem events_and_pending (h : l.Fits c) : l.events &&& FaultStatus.pending = 0 := by
  have hapart : eventBits &&& FaultStatus.pending = 0 := by decide
  rw [← h.events, UInt32.and_assoc, hapart, UInt32.and_zero]

theorem events_status (h : l.Fits c) (hc : c.Locates) : l.status &&& FaultStatus.events
    = if l.pending = 0 then l.events else l.events ||| FaultStatus.pending := by
  split
  · rename_i hp
    unfold status
    rw [if_pos hp, h.events_and (by decide)]
  · rename_i hp
    have hbyte : FaultStatus.events.toNat = 2 ^ 8 - 1 := by decide
    have hlow := h.toNat_events_lt
    refine UInt32.toNat_inj.mp ?_
    rw [UInt32.toNat_and, hbyte, Nat.and_two_pow_sub_one_eq_mod, h.toNat_status hc hp]
    omega

theorem pending_status (h : l.Fits c) (hc : c.Locates) :
    l.status &&& FaultStatus.pending = if l.pending = 0 then 0 else FaultStatus.pending := by
  have hsub : FaultStatus.events &&& FaultStatus.pending = FaultStatus.pending := by decide
  have hstatus : l.status &&& FaultStatus.pending = (l.status &&& FaultStatus.events) &&& FaultStatus.pending := by
    rw [UInt32.and_assoc, hsub]
  rw [hstatus, h.events_status hc]
  split
  · exact h.events_and_pending
  · rw [Emulated.or_and, h.events_and_pending, UInt32.and_self, UInt32.zero_or]

theorem quiet_iff (h : l.Fits c) (hc : c.Locates) : l.status &&& FaultStatus.events = 0 ↔ l.Quiet := by
  rw [h.events_status hc]
  split
  · rename_i hp
    exact ⟨fun he => ⟨hp, he⟩, Quiet.events⟩
  · rename_i hp
    refine ⟨fun he => ?_, fun hq => absurd hq.pending hp⟩
    have hand := congrArg (· &&& FaultStatus.pending) he
    simp only [Emulated.or_and, h.events_and_pending, UInt32.and_self] at hand
    cases hand

/-- all events are acknowledged -/
theorem acknowledged (h : l.Fits c) (hc : c.Locates) : l.events &&&
    ~~~((l.status &&& FaultStatus.events &&& ~~~FaultStatus.pending) &&& FaultStatus.events &&& ~~~FaultStatus.pending)
      = 0 := by
  have hevents : l.status &&& FaultStatus.events &&& ~~~FaultStatus.pending = l.events := by
    rw [h.events_status hc]
    split
    · exact h.events_and (by decide)
    · have hself : FaultStatus.pending &&& ~~~FaultStatus.pending = 0 := by decide
      rw [Emulated.or_and, hself, UInt32.or_zero, h.events_and (by decide)]
  have hmask : l.events &&& FaultStatus.events &&& ~~~FaultStatus.pending = l.events := by
    rw [h.events_and (by decide), h.events_and (by decide)]
  rw [hevents, hmask, UInt32.and_not_self]

end Fits

/-! ## slots that are emptied one by one -/

/-- the faults in the slots `is` -/
def found (l : FaultLog) (is : List Nat) : List FaultRecord := is.filterMap fun i => l.slots.getD i none

/-- the slots `is` are emptied -/
def clearAll (l : FaultLog) (is : List Nat) : FaultLog := is.foldl clear l

variable {is : List Nat}

theorem found_clear (hi : i ∉ is) : (l.clear i).found is = l.found is := by
  refine List.filterMap_congr fun j hj => ?_
  have hij : i ≠ j := fun e => hi (e ▸ hj)
  unfold clear
  rw [List.getD_eq_getElem?_getD, List.getElem?_set_ne hij, List.getD_eq_getElem?_getD]

theorem clear_of_none (h : l.slots.getD i none = none) : l.clear i = l := by
  have hset : l.slots.set i none = l.slots := by
    refine List.ext_getElem? fun j => ?_
    rw [List.getElem?_set']
    split
    · rename_i hij
      subst hij
      rw [List.getD_eq_getElem?_getD] at h
      cases hs : l.slots[i]? with
      | none => rfl
      | some o =>
        rw [hs] at h
        exact congrArg some h.symm
    · rfl
  unfold clear
  rw [hset]

theorem getElem?_clearAll (l : FaultLog) (is : List Nat) (j : Nat) :
    (l.clearAll is).slots[j]? = if j ∈ is then l.slots[j]?.map (fun _ => none) else l.slots[j]? := by
  induction is generalizing l with
  | nil => exact (if_neg List.not_mem_nil).symm
  | cons i is ih =>
    refine (ih (l.clear i)).trans ?_
    show (if j ∈ is then (l.slots.set i none)[j]?.map (fun _ => none) else (l.slots.set i none)[j]?) = _
    rw [List.getElem?_set']
    by_cases hij : i = j
    · subst hij
      rw [if_pos rfl, if_pos List.mem_cons_self]
      cases l.slots[i]? <;> simp
    · rw [if_neg hij]
      simp [Ne.symm hij]

theorem clearAll_eq (l : FaultLog) (is : List Nat) : l.clearAll is = { l with slots := (l.clearAll is).slots } := by
  induction is generalizing l with
  | nil => rfl
  | cons i is ih => exact ih (l.clear i)

open Remapper (ringFrom) in
theorem ringFrom_eq {n first : Nat} (h : first ≤ n) : ringFrom n first = (List.range n).rotate first := by
  unfold ringFrom
  rw [List.rotate_eq_drop_append_take (by rwa [List.length_range])]

theorem lt_of_mem_ringFrom {n first : Nat} (h : i ∈ Remapper.ringFrom n first) : i < n := by
  unfold Remapper.ringFrom at h
  rcases List.mem_append.mp h with h | h
  · exact List.mem_range.mp (List.mem_of_mem_drop h)
  · exact List.mem_range.mp (List.mem_of_mem_take h)

/-- once around the ring, all that is pending is found in order -/
theorem Fits.found_ringFrom (h : l.Fits c) : l.found (Remapper.ringFrom c.faultRecords l.first) = l.inOrder := by
  have hslots : l.slots = (List.range c.faultRecords).map fun i => l.slots.getD i none := by
    refine List.ext_getElem (by simp [h.length]) fun i hi _ => ?_
    simp [List.getD_eq_getElem?_getD, hi]
  unfold found inOrder
  rw [ringFrom_eq h.first.le]
  conv_rhs => rw [hslots, ← List.map_rotate, List.filterMap_map]
  rfl

/-- and no slot is left out -/
theorem Fits.clearAll_ringFrom (h : l.Fits c) :
    { l.clearAll (Remapper.ringFrom c.faultRecords l.first) with events := 0 } = l.handled := by
  rw [clearAll_eq]
  refine congrArg (FaultLog.mk · l.first 0) (List.ext_getElem? fun j => ?_)
  rw [getElem?_clearAll, ringFrom_eq h.first.le]
  simp only [List.mem_rotate, List.mem_range, List.getElem?_map]
  split
  · rfl
  · rename_i hj
    rw [List.getElem?_eq_none (by rw [h.length]; omega)]
    rfl

end FaultLog

end NestedPaging
