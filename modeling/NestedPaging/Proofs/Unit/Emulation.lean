import NestedPaging.Proofs.Unit.Driving

/-!
# What an emulated unit does

The movable registers of a unit are meant to lie apart from the fixed ones and from each other
(`Capabilities.Disjoint`), and the capability registers to be able to say where the IOTLB registers lie
(`Capabilities.Reported`). For the queue it is enough that no movable register covers it
(`Capabilities.Apart`).

* `Emulated.issue_eq`   a command that is issued as drivers do is the only one triggered;
* `Emulated.consume_eq` descriptors are consumed in order, once each, up to the tail.
-/

namespace NestedPaging

open PhysAddr (IsPage)

/-- a page is its own address without the bits below -/
theorem PhysAddr.IsPage.roundDown {p : PhysAddr} (hp : IsPage p) : p.bits &&& ~~~0xfff = p.bits := by
  have h := Word.toNat_roundDown p.bits (k := 12) (by decide)
  rw [show ((2 ^ 12 : Nat).toUInt64 - 1 : Word) = 0xfff by decide,
    Nat.div_mul_cancel (p.isPageAligned_iff.mp hp.aligned)] at h
  exact UInt64.toNat_inj.mp h

/-! ## where registers lie -/

namespace Register

/-- the registers that lie at fixed offsets, and their sizes in bytes -/
def fixed : List (Nat × Nat) :=
  [(version, 4), (capability, 8), (extended, 8), (globalCommand, 4), (globalStatus, 4), (rootTable, 8),
    (contextCommand, 8), (faultStatus, 4), (faultControl, 4), (faultData, 4), (faultAddress, 4),
    (queueHead, 8), (queueTail, 8), (queueAddress, 8), (interruptTable, 8)]

/-- does the byte at `offset` belong to a fixed register? -/
def IsFixed (offset : Nat) : Prop := ∃ r ∈ fixed, r.1 ≤ offset ∧ offset < r.1 + r.2

/-- the registers that a queue needs -/
def ofQueue : List Nat := [queueHead, queueTail, queueAddress]

instance (offset : Nat) : Decidable (IsFixed offset) :=
  inferInstanceAs (Decidable (∃ r ∈ fixed, r.1 ≤ offset ∧ offset < r.1 + r.2))

end Register

namespace Capabilities

/-- the bytes of a block of IOTLB registers -/
def iotlbBytes : Nat := 16

/-- the IOTLB registers do not overlap others, nor do the registers of the queue -/
structure Apart (c : Capabilities) : Prop where
  iotlb : ∀ i < iotlbBytes, ¬ Register.IsFixed (c.iotlbOffset + i)
  blocks : ∀ i < iotlbBytes, c.faultSlot? (c.iotlbOffset + i) = none
  queue : ∀ offset ∈ Register.ofQueue, c.faultSlot? offset = none

/-- the IOTLB registers, the fault records and the fixed registers do not overlap -/
structure Disjoint (c : Capabilities) : Prop where
  iotlb : ∀ i < iotlbBytes, ¬ Register.IsFixed (c.iotlbOffset + i)
  blocks : ∀ i < iotlbBytes, c.faultSlot? (c.iotlbOffset + i) = none
  faults : ∀ offset, Register.IsFixed offset → c.faultSlot? offset = none

theorem Disjoint.apart {c : Capabilities} (h : c.Disjoint) : c.Apart :=
  ⟨h.iotlb, h.blocks, fun offset ho => h.faults offset (by
    revert offset
    decide)⟩

/-- the extended capability register can say where the IOTLB registers lie -/
structure Reported (c : Capabilities) : Prop where
  aligned : iotlbBytes ∣ c.iotlbOffset
  inField : c.iotlbOffset ≤ 0x3ff0

namespace Apart
variable {c : Capabilities} (h : c.Apart)
include h

theorem ne_command (offset : Nat) (ho : Register.IsFixed offset) :
    offset ≠ c.iotlbOffset + Register.iotlbCommand := by
  rintro rfl
  exact h.iotlb Register.iotlbCommand (by decide) ho

theorem faultSlot_command : c.faultSlot? (c.iotlbOffset + Register.iotlbCommand) = none :=
  h.blocks Register.iotlbCommand (by decide)

end Apart

/-- the field holds the offset in units of 16 bytes -/
theorem Reported.field {c : Capabilities} (h : c.Reported) :
    c.extendedWord.field 8 10 * 16 + Register.iotlbCommand = c.iotlbOffset + Register.iotlbCommand := by
  have hdiv : c.iotlbOffset / 16 < 2 ^ 10 := by
    have := h.inField
    omega
  have hword : c.extendedWord.field 8 10 = Word.field ((c.iotlbOffset / 16).toUInt64 <<< 8) 8 10 := by
    refine Word.field_congr fun i h8 hi => ?_
    unfold extendedWord Word.flag
    rw [Word.bit_or, Word.bit_or, Word.bit_or]
    have hlow : ∀ (b : Bool) (k : Nat), k < 8 → (if b then Word.single k else 0 : Word).bit i = false := by
      intro b k hk
      cases b with
      | false => exact Word.bit_zero i
      | true =>
        rw [if_pos rfl, Word.bit_single (by omega)]
        exact decide_eq_false (by omega)
    rw [hlow _ 0 (by decide), hlow _ 1 (by decide), hlow _ 3 (by decide)]
    rfl
  have hnat : ((c.iotlbOffset / 16).toUInt64 <<< 8 : Word).toNat = c.iotlbOffset / 16 * 2 ^ 8 := by
    have hn : (c.iotlbOffset / 16).toUInt64.toNat = c.iotlbOffset / 16 :=
      UInt64.toNat_ofNat_of_lt' (by simp [UInt64.size]; omega)
    have h8 : (8 : UInt64).toNat % 64 = 8 := by decide
    rw [UInt64.toNat_shiftLeft, hn, h8, Nat.shiftLeft_eq, Nat.mod_eq_of_lt (by omega)]
  have hmul : c.iotlbOffset / 16 * 16 = c.iotlbOffset := Nat.div_mul_cancel h.aligned
  rw [hword, Word.field_eq, hnat, Nat.shiftRight_eq_div_pow, Nat.mul_div_cancel _ (by decide),
    Nat.mod_eq_of_lt hdiv, hmul]

end Capabilities

/-! ## commands -/

namespace Command

/-- the commands that can be issued: the bits of the register, 23 and up -/
def issued : List UInt32 := (List.range 9).map fun i => (1 : UInt32) <<< (23 + i).toUInt32

theorem bits_zero : bits 0 = [] := by decide

/-- what holds of each of them is checked one by one -/
theorem of_issued {P : UInt32 → Prop} [DecidablePred P] (h : (issued.all fun b => decide (P b)) = true) {b : UInt32}
    (hb : b ∈ issued) : P b :=
  of_decide_eq_true (List.all_eq_true.mp h b hb)

theorem bits_issued {b : UInt32} (hb : b ∈ issued) : bits b = [b] :=
  of_issued (P := fun b => bits b = [b]) (by decide) hb

theorem ext_bit {a b : UInt32} (h : ∀ i, a.toBitVec.getLsbD i = b.toBitVec.getLsbD i) : a = b :=
  UInt32.toBitVec_inj.mp (BitVec.eq_of_getLsbD_eq fun i _ => h i)

/-- what is triggered by writing `b` with the status `s` and no one-shot bits -/
theorem triggered_issue (b s : UInt32) :
    ((((s &&& ~~~oneShot) ||| b) ^^^ s) &&& persistent) ||| (((s &&& ~~~oneShot) ||| b) &&& oneShot)
      = b &&& (oneShot ||| (persistent &&& ~~~s)) := by
  have hp : ∀ i, persistent.toBitVec.getLsbD i = true → oneShot.toBitVec.getLsbD i = false := by
    intro i
    unfold persistent
    simp only [UInt32.toBitVec_and, UInt32.toBitVec_not, BitVec.getLsbD_and, BitVec.getLsbD_not]
    cases oneShot.toBitVec.getLsbD i <;> simp
  refine ext_bit fun i => ?_
  have hi := hp i
  simp only [UInt32.toBitVec_or, UInt32.toBitVec_and, UInt32.toBitVec_xor, UInt32.toBitVec_not,
    BitVec.getLsbD_or, BitVec.getLsbD_and, BitVec.getLsbD_xor, BitVec.getLsbD_not]
  by_cases h32 : i < 32
  · simp only [h32, decide_true, Bool.true_and]
    revert hi
    cases persistent.toBitVec.getLsbD i <;> cases oneShot.toBitVec.getLsbD i <;>
      cases s.toBitVec.getLsbD i <;> cases b.toBitVec.getLsbD i <;> decide
  · rw [BitVec.getLsbD_of_ge _ i (Nat.le_of_not_lt h32), BitVec.getLsbD_of_ge b.toBitVec i (Nat.le_of_not_lt h32)]
    simp

/-- a single bit is set in a status or not at all -/
theorem issued_cases {b : UInt32} (hb : b ∈ issued) (s : UInt32) : s &&& b = 0 ∨ s &&& b = b := by
  obtain ⟨k, hk, rfl⟩ := of_issued (P := fun b => ∃ k < 32, b = (1 : UInt32) <<< k.toUInt32) (by decide) hb
  have hnat : ((1 : UInt32) <<< k.toUInt32).toNat = 2 ^ k := by
    revert k
    decide
  have hand : ∀ i, (s.toNat &&& 2 ^ k).testBit i = (s.toNat.testBit k && decide (k = i)) := by
    intro i
    rw [Nat.testBit_and, Nat.testBit_two_pow]
    by_cases h : k = i
    · rw [h]
    · simp [h]
  cases hbit : s.toNat.testBit k with
  | false =>
    left
    refine UInt32.toNat_inj.mp (Nat.eq_of_testBit_eq fun i => ?_)
    rw [UInt32.toNat_and, hnat, hand, hbit]
    simp
  | true =>
    right
    refine UInt32.toNat_inj.mp (Nat.eq_of_testBit_eq fun i => ?_)
    rw [UInt32.toNat_and, hnat, hand, hbit, Nat.testBit_two_pow, Bool.true_and]

theorem issued_ne_zero {b : UInt32} (hb : b ∈ issued) : b ≠ 0 :=
  of_issued (P := fun b => b ≠ 0) (by decide) hb

/-- different commands share no bit -/
theorem issued_and {a b : UInt32} (ha : a ∈ issued) (hb : b ∈ issued) (h : b ≠ a) : b &&& a = 0 := by
  have hall : (issued.all fun b => decide (b ≠ a → b &&& a = 0)) = true :=
    of_issued (P := fun a => (issued.all fun b => decide (b ≠ a → b &&& a = 0)) = true) (by decide) ha
  exact of_issued (P := fun b => b ≠ a → b &&& a = 0) hall hb h

/-- a status that holds a single bit has it set -/
theorem or_issued_ne_zero {b : UInt32} (hb : b ∈ issued) (a : UInt32) : a &&& b ||| b ≠ 0 := by
  have hor : a &&& b ||| b = b := by
    refine ext_bit fun i => ?_
    simp only [UInt32.toBitVec_and, UInt32.toBitVec_or, BitVec.getLsbD_and, BitVec.getLsbD_or]
    grind
  rw [hor]
  exact issued_ne_zero hb

/-- a command acts once if it is one-shot, and else unless its state holds already -/
theorem and_issued {b : UInt32} (hb : b ∈ issued) (s : UInt32) :
    b &&& (oneShot ||| (persistent &&& ~~~s)) = if b &&& oneShot ≠ 0 ∨ s &&& b = 0 then b else 0 := by
  have hne := issued_ne_zero hb
  have hkind := of_issued (P := fun b => b &&& oneShot = b ∨ b &&& oneShot = 0 ∧ b &&& persistent = b)
    (by decide) hb
  have hbit : ∀ {x y z : UInt32}, x &&& y = z → ∀ i,
      (x.toBitVec.getLsbD i && y.toBitVec.getLsbD i) = z.toBitVec.getLsbD i := by
    intro x y z h i
    rw [← BitVec.getLsbD_and, ← UInt32.toBitVec_and, h]
  have hlt : ∀ i, b.toBitVec.getLsbD i = true → i < 32 := fun i hi => BitVec.lt_of_getLsbD hi
  have hzero : ∀ i, (0 : UInt32).toBitVec.getLsbD i = false := by simp
  rcases hkind with hone | ⟨hno, hper⟩
  · rw [if_pos (.inl (by rwa [hone]))]
    refine ext_bit fun i => ?_
    have h1 := hbit hone i
    simp only [UInt32.toBitVec_and, UInt32.toBitVec_or, UInt32.toBitVec_not, BitVec.getLsbD_and,
      BitVec.getLsbD_or, BitVec.getLsbD_not]
    grind
  · rcases issued_cases hb s with h0 | hs
    · rw [if_pos (.inr h0)]
      refine ext_bit fun i => ?_
      have h1 := hbit hper i
      have h2 := hbit h0 i
      rw [hzero] at h2
      have h3 := hlt i
      simp only [UInt32.toBitVec_and, UInt32.toBitVec_or, UInt32.toBitVec_not, BitVec.getLsbD_and,
        BitVec.getLsbD_or, BitVec.getLsbD_not]
      grind
    · rw [if_neg (by simp [hno, hs, hne])]
      refine ext_bit fun i => ?_
      have h1 := hbit hno i
      have h2 := hbit hs i
      rw [hzero] at h1 ⊢
      simp only [UInt32.toBitVec_and, UInt32.toBitVec_or, UInt32.toBitVec_not, BitVec.getLsbD_and,
        BitVec.getLsbD_or, BitVec.getLsbD_not]
      grind

end Command

namespace Emulated
variable {e : Emulated} {memory : Memory}

/-- the command `b` as drivers issue it: the status is written back, but for the one-shot bits -/
def issue (e : Emulated) (b : UInt32) : Emulated :=
  e.globalCommand ((e.status &&& ~~~Command.oneShot) ||| b)

/-- a command that a driver issues is triggered alone, or not at all if its state holds already -/
theorem issue_eq {b : UInt32} (hb : b ∈ Command.issued) (e : Emulated) :
    e.issue b = if b &&& Command.oneShot ≠ 0 ∨ e.status &&& b = 0 then e.trigger b else e := by
  unfold issue globalCommand triggered
  rw [Command.triggered_issue, Command.and_issued hb]
  split
  · rw [Command.bits_issued hb]
    rfl
  · rw [Command.bits_zero]
    rfl

theorem or_and (a b c : UInt32) : (a ||| b) &&& c = (a &&& c) ||| (b &&& c) := by
  refine Command.ext_bit fun i => ?_
  simp only [UInt32.toBitVec_and, UInt32.toBitVec_or, BitVec.getLsbD_and, BitVec.getLsbD_or]
  exact Bool.and_or_distrib_right ..

/-- the command is in the status afterwards -/
theorem status_issue {b : UInt32} (hb : b ∈ Command.issued) (e : Emulated) :
    (e.issue b).status = e.status ||| b := by
  rw [issue_eq hb]
  split
  · rename_i h
    show (if b &&& Command.oneShot != 0 then e.status ||| b else e.status ^^^ b) = e.status ||| b
    split
    · rfl
    · rename_i hone
      have h0 := h.resolve_left (by simpa using hone)
      refine Command.ext_bit fun i => ?_
      have hi : (e.status &&& b).toBitVec.getLsbD i = false := by
        rw [h0]
        simp
      simp only [UInt32.toBitVec_and, UInt32.toBitVec_or, UInt32.toBitVec_xor, BitVec.getLsbD_and,
        BitVec.getLsbD_or, BitVec.getLsbD_xor] at hi ⊢
      grind
  · rename_i h
    have hs := (Command.issued_cases hb e.status).resolve_left fun h0 => h (.inr h0)
    refine Command.ext_bit fun i => ?_
    have hi : (e.status &&& b).toBitVec.getLsbD i = b.toBitVec.getLsbD i := by rw [hs]
    simp only [UInt32.toBitVec_and, UInt32.toBitVec_or, BitVec.getLsbD_and, BitVec.getLsbD_or] at hi ⊢
    grind

/-- the queue is turned on, unless it is on already -/
theorem issue_queued (e : Emulated) : e.issue Command.queuedInvalidation
    = if e.status &&& Command.queuedInvalidation = 0 then e.trigger Command.queuedInvalidation else e := by
  have hstate : ¬ Command.queuedInvalidation &&& Command.oneShot ≠ 0 := by decide
  rw [issue_eq (by decide)]
  simp only [hstate, false_or]

/-- all that matters to the queue of a unit is the same, and what decides whether the unit answers -/
structure Steady (e e' : Emulated) : Prop where
  caps : e'.caps = e.caps
  stalled : e'.stalled = e.stalled
  faults : ∀ i, (e'.faults.getD i (0, 0)).1 = (e.faults.getD i (0, 0)).1
  head : e'.head = e.head
  tail : e'.tail = e.tail
  queued : e'.status &&& Command.queuedInvalidation = e.status &&& Command.queuedInvalidation
  address : e'.register Register.queueAddress = e.register Register.queueAddress

namespace Steady
variable {e' e'' : Emulated}

theorem refl (e : Emulated) : e.Steady e := ⟨rfl, rfl, fun _ => rfl, rfl, rfl, rfl, rfl⟩

theorem trans (h : e.Steady e') (h' : e'.Steady e'') : e.Steady e'' :=
  ⟨h'.caps.trans h.caps, h'.stalled.trans h.stalled, fun i => (h'.faults i).trans (h.faults i),
    h'.head.trans h.head,
    h'.tail.trans h.tail, h'.queued.trans h.queued, h'.address.trans h.address⟩

end Steady

/-- a command but that to turn the queue on; the unit acts on no request to invalidate -/
theorem steady_issue {b : UInt32} (hb : b ∈ Command.issued) (hne : b ≠ Command.queuedInvalidation)
    (e : Emulated) : e.Steady (e.issue b) := by
  have hq : (e.issue b).status &&& Command.queuedInvalidation = e.status &&& Command.queuedInvalidation := by
    rw [status_issue hb, or_and, Command.issued_and (by decide) hb hne, UInt32.or_zero]
  have he := issue_eq hb e
  split at he
  · rw [he] at hq ⊢
    exact ⟨rfl, rfl, fun _ => rfl, if_neg hne, rfl, hq, rfl⟩
  · rw [he]
    exact .refl e

theorem acted_issue {b : UInt32} (hb : b ∈ Command.issued) (e : Emulated) : ∃ rs,
    (e.issue b).acted.toList = e.acted.toList ++ rs ∧ ∀ r ∈ rs, r = .global b := by
  rw [issue_eq hb]
  split
  · exact ⟨[.global b], Array.toList_push, by simp⟩
  · exact ⟨[], (List.append_nil _).symm, nofun⟩

/-! ## registers -/

theorem register_setRegister (e : Emulated) (offset other : Nat) (v : Word) :
    (e.setRegister offset v).register other = if offset = other then v else e.register other := by
  unfold register setRegister
  rw [Std.HashMap.getD_insert]
  simp

theorem steady_setRegister (e : Emulated) {offset : Nat} (h : offset ≠ Register.queueAddress) (v : Word) :
    e.Steady (e.setRegister offset v) :=
  ⟨rfl, rfl, fun _ => rfl, rfl, rfl, rfl, (register_setRegister ..).trans (if_neg h)⟩

/-- the lower words of fault records are never written by software -/
theorem faults_modify (faults : Array (Word × Word)) (i : Nat) {f : Word × Word → Word × Word}
    (hf : ∀ r, (f r).1 = r.1) (j : Nat) :
    ((faults.modify i f).getD j (0, 0)).1 = (faults.getD j (0, 0)).1 := by
  simp only [Array.getD_eq_getD_getElem?, Array.getElem?_modify]
  split
  · cases faults[j]? with
    | none => rfl
    | some r => exact hf r
  · rfl

section
variable (h : e.caps.Apart)
include h

/-- a write of a fixed register that asks for nothing, even if a fault record lies there -/
theorem steady_write64 {offset : Nat} (ho : Register.IsFixed offset) (ht : offset ≠ Register.queueTail)
    (ha : offset ≠ Register.queueAddress) (hc : offset ≠ Register.contextCommand) (v : Word) :
    e.Steady (e.write64 memory offset v) ∧ (e.write64 memory offset v).acted = e.acted := by
  unfold write64
  split
  · split
    · exact ⟨⟨rfl, rfl, faults_modify _ _ fun _ => rfl, rfl, rfl, rfl, rfl⟩, rfl⟩
    · exact ⟨.refl e, rfl⟩
  · simp only [if_neg ht, if_neg hc, if_neg (h.ne_command offset ho)]
    exact ⟨steady_setRegister e ha v, rfl⟩

theorem write64_address (v : Word) :
    e.write64 memory Register.queueAddress v = e.setRegister Register.queueAddress v := by
  unfold write64
  simp only [h.queue Register.queueAddress (by decide),
    if_neg (h.ne_command Register.queueAddress (by decide))]
  rfl

theorem write64_tail (v : Word) :
    e.write64 memory Register.queueTail v = consume memory { e with tail := v } := by
  unfold write64
  simp only [h.queue Register.queueTail (by decide), if_true]

omit h in
theorem write64_context (hc : e.caps.faultSlot? Register.contextCommand = none) (v : Word) :
    e.write64 memory Register.contextCommand v =
      (e.act (.context (v.field 61 2) v.toUInt16)).setRegister Register.contextCommand
        (v &&& ~~~Word.single 63) := by
  unfold write64
  simp only [hc, if_true]
  rfl

theorem write64_iotlb (v : Word) : e.write64 memory (e.caps.iotlbOffset + Register.iotlbCommand) v =
    (e.act (.iotlb (v.field 60 2) (v >>> 32).toUInt16)).setRegister
      (e.caps.iotlbOffset + Register.iotlbCommand) (v &&& ~~~Word.single 63) := by
  unfold write64
  simp only [h.faultSlot_command, if_true]
  rw [if_neg (h.ne_command Register.queueTail (by decide)).symm,
    if_neg (h.ne_command Register.contextCommand (by decide)).symm]

theorem read64_head : e.read64 Register.queueHead = e.headRegister := by
  unfold read64
  simp only [h.queue Register.queueHead (by decide)]
  rfl

theorem read64_tail : e.read64 Register.queueTail = e.tail := by
  unfold read64
  simp only [h.queue Register.queueTail (by decide)]
  rfl

end

/-! ## the queue -/

variable {q : InvalidationQueue}

theorem consumeFrom_eq (q : InvalidationQueue) (memory : Memory) (n : Nat) (h : e.head < ringSlots) :
    consumeFrom memory q.base n e = { e with
      acted := e.acted ++ (q.descriptorsFrom memory e.head n).map Request.queued
      head := (e.head + n) % ringSlots } := by
  induction n generalizing e with
  | zero =>
    simp only [consumeFrom, InvalidationQueue.descriptorsFrom, List.map_nil, Array.appendList_nil,
      Nat.add_zero, Nat.mod_eq_of_lt h]
  | succ n ih =>
    unfold consumeFrom InvalidationQueue.descriptorsFrom
    rw [ih (Nat.mod_lt _ (by decide)), List.map_cons, Array.appendList_cons]
    simp only [act, Nat.mod_add_mod]
    rw [Nat.add_assoc, Nat.add_comm 1 n]
    rfl

/-- a unit that is not stalled consumes all up to the tail -/
theorem consume_eq (hp : IsPage q.base) (hs : e.stalled = false)
    (hon : e.status &&& Command.queuedInvalidation ≠ 0)
    (ha : e.register Register.queueAddress = q.base.bits) (hh : e.head < ringSlots) :
    consume memory e = { e with
      acted := e.acted ++ (q.descriptorsFrom memory e.head
        ((slotOfPointer e.tail + ringSlots - e.head) % ringSlots)).map Request.queued
      head := slotOfPointer e.tail } := by
  have ht : slotOfPointer e.tail < ringSlots := Nat.mod_lt _ (by decide)
  have hend : (e.head + (slotOfPointer e.tail + ringSlots - e.head) % ringSlots) % ringSlots
      = slotOfPointer e.tail := by
    unfold ringSlots at *
    omega
  have hgo : (e.stalled || e.status &&& Command.queuedInvalidation == 0) = false := by simp [hs, hon]
  unfold consume
  rw [hgo, if_neg Bool.false_ne_true, ha, hp.roundDown, consumeFrom_eq q memory _ hh, hend]

/-- a unit that is at the tail has nothing to consume -/
theorem consume_idle (h : e.head = slotOfPointer e.tail) : consume memory e = e := by
  unfold consume
  split
  · rfl
  · rw [← h, Nat.add_sub_cancel_left, Nat.mod_self]
    rfl

theorem consume_stalled (hs : e.stalled = true) : consume memory e = e := by
  unfold consume
  rw [hs, Bool.true_or, if_pos rfl]

theorem consume_off (hoff : e.status &&& Command.queuedInvalidation = 0) : consume memory e = e := by
  unfold consume
  rw [hoff]
  simp

theorem slotOfPointer_shift {i : Nat} (h : i < ringSlots) : slotOfPointer (i.toUInt64 <<< 4) = i := by
  revert i
  decide +kernel

end Emulated

/-! ## pairs of words -/

namespace TableEntry
variable {p : PhysAddr} {i j : Nat} {memory : Memory}

section
variable (hp : IsPage p) (hi : i < 256) (hj : j < 256) (w : Word)
include hp hi hj

theorem readWords_write_lo : (ofTable p j).readWords (memory.write (ofTable p i).address w)
    = if i = j then ⟨w, memory.read (ofTable p j).hiAddress⟩ else (ofTable p j).readWords memory := by
  have hlo := sameWord_address hp hi hj
  have hhi : ¬ Memory.SameWord (ofTable p i).address (ofTable p j).hiAddress := by
    rw [address_eq, hiAddress_eq, sameWord_entry hp hp (by omega) (by omega)]
    omega
  unfold readWords
  rw [Memory.read_write_other hhi]
  split
  · rename_i h
    rw [Memory.read_write_same (hlo.mpr h)]
  · rename_i h
    rw [Memory.read_write_other fun hs => h (hlo.mp hs)]

theorem readWords_write_hi : (ofTable p j).readWords (memory.write (ofTable p i).hiAddress w)
    = if i = j then ⟨memory.read (ofTable p j).address, w⟩ else (ofTable p j).readWords memory := by
  have hlo : ¬ Memory.SameWord (ofTable p i).hiAddress (ofTable p j).address := by
    rw [address_eq, hiAddress_eq, sameWord_entry hp hp (by omega) (by omega)]
    omega
  have hhi : Memory.SameWord (ofTable p i).hiAddress (ofTable p j).hiAddress ↔ i = j := by
    rw [hiAddress_eq, hiAddress_eq, sameWord_entry hp hp (by omega) (by omega), eq_self, true_and]
    omega
  unfold readWords
  rw [Memory.read_write_other hlo]
  split
  · rename_i h
    rw [Memory.read_write_same (hhi.mpr h)]
  · rename_i h
    rw [Memory.read_write_other fun hs => h (hhi.mp hs)]

end

end TableEntry

end NestedPaging
