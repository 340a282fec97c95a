import NestedPaging.Proofs.Unit.Submitting

/-!
# What is asked of a unit, through either discipline

An `Invalidation` is what a unit acts on, whether it came as a descriptor or as a command: its kind, how
much it covers, and the domain. The three layouts of the words all carry it (`context_request`,
`iotlb_request`, `queued_request`).

`Remapper.Ready` says that a unit was brought up. Then `Ready.invalidate` returns with the unit having acted
on what was asked, and the unit is ready again.
-/

namespace NestedPaging

variable {σ ε : Type}

/-- a request to drop what is cached -/
structure Invalidation where
  kind : Nat
  scope : Nat
  domain : UInt16
  deriving DecidableEq

/-- the invalidation that a request asks for -/
def Request.invalidation? : Request → Option Invalidation
  | .global _ => none
  | .context scope domain => some ⟨Descriptor.contextKind, scope, domain⟩
  | .iotlb scope domain => some ⟨Descriptor.iotlbKind, scope, domain⟩
  | .queued d => some ⟨d.kind, d.scope, d.domain⟩

/-- cached context entries, then mappings -/
def Scope.invalidations (s : Scope) (domain : UInt16) : List Invalidation :=
  [⟨Descriptor.contextKind, s.code, domain⟩, ⟨Descriptor.iotlbKind, s.code, domain⟩]

/-- the invalidations that the unit behind a device has acted on, oldest first -/
def Machine.invalidations (m : Machine σ) (cell : Nat) : List Invalidation :=
  (m.devices.get cell).unit.acted.toList.filterMap Request.invalidation?

theorem Machine.Driven.invalidations {u : Remapper} {cell : Nat} {rs : List Request} {m n : Machine σ}
    (h : m.Driven u cell rs n) :
    n.invalidations cell = m.invalidations cell ++ rs.filterMap Request.invalidation? := by
  unfold Machine.invalidations
  rw [h.acted, List.filterMap_append]

/-! ## layouts -/

namespace Word

theorem bit_domain (d : UInt16) {k : Nat} (hk : k ≤ 48) (i : Nat) :
    bit (d.toUInt64 <<< k.toUInt64) i = (decide (k ≤ i) && d.toNat.testBit (i - k)) := by
  have hkn : k.toUInt64.toNat = k := UInt64.toNat_ofNat_of_lt' (by simp [UInt64.size]; omega)
  have hd := d.toNat_lt
  have hpow : 2 ^ k ≤ 2 ^ 48 := Nat.pow_le_pow_right (by decide) hk
  have hlt : d.toNat * 2 ^ k < 2 ^ 64 := calc
    d.toNat * 2 ^ k ≤ d.toNat * 2 ^ 48 := Nat.mul_le_mul_left _ hpow
    _ < 2 ^ 64 := by omega
  have hnat : UInt64.toNat (d.toUInt64 <<< k.toUInt64) = d.toNat * 2 ^ k := by
    rw [UInt64.toNat_shiftLeft, hkn, Nat.mod_eq_of_lt (by omega : k < 64), UInt16.toNat_toUInt64,
      Nat.shiftLeft_eq, Nat.mod_eq_of_lt hlt]
  unfold bit
  rw [hnat, Nat.testBit_mul_two_pow]

variable {a : Word} {k : Nat}

/-- a domain is read back from where it was put -/
theorem domain_or (d : UInt16) (hk : k ≤ 48) (ha : ∀ i < 16, a.bit (k + i) = false) :
    ((a ||| (d.toUInt64 <<< k.toUInt64)) >>> k.toUInt64).toUInt16 = d := by
  have hkn : k.toUInt64.toNat = k := UInt64.toNat_ofNat_of_lt' (by simp [UInt64.size]; omega)
  refine UInt16.toNat_inj.mp (Nat.eq_of_testBit_eq fun i => ?_)
  rw [UInt64.toNat_toUInt16, UInt64.toNat_shiftRight, hkn, Nat.mod_eq_of_lt (by omega : k < 64),
    Nat.testBit_mod_two_pow, Nat.testBit_shiftRight]
  by_cases hi : i < 16
  · have hb := bit_or a (d.toUInt64 <<< k.toUInt64) (k + i)
    rw [ha i hi, bit_domain d hk, Bool.false_or, Nat.add_sub_cancel_left] at hb
    simpa [hi, bit] using hb
  · have hd : d.toNat < 2 ^ i :=
      Nat.lt_of_lt_of_le d.toNat_lt (Nat.pow_le_pow_right (by decide) (Nat.le_of_not_lt hi))
    rw [Nat.testBit_lt_two_pow hd]
    simp [hi]

/-- and does not touch fields elsewhere -/
theorem field_or_domain (d : UInt16) (low width : Nat) (hk : k ≤ 48) (h : low + width ≤ k ∨ k + 16 ≤ low) :
    field (a ||| (d.toUInt64 <<< k.toUInt64)) low width = a.field low width := by
  refine field_congr fun i hlow hhigh => ?_
  rw [bit_or, bit_domain d hk]
  by_cases hi : k ≤ i
  · have hd : d.toNat < 2 ^ (i - k) :=
      Nat.lt_of_lt_of_le d.toNat_lt (Nat.pow_le_pow_right (by decide) (by omega))
    rw [Nat.testBit_lt_two_pow hd, Bool.and_false, Bool.or_false]
  · rw [decide_eq_false hi, Bool.false_and, Bool.or_false]

end Word

section
variable (s : Scope) (d : UInt16)

/-- a descriptor carries what it asks for -/
theorem queued_request : [Request.queued (.context s d), .queued (.iotlb s d)].filterMap
    Request.invalidation? = s.invalidations d := by
  have hdomain : ∀ a : Word, (∀ i < 16, a.bit (16 + i) = false) →
      ((a ||| (d.toUInt64 <<< 16)) >>> 16).toUInt16 = d := fun a ha => Word.domain_or d (k := 16) (by decide) ha
  have hfield : ∀ (a : Word) {low width : Nat}, low + width ≤ 16 →
      Word.field (a ||| (d.toUInt64 <<< 16)) low width = a.field low width := fun a _ _ h =>
    Word.field_or_domain d _ _ (k := 16) (by decide) (.inl h)
  simp only [List.filterMap_cons, List.filterMap_nil, Request.invalidation?, Scope.invalidations, Descriptor.kind,
    Descriptor.scope, Descriptor.domain, Descriptor.context, Descriptor.iotlb, Descriptor.make]
  rw [hfield _ (by decide), hfield _ (by decide), hfield _ (by decide), hfield _ (by decide),
    hdomain _ (by cases s <;> decide), hdomain _ (by cases s <;> decide)]
  cases s <;> rfl

/-- so does a word of the context command register -/
theorem context_request : (let v := Word.single 63 ||| ((s.code.toUInt64 <<< 61) ||| d.toUInt64);
    Request.context (v.field 61 2) v.toUInt16) = .context s.code d := by
  have hassoc : Word.single 63 ||| ((s.code.toUInt64 <<< 61) ||| d.toUInt64)
      = (Word.single 63 ||| (s.code.toUInt64 <<< 61)) ||| (d.toUInt64 <<< (0 : Nat).toUInt64) := by
    rw [← UInt64.or_assoc]
    simp
  have hdomain := Word.domain_or (a := Word.single 63 ||| (s.code.toUInt64 <<< 61)) d (k := 0) (by decide)
    (by cases s <;> decide)
  have hfield := Word.field_or_domain (a := Word.single 63 ||| (s.code.toUInt64 <<< 61)) d 61 2 (k := 0)
    (by decide) (.inr (by decide))
  rw [← hassoc] at hdomain hfield
  have hshift : ∀ v : Word, v >>> (0 : Nat).toUInt64 = v := by simp
  rw [hshift] at hdomain
  simp only [hdomain, hfield]
  cases s <;> rfl

/-- and a word of the IOTLB command register -/
theorem iotlb_request : (let v := Word.single 63 ||| ((s.code.toUInt64 <<< 60) ||| (d.toUInt64 <<< 32));
    Request.iotlb (v.field 60 2) (v >>> 32).toUInt16) = .iotlb s.code d := by
  have hdomain := Word.domain_or (a := Word.single 63 ||| (s.code.toUInt64 <<< 60)) d (k := 32) (by decide)
    (by cases s <;> decide)
  have hfield := Word.field_or_domain (a := Word.single 63 ||| (s.code.toUInt64 <<< 60)) d 60 2 (k := 32)
    (by decide) (.inr (by decide))
  rw [UInt64.or_assoc] at hdomain hfield
  have h32 : (32 : Nat).toUInt64 = 32 := rfl
  rw [h32] at hdomain hfield
  simp only [hdomain, hfield]
  cases s <;> rfl

end

/-! ## command registers -/

namespace Emulated
variable {e e' : Emulated} {memory : Memory} {offset : Nat}

/-- a busy bit that is written at `offset` reads as clear afterwards -/
def Settles (e : Emulated) (offset : Nat) : Prop :=
  if offset = Register.capability then e.caps.word.bit 63 = false
  else match e.caps.faultSlot? offset with
    | some (i, upper) => upper = true ∨ (e.faults.getD i (0, 0)).1.bit 63 = false
    | none => offset = Register.contextCommand ∨ offset = e.caps.iotlbOffset + Register.iotlbCommand

/-- what decides whether commands settle, and whether the unit is stalled -/
structure Akin (e e' : Emulated) : Prop where
  caps : e'.caps = e.caps
  stalled : e'.stalled = e.stalled
  faults : ∀ i, (e'.faults.getD i (0, 0)).1 = (e.faults.getD i (0, 0)).1

theorem Akin.symm (h : e.Akin e') : e'.Akin e :=
  ⟨h.caps.symm, h.stalled.symm, fun i => (h.faults i).symm⟩

theorem Akin.settles (h : e.Akin e') (hs : e.Settles offset) : e'.Settles offset := by
  unfold Settles at *
  rw [h.caps]
  split
  · rename_i hc
    rwa [if_pos hc] at hs
  · rename_i hc
    rw [if_neg hc] at hs
    cases hslot : e.caps.faultSlot? offset with
    | some slot =>
      rw [hslot] at hs
      simp only at hs ⊢
      rwa [h.faults]
    | none =>
      rwa [hslot] at hs

theorem Akin.of_steady (h : e.Steady e') : e.Akin e' := ⟨h.caps, h.stalled, h.faults⟩

theorem consume_akin (memory : Memory) (e : Emulated) : e.Akin (consume memory e) ∧
    ∃ rs, (consume memory e).acted.toList = e.acted.toList ++ rs := by
  refine consume_keeps (R := fun e e' => e.Akin e' ∧ ∃ rs, e'.acted.toList = e.acted.toList ++ rs) memory
    (fun e => ⟨⟨rfl, rfl, fun _ => rfl⟩, [], (List.append_nil _).symm⟩) (fun e e' d head h => ?_) e
  obtain ⟨ha, rs, hrs⟩ := h
  refine ⟨⟨ha.caps, ha.stalled, ha.faults⟩, .queued d :: rs, hrs.trans ?_⟩
  show (e.acted.push _).toList ++ rs = _
  rw [Array.toList_push, List.append_assoc]
  rfl

theorem consume_tail (e : Emulated) : (consume memory e).tail = e.tail :=
  consume_keeps (R := fun e e' => e'.tail = e.tail) memory (fun _ => rfl) (fun _ _ _ _ h => h) e

theorem write64_akin (memory : Memory) (offset : Nat) (e : Emulated) (v : Word) : e.Akin (e.write64 memory offset v) ∧
    ∃ rs, (e.write64 memory offset v).acted.toList = e.acted.toList ++ rs := by
  have hnone : ∃ rs, e.acted.toList = e.acted.toList ++ rs := ⟨[], (List.append_nil _).symm⟩
  unfold write64
  split
  · split
    · exact ⟨⟨rfl, rfl, faults_modify _ _ fun _ => rfl⟩, hnone⟩
    · exact ⟨⟨rfl, rfl, fun _ => rfl⟩, hnone⟩
  · split
    · obtain ⟨ha, hrs⟩ := consume_akin memory { e with tail := v }
      exact ⟨⟨ha.caps, ha.stalled, ha.faults⟩, hrs⟩
    split
    · exact ⟨⟨rfl, rfl, fun _ => rfl⟩, [_], Array.toList_push⟩
    split
    · exact ⟨⟨rfl, rfl, fun _ => rfl⟩, [_], Array.toList_push⟩
    · exact ⟨⟨rfl, rfl, fun _ => rfl⟩, hnone⟩

/-- whether a command settles can be told before it is written -/
theorem settles_iff (h : e.caps.Apart) (hx : offset ≠ Register.extended) (hq : offset ≠ Register.queueHead)
    {v : Word} (hv : v.bit 63 = true) :
    ((e.write64 memory offset v).read64 offset).bit 63 = false ↔ e.Settles offset := by
  have hclear : (v &&& ~~~Word.single 63).bit 63 = false := by
    rw [Word.bit_and, Word.bit_not _ (by decide), Word.bit_single (by decide)]
    simp
  have hcaps : (e.write64 memory offset v).caps = e.caps := (write64_akin _ _ e v).1.caps
  unfold Settles read64
  rw [hcaps]
  by_cases hcap : offset = Register.capability
  · rw [if_pos hcap, if_pos hcap]
  rw [if_neg hcap, if_neg hcap, if_neg hx, if_neg hq]
  cases hslot : e.caps.faultSlot? offset with
  | some slot =>
    obtain ⟨i, upper⟩ := slot
    simp only
    cases upper with
    | false =>
      rw [(write64_akin _ _ e v).1.faults]
      simp
    | true =>
      have hw : e.write64 memory offset v =
          { e with faults := e.faults.modify i fun f => (f.1, f.2 &&& ~~~(v &&& Word.single 63)) } := by
        unfold write64
        simp only [hslot, if_true]
      rw [hw]
      simp only [Array.getD_eq_getD_getElem?, Array.getElem?_modify, if_true, true_or, iff_true]
      cases e.faults[i]? with
      | none => exact Word.bit_zero 63
      | some f =>
        show (f.2 &&& ~~~(v &&& Word.single 63)).bit 63 = false
        rw [Word.bit_and, Word.bit_not _ (by decide), Word.bit_and, hv, Word.bit_single (by decide)]
        simp
  | none =>
    simp only
    by_cases htail : offset = Register.queueTail
    · subst htail
      have hne := h.ne_command Register.queueTail (by decide)
      have hcc : Register.queueTail ≠ Register.contextCommand := by decide
      rw [if_pos rfl, write64_tail h, consume_tail]
      simp [hv, hcc, hne]
    rw [if_neg htail]
    by_cases hcc : offset = Register.contextCommand
    · subst hcc
      rw [write64_context hslot, register_setRegister, if_pos rfl]
      simp [hclear]
    by_cases hio : offset = e.caps.iotlbOffset + Register.iotlbCommand
    · subst hio
      rw [write64_iotlb h, register_setRegister, if_pos rfl]
      simp [hclear]
    · have hw : e.write64 memory offset v = e.setRegister offset v := by
        unfold write64
        simp only [hslot, htail, hcc, hio, if_false]
      rw [hw, register_setRegister, if_pos rfl]
      simp [hv, hcc, hio]

section
variable {s : Scope} {domain : UInt16} {rs : List Request}

/-- a unit acts on a context command, unless a fault record covers the register -/
theorem acted_context (h : (e.write64 memory Register.contextCommand
      (Word.single 63 ||| ((s.code.toUInt64 <<< 61) ||| domain.toUInt64))).acted.toList = e.acted.toList ++ rs) :
    rs = if e.caps.faultSlot? Register.contextCommand = none then [.context s.code domain] else [] := by
  cases hslot : e.caps.faultSlot? Register.contextCommand with
  | none =>
    rw [write64_context hslot] at h
    refine (List.append_cancel_left (h.symm.trans Array.toList_push)).trans ?_
    exact congrArg (fun r => [r]) (context_request s domain)
  | some slot =>
    have hdeaf : (e.write64 memory Register.contextCommand
        (Word.single 63 ||| ((s.code.toUInt64 <<< 61) ||| domain.toUInt64))).acted = e.acted := by
      unfold write64
      simp only [hslot]
      split <;> rfl
    rw [hdeaf] at h
    rw [if_neg nofun]
    simpa using h

/-- it acts on an IOTLB command -/
theorem acted_iotlb (ha : e.caps.Apart) (h : (e.write64 memory (e.caps.iotlbOffset + Register.iotlbCommand)
      (Word.single 63 ||| ((s.code.toUInt64 <<< 60) ||| (domain.toUInt64 <<< 32)))).acted.toList
        = e.acted.toList ++ rs) : rs = [.iotlb s.code domain] := by
  rw [write64_iotlb ha] at h
  refine (List.append_cancel_left (h.symm.trans Array.toList_push)).trans ?_
  exact congrArg (fun r => [r]) (iotlb_request s domain)

/-- it acts on nothing that is written to its capability register -/
theorem acted_capability (ha : e.caps.Apart) (hslot : e.caps.faultSlot? Register.capability = none) {v : Word}
    (h : (e.write64 memory Register.capability v).acted.toList = e.acted.toList ++ rs) : rs = [] := by
  have hdeaf : (e.write64 memory Register.capability v).acted = e.acted := by
    have hne := ha.ne_command Register.capability (by decide)
    unfold write64
    rw [hslot]
    simp only [hne, if_false]
    rfl
  rw [hdeaf] at h
  simpa using h

end

end Emulated

theorem Device.Wakes.akin {N : Nat} {d d' : Device} (h : d.Wakes N) (hf : d'.Free)
    (hw : d'.wakeAfter = d.wakeAfter) (ha : d.unit.Akin d'.unit) : d'.Wakes N :=
  ⟨hf, ha.caps ▸ h.apart, by rw [hw, ha.stalled]; exact h.wakes⟩

namespace Remapper
variable {u : Remapper} {cell offset N : Nat} {c : Capabilities} {m : Machine σ} {env : Env σ}

section
variable {d : Device} (hd : m.devices.get cell = d) (hr : u.registers = .device cell) (hw : d.Wakes N)
  (hx : offset ≠ Register.extended) (hq : offset ≠ Register.queueHead)
include hd hw hx hq

variable (env) in
/-- the unit has the command, and its register reads as done if the command settles -/
theorem command_written (command : Word) :
    ∃ k rs, ((RegisterFile.device cell).write64 offset (Word.single 63 ||| command) : Act σ ε Unit) env m
        = .ok () k ∧ m.Accessed k ∧ m.Driven u cell rs k ∧
      (d.unit.write64 m.memory offset (Word.single 63 ||| command)).acted.toList
        = d.unit.acted.toList ++ rs ∧
      k.devices.get cell
        = { d with unit := d.unit.write64 m.memory offset (Word.single 63 ||| command) } ∧
      (k.devices.get cell).Free ∧
      (((k.devices.get cell).unit.read64 offset).bit 63 = false ↔ d.unit.Settles offset) := by
  subst hd
  have hbusy : (Word.single 63 ||| command).bit 63 = true := by
    rw [Word.bit_or, Word.bit_single (by decide)]
    rfl
  obtain ⟨rs, hrs⟩ := (Emulated.write64_akin m.memory offset
    (m.devices.get cell).unit (Word.single 63 ||| command)).2
  obtain ⟨k, hk, hak, hdk, hkd⟩ := RegisterFile.write64_free (ε := ε) env u hw.free _ _ hrs
  refine ⟨k, rs, hk, hak, hdk, hrs, hkd, ?_, ?_⟩
  · rw [hkd]
    exact ⟨hw.free.allowance, hw.free.unscripted⟩
  · rw [hkd]
    exact Emulated.settles_iff hw.apart hx hq hbusy

include hr

/-- a command that settles is done at once -/
theorem commandRegister_ok (hs : d.unit.Settles offset) (hp : 0 < env.patience) (command : Word) :
    ∃ n rs, (u.commandRegister offset command : Act σ ε Unit) env m = .ok () n ∧ m.Accessed n ∧
      m.Driven u cell rs n ∧
      (d.unit.write64 m.memory offset (Word.single 63 ||| command)).acted.toList
        = d.unit.acted.toList ++ rs ∧
      ({ d with unit := d.unit.write64 m.memory offset (Word.single 63 ||| command) } : Device).Like
        (n.devices.get cell) := by
  obtain ⟨k, rs, hk, hak, hdk, hrs, hkd, hfree, hbit⟩ := command_written (ε := ε) (u := u) env hd hw hx hq command
  obtain ⟨n, hn, han, hdn, hln⟩ := RegisterFile.read64_free (ε := ε) env u hfree _ hq
  have hsettled : ((k.devices.get cell).unit.read64 offset).bit 63 = false := hbit.mpr hs
  have hdrive := hdk.trans hdn
  rw [List.append_nil] at hdrive
  rw [hkd] at hln
  refine ⟨n, rs, ?_, hak.trans han, hdrive, hrs, hln⟩
  have hpoll : (Act.poll ((RegisterFile.device cell).read64 offset) fun v => !v.bit 63 : Act σ ε Word) env k
      = .ok ((k.devices.get cell).unit.read64 offset) n := Act.poll_ok hp hn (by rw [hsettled]; rfl)
  unfold commandRegister
  rw [hr, Act.bind_apply, hk]
  simp only [Act.bind_apply, hpoll, Act.pure_apply]

variable (env) in
/-- a command that does not settle is waited for without end -/
theorem commandRegister_stuck (hs : ¬ d.unit.Settles offset) (command : Word) :
    ∃ n, (u.commandRegister offset command : Act σ ε Unit) env m = .error .stuck n := by
  obtain ⟨k, rs, hk, -, -, -, -, hfree, hbit⟩ := command_written (ε := ε) (u := u) env hd hw hx hq command
  have hset : ((k.devices.get cell).unit.read64 offset).bit 63 = true :=
    Bool.eq_true_of_not_eq_false fun h => hs (hbit.mp h)
  have hpoll : ∀ (tries : Nat) (k : Machine σ), (k.devices.get cell).Free →
      ((k.devices.get cell).unit.read64 offset).bit 63 = true → ∃ n,
        Act.pollFor (ε := ε) ((RegisterFile.device cell).read64 offset) (fun v => !v.bit 63) tries env k
          = .error .stuck n := by
    intro tries
    induction tries with
    | zero => exact fun k _ _ => ⟨k, rfl⟩
    | succ tries ih =>
      intro k hf hb
      obtain ⟨j, hj, -, -, hl⟩ := RegisterFile.read64_free (ε := ε) env u hf _ hq
      obtain ⟨n, hn⟩ := ih j hl.free (by rw [hl.unit]; exact hb)
      refine ⟨n, ?_⟩
      unfold Act.pollFor
      rw [Act.bind_apply, hj]
      simp only [hb, Bool.not_true, Bool.false_eq_true, if_false]
      exact hn
  obtain ⟨n, hn⟩ := hpoll env.patience k hfree hset
  refine ⟨n, ?_⟩
  have hpoll' : (Act.poll ((RegisterFile.device cell).read64 offset) fun v => !v.bit 63 :
      Act σ ε Word) env k = .error .stuck n := hn
  unfold commandRegister
  rw [hr, Act.bind_apply, hk]
  simp only [Act.bind_apply, hpoll']

end

theorem iotlbOffset_mod (u : Remapper) : u.iotlbOffset % 16 = 8 := by
  unfold iotlbOffset Register.iotlbCommand
  omega

/-- the registers that take commands to invalidate -/
def commandOffsets (u : Remapper) : List Nat := [Register.contextCommand, u.iotlbOffset]

theorem context_mem (u : Remapper) : Register.contextCommand ∈ u.commandOffsets := List.mem_cons_self

theorem iotlb_mem (u : Remapper) : u.iotlbOffset ∈ u.commandOffsets := List.mem_cons_of_mem _ List.mem_cons_self

theorem commandOffsets_ne (u : Remapper) {offset : Nat} (h : offset ∈ u.commandOffsets) :
    offset ≠ Register.extended ∧ offset ≠ Register.queueHead := by
  have hmod := u.iotlbOffset_mod
  rcases List.mem_cons.mp h with rfl | h
  · decide
  · rw [List.mem_singleton.mp h]
    unfold Register.extended Register.queueHead
    omega

/-- an invalidation by commands that do not settle is waited for without end -/
theorem invalidate_stuck {d : Device} (hd : m.devices.get cell = d) (hr : u.registers = .device cell)
    (hw : d.Wakes N) (hu : u.queue = none) (hs : ¬ ∀ offset ∈ u.commandOffsets, d.unit.Settles offset)
    (hp : 0 < env.patience) (s : Scope) (domain : UInt16) :
    ∃ n, u.invalidate s domain env m = .error .stuck n := by
  have hshape : u.invalidate s domain env m = (do
      u.commandRegister Register.contextCommand ((s.code.toUInt64 <<< 61) ||| domain.toUInt64)
      u.commandRegister u.iotlbOffset ((s.code.toUInt64 <<< 60) ||| (domain.toUInt64 <<< 32)) :
        Act σ RemapError Unit) env m := by
    unfold Remapper.invalidate
    rw [hu]
  rw [hshape, Act.bind_apply]
  by_cases hc : d.unit.Settles Register.contextCommand
  · have hne := u.commandOffsets_ne u.iotlb_mem
    obtain ⟨k, rs, hk, -, -, -, hl⟩ := commandRegister_ok (ε := RemapError) (m := m) hd hr hw
      (by decide) (by decide) hc hp ((s.code.toUInt64 <<< 61) ||| domain.toUInt64)
    obtain ⟨d', hd'⟩ : ∃ d', k.devices.get cell = d' := ⟨_, rfl⟩
    rw [hd'] at hl
    have hakin : d.unit.Akin d'.unit := hl.unit ▸ (Emulated.write64_akin _ _ d.unit _).1
    have hset : ¬ d'.unit.Settles u.iotlbOffset := fun h => hs (by
      simp only [commandOffsets, List.forall_mem_cons, List.not_mem_nil, false_implies, implies_true, and_true]
      exact ⟨hc, hakin.symm.settles h⟩)
    obtain ⟨n, hn⟩ := commandRegister_stuck (ε := RemapError) (m := k) env
      hd' hr (hw.akin hl.free hl.wakeAfter hakin) hne.1 hne.2 hset
      ((s.code.toUInt64 <<< 60) ||| (domain.toUInt64 <<< 32))
    exact ⟨n, by rw [hk]; exact hn⟩
  · obtain ⟨n, hn⟩ := commandRegister_stuck (ε := RemapError) (m := m) env hd hr hw (by decide)
      (by decide) hc ((s.code.toUInt64 <<< 61) ||| domain.toUInt64)
    exact ⟨n, by rw [hn]⟩

/-! ## units that were brought up -/

/-- the unit with capabilities `c` was brought up: nothing waits in its queue, or its commands settle -/
structure Ready (u : Remapper) (cell : Nat) (c : Capabilities) (N : Nat) (m : Machine σ) : Prop where
  registers : u.registers = .device cell
  caps : (m.devices.get cell).unit.caps = c
  extended : u.extended = c.extendedWord
  wakes : (m.devices.get cell).Wakes N
  queue : ∀ q, u.queue = some q → q.Holds N (m.devices.get cell) (q.state m) m.memory []
  settles : u.queue = none → ∀ offset ∈ u.commandOffsets, (m.devices.get cell).unit.Settles offset

/-- nothing happened to the device of the unit and the ring of its queue -/
structure Untouched (u : Remapper) (cell : Nat) (m n : Machine σ) : Prop where
  device : n.devices.get cell = m.devices.get cell
  ring : ∀ q, u.queue = some q → q.state n = q.state m

/-- two units share neither registers nor a ring -/
structure Separate (u v : Remapper) : Prop where
  registers : u.registers ≠ v.registers
  rings : ∀ q q', u.queue = some q → v.queue = some q' → q.cell ≠ q'.cell

theorem Separate.symm {v : Remapper} (h : u.Separate v) : v.Separate u :=
  ⟨h.registers.symm, fun q q' hq hq' => (h.rings q' q hq' hq).symm⟩

/-- a separate unit is driven -/
theorem Separate.untouched {v : Remapper} {cell' : Nat} {rs : List Request} {n : Machine σ} (h : u.Separate v)
    (hu : u.registers = .device cell) (hv : v.registers = .device cell') (hd : m.Driven v cell' rs n) :
    u.Untouched cell m n := by
  refine ⟨hd.devices cell ?_, fun q hq => hd.beside.kept (.ring q.cell) ?_⟩
  · rintro rfl
    exact h.registers (hu.trans hv.symm)
  · rintro ⟨q', hq', he⟩
    exact h.rings q q' hq hq' (by injection he)

/-- the IOTLB registers of a unit are where it says they are, or it does not need them -/
def Reaches (u : Remapper) (c : Capabilities) : Prop := u.queue = none → c.Reported

/-- what a unit hears of an invalidation: a command register that a fault record covers is deaf -/
def heard (u : Remapper) (c : Capabilities) (s : Scope) (domain : UInt16) : List Invalidation :=
  if u.isQueued || (c.faultSlot? Register.contextCommand).isNone then s.invalidations domain
  else [⟨Descriptor.iotlbKind, s.code, domain⟩]

theorem heard_of_disjoint (u : Remapper) {c : Capabilities} (h : c.Disjoint) (s : Scope) (domain : UInt16) :
    u.heard c s domain = s.invalidations domain := by
  unfold heard
  rw [h.faults _ (by decide)]
  simp

namespace Ready
variable {n : Machine σ}

/-- only its device and its ring matter -/
theorem untouched (h : u.Ready cell c N m) (hn : u.Untouched cell m n) : u.Ready cell c N n := by
  have hd := hn.device
  refine ⟨h.registers, hd ▸ h.caps, h.extended, hd ▸ h.wakes, fun q hu => ?_, fun hu => hd ▸ h.settles hu⟩
  have hh := h.queue q hu
  rw [hd, hn.ring q hu]
  exact { hh with waiting := rfl }

section
variable (h : u.Ready cell c N m) (hp : 2 ≤ env.patience) (s : Scope) (domain : UInt16)
include h hp

theorem invalidate_queued {q : InvalidationQueue} (hu : u.queue = some q) (hN : N ≤ env.patience) : ∃ n,
    u.invalidate s domain env m = .ok () n ∧ m.Driven u cell ([.queued (.context s domain),
      .queued (.iotlb s domain)]) n ∧ u.Ready cell c N n := by
  have hf : u.Feeds q cell N m [] := ⟨hu, h.registers, h.queue q hu⟩
  have hroom : [Descriptor.context s domain, .iotlb s domain].length < ringSlots :=
    show 2 < ringSlots by decide
  obtain ⟨n, hn, hd, hfn⟩ := hf.submit [.context s domain, .iotlb s domain] hroom hp hN
  refine ⟨n, ?_, hd, h.registers, hd.caps.trans h.caps, h.extended, hfn.holds.toWakes, fun q' hu' => ?_,
    fun hu' => ?_⟩
  · unfold Remapper.invalidate
    rw [hu]
    exact hn
  · cases hu.symm.trans hu'
    exact hfn.holds
  · cases hu.symm.trans hu'

theorem invalidate_commanded (hu : u.queue = none) : ∃ n rs rs',
    u.invalidate s domain env m = .ok () n ∧ m.Driven u cell (rs ++ rs') n ∧ u.Ready cell c N n ∧
      rs = (if c.faultSlot? Register.contextCommand = none then [.context s.code domain] else []) ∧
      (c.Reported → rs' = [.iotlb s.code domain]) ∧
      (u.iotlbOffset = Register.capability → c.faultSlot? Register.capability = none → rs' = []) := by
  obtain ⟨d, hd⟩ : ∃ d, m.devices.get cell = d := ⟨_, rfl⟩
  have hw : d.Wakes N := hd ▸ h.wakes
  have hcaps : d.unit.caps = c := hd ▸ h.caps
  have hpos : 0 < env.patience := Nat.lt_of_lt_of_le Nat.zero_lt_two hp
  have hsettles : ∀ offset ∈ u.commandOffsets, d.unit.Settles offset := hd ▸ h.settles hu
  have hne := u.commandOffsets_ne u.iotlb_mem
  obtain ⟨k, rs, hk, -, hdk, hrs, hlk⟩ := commandRegister_ok (ε := RemapError) (m := m) hd h.registers hw
    (by decide) (by decide) (hsettles _ u.context_mem) hpos
    ((s.code.toUInt64 <<< 61) ||| domain.toUInt64)
  obtain ⟨d', hd'⟩ : ∃ d', k.devices.get cell = d' := ⟨_, rfl⟩
  rw [hd'] at hlk
  have hakin : d.unit.Akin d'.unit := hlk.unit ▸ (Emulated.write64_akin _ _ d.unit _).1
  have hcaps' : d'.unit.caps = c := hakin.caps.trans hcaps
  have hw' : d'.Wakes N := hw.akin hlk.free hlk.wakeAfter hakin
  obtain ⟨n, rs', hn, -, hdn, hrs', hln⟩ := commandRegister_ok (ε := RemapError) (m := k)
    hd' h.registers hw' hne.1 hne.2 (hakin.settles (hsettles _ u.iotlb_mem)) hpos
    ((s.code.toUInt64 <<< 60) ||| (domain.toUInt64 <<< 32))
  obtain ⟨d'', hd''⟩ : ∃ d'', n.devices.get cell = d'' := ⟨_, rfl⟩
  rw [hd''] at hln
  have hakin' : d'.unit.Akin d''.unit := hln.unit ▸ (Emulated.write64_akin _ _ d'.unit _).1
  refine ⟨n, rs, rs', ?_, hdk.trans hdn, ⟨h.registers, ?_, h.extended, ?_, fun q hq => ?_, fun _ offset ho => ?_⟩,
    ?_, fun hreported => ?_, fun ho hslot => ?_⟩
  · unfold Remapper.invalidate
    rw [hu]
    show (do u.commandRegister _ _
             u.commandRegister _ _ : Act σ RemapError Unit) env m = _
    rw [Act.bind_apply, hk]
    exact hn
  · rw [hdn.caps, hdk.caps, h.caps]
  · rw [hd'']
    exact hw'.akin hln.free hln.wakeAfter hakin'
  · cases hu.symm.trans hq
  · rw [hd'']
    exact hakin'.settles (hakin.settles (hsettles offset ho))
  · exact hcaps ▸ Emulated.acted_context hrs
  · have hoffset : u.iotlbOffset = d'.unit.caps.iotlbOffset + Register.iotlbCommand := by
      unfold iotlbOffset
      rw [h.extended, hreported.field, hcaps']
    rw [hoffset] at hrs'
    exact Emulated.acted_iotlb hw'.apart hrs'
  · rw [ho] at hrs'
    exact Emulated.acted_capability hw'.apart (hcaps' ▸ hslot) hrs'

/-- cached context entries and mappings are dropped, through either discipline -/
theorem invalidate (hN : N ≤ env.patience) : ∃ n rs, u.invalidate s domain env m = .ok () n ∧
    m.Driven u cell rs n ∧ u.Ready cell c N n ∧
      (u.Reaches c → rs.filterMap Request.invalidation? = u.heard c s domain) := by
  cases hu : u.queue with
  | some q =>
    obtain ⟨n, hn, hd, hrn⟩ := h.invalidate_queued hp s domain hu hN
    refine ⟨n, _, hn, hd, hrn, fun _ => ?_⟩
    have hq : u.isQueued = true := by
      unfold isQueued
      rw [hu]
      rfl
    unfold heard
    rw [hq, Bool.true_or, if_pos rfl, queued_request]
  | none =>
    obtain ⟨n, rs, rs', hn, hd, hrn, hrs, hrs', -⟩ := h.invalidate_commanded hp s domain hu
    refine ⟨n, _, hn, hd, hrn, fun hreach => ?_⟩
    have hq : u.isQueued = false := by
      unfold isQueued
      rw [hu]
      rfl
    unfold heard
    rw [hrs, hrs' (hreach hu), hq, Bool.false_or]
    cases c.faultSlot? Register.contextCommand <;> rfl

end

end Ready

end Remapper

end NestedPaging
