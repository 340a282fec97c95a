import NestedPaging.Proofs.Objects.Basic

/-!
# What a driver does to its unit

A driver writes to the page of its queue, moves its ring and accesses its device. `Machine.Driven` says
that nothing else happened, and what the unit acted on meanwhile; whoever does not own that page, ring or
device may go on as before.

A device answers freely (`Device.Free`) if no access is limited and no read is scripted. Then a read is
answered by the unit, which may be woken by it, and a write reaches the unit.
-/

namespace NestedPaging

variable {σ ε α : Type}

namespace Event

/-- does a driver of a unit cause such an event? -/
def OfDriver : Event → Prop
  | stored .. | cleaned .. | lineCleaned .. | logged .. | accessed .. | acted .. => True
  | _ => False

end Event

/-- from `m` to `n` only `u` was driven, and the unit behind its device `cell` acted on `rs` -/
structure Machine.Driven (u : Remapper) (cell : Nat) (rs : List Request) (m n : Machine σ) : Prop where
  beside : m.Beside (Object.unit u).cells n
  memory : ∀ a : PhysAddr, a.frame ∉ u.frames → n.memory.read a = m.memory.read a
  live : n.live = m.live
  loaded : n.loaded = m.loaded
  devices : ∀ i, i ≠ cell → n.devices.get i = m.devices.get i
  caps : (n.devices.get cell).unit.caps = (m.devices.get cell).unit.caps
  acted : (n.devices.get cell).unit.acted.toList = (m.devices.get cell).unit.acted.toList ++ rs
  logs : ∃ es, m.Logs es n ∧ (∀ e ∈ es, e.OfDriver) ∧
    es.filterMap Event.request? = rs.map fun r => (cell, r)

namespace Machine.Driven
variable {u : Remapper} {cell : Nat} {rs rs' : List Request} {m k n : Machine σ}

theorem trans (h : m.Driven u cell rs k) (h' : k.Driven u cell rs' n) : m.Driven u cell (rs ++ rs') n := by
  obtain ⟨es, hes, hd, hr⟩ := h.logs
  obtain ⟨fs, hfs, hd', hr'⟩ := h'.logs
  refine ⟨h.beside.trans h'.beside, fun a ha => (h'.memory a ha).trans (h.memory a ha),
    h'.live.trans h.live, h'.loaded.trans h.loaded, fun i hi => (h'.devices i hi).trans (h.devices i hi),
    h'.caps.trans h.caps, ?_, es ++ fs, hes.trans hfs, fun e he => ?_, ?_⟩
  · rw [h'.acted, h.acted, List.append_assoc]
  · rcases List.mem_append.mp he with he | he
    · exact hd e he
    · exact hd' e he
  · rw [List.filterMap_append, hr, hr', List.map_append]

/-- nothing was acted on -/
theorem of_logs {es : List Event} (hb : m.Beside (Object.unit u).cells n)
    (hm : ∀ a : PhysAddr, a.frame ∉ u.frames → n.memory.read a = m.memory.read a) (hl : n.live = m.live)
    (ho : n.loaded = m.loaded) (hd : n.devices = m.devices) (he : m.Logs es n)
    (hes : ∀ e ∈ es, e.OfDriver ∧ e.request? = none) : m.Driven u cell [] n := by
  refine ⟨hb, hm, hl, ho, fun i _ => by rw [hd], by rw [hd], by rw [hd, List.append_nil], es, he,
    fun e h => (hes e h).1, ?_⟩
  exact List.filterMap_eq_nil_iff.mpr fun e h => (hes e h).2

theorem refl (m : Machine σ) : m.Driven u cell [] m :=
  of_logs (.refl m) (fun _ _ => rfl) rfl rfl rfl (.refl rfl) nofun

theorem note (m : Machine σ) {e : Event} (he : e.OfDriver) (hr : e.request? = none) :
    m.Driven u cell [] (m.note e) := by
  refine of_logs (.of_cells rfl rfl rfl rfl rfl) (fun _ _ => rfl) rfl rfl rfl (.note m e) fun e' he' => ?_
  rw [List.mem_singleton.mp he']
  exact ⟨he, hr⟩

theorem store (m : Machine σ) {a : PhysAddr} (ha : a.frame ∈ u.frames) (w : Word) :
    m.Driven u cell [] (m.store a w) := by
  refine of_logs (.of_cells rfl rfl rfl rfl rfl) (fun b hb => ?_) rfl rfl rfl (.push rfl) fun e he => ?_
  · refine Memory.read_write_other (fun hs => hb ?_) m.memory w
    rwa [← hs.1]
  · rw [List.mem_singleton.mp he]
    exact ⟨trivial, rfl⟩

theorem clean (m : Machine σ) (c : Cleaner) (a : PhysAddr) (len : Nat) :
    m.Driven u cell [] (m.noteAll (c.events a len m.memory)) :=
  of_logs (.of_cells rfl rfl rfl rfl rfl) (fun _ _ => rfl) rfl rfl rfl (m.logs_noteAll _)
    (c.forall_events a len m.memory (fun _ => ⟨trivial, rfl⟩) fun _ _ => ⟨trivial, rfl⟩)

/-- the pointers of the queue move -/
theorem ring {q : InvalidationQueue} (hq : u.queue = some q) (m : Machine σ) (f : RingState → RingState) :
    m.Driven u cell [] { m with rings := m.rings.modify q.cell f } := by
  have hb : m.Beside (Object.unit u).cells { m with rings := m.rings.modify q.cell f } := by
    refine ⟨rfl, fun c hc => ?_, rfl, fun c hc => ?_, fun _ _ => id⟩
    · cases c with
      | ring i =>
        refine (Cells.get_modify ..).trans (if_neg ?_)
        rintro rfl
        exact hc ⟨q, hq, rfl⟩
      | _ => rfl
    · cases c <;> exact hc
  exact of_logs hb (fun _ _ => rfl) rfl rfl rfl (.refl rfl) nofun

end Machine.Driven

/-! ## capabilities stay -/

namespace Emulated

/-- what each descriptor keeps, the whole consumption keeps -/
theorem consume_keeps {R : Emulated → Emulated → Prop} (memory : Memory) (hrefl : ∀ e, R e e)
    (hstep : ∀ (e e' : Emulated) (d : Descriptor) (head : Nat),
      R { e.act (.queued d) with head } e' → R e e') (e : Emulated) : R e (consume memory e) := by
  have hfrom : ∀ (base : PhysAddr) (n : Nat) (e : Emulated), R e (consumeFrom memory base n e) := by
    intro base n
    induction n with
    | zero => exact hrefl
    | succ n ih => exact fun e => hstep e _ _ _ (ih _)
  unfold consume
  split
  · exact hrefl e
  · exact hfrom _ _ e

theorem caps_consume (memory : Memory) (e : Emulated) : (consume memory e).caps = e.caps :=
  consume_keeps (R := fun e e' => e'.caps = e.caps) memory (fun _ => rfl) (fun _ _ _ _ h => h) e

theorem caps_write64 (memory : Memory) (e : Emulated) (offset : Nat) (v : Word) :
    (e.write64 memory offset v).caps = e.caps := by
  unfold write64
  split
  · split <;> rfl
  · split
    · exact caps_consume memory { e with tail := v }
    split
    · rfl
    split <;> rfl

theorem caps_write32 (e : Emulated) (offset : Nat) (v : UInt32) : (e.write32 offset v).caps = e.caps := by
  have htrigger : ∀ (bits : List UInt32) (e : Emulated), (bits.foldl trigger e).caps = e.caps := by
    intro bits
    induction bits with
    | nil => exact fun e => rfl
    | cons b bits ih => exact fun e => ih (e.trigger b)
  unfold write32
  split
  · unfold globalCommand
    rw [htrigger]
    split <;> rfl
  · split <;> rfl

end Emulated

/-! ## devices that answer freely -/

namespace Device

/-- nothing but the unit itself decides what the device answers -/
structure Free (d : Device) : Prop where
  allowance : d.allowance = none
  unscripted : ∀ offset, d.nextAnswer? offset = none

/-- the same unit, to be woken after as many reads, behind a device that answers freely -/
structure Like (d d' : Device) : Prop where
  unit : d'.unit = d.unit
  wakeAfter : d'.wakeAfter = d.wakeAfter
  free : d'.Free

variable {d : Device}

theorem Free.dropAnswer (h : d.Free) (offset : Nat) : d.Like (d.dropAnswer offset) := by
  refine ⟨rfl, rfl, h.allowance, fun o => ?_⟩
  have ho := h.unscripted o
  unfold nextAnswer? at ho ⊢
  simp only [Device.dropAnswer, Std.HashMap.getD_alter]
  split
  · rename_i he
    rw [List.head?_eq_none_iff] at ho ⊢
    obtain rfl : offset = o := by simpa using he
    rw [Std.HashMap.getD_eq_getD_getElem?] at ho
    simp [ho]
  · exact ho

theorem Free.noticeRead (h : d.Free) (memory : Memory) (offset : Nat) : (d.noticeRead memory offset).Free := by
  unfold Device.noticeRead
  split
  · split
    · exact h
    · split <;> exact ⟨h.allowance, h.unscripted⟩
  · exact h

theorem caps_noticeRead (memory : Memory) (d : Device) (offset : Nat) :
    (d.noticeRead memory offset).unit.caps = d.unit.caps := by
  unfold Device.noticeRead
  split
  · split
    · rfl
    · split
      · exact Emulated.caps_consume memory { d.unit with stalled := false }
      · rfl
  · rfl

/-- only a read of the queue head is noticed -/
theorem noticeRead_other {offset : Nat} (h : offset ≠ Register.queueHead) (memory : Memory) :
    d.noticeRead memory offset = d := if_neg h

theorem newActs_of_acted {old d : Device} {rs : List Request}
    (h : d.unit.acted.toList = old.unit.acted.toList ++ rs) : newActs old d = rs := by
  have hs : d.unit.acted.size = old.unit.acted.size + rs.length := by
    rw [← Array.length_toList, h, List.length_append, Array.length_toList]
  unfold newActs
  rw [Array.toList_extract, List.extract_eq_take_drop, h, hs, ← Array.length_toList, List.drop_left]
  simp

end Device

namespace Act
variable {env : Env σ} {m : Machine σ} {u : Remapper} {cell : Nat}

/-- a device changes, and its unit acts on `rs` -/
theorem changeDevice_apply {f : Memory → Device → Device} {rs : List Request}
    (hf : (f m.memory (m.devices.get cell)).unit.acted.toList
      = (m.devices.get cell).unit.acted.toList ++ rs) (env : Env σ) :
    (changeDevice cell f : Act σ ε Unit) env m = .ok ()
      (({ m with devices := m.devices.modify cell fun _ => f m.memory (m.devices.get cell) } :
        Machine σ).noteAll (rs.map (.acted cell))) := by
  unfold changeDevice
  rw [change_apply]
  simp only [Device.newActs_of_acted hf, Machine.foldl_note]

theorem changeDevice_drives (env : Env σ) (u : Remapper) {f : Memory → Device → Device} {rs : List Request}
    (hc : (f m.memory (m.devices.get cell)).unit.caps = (m.devices.get cell).unit.caps)
    (hf : (f m.memory (m.devices.get cell)).unit.acted.toList
      = (m.devices.get cell).unit.acted.toList ++ rs) :
    ∃ n, (changeDevice cell f : Act σ ε Unit) env m = .ok () n ∧ m.Accessed n ∧ m.Driven u cell rs n ∧
      n.devices.get cell = f m.memory (m.devices.get cell) := by
  obtain ⟨n, hn, ha, hd⟩ := changeDevice_ok (ε := ε) cell f env m
  refine ⟨n, hn, ha, ?_, hd⟩
  rw [changeDevice_apply hf] at hn
  injection hn with _ he
  subst he
  refine ⟨.of_cells ha.client ha.split ha.trees ha.spaces ha.rings, fun a _ => congrArg (·.read a) ha.memory,
    ha.live, ha.loaded, fun i hi => ?_, ?_, ?_, _, Machine.logs_noteAll _ _, fun e he => ?_, ?_⟩
  · exact (Cells.get_modify ..).trans (if_neg (Ne.symm hi))
  · rw [hd, hc]
  · rw [hd, hf]
  · obtain ⟨r, _, rfl⟩ := List.mem_map.mp he
    trivial
  · rw [List.filterMap_map]
    show rs.filterMap (some ∘ fun r => (cell, r)) = _
    rw [List.filterMap_eq_map]

/-- a read that wakes the unit or not; what the unit acts on as it wakes comes before the answer -/
theorem readDevice_free (env : Env σ) (u : Remapper) {d : Device} {offset : Nat} {rs : List Request}
    (hf : (m.devices.get cell).Free) (hd : (m.devices.get cell).noticeRead m.memory offset = d)
    (hrs : d.unit.acted.toList = (m.devices.get cell).unit.acted.toList ++ rs) (wide : Bool) :
    ∃ n, (readDevice cell offset wide : Act σ ε Word) env m =
        .ok (if wide then d.unit.read64 offset else (d.unit.read32 offset).toUInt64) n ∧
      m.Accessed n ∧ m.Driven u cell rs n ∧ d.Like (n.devices.get cell) := by
  have hfree : d.Free := hd ▸ hf.noticeRead m.memory offset
  obtain ⟨k, hk, hmk, hdk, hkd⟩ := changeDevice_drives (ε := ε) (m := m) env u
    (f := fun memory d => d.noticeRead memory offset) (Device.caps_noticeRead ..) (by rw [hd, hrs])
  rw [hd] at hkd
  obtain ⟨n, hn, hkn, hdn, hnd⟩ := changeDevice_drives (ε := ε) (m := k) env u
    (f := fun _ d => d.dropAnswer offset) rfl (List.append_nil _).symm
  rw [hkd] at hnd
  obtain ⟨w, hw⟩ : ∃ w, (if wide then d.unit.read64 offset else (d.unit.read32 offset).toUInt64) = w :=
    ⟨_, rfl⟩
  rw [hw]
  refine ⟨n.note (.accessed cell d.label ⟨wide, false, offset, w⟩), ?_,
    (hmk.trans hkn).trans (.note n (e := .accessed ..) trivial), ?_, ?_⟩
  · unfold readDevice
    simp only [bind_apply, countAccess_free hf.allowance, hk, view_apply, hkd, hfree.unscripted, hn, note,
      change_apply, pure_apply, hw]
  · have h := hdk.trans (hdn.trans (.note n (e := .accessed cell d.label ⟨wide, false, offset, w⟩) trivial rfl))
    rwa [List.append_nil, List.append_nil] at h
  · show d.Like (n.devices.get cell)
    rw [hnd]
    exact hfree.dropAnswer offset

end Act

namespace RegisterFile
variable {m : Machine σ} {cell offset : Nat} {rs : List Request}

section
variable (env : Env σ) (u : Remapper) (hf : (m.devices.get cell).Free)
include hf

theorem read64_head {d : Device}
    (hd : (m.devices.get cell).noticeRead m.memory Register.queueHead = d)
    (hrs : d.unit.acted.toList = (m.devices.get cell).unit.acted.toList ++ rs) :
    ∃ n, ((device cell).read64 Register.queueHead : Act σ ε Word) env m =
        .ok (d.unit.read64 Register.queueHead) n ∧
      m.Accessed n ∧ m.Driven u cell rs n ∧ d.Like (n.devices.get cell) :=
  Act.readDevice_free env u hf hd hrs true

theorem read64_free (offset : Nat) (ho : offset ≠ Register.queueHead) :
    ∃ n, ((device cell).read64 offset : Act σ ε Word) env m =
        .ok ((m.devices.get cell).unit.read64 offset) n ∧
      m.Accessed n ∧ m.Driven u cell [] n ∧ (m.devices.get cell).Like (n.devices.get cell) :=
  Act.readDevice_free env u hf (Device.noticeRead_other ho m.memory) (List.append_nil _).symm true

theorem read32_free (offset : Nat) (ho : offset ≠ Register.queueHead) :
    ∃ n, ((device cell).read32 offset : Act σ ε UInt32) env m =
        .ok ((m.devices.get cell).unit.read32 offset) n ∧
      m.Accessed n ∧ m.Driven u cell [] n ∧ (m.devices.get cell).Like (n.devices.get cell) := by
  obtain ⟨n, hn, h⟩ := Act.readDevice_free (ε := ε) env u hf (Device.noticeRead_other ho m.memory)
    (List.append_nil _).symm false
  refine ⟨n, ?_, h⟩
  unfold read32
  simp only [Act.bind_apply, hn, Act.pure_apply]
  simp

omit hf in
/-- an access is noted, and then the device changes -/
theorem change_accessed (a : RegisterAccess) {f : Memory → Device → Device}
    (hcaps : (f m.memory (m.devices.get cell)).unit.caps = (m.devices.get cell).unit.caps)
    (hrs : (f m.memory (m.devices.get cell)).unit.acted.toList = (m.devices.get cell).unit.acted.toList ++ rs) :
    ∃ n, (Act.changeDevice cell f : Act σ ε Unit) env (m.note (.accessed cell (m.devices.get cell).label a))
        = .ok () n ∧ m.Accessed n ∧ m.Driven u cell rs n ∧
      n.devices.get cell = f m.memory (m.devices.get cell) := by
  obtain ⟨k, hk⟩ : ∃ k, m.note (.accessed cell (m.devices.get cell).label a) = k := ⟨_, rfl⟩
  have hmk : m.Driven u cell [] k := hk ▸ .note m (e := .accessed ..) trivial rfl
  have hka : m.Accessed k := hk ▸ .note m (e := .accessed ..) trivial
  have hdev : k.devices = m.devices := hk ▸ rfl
  obtain ⟨n, hn, ha, hd, hnd⟩ := Act.changeDevice_drives (ε := ε) (m := k) env u (f := f)
    (by rw [hdev, hka.memory, hcaps]) (by rw [hdev, hka.memory, hrs])
  rw [hdev, hka.memory] at hnd
  exact ⟨n, hk ▸ hn, hka.trans ha, hmk.trans hd, hnd⟩

theorem write64_free (offset : Nat) (v : Word) (hrs : ((m.devices.get cell).unit.write64 m.memory offset v).acted.toList
      = (m.devices.get cell).unit.acted.toList ++ rs) :
    ∃ n, ((device cell).write64 offset v : Act σ ε Unit) env m = .ok () n ∧ m.Accessed n ∧
      m.Driven u cell rs n ∧ n.devices.get cell = { m.devices.get cell with
        unit := (m.devices.get cell).unit.write64 m.memory offset v } := by
  obtain ⟨n, hn, ha, hd, hnd⟩ := change_accessed (ε := ε) env u ⟨true, true, offset, v⟩
    (f := fun memory d => { d with unit := d.unit.write64 memory offset v }) (Emulated.caps_write64 ..) hrs
  refine ⟨n, ?_, ha, hd, hnd⟩
  unfold write64
  simp only [Act.bind_apply, Act.countAccess_free hf.allowance, Act.view_apply, Act.note, Act.change_apply, hn]

theorem write32_free (offset : Nat) (v : UInt32) (hrs : ((m.devices.get cell).unit.write32 offset v).acted.toList
      = (m.devices.get cell).unit.acted.toList ++ rs) :
    ∃ n, ((device cell).write32 offset v : Act σ ε Unit) env m = .ok () n ∧ m.Accessed n ∧
      m.Driven u cell rs n ∧ n.devices.get cell = { m.devices.get cell with
        unit := (m.devices.get cell).unit.write32 offset v } := by
  obtain ⟨n, hn, ha, hd, hnd⟩ := change_accessed (ε := ε) env u ⟨false, true, offset, v.toUInt64⟩
    (f := fun _ d => { d with unit := d.unit.write32 offset v }) (Emulated.caps_write32 ..) hrs
  refine ⟨n, ?_, ha, hd, hnd⟩
  unfold write32
  simp only [Act.bind_apply, Act.countAccess_free hf.allowance, Act.view_apply, Act.note, Act.change_apply, hn]

end

end RegisterFile

end NestedPaging
