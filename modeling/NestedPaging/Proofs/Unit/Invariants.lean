import NestedPaging.Proofs.Objects.Basic

/-!
# What operations of a unit uphold

Whatever is asked of a unit, it accesses registers, stores to slots of its queue, moves the pointers of its
ring and notes what it did. `Remapper.Upholds u I` says that the invariant `I` survives each of these, so that
it survives every operation of `u`, however that ends.

* `Upholds.start`, `invalidate`, `invalidateInterrupts`, `handleFaults`, `command`   the operations.
-/

namespace NestedPaging

open Machine (Accessed)

variable {σ ε α β : Type}

/-- the pointers of the queue are as they were -/
theorem Remapper.Sound.of_rings {u : Remapper} {m n : Machine σ} (h : u.Sound m) (hr : n.rings = m.rings) : u.Sound n := by
  intro q hq
  have hst : q.state n = q.state m := congrArg (·.get q.cell) hr
  rw [hst]
  exact h q hq

/-- the pointers of a queue are moved, the tail staying in the queue -/
theorem Remapper.Sound.moved {u : Remapper} {m : Machine σ} {q : InvalidationQueue} {f : RingState → RingState}
    (h : u.Sound m) (hf : (q.state m).tail < ringSlots → (f (q.state m)).tail < ringSlots) :
    u.Sound { m with rings := m.rings.modify q.cell f } := by
  intro q' hq'
  obtain ⟨hp, ht⟩ := h q' hq'
  refine ⟨hp, ?_⟩
  show ((m.rings.modify q.cell f).get q'.cell).tail < ringSlots
  rw [Cells.get_modify]
  split
  · rename_i e
    have hst : q'.state m = q.state m := congrArg m.rings.get e.symm
    show (f (q'.state m)).tail < ringSlots
    rw [hst]
    exact hf (hst ▸ ht)
  · exact ht

/-- an invariant is carried from one machine to another -/
def Machine.Bears (I : Machine σ → Prop) (k n : Machine σ) : Prop := I k → I n

/-- `I` says that the queue of `u` is sound, and survives what operations of `u` do -/
structure Remapper.Upholds (u : Remapper) (I : Machine σ → Prop) : Prop where
  sound : ∀ {k}, I k → u.Sound k
  accessed : ∀ {k n}, I k → k.Accessed n → I n
  noted : ∀ {k es}, I k → (∀ e ∈ es, Event.Plain e) → I (k.noteAll es)
  register : ∀ {k} {a : PhysAddr} {v}, I k → a.frame ∈ u.registers.window → I (k.store a v)
  slot : ∀ {k q} {a : PhysAddr} {v}, I k → u.queue = some q → a.frame = q.base.frame → I (k.store a v)
  ring : ∀ {k q} {f : RingState → RingState}, I k → u.queue = some q →
    ((q.state k).tail < ringSlots → (f (q.state k)).tail < ringSlots) → I { k with rings := k.rings.modify q.cell f }

open Machine (Bears)

namespace Remapper.Upholds
variable {u : Remapper} {I : Machine σ → Prop} {env : Env σ} {q : InvalidationQueue} {offset : Nat}

theorem refl (n : Machine σ) : Bears I n n := id

theorem bind {x : Act σ ε α} {f : α → Act σ ε β} (hx : x.Keeps (Bears I) env)
    (hf : ∀ a, (f a).Keeps (Bears I) env) : (x >>= f).Keeps (Bears I) env :=
  Act.Keeps.bind (R := Bears I) (fun _ _ _ h h' => h' ∘ h) hx hf

theorem view (f : Machine σ → α) : (Act.view f : Act σ ε α).Keeps (Bears I) env := refl

theorem poll {ask : Act σ ε α} (h : ask.Keeps (Bears I) env) (done : α → Bool) :
    (Act.poll ask done).Keeps (Bears I) env :=
  Act.Keeps.poll (R := Bears I) refl (fun _ _ _ h h' => h' ∘ h) h done

theorem iotlbOffset_lt (u : Remapper) : u.iotlbOffset < 0x8000 := by
  have h : u.extended.field 8 10 < 1 <<< 10 := Nat.mod_lt _ (by decide)
  unfold Remapper.iotlbOffset Register.iotlbCommand
  omega

theorem faultOffset_lt {i : Nat} (hi : i < u.faultRecords) : u.faultOffset i + 8 < 0x8000 := by
  have h : u.capability.field 24 10 < 1 <<< 10 := Nat.mod_lt _ (by decide)
  have h' : u.capability.field 40 8 < 1 <<< 8 := Nat.mod_lt _ (by decide)
  unfold Remapper.faultRecords at hi
  unfold Remapper.faultOffset
  omega

variable (h : u.Upholds I)
include h

theorem note (e : Event) (he : e.Plain) : (Act.note e : Act σ ε Unit).Keeps (Bears I) env := by
  have hplain : ∀ e' ∈ [e], e'.Plain := fun e' he' => by
    rw [List.mem_singleton.mp he']
    exact he
  exact fun k hk => h.noted hk hplain

theorem clean (c : Cleaner) (a : PhysAddr) (len : Nat) : (Act.clean c a len : Act σ ε Unit).Keeps (Bears I) env := by
  intro k hk
  rw [Act.after_of_ok (Act.clean_apply c a len env k)]
  exact h.noted hk (c.plain_events a len k.memory)

/-! ## registers -/

theorem read32 (offset : Nat) : (u.registers.read32 offset : Act σ ε UInt32).Keeps (Bears I) env := by
  cases u.registers with
  | mapped base => exact bind (view _) fun _ => refl
  | device cell => exact fun k hk => h.accessed hk (RegisterFile.accessed_read32 cell offset k)

theorem read64 (offset : Nat) : (u.registers.read64 offset : Act σ ε Word).Keeps (Bears I) env := by
  cases u.registers with
  | mapped base => exact view _
  | device cell => exact fun k hk => h.accessed hk (RegisterFile.accessed_read64 cell offset k)

/-- a store to a register that is mapped -/
theorem storeRegister {base : PhysAddr} (hu : u.registers = .mapped base) (ho : offset < 0x8000) (v : Word) :
    (Act.store (base.add offset.toUInt64) v : Act σ ε Unit).Keeps (Bears I) env := by
  refine fun k hk => h.register hk ?_
  rw [hu]
  exact ⟨offset, ho, rfl⟩

theorem write32 (ho : offset < 0x8000) (v : UInt32) :
    (u.registers.write32 offset v : Act σ ε Unit).Keeps (Bears I) env := by
  cases hu : u.registers with
  | mapped base => exact bind (view _) fun old => h.storeRegister hu ho _
  | device cell => exact fun k hk => h.accessed hk (RegisterFile.accessed_write32 cell offset v k)

theorem write64 (ho : offset < 0x8000) (v : Word) :
    (u.registers.write64 offset v : Act σ ε Unit).Keeps (Bears I) env := by
  cases hu : u.registers with
  | mapped base => exact h.storeRegister hu ho v
  | device cell => exact fun k hk => h.accessed hk (RegisterFile.accessed_write64 cell offset v k)

/-! ## commands -/

theorem command (bit : UInt32) : (u.command bit : Act σ ε Unit).Keeps (Bears I) env := by
  unfold Remapper.command
  split
  · exact refl
  · exact bind (h.read32 _) fun _ => bind (h.write32 (by decide) _) fun _ =>
      bind (poll (h.read32 _) _) fun _ => refl

theorem commandRegister (ho : offset < 0x8000) (v : Word) :
    (u.commandRegister offset v : Act σ ε Unit).Keeps (Bears I) env :=
  bind (h.write64 ho _) fun _ => bind (poll (h.read64 _) _) fun _ => refl

theorem routeFaults (event : Option FaultEvent) : (u.routeFaults event : Act σ ε Unit).Keeps (Bears I) env := by
  refine bind (h.write32 (by decide) _) fun _ => ?_
  cases event with
  | none => exact refl
  | some e =>
    exact bind (h.write32 (by decide) _) fun _ => bind (h.write32 (by decide) _) fun _ => h.write32 (by decide) _

/-! ## the queue -/

section
variable (hq : u.queue = some q)
include hq

theorem moveHead (head : Nat) : (q.moveHead head : Act σ RemapError Unit).Keeps (Bears I) env := by
  intro k hk
  unfold InvalidationQueue.moveHead InvalidationQueue.pointers
  rw [Act.after_bind, Act.view_apply]
  simp only
  cases hr : (q.state k).moveHead head with
  | error e => exact hk
  | ok r =>
    have htail : r.tail = (q.state k).tail := by
      unfold RingState.moveHead at hr
      split at hr
      · cases hr
      · rw [← Except.ok.inj hr]
    exact h.ring (f := fun _ => r) hk hq fun ht => htail ▸ ht

theorem awaitRoom (tries : Nat) : (u.awaitRoom q tries : Act σ RemapError Unit).Keeps (Bears I) env := by
  induction tries with
  | zero => exact refl
  | succ tries ih =>
    refine bind (view _) fun r => ?_
    split
    · exact bind (h.read64 _) fun _ => bind (h.moveHead hq _) fun _ => ih
    · exact refl

theorem push (d : Descriptor) : (q.push d : Act σ RemapError Unit).Keeps (Bears I) env := by
  intro k hk
  obtain ⟨hp, ht⟩ := h.sound hk q hq
  have hslot : ∀ {a : PhysAddr} (v : Word), a.frame = q.base.frame →
      (Act.store a v : Act σ RemapError Unit).Keeps (Bears I) env := fun _ ha j hj => h.slot hj hq ha
  have hrest : (do
      Act.store (q.slotAddress (q.state k).tail) d.lo
      Act.store ((q.slotAddress (q.state k).tail).add 8) d.hi
      Act.change fun m => { m with rings := m.rings.modify q.cell (·.advance) } :
        Act σ RemapError Unit).Keeps (Bears I) env :=
    bind (hslot d.lo (TableEntry.frame_address hp ht)) fun _ =>
      bind (hslot d.hi (TableEntry.frame_hiAddress hp ht)) fun _ j hj =>
        h.ring (f := (·.advance)) hj hq fun _ => Nat.mod_lt _ (by decide)
  unfold InvalidationQueue.push InvalidationQueue.pointers
  rw [Act.after_bind, Act.view_apply]
  simp only
  split
  · exact hk
  · exact hrest k hk

theorem append (d : Descriptor) : (u.append q d : Act σ RemapError Unit).Keeps (Bears I) env :=
  bind (fun k => h.awaitRoom hq env.patience k) fun _ => bind (view _) fun _ => bind (h.push hq d) fun _ =>
    bind (h.clean _ _ _) fun _ => bind (view _) fun _ => h.write64 (by decide) _

theorem submit (ds : List Descriptor) : (u.submit q ds : Act σ RemapError Unit).Keeps (Bears I) env := by
  have hall : (ds.forM (u.append q) : Act σ RemapError Unit).Keeps (Bears I) env := by
    induction ds with
    | nil => exact refl
    | cons d ds ih => exact bind (h.append hq d) fun _ => ih
  have hread : (u.readPointers : Act σ RemapError (Nat × Nat)).Keeps (Bears I) env :=
    bind (h.read64 _) fun _ => bind (h.read64 _) fun _ => refl
  exact bind hall fun _ => bind (view _) fun _ => bind (poll hread _) fun _ => refl

end

/-! ## invalidations, the start of a unit, and faults -/

theorem invalidate (s : Scope) (domain : UInt16) : (u.invalidate s domain).Keeps (Bears I) env := by
  unfold Remapper.invalidate
  split
  · rename_i q hq
    exact h.submit hq _
  · exact bind (h.commandRegister (by decide) _) fun _ => h.commandRegister (iotlbOffset_lt u) _

theorem invalidateInterrupts (remapping : Bool) : (u.invalidateInterrupts remapping).Keeps (Bears I) env := by
  unfold Remapper.invalidateInterrupts
  split
  · rename_i q hq
    split
    · exact h.submit hq _
    · exact refl
  · exact refl

theorem start (root : PhysAddr) (interrupts : Option Word) (event : Option FaultEvent) :
    (u.start root interrupts event).Keeps (Bears I) env := by
  have hlast : (do
      u.invalidateContexts
      u.command Command.dmaRemapping
      let version ← u.registers.read32 Register.version
      Act.log .info (u.reportLine version interrupts.isSome) :
        Act σ RemapError Unit).Keeps (Bears I) env :=
    bind (h.invalidate _ _) fun _ => bind (h.command _) fun _ => bind (h.read32 _) fun _ => h.note _ trivial
  refine bind (h.routeFaults event) fun _ => bind (h.write64 (by decide) _) fun _ => bind (h.command _) fun _ => ?_
  cases hi : interrupts with
  | some table =>
    rw [hi] at hlast
    refine bind (h.write64 (by decide) _) fun _ => bind (h.command _) fun _ => bind (h.command _) fun _ => ?_
    cases hq : u.queue with
    | none => exact hlast
    | some q =>
      exact bind (view _) fun _ => bind (h.write64 (by decide) _) fun _ =>
        bind (h.write64 (by decide) _) fun _ => bind (h.command _) fun _ => hlast
  | none =>
    rw [hi] at hlast
    cases hq : u.queue with
    | none => exact hlast
    | some q =>
      exact bind (view _) fun _ => bind (h.write64 (by decide) _) fun _ =>
        bind (h.write64 (by decide) _) fun _ => bind (h.command _) fun _ => hlast

theorem takeFault {i : Nat} (hi : i < u.faultRecords) :
    (u.takeFault i : Act σ ε (Option FaultRecord)).Keeps (Bears I) env := by
  refine bind (h.read64 _) fun lo => bind (h.read64 _) fun hi' => ?_
  split
  · exact refl
  · exact bind (h.write64 (faultOffset_lt hi) _) fun _ => refl

theorem drainSlots {is : List Nat} (his : ∀ i ∈ is, i < u.faultRecords) :
    (u.drainSlots is : Act σ ε Nat).Keeps (Bears I) env := by
  induction is with
  | nil => exact refl
  | cons i is ih =>
    rw [List.forall_mem_cons] at his
    refine bind (h.takeFault his.1) fun r => ?_
    cases r with
    | none => exact ih his.2
    | some r => exact bind (h.note _ trivial) fun _ => bind (ih his.2) fun _ => refl

theorem drainFaults (tries : Nat) : (u.drainFaults tries : Act σ ε Nat).Keeps (Bears I) env := by
  induction tries with
  | zero => exact refl
  | succ tries ih =>
    have hring : ∀ first, ∀ i ∈ Remapper.ringFrom u.faultRecords first, i < u.faultRecords := by
      intro first i hi
      rcases List.mem_append.mp hi with hi | hi
      · exact List.mem_range.mp (List.mem_of_mem_drop hi)
      · exact List.mem_range.mp (List.mem_of_mem_take hi)
    have hlast : ∀ (drained : Nat) (v : UInt32), (do
        u.registers.write32 Register.faultStatus v
        pure (drained + (← u.drainFaults tries)) : Act σ ε Nat).Keeps (Bears I) env := fun _ v =>
      bind (h.write32 (by decide) v) fun _ => bind ih fun _ => refl
    refine bind (h.read32 _) fun status => ?_
    split
    · exact refl
    split
    · exact bind (h.drainSlots (hring _)) fun drained => hlast drained _
    · exact hlast 0 _

theorem handleFaults : (u.handleFaults : Act σ ε Nat).Keeps (Bears I) env :=
  fun k => h.drainFaults env.patience k

end Remapper.Upholds

end NestedPaging
