import NestedPaging.Proofs.Platform.Units

/-!
# Platforms whose units are added at any time

Whether interrupts are remapped is decided for the units that a platform has when it brings them up, and
units may be added later. An `Assembled` platform keeps apart the units that were decided on.

* `Act.Defined x`     `x` is never refused; neither is anything that a unit with a queue is asked for;
* `Assembled.decided` interrupts are remapped if all units that were decided on can;
* `remapping_decided` only a unit that was added afterwards may be asked for what it cannot do.
-/

namespace NestedPaging

variable {σ ε α β : Type}

/-! ## actions that are defined for all that they are given -/

/-- `x` is never refused -/
def Act.Defined (x : Act σ ε α) : Prop := ∀ env m n, x env m ≠ .error .refused n

namespace Act.Defined

theorem of_ok {x : Act σ ε α} (h : ∀ env m, ∃ a n, x env m = .ok a n) : x.Defined := by
  intro env m n he
  obtain ⟨a, k, hk⟩ := h env m
  cases hk.symm.trans he

theorem pure (a : α) : (Pure.pure a : Act σ ε α).Defined := of_ok fun _ _ => ⟨_, _, rfl⟩

theorem view (f : Machine σ → α) : (Act.view f : Act σ ε α).Defined := of_ok fun _ _ => ⟨_, _, rfl⟩

theorem change (f : Machine σ → Machine σ) : (Act.change f : Act σ ε Unit).Defined :=
  of_ok fun _ _ => ⟨_, _, rfl⟩

theorem fail (e : ε) : (Act.fail e : Act σ ε α).Defined := nofun

theorem stuck : (Act.stuck : Act σ ε α).Defined := nofun

theorem bind {x : Act σ ε α} {f : α → Act σ ε β} (hx : x.Defined) (hf : ∀ a, (f a).Defined) :
    (x >>= f).Defined := by
  intro env m n he
  rw [bind_apply] at he
  cases hr : x env m with
  | ok a k =>
    rw [hr] at he
    exact hf a env k n he
  | error e k =>
    rw [hr] at he
    injection he with he hk
    exact hx env m k (hr.trans (he ▸ rfl))

theorem clean (c : Cleaner) (a : PhysAddr) (len : Nat) : (Act.clean c a len : Act σ ε Unit).Defined :=
  of_ok fun env m => ⟨_, _, Act.clean_apply c a len env m⟩

theorem forM {l : List β} {f : β → Act σ ε PUnit} (hf : ∀ b ∈ l, (f b).Defined) : (l.forM f).Defined := by
  induction l with
  | nil => exact pure _
  | cons b l ih =>
    exact bind (hf b List.mem_cons_self) fun _ => ih fun c hc => hf c (List.mem_cons_of_mem b hc)

theorem pollFor {ask : Act σ ε α} (h : ask.Defined) (done : α → Bool) (tries : Nat) :
    (Act.pollFor ask done tries).Defined := by
  induction tries with
  | zero => exact stuck
  | succ tries ih =>
    refine bind h fun a => ?_
    split
    · exact pure a
    · exact ih

theorem poll {ask : Act σ ε α} (h : ask.Defined) (done : α → Bool) : (Act.poll ask done).Defined :=
  fun env => pollFor h done env.patience env

/-! ## registers and queues -/

theorem countAccess (cell : Nat) : (Act.countAccess cell : Act σ ε Unit).Defined := by
  refine bind (view _) fun d => ?_
  split
  · exact pure _
  · exact stuck
  · exact change _

theorem read64 (r : RegisterFile) (offset : Nat) : (r.read64 offset : Act σ ε Word).Defined := by
  cases r with
  | mapped base => exact view _
  | device cell =>
    exact bind (countAccess cell) fun _ => bind (change _) fun _ => bind (view _) fun _ =>
      bind (change _) fun _ => bind (change _) fun _ => pure _

theorem write64 (r : RegisterFile) (offset : Nat) (v : Word) : (r.write64 offset v : Act σ ε Unit).Defined := by
  cases r with
  | mapped base => exact change _
  | device cell =>
    exact bind (countAccess cell) fun _ => bind (view _) fun _ => bind (change _) fun _ => change _

variable {u : Remapper} {q : InvalidationQueue}

theorem moveHead (head : Nat) : (q.moveHead head : Act σ RemapError Unit).Defined := by
  refine bind (view _) fun r => ?_
  cases r.moveHead head with
  | ok r => exact bind (pure r) fun _ => change _
  | error e => exact bind (fail e) fun _ => change _

theorem awaitRoom (tries : Nat) : (u.awaitRoom q tries : Act σ RemapError Unit).Defined := by
  induction tries with
  | zero => exact stuck
  | succ tries ih =>
    refine bind (view _) fun r => ?_
    split
    · exact bind (read64 _ _) fun _ => bind (moveHead _) fun _ => ih
    · exact pure _

theorem push (d : Descriptor) : (q.push d : Act σ RemapError Unit).Defined := by
  refine bind (view _) fun r => ?_
  split
  · exact bind (fail _) fun _ => bind (change _) fun _ => bind (change _) fun _ => change _
  · exact bind (change _) fun _ => bind (change _) fun _ => change _

theorem append (d : Descriptor) : (u.append q d : Act σ RemapError Unit).Defined :=
  bind (fun env => awaitRoom env.patience env) fun _ => bind (view _) fun _ => bind (push d) fun _ =>
    bind (clean _ _ _) fun _ => bind (view _) fun _ => write64 _ _ _

/-- a submission ends well, fails or waits forever -/
theorem submit (ds : List Descriptor) : (u.submit q ds : Act σ RemapError Unit).Defined :=
  bind (forM fun d _ => append d) fun _ => bind (view _) fun _ =>
    bind (poll (bind (read64 _ _) fun _ => bind (read64 _ _) fun _ => pure _) _) fun _ => pure _

theorem invalidateInterrupts (hu : u.isQueued = true) :
    (u.invalidateInterrupts true : Act σ RemapError Unit).Defined := by
  obtain ⟨q, hq⟩ := Option.isSome_iff_exists.mp hu
  unfold Remapper.invalidateInterrupts
  rw [hq]
  exact submit _

end Act.Defined

/-- an entry of the interrupt table is written with no unit being asked -/
theorem InterruptTable.set_ok (t : InterruptTable) {i : Nat} (hi : i < interruptEntries) (r : InterruptRoute)
    (env : Env σ) (m : Machine σ) : ∃ n, (t.set i r : Act σ ε Unit) env m = .ok () n ∧
      n.devices = m.devices ∧ n.rings = m.rings := by
  unfold set TableEntry.set TableEntry.clean
  rw [if_neg (Nat.not_le.mpr hi)]
  simp only [Act.bind_apply, Act.store_apply, Act.clean_apply]
  exact ⟨_, rfl, rfl, rfl⟩

namespace Platform
variable {us : List Remapper} {p p' : Platform} {u : Remapper} {m k n : Machine σ} {env : Env σ}

/-- an interrupt can be routed if every unit has a queue, or if interrupts are not remapped -/
theorem routeInterrupt_defined {i : Nat} (hi : i < interruptEntries) (r : InterruptRoute)
    (h : p.remapping = true → ∀ u ∈ p.units, u.isQueued = true) :
    (p.routeInterrupt i r : Act σ RemapError Unit).Defined := by
  unfold routeInterrupt
  split
  · rename_i hr
    refine .bind (.of_ok fun env m => ?_) fun _ => .forM fun u hu => .invalidateInterrupts (h hr u hu)
    obtain ⟨n, hn, -⟩ := p.interruptTable.set_ok hi r env m
    exact ⟨(), n, hn⟩
  · exact .pure _

/-! ## platforms -/

/-- a platform to which units were added, and that was started any number of times, in any order; `us`
are the units that it had when it was last started -/
inductive Assembled (σ : Type) : List Remapper → Platform → Prop where
  | create {config : RemapConfig} {cleaner : Cleaner} {env : Env σ} {m n : Machine σ} {p : Platform} :
    Platform.create config cleaner env m = .ok p n → Assembled σ [] p
  | addUnit {us : List Remapper} {p p' : Platform} {base : Word} {registers : RegisterFile} {env : Env σ}
      {m n : Machine σ} :
    Assembled σ us p → p.addUnit base registers env m = .ok p' n → Assembled σ us p'
  -- the units may fail to start: what is decided stays decided
  | startUnits {us : List Remapper} {p : Platform} :
    Assembled σ us p → Assembled σ p.units p.decideRemapping

/-- interrupts are remapped if they should be and the units `us`, the first ones, all can -/
structure Decided (us : List Remapper) (p : Platform) : Prop where
  units : us <+: p.units
  remapping : p.remapping = true ↔ p.config.interrupts = true ∧ us ≠ [] ∧
    ∀ u ∈ us, u.remapsInterrupts = true ∧ u.isQueued = true

theorem decided_create {config : RemapConfig} {cleaner : Cleaner}
    (h : Platform.create config cleaner env m = .ok p n) : p.Decided [] := by
  obtain ⟨t, k, -, h⟩ := (Act.bind_eq_ok ..).mp h
  obtain ⟨i, j, -, h⟩ := (Act.bind_eq_ok ..).mp h
  injection h with hp
  subst hp
  exact ⟨List.nil_prefix, by simp⟩

/-- a unit that is added changes nothing else -/
theorem of_addUnit {base : Word} {registers : RegisterFile}
    (h : p.addUnit base registers env m = .ok p' n) : ∃ u, p' = { p with units := p.units ++ [u] } := by
  unfold addUnit at h
  split at h
  · cases h
  · obtain ⟨u, k, -, h⟩ := (Act.bind_eq_ok ..).mp h
    injection h with hp
    exact ⟨u, hp.symm⟩

theorem Decided.addUnit {base : Word} {registers : RegisterFile} (h : p.Decided us)
    (hrun : p.addUnit base registers env m = .ok p' n) : p'.Decided us := by
  obtain ⟨u, rfl⟩ := of_addUnit hrun
  exact ⟨h.units.trans (List.prefix_append ..), h.remapping⟩

theorem decided_decideRemapping (p : Platform) : p.decideRemapping.Decided p.units := by
  refine ⟨List.prefix_rfl, ?_⟩
  show p.canRemapInterrupts = true ↔ _
  unfold canRemapInterrupts
  rw [Bool.and_eq_true, Bool.and_eq_true, Bool.not_eq_true', List.isEmpty_eq_false_iff, List.all_eq_true, and_assoc]
  simp only [Bool.and_eq_true]
  rfl

theorem Assembled.decided (h : Assembled σ us p) : p.Decided us := by
  induction h with
  | create h => exact decided_create h
  | addUnit _ h ih => exact ih.addUnit h
  | startUnits _ _ => exact decided_decideRemapping _

/-- interrupts are remapped if they should be and the units that were decided on all can; an interrupt with
an entry is refused only if one of the units that were added afterwards has no queue -/
theorem remapping_decided (h : Assembled σ us p) : p.Decided us ∧
    ∀ (i : Nat) (r : InterruptRoute) (env : Env σ) (m n : Machine σ), i < interruptEntries →
      p.routeInterrupt i r env m = .error .refused n →
      p.remapping = true ∧ ∃ u ∈ p.units.drop us.length, u.isQueued = false := by
  have hd := h.decided
  refine ⟨hd, fun i r env m n hi hrefused => ?_⟩
  by_contra hnone
  obtain ⟨later, hlater⟩ := hd.units
  refine routeInterrupt_defined hi r (fun hr u hu => ?_) env m n hrefused
  rw [← hlater] at hu hnone
  rw [List.drop_left] at hnone
  rcases List.mem_append.mp hu with hu | hu
  · exact ((hd.remapping.mp hr).2.2 u hu).2
  · by_contra hq
    exact hnone ⟨hr, u, hu, Bool.eq_false_of_not_eq_true hq⟩

/-! ## a unit that comes late -/

theorem assembled_addUnits {sites : List UnitSite} (h : Assembled σ us p)
    (hrun : SecondStage.addUnits p sites env m = .ok p' n) : Assembled σ us p' := by
  induction sites generalizing p m with
  | nil =>
    injection hrun with hp
    exact hp ▸ h
  | cons s sites ih =>
    obtain ⟨j, k, hj, hrun⟩ := (Act.bind_eq_ok ..).mp hrun
    exact ih (h.addUnit (Act.ok_of_orElseRun hj)) hrun

theorem assembled_bringUp {config : RemapConfig} {cleaner : Cleaner} {sites : List UnitSite}
    (h : bringUp config cleaner sites env m = .ok p n) : Assembled σ p.units p := by
  obtain ⟨p₀, k, hp₀, h⟩ := (Act.bind_eq_ok ..).mp h
  obtain ⟨p₁, j, hp₁, h⟩ := (Act.bind_eq_ok ..).mp h
  obtain ⟨_, i, -, h⟩ := (Act.bind_eq_ok ..).mp h
  injection h with hp
  subst hp
  exact (assembled_addUnits (.create hp₀) hp₁).startUnits

/-- a machine with two new units, only the first of which has a queue -/
def mixedPair : Machine Unit where
  client := ()
  devices := ((Cells.fresh {} ({ unit := .create {} } : Device)).2.fresh
    ({ unit := .create { queued := false } } : Device)).2

theorem mixedPair_first : mixedPair.devices.get 0 = { unit := .create {} } :=
  (Cells.get_fresh ..).trans ((if_neg (by decide)).trans ((Cells.get_fresh ..).trans (if_pos rfl)))

theorem mixedPair_second : mixedPair.devices.get 1 = { unit := .create { queued := false } } :=
  (Cells.get_fresh ..).trans (if_pos rfl)

/-- its first unit comes up, with interrupts remapped -/
theorem exists_bringUp_mixedPair : ∃ (p : Platform) (m : Machine Unit) (u : Remapper),
    bringUp ⟨true, true, none⟩ .platform [⟨0xfed90000, .device 0⟩] fourPages mixedPair = .ok p m ∧
      p.units = [u] ∧ p.remapping = true ∧ p.config = ⟨true, true, none⟩ ∧
      u.Ready 0 {} 0 m ∧ m.devices.get 1 = { unit := .create { queued := false } } := by
  have hc : ({} : Capabilities).Disjoint := Remapper.disjoint_default
  have hr : ({} : Capabilities).Reported := ⟨by decide, by decide⟩
  have hnew : (mixedPair.devices.get 0).New {} 0 := mixedPair_first ▸ Remapper.new_create hc.apart 0
  obtain ⟨p, m, u, hup, hunits, hconfig, hu, -, hbeside⟩ := exists_bringUp_beside ⟨true, true, none⟩ 0xfed90000
    ⟨[], Nat.le_refl 0, fun _ hi => absurd hi Std.HashSet.not_mem_empty⟩ hnew (Nat.zero_le 2) (by decide)
    fun u k hu _ => hu.settles hr fun i hi => by
      rw [hc.faults _ (by decide)] at hi
      cases hi
  have hsite : ∀ s ∈ [(⟨0xfed90000, .device 0⟩ : UnitSite)], s.IsNew (fun _ => {}) 0 mixedPair := fun s hs => by
    rw [List.mem_singleton.mp hs]
    exact ⟨0, rfl, hc, hnew⟩
  obtain ⟨hrunning, -⟩ := running_bringUp fourPages_alone fourPages_honest (Nat.le_refl 2) (Nat.zero_le 2) hsite
    (List.nodup_singleton _) hup
  obtain ⟨cell, -, hready⟩ := hrunning.units u (hunits ▸ List.mem_singleton_self u)
  obtain rfl : cell = 0 := by
    have := hready.registers
    rw [hu.registers] at this
    exact (RegisterFile.device.inj this).symm
  refine ⟨p, m, u, hup, hunits, ?_, hconfig, hready, (hbeside 1 (by decide)).trans mixedPair_second⟩
  rw [(assembled_bringUp hup).decided.remapping, hunits, hconfig]
  refine ⟨rfl, nofun, fun v hv => ?_⟩
  rw [List.mem_singleton.mp hv, hu.isQueued]
  unfold Remapper.remapsInterrupts
  rw [hu.extended]
  decide

/-- as long as no other unit is added, no interrupt is refused -/
theorem remapping_decided_alone : ∃ (p : Platform) (m : Machine Unit),
    bringUp ⟨true, true, none⟩ .platform [⟨0xfed90000, .device 0⟩] fourPages mixedPair = .ok p m ∧
      p.remapping = true ∧ ∀ (i : Nat) (r : InterruptRoute) (env : Env Unit) (k n : Machine Unit), i < 256 →
        p.routeInterrupt i r env k ≠ .error .refused n := by
  obtain ⟨p, m, u, hup, -, hr, -⟩ := exists_bringUp_mixedPair
  refine ⟨p, m, hup, hr, fun i r env k n hi hrefused => ?_⟩
  obtain ⟨-, hrefusals⟩ := remapping_decided (assembled_bringUp hup)
  obtain ⟨-, v, hv, -⟩ := hrefusals i r env k n hi hrefused
  rw [List.drop_length] at hv
  cases hv

/-- a unit is added as long as there is room for one more -/
theorem addUnit_ok {base : Word} {registers : RegisterFile} (hroom : p.units.length < maxUnits)
    (hu : Remapper.create base registers p.config.queued p.cleaner env m = .ok u k) :
    ∃ n, p.addUnit base registers env m = .ok { p with units := p.units ++ [u] } n ∧
      n.devices = k.devices ∧ n.rings = k.rings := by
  unfold addUnit
  rw [if_neg (Nat.not_le.mpr hroom)]
  simp only [Act.bind_apply, Act.pure_apply, hu]
  exact ⟨_, rfl, rfl, rfl⟩

/-- an interrupt is refused at the first unit without a queue, if those before it were told -/
theorem routeInterrupt_refused {v : Remapper} {i : Nat} {r : InterruptRoute} {j : Machine σ} (hr : p.remapping = true)
    (hunits : p.units = [u, v]) (hset : (p.interruptTable.set i r : Act σ RemapError Unit) env m = .ok () j)
    (hu : u.invalidateInterrupts true env j = .ok () k) (hv : v.queue = none) :
    p.routeInterrupt i r env m = .error .refused k := by
  have hlast : v.invalidateInterrupts true env k = .error .refused k := by
    unfold Remapper.invalidateInterrupts
    rw [hv]
    rfl
  unfold routeInterrupt
  rw [hr, if_pos rfl, Act.bind_apply, hset, hunits]
  show (u.invalidateInterrupts true >>= fun _ => v.invalidateInterrupts true >>= fun _ => pure ()) env j = _
  simp only [Act.bind_apply, hu, hlast]

/-- the second unit is added while interrupts are remapped, though it has no queue: they stay remapped, and
the next interrupt is refused when it comes to that unit -/
theorem remapping_stays : ∃ (p p' : Platform) (m n k : Machine Unit),
    bringUp ⟨true, true, none⟩ .platform [⟨0xfed90000, .device 0⟩] fourPages mixedPair = .ok p m ∧
      p.addUnit 0xfed91000 (.device 1) fourPages m = .ok p' n ∧ Assembled Unit p.units p' ∧
      p'.remapping = true ∧ (∃ u ∈ p'.units, u.isQueued = false) ∧
      p'.routeInterrupt 5 ⟨0x310, 2, 48, false⟩ fourPages n = .error .refused k := by
  obtain ⟨p, m, u, hup, hunits, hr, hconfig, hready, hsecond⟩ := exists_bringUp_mixedPair
  have hfree : (m.devices.get 1).Free := by
    rw [hsecond]
    exact Remapper.free_create _
  obtain ⟨j, hj, -, hdev, hcreate⟩ := Remapper.create_look 0xfed91000 true p.cleaner fourPages hfree
    (congrArg (fun d => d.unit.caps) hsecond)
  -- the second unit needs no page
  obtain ⟨v, hv, hqueue⟩ : ∃ v, Remapper.create 0xfed91000 (.device 1) p.config.queued p.cleaner fourPages m
      = .ok v j ∧ v.queue = none := by
    rw [hconfig]
    exact ⟨_, hcreate, rfl⟩
  obtain ⟨n, hn, hdn, hrn⟩ := addUnit_ok (hunits ▸ (by decide : 1 < maxUnits)) hv
  obtain ⟨i, hi, hdi, hri⟩ := p.interruptTable.set_ok (show 5 < interruptEntries by decide) ⟨0x310, 2, 48, false⟩ fourPages n
  -- nothing of this concerns the first unit, which is told first
  have hready : u.Ready 0 {} 0 i := by
    refine hready.untouched ⟨?_, fun q _ => ?_⟩
    · rw [hdi, hdn]
      exact hdev 0 (by decide)
    · exact congrArg (·.get q.cell) (hri.trans (hrn.trans hj.rings))
  obtain ⟨-, -, hqueued⟩ := (assembled_bringUp hup).decided.remapping.mp hr
  obtain ⟨q, hq⟩ := Option.isSome_iff_exists.mp (hqueued u (hunits ▸ List.mem_singleton_self u)).2
  have hfeeds : u.Feeds q 0 0 i [] := ⟨hq, hready.registers, hready.queue q hq⟩
  have hpatience : 2 ≤ (fourPages : Env Unit).patience := Nat.le_refl 2
  obtain ⟨k, hk, -, -⟩ := hfeeds.submit [.interruptEntries] (by decide) hpatience (Nat.zero_le _)
  have hfirst : u.invalidateInterrupts true fourPages i = .ok () k := by
    unfold Remapper.invalidateInterrupts
    rw [hq]
    exact hk
  have hlate : v ∈ p.units ++ [v] := List.mem_append_right _ (List.mem_singleton_self v)
  refine ⟨p, { p with units := p.units ++ [v] }, m, n, k, hup, hn, (assembled_bringUp hup).addUnit hn, hr,
    ⟨v, hlate, ?_⟩, ?_⟩
  · unfold Remapper.isQueued
    rw [hqueue]
    rfl
  · refine routeInterrupt_refused hr ?_ hi hfirst hqueue
    rw [hunits]
    rfl

end Platform

end NestedPaging
