import NestedPaging.Proofs.Unit.Registers
import NestedPaging.Proofs.Machine.Cleaning
import NestedPaging.Remap.Remapper

/-!
# When a submission returns

A submission waits until the slot before its tail no longer lies between the head and the tail that
the unit reports. It reads the two registers one after the other, while other processors append and
the unit consumes. A `Round` is what it could see: how many descriptors were consumed when the head
was read, and how many were consumed and published when the tail was read, counted without wrapping.

* `Act.pollFor_ok_iff`      a poll ends with the first answer that is `done`;
* `isPending_iff`           less than a lap apart, the two counts tell exactly what is consumed;
* `submit_completes`        a submission that returns left nothing unconsumed, unless the ring went
                            around between the two reads of its last round;
* `submit_too_early`        and then it may return before the unit is done.
-/

namespace NestedPaging

variable {σ ε α : Type}

/-! ## polls -/

namespace Act

/-- asking again and again from `m` to `n` gives the answers `as` -/
inductive Asks (ask : Act σ ε α) (env : Env σ) : List α → Machine σ → Machine σ → Prop
  | nil (m : Machine σ) : Asks ask env [] m m
  | cons {a : α} {as : List α} {m k n : Machine σ} : ask env m = .ok a k → Asks ask env as k n →
      Asks ask env (a :: as) m n

/-- a poll ends with the first answer that is `done`, if there is one among the first `tries` -/
theorem pollFor_ok_iff {ask : Act σ ε α} {done : α → Bool} {tries : Nat} {env : Env σ}
    {m n : Machine σ} {a : α} : pollFor ask done tries env m = .ok a n ↔
      ∃ as, as.length < tries ∧ Asks ask env (as ++ [a]) m n ∧ done a = true ∧
        ∀ b ∈ as, done b = false := by
  induction tries generalizing m with
  | zero =>
    constructor
    · intro h
      cases h
    · rintro ⟨_, h, _⟩
      exact absurd h (Nat.not_lt_zero _)
  | succ tries ih =>
    unfold pollFor
    rw [bind_eq_ok]
    constructor
    · intro h
      obtain ⟨b, k, hb, h⟩ := h
      by_cases hd : done b = true
      · rw [if_pos hd] at h
        injection h with ha hn
        subst ha
        subst hn
        exact ⟨[], Nat.zero_lt_succ _, .cons hb (.nil _), hd, fun _ hc => absurd hc List.not_mem_nil⟩
      · rw [if_neg hd, ih] at h
        obtain ⟨as, hl, has, hda, hall⟩ := h
        refine ⟨b :: as, Nat.succ_lt_succ hl, .cons hb has, hda, fun c hc => ?_⟩
        rcases List.mem_cons.mp hc with rfl | hc
        · exact Bool.eq_false_iff.mpr hd
        · exact hall c hc
    · intro h
      obtain ⟨as, hl, has, hda, hall⟩ := h
      cases as with
      | nil =>
        cases has with
        | cons ha hn =>
          cases hn
          exact ⟨a, n, ha, by rw [if_pos hda]; rfl⟩
      | cons b as =>
        cases has with
        | cons hb has =>
          have hd : done b = false := hall b List.mem_cons_self
          refine ⟨b, _, hb, ?_⟩
          rw [hd, if_neg Bool.false_ne_true, ih]
          exact ⟨as, Nat.lt_of_succ_lt_succ hl, has, hda,
            fun c hc => hall c (List.mem_cons_of_mem _ hc)⟩

end Act

/-! ## what two reads tell -/

/-- one look at head and tail: the counts behind the two answers -/
structure Round where
  /-- descriptors consumed when the head was read -/
  first : Nat
  /-- descriptors consumed when the tail was read -/
  consumed : Nat
  /-- descriptors published when the tail was read -/
  published : Nat
  deriving DecidableEq

namespace Round

/-- the slots that the unit reports -/
def pointers (r : Round) : Nat × Nat := (r.first % ringSlots, r.published % ringSlots)

/-- a ring of which descriptor number `e - 1` was published can be in this state -/
structure Possible (e : Nat) (r : Round) : Prop where
  head : r.first ≤ r.consumed
  tail : r.consumed ≤ r.published
  room : r.published < r.consumed + ringSlots
  stop : e ≤ r.published

/-- a later round finds no smaller counts -/
def Before (r r' : Round) : Prop := r.consumed ≤ r'.first ∧ r.published ≤ r'.published

end Round

/-- less than a lap apart, the slot before `e` is pending if and only if it is not consumed -/
theorem isPending_iff {e c p : Nat} (hc : c ≤ p) (hp : p < c + ringSlots) (hlow : p < e + ringSlots)
    (hhigh : e ≤ p) :
    isPending (e % ringSlots) (c % ringSlots) (p % ringSlots) = true ↔ c < e := by
  unfold isPending
  rw [decide_eq_true_eq]
  unfold ringSlots at *
  omega

namespace Round.Possible
variable {e : Nat} {r : Round}

/-- a round that finds nothing pending saw all consumed, or a lap behind -/
theorem settled (h : r.Possible e)
    (hp : isPending (e % ringSlots) r.pointers.1 r.pointers.2 = false) :
    e ≤ r.first ∨ r.first + ringSlots ≤ r.published := by
  rcases Nat.lt_or_ge r.first e with hfirst | hfirst
  · rcases Nat.lt_or_ge r.published (r.first + ringSlots) with hlap | hlap
    · have hpend : isPending (e % ringSlots) r.pointers.1 r.pointers.2 = true :=
        (isPending_iff (Nat.le_trans h.head h.tail) hlap (by omega) h.stop).mpr hfirst
      rw [hp] at hpend
      exact absurd hpend Bool.false_ne_true
    · exact .inr hlap
  · exact .inl hfirst

/-- a round that finds something pending saw it unconsumed, or a lap behind -/
theorem unsettled (h : r.Possible e)
    (hp : isPending (e % ringSlots) r.pointers.1 r.pointers.2 = true) :
    r.first < e ∨ e + ringSlots ≤ r.published := by
  rcases Nat.lt_or_ge r.published (e + ringSlots) with hlap | hlap
  · rcases Nat.lt_or_ge r.first e with hfirst | hfirst
    · exact .inl hfirst
    · exact .inl ((isPending_iff (Nat.le_trans h.head h.tail) (by omega) hlap h.stop).mp hp)
  · exact .inr hlap

end Round.Possible

/-! ## submissions -/

namespace Remapper
variable {u : Remapper} {q : InvalidationQueue} {ds : List Descriptor} {env : Env σ}
  {m n : Machine σ}

/-- a submission that returns has appended everything, and then asked until nothing was pending -/
theorem submit_ok (h : u.submit q ds env m = .ok () n) : ∃ k answers last,
    answers.length < env.patience ∧
    (ds.forM (u.append q) : Act σ RemapError Unit) env m = .ok () k ∧
      Act.Asks (ε := RemapError) u.readPointers env (answers ++ [last]) k n ∧
      isPending (q.state k).tail last.1 last.2 = false ∧
      ∀ a ∈ answers, isPending (q.state k).tail a.1 a.2 = true := by
  unfold submit at h
  obtain ⟨_, k, hk, h⟩ := (Act.bind_eq_ok ..).mp h
  obtain ⟨r, j, hr, h⟩ := (Act.bind_eq_ok ..).mp h
  injection hr with hr hj
  subst hr
  subst hj
  obtain ⟨last, _, hpoll, h⟩ := (Act.bind_eq_ok ..).mp h
  injection h with _ hn
  subst hn
  obtain ⟨answers, hlen, hasks, hlast, hrest⟩ := Act.pollFor_ok_iff.mp hpoll
  refine ⟨k, answers, last, hlen, hk, hasks, ?_, fun a ha => ?_⟩
  · simpa using hlast
  · simpa using hrest a ha

/-- a descriptor is appended to a ring with room, and the device of the unit keeps its script -/
theorem append_ok (env : Env σ) {cell : Nat} (hu : u.registers = .device cell) (hp : 0 < env.patience)
    (hr : (q.state m).isFull = false) (ha : (m.devices.get cell).allowance = none)
    (d : Descriptor) : ∃ n unit, u.append q d env m = .ok () n ∧
      q.state n = (q.state m).advance ∧
      n.devices.get cell = { m.devices.get cell with unit } := by
  obtain ⟨tries, htries⟩ := Nat.exists_eq_succ_of_ne_zero (Nat.ne_of_gt hp)
  have hroom : Act.withPatience (u.awaitRoom q) env m = .ok () m := by
    unfold Act.withPatience
    rw [htries, awaitRoom]
    simp only [Act.bind_apply, InvalidationQueue.pointers, Act.view_apply, hr, if_false,
      Bool.false_eq_true, Act.pure_apply]
  let slot := q.slotAddress (q.state m).tail
  let k : Machine σ := { (m.store slot d.lo).store (slot.add 8) d.hi with
    rings := m.rings.modify q.cell (·.advance) }
  have hpush : q.push d env m = .ok () k := by
    unfold InvalidationQueue.push
    simp only [Act.bind_apply, InvalidationQueue.pointers, Act.view_apply, hr, if_false,
      Bool.false_eq_true, Act.store_apply, Act.change_apply]
    rfl
  have hstate : q.state k = (q.state m).advance := (Cells.get_modify ..).trans (if_pos rfl)
  let j := k.noteAll (u.cleaner.events slot 16 k.memory)
  obtain ⟨n, hn, hjn, hd⟩ := RegisterFile.write64_device (ε := RemapError) (m := j) env ha
    Register.queueTail (q.state j).tailRegister
  refine ⟨n, _, ?_, ?_, hd⟩
  · unfold append
    simp only [Act.bind_apply, hroom, InvalidationQueue.pointers, Act.view_apply, hpush,
      Act.clean_apply, hu]
    exact hn
  · unfold InvalidationQueue.state
    rw [hjn.rings]
    exact hstate

/-- a submission that returns asked in rounds of which the last saw all descriptors consumed, unless
the ring went around between the two reads of that round -/
theorem submit_completes (h : u.submit q ds env m = .ok () n) : ∃ k answers,
    (ds.forM (u.append q) : Act σ RemapError Unit) env m = .ok () k ∧
      Act.Asks (ε := RemapError) u.readPointers env answers k n ∧
      0 < answers.length ∧ answers.length ≤ env.patience ∧
      ∀ e (rounds : List Round) (last : Round), (q.state k).tail = e % ringSlots →
        answers = (rounds ++ [last]).map Round.pointers →
        (∀ r ∈ rounds ++ [last], r.Possible e) →
        (e ≤ last.consumed ∨ last.first + ringSlots ≤ last.published) ∧
        ∀ r ∈ rounds, r.first < e ∨ e + ringSlots ≤ r.published := by
  obtain ⟨k, answers, found, hlen, hk, hasks, hlast, hrest⟩ := submit_ok h
  refine ⟨k, _, hk, hasks, by simp, by simpa using hlen, fun e rounds last he heq hp => ?_⟩
  rw [List.map_append, List.map_singleton] at heq
  obtain ⟨rfl, hfound⟩ := List.append_inj' heq rfl
  obtain rfl : found = last.pointers := (List.cons.inj hfound).1
  rw [he] at hlast hrest
  have hposs := hp last (List.mem_append_right _ List.mem_cons_self)
  refine ⟨(hposs.settled hlast).imp_left fun hf => Nat.le_trans hf hposs.head, fun r hr => ?_⟩
  exact (hp r (List.mem_append_left _ hr)).unsettled (hrest _ (List.mem_map_of_mem hr))

/-- two descriptors are appended as numbers 2 and 3, and the first round finds slot `head` for the head
and slot `tail` for the tail -/
theorem exists_submit (head tail : Nat) (hh : head < ringSlots) (ht : tail < ringSlots)
    (hd : isPending 4 head tail = false) :
    ∃ (u : Remapper) (q : InvalidationQueue) (env : Env Unit) (m k n : Machine Unit),
      env.patience = 1 ∧ u.submit q [.context .global 0, .iotlb .global 0] env m = .ok () n ∧
      ([Descriptor.context .global 0, .iotlb .global 0].forM (u.append q) :
        Act Unit RemapError Unit) env m = .ok () k ∧ (q.state k).tail = 4 ∧
      u.readPointers (ε := RemapError) env k = .ok (head, tail) n := by
  let u : Remapper := ⟨0, .device 0, 0, 0, none, .platform⟩
  let q : InvalidationQueue := ⟨0, .ofFrame 1⟩
  let env : Env Unit := { supply := fun m => (m, none), rank := fun _ => 0, patience := 1 }
  let word (slot : Nat) : Word := slot.toUInt64 <<< 4
  let device : Device :=
    (({} : Device).script Register.queueHead [word head]).script Register.queueTail [word tail]
  let m : Machine Unit :=
    { client := (), rings := (Cells.fresh {} ⟨2, 2⟩).2, devices := (Cells.fresh {} device).2 }
  have hring : q.state m = ⟨2, 2⟩ := (Cells.get_fresh ..).trans (if_pos rfl)
  have hdev : m.devices.get 0 = device := (Cells.get_fresh ..).trans (if_pos rfl)
  have hslot : ∀ slot, slot < ringSlots → slotOfPointer (word slot) = slot := by decide +kernel
  obtain ⟨k₁, unit₁, hrun₁, hring₁, hdev₁⟩ := append_ok (u := u) (q := q) (m := m) env rfl
    (Nat.zero_lt_one) (by rw [hring]; rfl) (by rw [hdev]; rfl) (.context .global 0)
  rw [hring] at hring₁
  rw [hdev] at hdev₁
  obtain ⟨k, unit, hrun₂, hring₂, hdev₂⟩ := append_ok (u := u) (q := q) (m := k₁) env rfl
    (Nat.zero_lt_one) (by rw [hring₁]; rfl) (by rw [hdev₁]; rfl) (.iotlb .global 0)
  rw [hring₁] at hring₂
  rw [hdev₁] at hdev₂
  -- the two reads are answered by the script
  have hhead : (k.devices.get 0).nextAnswer? Register.queueHead = some (word head) := by
    rw [hdev₂]
    simp [device, Device.nextAnswer?, Device.script, Std.HashMap.getD_alter, Register.queueHead,
      Register.queueTail]
  obtain ⟨j, hj, _, hdev₃⟩ := RegisterFile.read64_scripted (ε := RemapError) env
    (by rw [hdev₂]; rfl) (by rw [hdev₂]; rfl) hhead
  have htail : (j.devices.get 0).nextAnswer? Register.queueTail = some (word tail) := by
    rw [hdev₃, hdev₂]
    simp [device, Device.nextAnswer?, Device.dropAnswer, Device.script, Std.HashMap.getD_alter,
      Std.HashMap.getElem?_alter, Register.queueHead, Register.queueTail]
  obtain ⟨n, hn, _, _⟩ := RegisterFile.read64_scripted (ε := RemapError) env
    (by rw [hdev₃, hdev₂]; rfl) (by rw [hdev₃, hdev₂]; rfl) htail
  have hread : u.readPointers (ε := RemapError) env k = .ok (head, tail) n := by
    unfold readPointers
    simp only [Act.bind_apply, hj, hn, Act.pure_apply, hslot head hh, hslot tail ht, u]
  have happend : ([Descriptor.context .global 0, .iotlb .global 0].forM (u.append q) :
      Act Unit RemapError Unit) env m = .ok () k := by
    show (do u.append q (.context .global 0)
             u.append q (.iotlb .global 0)
             pure () : Act Unit RemapError Unit) env m = _
    simp only [Act.bind_apply, hrun₁, hrun₂, Act.pure_apply]
  have htail4 : (q.state k).tail = 4 := by
    rw [hring₂]
    rfl
  refine ⟨u, q, env, m, k, n, rfl, ?_, happend, htail4, hread⟩
  have hpoll : ∀ done : Nat × Nat → Bool, done (head, tail) = true →
      Act.pollFor (ε := RemapError) u.readPointers done 1 env k = .ok (head, tail) n := fun done hdone =>
    Act.pollFor_ok_iff.mpr ⟨[], Nat.zero_lt_one, .cons hread (.nil n), hdone, by simp⟩
  unfold submit
  simp only [Act.bind_apply, happend, InvalidationQueue.pointers, Act.view_apply, htail4, Act.poll,
    Act.withPatience, Act.pure_apply]
  rw [show env.patience = 1 from rfl, hpoll _ (by simp [hd])]

/-- head and tail at slot 4: everything is consumed -/
theorem submit_completes_empty : ∃ (u : Remapper) (q : InvalidationQueue) (env : Env Unit)
    (m n : Machine Unit) (last : Round),
    u.submit q [.context .global 0, .iotlb .global 0] env m = .ok () n ∧ last.Possible 4 ∧
      last.pointers = (4, 4) ∧ 4 ≤ last.consumed := by
  obtain ⟨u, q, env, m, k, n, hone, h, hk, htail, hread⟩ := exists_submit 4 4 (by decide) (by decide)
    (by decide)
  have hlast : (⟨4, 4, 4⟩ : Round).Possible 4 := ⟨by decide, by decide, by decide, by decide⟩
  refine ⟨u, q, env, m, n, ⟨4, 4, 4⟩, h, hlast, rfl, ?_⟩
  obtain ⟨k', answers, hk', hasks, hpos, hlen, hall⟩ := submit_completes h
  obtain rfl : k' = k := by
    rw [hk] at hk'
    injection hk' with _ e
    exact e.symm
  have hanswers : answers = [(4, 4)] := by
    rw [hone] at hlen
    obtain ⟨a, rfl⟩ := List.length_eq_one_iff.mp (Nat.le_antisymm hlen hpos)
    cases hasks with
    | cons ha _ =>
      rw [hread] at ha
      injection ha with ha _
      rw [← ha]
  exact ((hall 4 [] ⟨4, 4, 4⟩ htail hanswers fun r hr => by
    rw [List.mem_singleton.mp hr]
    exact hlast).1).resolve_right (by decide)

/-- head and tail at slot 2, and the tail a lap ahead: the submission of numbers 2 and 3 returns when
only number 2 is consumed -/
theorem submit_too_early : ∃ (u : Remapper) (q : InvalidationQueue) (env : Env Unit)
    (m k n : Machine Unit) (r : Round),
    u.submit q [.context .global 0, .iotlb .global 0] env m = .ok () n ∧
      ([Descriptor.context .global 0, .iotlb .global 0].forM (u.append q) :
        Act Unit RemapError Unit) env m = .ok () k ∧ (q.state k).tail = 4 ∧
      u.readPointers (ε := RemapError) env k = .ok r.pointers n ∧ r.Possible 4 ∧ r.consumed < 4 := by
  obtain ⟨u, q, env, m, k, n, _, h, hk, htail, hread⟩ := exists_submit 2 2 (by decide) (by decide)
    (by decide)
  exact ⟨u, q, env, m, k, n, ⟨2, 3, 258⟩, h, hk, htail, hread,
    ⟨by decide, by decide, by decide, by decide⟩, by decide⟩

end Remapper

end NestedPaging
