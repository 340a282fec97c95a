import NestedPaging.Proofs.Unit.Submitting

/-!
# The queue as a list

`Fifo` is a bounded queue without a ring: what was pushed and not dropped yet, oldest first. A pointer to the slot
behind some of these drops them; every other pointer is refused. One slot stays free.

* `InvalidationQueue.Shows`   a ring and its page are such a queue;
* `Shows.perform`             so they are after a call, which ends as it does for the list, with nothing changed when it
  is refused;
* `queue_refines`             so a new queue is, whatever is called.
-/

namespace NestedPaging

open PhysAddr (IsPage)

variable {σ : Type}

/-- a call on a queue -/
inductive QueueCall where
  | push (d : Descriptor)
  | moveHead (h : Nat)

/-- what was pushed and not dropped, oldest first, and the slot of the oldest -/
structure Fifo where
  head : Nat := 0
  waiting : List Descriptor := []
  deriving DecidableEq

namespace Fifo
variable {s s' : Fifo} {h k : Nat}

/-- the slot `k` places behind the head -/
def slot (s : Fifo) (k : Nat) : Nat := (s.head + k) % ringSlots

def push (s : Fifo) (d : Descriptor) : Except RemapError Fifo :=
  if s.waiting.length + 1 < ringSlots then .ok { s with waiting := s.waiting ++ [d] } else .error .queueFull

/-- drop as many as lie in front of slot `h`, if so many wait -/
def moveHead (s : Fifo) (h : Nat) : Except RemapError Fifo :=
  match (List.range (s.waiting.length + 1)).find? fun k => s.slot k == h with
  | some k => .ok ⟨h, s.waiting.drop k⟩
  | none => .error (.invalidQueuePointer h)

def perform (s : Fifo) : QueueCall → Except RemapError Fifo
  | .push d => s.push d
  | .moveHead h => s.moveHead h

/-- a call that is refused changes nothing -/
def next (s : Fifo) (c : QueueCall) : Fifo :=
  match s.perform c with
  | .ok s' => s'
  | .error _ => s

/-- what a sequence of calls leaves -/
def after (calls : List QueueCall) : Fifo := calls.foldl next {}

/-- less than a lap away from the head, each slot is met once -/
theorem slot_inj (hk : k < ringSlots) {j : Nat} (hj : j < ringSlots) (h : s.slot k = s.slot j) : k = j := by
  unfold slot ringSlots at *
  omega

/-- the descriptors in front of a slot are dropped -/
theorem moveHead_slot (hfew : s.waiting.length < ringSlots) (hk : k ≤ s.waiting.length) :
    s.moveHead (s.slot k) = .ok ⟨s.slot k, s.waiting.drop k⟩ := by
  have hfind : (List.range (s.waiting.length + 1)).find? (fun j => s.slot j == s.slot k) = some k := by
    refine List.find?_range_eq_some.mpr ⟨beq_self_eq_true _, List.mem_range.mpr (Nat.lt_succ_of_le hk), fun j hj => ?_⟩
    rw [Bool.not_eq_true', beq_eq_false_iff_ne]
    exact fun e => Nat.ne_of_lt hj (slot_inj (by omega) (by omega) e)
  unfold moveHead
  rw [hfind]

theorem moveHead_other {j : Nat} (h : ∀ k ≤ s.waiting.length, s.slot k ≠ j) :
    s.moveHead j = .error (.invalidQueuePointer j) := by
  have hfind : (List.range (s.waiting.length + 1)).find? (fun k => s.slot k == j) = none := by
    refine List.find?_eq_none.mpr fun k hk => ?_
    rw [beq_iff_eq]
    exact h k (Nat.le_of_lt_succ (List.mem_range.mp hk))
  unfold moveHead
  rw [hfind]

end Fifo

/-! ## the ring -/

/-- make a call on the queue `q` -/
def QueueCall.perform (q : InvalidationQueue) : QueueCall → Act σ RemapError Unit
  | .push d => q.push d
  | .moveHead h => q.moveHead h

/-- the machine after calls on the queue `q`, refused ones among them -/
def InvalidationQueue.ran (q : InvalidationQueue) (env : Env σ) (calls : List QueueCall) (m : Machine σ) : Machine σ :=
  calls.foldl (fun m c => (c.perform q).after env m) m

/-- the ring of `q` and its page are the queue `s` -/
structure InvalidationQueue.Shows (q : InvalidationQueue) (s : Fifo) (m : Machine σ) : Prop where
  page : IsPage q.base
  few : s.waiting.length < ringSlots
  low : s.head < ringSlots
  head : (q.state m).head = s.head
  tail : (q.state m).tail = s.slot s.waiting.length
  slots : q.descriptorsFrom m.memory s.head s.waiting.length = s.waiting

namespace InvalidationQueue

/-- what stands behind the first `k` slots -/
theorem descriptorsFrom_drop (q : InvalidationQueue) (memory : Memory) {i : Nat} (hi : i < ringSlots) (n k : Nat) :
    (q.descriptorsFrom memory i n).drop k = q.descriptorsFrom memory ((i + k) % ringSlots) (n - k) := by
  induction k generalizing i n with
  | zero => rw [Nat.add_zero, Nat.mod_eq_of_lt hi, List.drop_zero, Nat.sub_zero]
  | succ k ih =>
    cases n with
    | zero => rw [Nat.zero_sub, descriptorsFrom, List.drop_nil, descriptorsFrom]
    | succ n =>
      rw [descriptorsFrom, List.drop_succ_cons, ih (Nat.mod_lt _ (by decide)), Nat.mod_add_mod, Nat.add_assoc,
        Nat.add_comm 1 k, Nat.add_sub_add_right]

namespace Shows
variable {q : InvalidationQueue} {s : Fifo} {m : Machine σ} (hs : q.Shows s m)
include hs

theorem tail_lt : (q.state m).tail < ringSlots := by
  rw [hs.tail]
  exact Nat.mod_lt _ (by decide)

theorem outstanding : (q.state m).outstanding = s.waiting.length := by
  have hfew := hs.few
  have hlow := hs.low
  unfold RingState.outstanding
  rw [hs.tail, hs.head]
  unfold Fifo.slot ringSlots at *
  omega

theorem waiting : q.waiting m = s.waiting := by
  unfold InvalidationQueue.waiting
  rw [hs.outstanding, hs.head]
  exact hs.slots

theorem isEmpty_iff : (q.state m).isEmpty = true ↔ s.waiting = [] := by
  have hfew := hs.few
  have hlow := hs.low
  unfold RingState.isEmpty
  rw [beq_iff_eq, hs.tail, hs.head, ← List.length_eq_zero_iff]
  unfold Fifo.slot ringSlots at *
  omega

theorem isFull_iff : (q.state m).isFull = true ↔ s.waiting.length + 1 = ringSlots := by
  have hfew := hs.few
  have hlow := hs.low
  unfold RingState.isFull
  rw [beq_iff_eq, hs.tail, hs.head]
  unfold Fifo.slot ringSlots at *
  omega

/-- a slot is pending when it lies just behind one that waits -/
theorem isPending_iff {stop : Nat} (hstop : stop < ringSlots) :
    isPending stop (q.state m).head (q.state m).tail = true ↔ ∃ k < s.waiting.length, stop = s.slot (k + 1) := by
  have hfew := hs.few
  have hlow := hs.low
  have hlast : (stop + (ringSlots - 1) + ringSlots - s.head) % ringSlots < s.waiting.length ↔
      ∃ k < s.waiting.length, stop = s.slot (k + 1) := by
    constructor
    · refine fun h => ⟨_, h, ?_⟩
      unfold Fifo.slot ringSlots at *
      omega
    · rintro ⟨k, hk, rfl⟩
      unfold Fifo.slot ringSlots at *
      omega
  have hout := hs.outstanding
  unfold RingState.outstanding at hout
  unfold isPending
  rw [decide_eq_true_iff, hout, hs.head]
  exact hlast

/-- while a slot is free, a descriptor goes behind all that wait, and no other slot changes -/
theorem push (hroom : s.waiting.length + 1 < ringSlots) (d : Descriptor) (env : Env σ) : ∃ n,
    q.push d env m = .ok () n ∧ q.Shows { s with waiting := s.waiting ++ [d] } n ∧
      ∀ i < ringSlots, i ≠ (q.state m).tail → q.descriptor n.memory i = q.descriptor m.memory i := by
  have hlow := hs.low
  have hfree : (q.state m).isFull = false := by
    rw [Bool.eq_false_iff, ne_eq, hs.isFull_iff]
    exact Nat.ne_of_lt hroom
  obtain ⟨n, hn⟩ : ∃ n, ({ ((m.store (q.slotAddress (q.state m).tail) d.lo).store
      ((q.slotAddress (q.state m).tail).add 8) d.hi) with
        rings := m.rings.modify q.cell (·.advance) } : Machine σ) = n := ⟨_, rfl⟩
  have hrun : q.push d env m = .ok () n := by
    unfold InvalidationQueue.push pointers
    simp only [Act.bind_apply, Act.view_apply, hfree, Bool.false_eq_true, if_false, Act.store_apply, Act.change_apply, ← hn]
    rfl
  have hstate : q.state n = (q.state m).advance := by
    rw [← hn]
    unfold state
    rw [Cells.get_modify, if_pos rfl]
  have hother : ∀ i < ringSlots, q.descriptor n.memory i =
      if (q.state m).tail = i then d else q.descriptor m.memory i := fun i hi => by
    rw [← hn]
    exact descriptor_write hs.page hs.tail_lt hi m.memory d
  have hlast : q.descriptor n.memory ((s.head + s.waiting.length) % ringSlots) = d := by
    rw [hother _ (Nat.mod_lt _ (by decide))]
    exact if_pos hs.tail
  have hfirst : q.descriptorsFrom n.memory s.head s.waiting.length = s.waiting := by
    rw [descriptorsFrom_congr hs.low fun j hj => ?_, hs.slots]
    rw [hother _ (Nat.mod_lt _ (by decide)), if_neg]
    rw [hs.tail]
    exact fun h => Nat.ne_of_gt hj (Fifo.slot_inj hs.few (Nat.lt_trans hj hs.few) h)
  refine ⟨n, hrun, ⟨hs.page, ?_, hs.low, ?_, ?_, ?_⟩, fun i hi hne => ?_⟩
  · rwa [List.length_append, List.length_singleton]
  · rw [hstate]
    exact hs.head
  · rw [hstate, List.length_append, List.length_singleton]
    unfold RingState.advance
    rw [hs.tail]
    exact Nat.mod_add_mod _ _ _
  · rw [List.length_append, List.length_singleton, descriptorsFrom_snoc q n.memory hs.low, hfirst, hlast]
  · rw [hother i hi, if_neg (Ne.symm hne)]

theorem push_full (hfull : ¬ s.waiting.length + 1 < ringSlots) (d : Descriptor) (env : Env σ) :
    q.push d env m = .error (.failed .queueFull) m := by
  have hfew := hs.few
  have hisFull : (q.state m).isFull = true := hs.isFull_iff.mpr (by omega)
  unfold InvalidationQueue.push pointers
  simp only [Act.bind_apply, Act.view_apply, hisFull, if_true, Act.fail_apply]

/-- the head moves to a slot on the way to the tail, and what it passes is dropped -/
theorem moveHead {k : Nat} (hk : k ≤ s.waiting.length) (env : Env σ) : ∃ n,
    q.moveHead (s.slot k) env m = .ok () n ∧ q.Shows ⟨s.slot k, s.waiting.drop k⟩ n ∧ n.memory = m.memory := by
  have hfew := hs.few
  have hlow := hs.low
  have hmove : (q.state m).moveHead (s.slot k) = .ok { q.state m with head := s.slot k } := by
    unfold RingState.moveHead
    rw [if_neg]
    rw [hs.tail, hs.head]
    unfold Fifo.slot ringSlots at *
    omega
  obtain ⟨n, hn⟩ : ∃ n, ({ m with rings := m.rings.modify q.cell fun _ =>
      { q.state m with head := s.slot k } } : Machine σ) = n := ⟨_, rfl⟩
  have hstate : q.state n = { q.state m with head := s.slot k } := by
    rw [← hn]
    unfold state
    rw [Cells.get_modify, if_pos rfl]
  have hmemory : n.memory = m.memory := by rw [← hn]
  refine ⟨n, ?_, ⟨hs.page, ?_, Nat.mod_lt _ (by decide), ?_, ?_, ?_⟩, hmemory⟩
  · unfold InvalidationQueue.moveHead pointers
    simp only [Act.bind_apply, Act.view_apply, hmove, Act.ofExcept, Act.pure_apply, Act.change_apply, hn]
  · rw [List.length_drop]
    exact Nat.lt_of_le_of_lt (Nat.sub_le _ _) hfew
  · rw [hstate]
  · rw [hstate, List.length_drop]
    show (q.state m).tail = (s.slot k + _) % ringSlots
    rw [hs.tail]
    unfold Fifo.slot
    rw [Nat.mod_add_mod, Nat.add_assoc, Nat.add_sub_cancel' hk]
  · conv_rhs => rw [← hs.slots]
    rw [descriptorsFrom_drop q m.memory hs.low, List.length_drop, hmemory]
    rfl

/-- every other pointer is refused -/
theorem moveHead_other {h : Nat} (hh : ∀ k ≤ s.waiting.length, s.slot k ≠ h) (env : Env σ) :
    q.moveHead h env m = .error (.failed (.invalidQueuePointer h)) m := by
  have hfew := hs.few
  have hlow := hs.low
  have hmove : (q.state m).moveHead h = .error (.invalidQueuePointer h) := by
    unfold RingState.moveHead
    rw [if_pos]
    -- a pointer inside the interval would be met after so many slots
    by_contra hin
    refine hh ((h + ringSlots - s.head) % ringSlots) ?_ ?_
    all_goals
      rw [hs.tail, hs.head] at hin
      unfold Fifo.slot ringSlots at *
      omega
  unfold InvalidationQueue.moveHead pointers
  simp only [Act.bind_apply, Act.view_apply, hmove, Act.ofExcept, Act.fail_apply]

/-- a call leaves the queue that it leaves of the list, and is refused as it is there -/
theorem perform (c : QueueCall) (env : Env σ) :
    q.Shows (s.next c) ((c.perform q).after env m) ∧
      ∀ e, s.perform c = .error e → c.perform q env m = .error (.failed e) m := by
  cases c with
  | push d =>
    by_cases hroom : s.waiting.length + 1 < ringSlots
    · obtain ⟨n, hrun, hn, -⟩ := hs.push hroom d env
      have hspec : s.perform (.push d) = .ok { s with waiting := s.waiting ++ [d] } := if_pos hroom
      rw [Act.after_of_ok (x := QueueCall.perform q (.push d)) hrun]
      unfold Fifo.next
      rw [hspec]
      exact ⟨hn, nofun⟩
    · have hrun := hs.push_full hroom d env
      have hspec : s.perform (.push d) = .error .queueFull := if_neg hroom
      rw [Act.after_of_error (x := QueueCall.perform q (.push d)) hrun]
      unfold Fifo.next
      rw [hspec]
      exact ⟨hs, fun e he => by cases he; exact hrun⟩
  | moveHead h =>
    by_cases hin : ∃ k ≤ s.waiting.length, s.slot k = h
    · obtain ⟨k, hk, rfl⟩ := hin
      obtain ⟨n, hrun, hn, -⟩ := hs.moveHead hk env
      have hspec : s.perform (.moveHead (s.slot k)) = .ok ⟨s.slot k, s.waiting.drop k⟩ := Fifo.moveHead_slot hs.few hk
      rw [Act.after_of_ok (x := QueueCall.perform q (.moveHead (s.slot k))) hrun]
      unfold Fifo.next
      rw [hspec]
      exact ⟨hn, nofun⟩
    · have hout : ∀ k ≤ s.waiting.length, s.slot k ≠ h := fun k hk he => hin ⟨k, hk, he⟩
      have hrun := hs.moveHead_other hout env
      have hspec : s.perform (.moveHead h) = .error (.invalidQueuePointer h) := Fifo.moveHead_other hout
      rw [Act.after_of_error (x := QueueCall.perform q (.moveHead h)) hrun]
      unfold Fifo.next
      rw [hspec]
      exact ⟨hs, fun e he => by cases he; exact hrun⟩

theorem ran (calls : List QueueCall) (env : Env σ) :
    q.Shows (calls.foldl Fifo.next s) (q.ran env calls m) := by
  induction calls generalizing s m with
  | nil => exact hs
  | cons c calls ih => exact ih (hs.perform c env).1

end Shows

theorem shows_create {base : PhysAddr} (hp : IsPage base) {ε : Type} {env : Env σ} {m n : Machine σ}
    {q : InvalidationQueue} (hq : (create base : Act σ ε InvalidationQueue) env m = .ok q n) : q.Shows {} n := by
  cases hq
  have hstate : (m.rings.fresh {}).2.get m.rings.next = {} := by rw [Cells.get_fresh, if_pos rfl]
  exact ⟨hp, by decide, by decide, congrArg RingState.head hstate, congrArg RingState.tail hstate, rfl⟩

/-- A new queue is a list of bounded length. After any calls the pointers are slots, the slots from head to tail hold
what was pushed and not dropped, in order, and only the slots just behind these are pending. A push succeeds while
fewer than 255 wait, and goes to the end; a head is accepted if it is met on the way to the tail, and what lies in
front of it is dropped. What is refused leaves the machine as it was. -/
theorem queue_refines {base : PhysAddr} (hp : IsPage base) {ε : Type} {env : Env σ} {m₀ m₁ : Machine σ}
    {q : InvalidationQueue} (hq : (create base : Act σ ε InvalidationQueue) env m₀ = .ok q m₁)
    (calls : List QueueCall) : let m := q.ran env calls m₁
    let s := Fifo.after calls
    ((q.state m).head = s.head ∧ (q.state m).head < ringSlots ∧ (q.state m).tail < ringSlots ∧
      (q.state m).outstanding = s.waiting.length ∧ q.waiting m = s.waiting ∧
      ((q.state m).isFull = true ↔ s.waiting.length = 255) ∧ ((q.state m).isEmpty = true ↔ s.waiting.length = 0)) ∧
    (∀ stop < ringSlots, isPending stop (q.state m).head (q.state m).tail = true ↔
      ∃ k < s.waiting.length, stop = s.slot (k + 1)) ∧
    (∀ d, if s.waiting.length < 255 then ∃ n, q.push d env m = .ok () n ∧ q.waiting n = s.waiting ++ [d] ∧
        (q.state n).head = s.head ∧
        ∀ i < ringSlots, i ≠ (q.state m).tail → q.descriptor n.memory i = q.descriptor m.memory i
      else q.push d env m = .error (.failed .queueFull) m) ∧
    ∀ h, (∃ k ≤ s.waiting.length, h = s.slot k ∧ ∃ n, q.moveHead h env m = .ok () n ∧
        q.waiting n = s.waiting.drop k ∧ (q.state n).head = h ∧ n.memory = m.memory) ∨
      (∀ k ≤ s.waiting.length, h ≠ s.slot k) ∧ q.moveHead h env m = .error (.failed (.invalidQueuePointer h)) m := by
  intro m s
  have hs : q.Shows s m := (shows_create hp hq).ran calls env
  have hfew := hs.few
  refine ⟨⟨hs.head, hs.head ▸ hs.low, hs.tail_lt, hs.outstanding, hs.waiting, ?_, ?_⟩,
    fun stop hstop => hs.isPending_iff hstop, fun d => ?_, fun h => ?_⟩
  · rw [hs.isFull_iff]
    unfold ringSlots
    omega
  · rw [hs.isEmpty_iff, List.length_eq_zero_iff]
  · split
    · rename_i hroom
      obtain ⟨n, hrun, hn, hother⟩ := hs.push (by unfold ringSlots; omega) d env
      exact ⟨n, hrun, hn.waiting, hn.head, hother⟩
    · rename_i hfull
      exact hs.push_full (by unfold ringSlots; omega) d env
  · by_cases hin : ∃ k ≤ s.waiting.length, h = s.slot k
    · obtain ⟨k, hk, rfl⟩ := hin
      obtain ⟨n, hrun, hn, hmemory⟩ := hs.moveHead hk env
      exact .inl ⟨k, hk, rfl, n, hrun, hn.waiting, hn.head, hmemory⟩
    · have hout : ∀ k ≤ s.waiting.length, h ≠ s.slot k := fun k hk he => hin ⟨k, hk, he⟩
      exact .inr ⟨hout, hs.moveHead_other (fun k hk => Ne.symm (hout k hk)) env⟩

/-- a ring that was filled and passed: two descriptors wait across its end, and no pointer before them is accepted -/
theorem queue_wrapped : ∃ (q : InvalidationQueue) (m₁ : Machine Unit),
    (create (.ofFrame 1) : Act Unit RemapError InvalidationQueue) (.offering []) { client := () } = .ok q m₁ ∧
      let m := q.ran (.offering []) (.replicate 255 (.push (.context .global 0)) ++
        [.moveHead 255, .push .interruptEntries, .push (.iotlb .global 0)]) m₁
      q.waiting m = [.interruptEntries, .iotlb .global 0] ∧ isPending 1 (q.state m).head (q.state m).tail = true ∧
        q.moveHead 254 (.offering []) m = .error (.failed (.invalidQueuePointer 254)) m := by
  have hlist : Fifo.after (.replicate 255 (.push (.context .global 0)) ++
      [.moveHead 255, .push .interruptEntries, .push (.iotlb .global 0)]) =
        ⟨255, [.interruptEntries, .iotlb .global 0]⟩ := by
    decide +kernel
  have hcreate : (create (.ofFrame 1) : Act Unit RemapError InvalidationQueue) (.offering []) { client := () }
      = .ok ⟨0, .ofFrame 1⟩ _ := rfl
  obtain ⟨⟨-, -, -, -, hwaiting, -, -⟩, hpending, -, hmove⟩ := queue_refines ⟨by decide, by decide⟩ hcreate
    (.replicate 255 (.push (.context .global 0)) ++ [.moveHead 255, .push .interruptEntries, .push (.iotlb .global 0)])
  rw [hlist] at hwaiting hpending hmove
  refine ⟨_, _, rfl, hwaiting, (hpending 1 (by decide)).mpr ⟨1, by decide, by decide⟩, ?_⟩
  rcases hmove 254 with ⟨k, hk, he, -⟩ | ⟨-, hrun⟩
  · have hno : ∀ k ≤ 2, 254 ≠ (⟨255, [.interruptEntries, .iotlb .global 0]⟩ : Fifo).slot k := by decide
    exact absurd he (hno k hk)
  · exact hrun

end InvalidationQueue

end NestedPaging
