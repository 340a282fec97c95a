import NestedPaging.Proofs.Tree.AccessInvariants

/-!
# Walkers that do not snoop caches

A walker that does not snoop caches sees each word as it was when it was written back last. `Sight` is
a moment of a run with that view beside memory, and `Sight.replay` takes it along the events of a
trace. A page that is handed out counts as not written back, whatever the walker sees in it.

* `Tree.Shown`    the tables of a layout are in use and written back, and no entry of them leads
                  elsewhere, in memory or in what the walker sees;
* `Tree.Agrees`   the walker sees the tables as they are, apart from what a processor wrote at this
                  stage of its work;
* `Move.watched`  each move keeps both, and the first at each event of the move.
-/

namespace NestedPaging

open PhysAddr (IsPage)

variable {σ : Type}

/-- memory, and what a walker sees of it that does not snoop caches -/
structure Sight where
  memory : Memory
  /-- the pages in use -/
  live : Std.HashSet Nat
  /-- each word as it was when it was written back last -/
  seen : PhysAddr → Word
  /-- was the word written back since its page was handed out? -/
  settled : PhysAddr → Prop

/-- was a page asked for? -/
def Event.Asks : Event → Prop
  | .allocated .. | .exhausted => True
  | _ => False

namespace Sight

/-- the words that `e` covers are written back -/
def writeBack (v : Sight) (e : Event) : Sight :=
  { v with
    seen := fun x => if e.covers x then v.memory.read x else v.seen x
    settled := fun x => e.covers x = true ∨ v.settled x }

def after (v : Sight) : Event → Sight
  | .allocated p w =>
    { v with
      memory := v.memory.fill p.frame w
      live := v.live.insert p.frame
      settled := fun x => x.frame ≠ p.frame ∧ v.settled x }
  | .freed p => { v with live := v.live.erase p.frame }
  | .stored a w => { v with memory := v.memory.write a w }
  | e => v.writeBack e

def replay (v : Sight) (es : List Event) : Sight := es.foldl after v

/-- what the walker sees in entry `i` of the table `p` -/
def entry (v : Sight) (p : PhysAddr) (i : Nat) : Word := v.seen (p.add (i * 8).toUInt64)

/-- the page at `p` was written back since it was handed out -/
def Settled (v : Sight) (p : PhysAddr) : Prop :=
  ∀ i, i < 512 → v.settled (p.add (i * 8).toUInt64)

/-- memory and the pages in use are those of `m` -/
def Of (v : Sight) (m : Machine σ) : Prop := v.memory = m.memory ∧ v.live = m.live

/-- before each of the events `P` holds of it and of the moment -/
def Before (P : Sight → Event → Prop) : Sight → List Event → Prop
  | _, [] => True
  | v, e :: es => P v e ∧ Before P (v.after e) es

variable {P : Sight → Event → Prop} {v : Sight} {es fs : List Event} {e : Event} {x : PhysAddr}

theorem replay_append : v.replay (es ++ fs) = (v.replay es).replay fs := List.foldl_append ..

theorem before_append : Before P v (es ++ fs) ↔ Before P v es ∧ Before P (v.replay es) fs := by
  induction es generalizing v with
  | nil => exact (and_iff_right trivial).symm
  | cons e es ih => exact (and_congr Iff.rfl ih).trans and_assoc.symm

theorem Before.of_append (h : Before P v (es ++ e :: fs)) : P (v.replay es) e :=
  (before_append.mp h).2.1

theorem after_plain (h : e.Plain) : v.after e = v.writeBack e := by
  cases e with
  | allocated => exact h.elim
  | freed => exact h.elim
  | stored => exact h.elim
  | _ => rfl

theorem replay_plain_same (h : ∀ e ∈ es, e.Plain) :
    (v.replay es).memory = v.memory ∧ (v.replay es).live = v.live := by
  induction es generalizing v with
  | nil => exact ⟨rfl, rfl⟩
  | cons e es ih =>
    have hw := ih (v := v.after e) fun e' he' => h e' (List.mem_cons_of_mem e he')
    rw [after_plain (h e List.mem_cons_self)] at hw
    show ((v.after e).replay es).memory = _ ∧ ((v.after e).replay es).live = _
    rw [after_plain (h e List.mem_cons_self)]
    exact hw

/-- a word that was written back is seen as it is -/
theorem replay_plain (h : ∀ e ∈ es, e.Plain)
    (hx : (∃ e ∈ es, e.covers x = true) ∨ v.settled x ∧ v.seen x = v.memory.read x) :
    (v.replay es).settled x ∧ (v.replay es).seen x = v.memory.read x := by
  induction es generalizing v with
  | nil =>
    rcases hx with ⟨e, he, _⟩ | hx
    · cases he
    · exact hx
  | cons e es ih =>
    have he := after_plain (v := v) (h e List.mem_cons_self)
    have hstep := ih (v := v.after e) (fun e' he' => h e' (List.mem_cons_of_mem e he')) ?_
    · rw [he] at hstep
      show ((v.after e).replay es).settled x ∧ ((v.after e).replay es).seen x = _
      rw [he]
      exact hstep
    rw [he]
    by_cases hc : e.covers x = true
    · exact .inr ⟨.inl hc, if_pos hc⟩
    · rcases hx with ⟨e', he', hc'⟩ | ⟨hs, hv⟩
      · rcases List.mem_cons.mp he' with rfl | he'
        · exact absurd hc' hc
        · exact .inl ⟨e', he', hc'⟩
      · exact .inr ⟨.inr hs, (if_neg hc).trans hv⟩

/-- a page that was handed out as zeros and then cleaned holds zeros, as the walker sees it too -/
theorem replay_cleared {c : Cleaner} {q : PhysAddr} (hw : c.WholeWords) (hq : IsPage q) (v : Sight)
    (memory : Memory) : ∀ i < 512,
      ((v.after (.allocated q 0)).replay (c.events q 4096 memory)).settled (q.add (i * 8).toUInt64) ∧
      ((v.after (.allocated q 0)).replay (c.events q 4096 memory)).entry q i = 0 ∧
      ((v.after (.allocated q 0)).replay (c.events q 4096 memory)).memory.entry q i = 0 := by
  intro i hi
  have hplain := c.plain_events q 4096 memory
  have hpage : 4096 ∣ q.bits.toNat := q.isPageAligned_iff.mp hq.aligned
  have hi8 := toNat_entry hq hi
  have hcovered : ∃ e ∈ c.events q 4096 memory, e.covers (q.add (i * 8).toUInt64) = true :=
    c.exists_covers hw (by omega) (by omega) (by omega) memory
  have hzero : (v.after (.allocated q 0)).memory.entry q i = 0 :=
    (entry_fill v.memory 0 hq hq hi).trans (if_pos rfl)
  obtain ⟨hs, hv⟩ := replay_plain hplain (.inl hcovered) (v := v.after (.allocated q 0))
  refine ⟨hs, hv.trans hzero, ?_⟩
  rw [(replay_plain_same hplain).1]
  exact hzero

end Sight

namespace Tree
variable {t : Tree} {own own' : Layout} {st st' : Stage} {m n : Machine σ} {v : Sight} {e : Event}
  {es : List Event} {p q a : PhysAddr} {r : Region} {c : Cleaner} {i j len : Nat}

/-- tables of the layout lead to tables of the layout -/
def Inside (t : Tree) (own : Layout) (entry : PhysAddr → Nat → Word) : Prop :=
  ∀ ⦃p r i⦄, own p = some r → i < 512 → t.format.isTable (entry p i) r.level = true →
    ∃ k y, r.level = k + 1 ∧ own (entryAddress (entry p i)) = some ⟨k, y⟩

/-- the tables of the layout are in use and written back, and lead nowhere else -/
structure Shown (t : Tree) (own : Layout) (v : Sight) : Prop where
  root : own t.root = some ⟨t.format.rootLevel, 0⟩
  page : ∀ {p r}, own p = some r → IsPage p
  live : ∀ {p r}, own p = some r → p.frame ∈ v.live
  settled : ∀ {p r}, own p = some r → v.Settled p
  memory : t.Inside own v.memory.entry
  seen : t.Inside own v.entry

/-- the walker sees the tables of the layout as they are, apart from the entries `off` -/
def AgreesOff (own : Layout) (v : Sight) (off : PhysAddr → Nat → Prop) : Prop :=
  ∀ ⦃p r i⦄, own p = some r → i < 512 → ¬ off p i → v.entry p i = v.memory.entry p i

/-- the walker sees what was written before the work at hand -/
def Agrees (own : Layout) (v : Sight) : Stage → Prop
  | .idle => AgreesOff own v fun _ _ => False
  | .filling q =>
    AgreesOff own v (fun _ _ => False) ∧ IsPage q ∧ q.frame ∈ v.live ∧ ∀ p r, own p = some r → p ≠ q
  | .ready q =>
    AgreesOff own v (fun _ _ => False) ∧ IsPage q ∧ q.frame ∈ v.live ∧
      (∀ p r, own p = some r → p ≠ q) ∧ v.Settled q ∧
      ∀ i, i < 512 → v.entry q i = v.memory.entry q i
  | .written p i n => AgreesOff own v fun p' j => p' = p ∧ i ≤ j ∧ j < i + n

/-! ## words that are written back -/

theorem inside_writeBack (h : t.Shown own v) (e : Event) : t.Inside own (v.writeBack e).entry := by
  intro p r i hp hi ht
  by_cases hc : e.covers (p.add (i * 8).toUInt64) = true
  · rw [show (v.writeBack e).entry p i = v.memory.entry p i from if_pos hc] at ht ⊢
    exact h.memory hp hi ht
  · rw [show (v.writeBack e).entry p i = v.entry p i from if_neg hc] at ht ⊢
    exact h.seen hp hi ht

theorem Shown.writeBack (h : t.Shown own v) (e : Event) : t.Shown own (v.writeBack e) where
  root := h.root
  page := h.page
  live := h.live
  settled hp i hi := .inr (h.settled hp i hi)
  memory := h.memory
  seen := inside_writeBack h e

theorem Shown.replay_plain (h : t.Shown own v) (hes : ∀ e ∈ es, e.Plain) :
    t.Shown own (v.replay es) := by
  induction es generalizing v with
  | nil => exact h
  | cons e es ih =>
    refine ih (v := v.after e) ?_ fun e' he' => hes e' (List.mem_cons_of_mem e he')
    rw [Sight.after_plain (hes e List.mem_cons_self)]
    exact h.writeBack e

/-- at each of several events that leave memory alone the tables are shown -/
theorem Shown.before_plain {P : Sight → Event → Prop} (h : t.Shown own v)
    (hes : ∀ e ∈ es, e.Plain) (hP : ∀ v e, e ∈ es → t.Shown own v → P v e) :
    Sight.Before P v es := by
  induction es generalizing v with
  | nil => trivial
  | cons e es ih =>
    refine ⟨hP v e List.mem_cons_self h, ih (v := v.after e) ?_
      (fun e' he' => hes e' (List.mem_cons_of_mem e he'))
      fun v' e' he' => hP v' e' (List.mem_cons_of_mem e he')⟩
    rw [Sight.after_plain (hes e List.mem_cons_self)]
    exact h.writeBack e

theorem Agrees.writeBack (h : Agrees own v st) (e : Event) : Agrees own (v.writeBack e) st := by
  have hkeep : ∀ p i, v.entry p i = v.memory.entry p i →
      (v.writeBack e).entry p i = v.memory.entry p i := by
    intro p i hv
    by_cases hc : e.covers (p.add (i * 8).toUInt64) = true
    · exact if_pos hc
    · exact (if_neg hc).trans hv
  have hoff : ∀ {off}, AgreesOff own v off → AgreesOff own (v.writeBack e) off :=
    fun ha _ _ _ hp hi ho => hkeep _ _ (ha hp hi ho)
  cases st with
  | idle => exact hoff h
  | filling q => exact ⟨hoff h.1, h.2⟩
  | ready q =>
    obtain ⟨ha, hq, hl, hne, hs, hv⟩ := h
    exact ⟨hoff ha, hq, hl, hne, fun i hi => .inr (hs i hi), fun i hi => hkeep q i (hv i hi)⟩
  | written p i n => exact hoff h

/-- a clean from entry `i` of a page on covers the entries after it -/
theorem exists_covers_entry (hc : t.cleaner = some c) (hw : c.WholeWords) (hp : IsPage p) {n : Nat}
    (hij : i ≤ j) (hjn : j < i + n) (hj : j < 512) (memory : Memory) :
    ∃ e ∈ t.cleaning (p.add (i * 8).toUInt64) (n * 8) memory,
      e.covers (p.add (j * 8).toUInt64) = true := by
  have hpi := toNat_entry hp (Nat.lt_of_le_of_lt hij hj)
  have hpj := toNat_entry hp hj
  have hd : 4096 ∣ p.bits.toNat := p.isPageAligned_iff.mp hp.aligned
  unfold cleaning
  rw [hc]
  exact c.exists_covers hw (by omega) (by omega) (by omega) memory

/-- a clean of a page covers all its entries -/
theorem exists_covers_page (hc : t.cleaner = some c) (hw : c.WholeWords) (hp : IsPage p) (hi : i < 512)
    (memory : Memory) :
    ∃ e ∈ t.cleaning p 4096 memory, e.covers (p.add (i * 8).toUInt64) = true := by
  have hfirst : p.add (0 * 8).toUInt64 = p := congrArg Addr.mk (UInt64.add_zero _)
  have hcovers := exists_covers_entry hc hw hp (Nat.zero_le i) (show i < 0 + 512 by omega) hi memory
  rw [hfirst] at hcovers
  exact hcovers

/-! ## pages that are handed out, given back and written -/

theorem entry_after_store (hp : IsPage p) (hq : IsPage q) (hi : i < 512) (hj : j < 512) (w : Word) :
    (v.after (.stored (p.add (i * 8).toUInt64) w)).memory.entry q j
      = if p = q ∧ i = j then w else v.memory.entry q j := entry_write v.memory w hp hq hi hj

theorem Shown.ne_free (h : t.Shown own v) (hp : own p = some r) (hq : q.frame ∉ v.live) : p ≠ q := by
  rintro rfl
  exact hq (h.live hp)

theorem Shown.take (h : t.Shown own v) (hq : IsPage q) (hf : q.frame ∉ v.live) (w : Word) :
    t.Shown own (v.after (.allocated q w)) ∧
      ∀ p r i, own p = some r → i < 512 →
        (v.after (.allocated q w)).memory.entry p i = v.memory.entry p i := by
  have hentry : ∀ p r i, own p = some r → i < 512 →
      (v.after (.allocated q w)).memory.entry p i = v.memory.entry p i := fun p r i hp hi =>
    (entry_fill v.memory w hq (h.page hp) hi).trans (if_neg fun e => h.ne_free hp hf e.symm)
  refine ⟨⟨h.root, h.page, fun hp => Std.HashSet.mem_insert.mpr (.inr (h.live hp)), ?_, ?_, h.seen⟩,
    hentry⟩
  · intro p r hp i hi
    refine ⟨?_, h.settled hp i hi⟩
    rw [frame_entry (h.page hp) hi]
    exact fun e => hf (e ▸ h.live hp)
  · intro p r i hp hi ht
    rw [hentry p r i hp hi] at ht ⊢
    exact h.memory hp hi ht

theorem Shown.giveBack (h : t.Shown own v) (hq : IsPage q) (hne : ∀ p r, own p = some r → p ≠ q) :
    t.Shown own (v.after (.freed q)) where
  root := h.root
  page := h.page
  live {p r} hp := by
    refine Std.HashSet.mem_erase.mpr ⟨?_, h.live hp⟩
    exact beq_eq_false_iff_ne.mpr fun e => hne p r hp ((h.page hp).eq_of_frame hq e.symm)
  settled := h.settled
  memory := h.memory
  seen := h.seen

/-- an entry is written that is no table of others -/
theorem Shown.store (h : t.Shown own v) (hp : IsPage p) (hi : i < 512) {w : Word}
    (hw : ∀ r, own p = some r → t.format.isTable w r.level = true →
      ∃ k y, r.level = k + 1 ∧ own (entryAddress w) = some ⟨k, y⟩) :
    t.Shown own (v.after (.stored (p.add (i * 8).toUInt64) w)) where
  root := h.root
  page := h.page
  live := h.live
  settled := h.settled
  memory p' r j hp' hj ht := by
    rw [entry_after_store hp (h.page hp') hi hj] at ht ⊢
    split at ht
    · rename_i e
      obtain ⟨rfl, rfl⟩ := e
      rw [if_pos ⟨rfl, rfl⟩]
      exact hw r hp' ht
    · rename_i e
      rw [if_neg e]
      exact h.memory hp' hj ht
  seen := h.seen

theorem AgreesOff.store {off off' : PhysAddr → Nat → Prop} (h : AgreesOff own v off)
    (hs : t.Shown own v) (hp : IsPage p) (hi : i < 512) (w : Word)
    (hoff : ∀ p' r j, own p' = some r → ¬ off' p' j → ¬ off p' j ∧ ¬ (p = p' ∧ i = j)) :
    AgreesOff own (v.after (.stored (p.add (i * 8).toUInt64) w)) off' := by
  intro p' r j hp' hj ho
  obtain ⟨ho, hne⟩ := hoff p' r j hp' ho
  rw [entry_after_store hp (hs.page hp') hi hj, if_neg hne]
  exact h hp' hj ho

/-- a page that was written back becomes a table -/
theorem Shown.add {k y : Nat} (h : t.Shown own v) (hq : IsPage q) (hl : q.frame ∈ v.live)
    (hne : ∀ p r, own p = some r → p ≠ q) (hs : v.Settled q)
    (hv : ∀ i, i < 512 → v.entry q i = v.memory.entry q i)
    (hbare : ∀ i, i < 512 → t.format.isTable (v.memory.entry q i) k = false) :
    t.Shown (own.add q ⟨k, y⟩) v := by
  have hx : (own.add q ⟨k, y⟩).Extends own := Layout.extends_add _ (by
    cases e : own q with
    | none => rfl
    | some r => exact absurd rfl (hne q r e))
  have hold : ∀ {p r}, own.add q ⟨k, y⟩ p = some r → p = q ∧ r = ⟨k, y⟩ ∨ own p = some r := fun hp =>
    (Layout.add_eq_some.mp hp).imp_right (·.2)
  have hin : ∀ {entry : PhysAddr → Nat → Word}, t.Inside own entry →
      (∀ i, i < 512 → t.format.isTable (entry q i) k = false) →
      t.Inside (own.add q ⟨k, y⟩) entry := by
    intro entry hin hbare p r i hp hi ht
    rcases hold hp with ⟨rfl, rfl⟩ | hp
    · rw [hbare i hi] at ht
      cases ht
    · obtain ⟨k', y', hk, hc⟩ := hin hp hi ht
      exact ⟨k', y', hk, hx _ _ hc⟩
  refine ⟨hx _ _ h.root, ?_, ?_, ?_, hin h.memory hbare, hin h.seen fun i hi => ?_⟩
  · intro p r hp
    rcases hold hp with ⟨rfl, _⟩ | hp
    · exact hq
    · exact h.page hp
  · intro p r hp
    rcases hold hp with ⟨rfl, _⟩ | hp
    · exact hl
    · exact h.live hp
  · intro p r hp
    rcases hold hp with ⟨rfl, _⟩ | hp
    · exact hs
    · exact h.settled hp
  · rw [hv i hi]
    exact hbare i hi

/-! ## moves -/

/-- a moment of a run, before `e`: the tables are shown, and when a page is asked for the walker sees
them as they are -/
def Safe (t : Tree) (v : Sight) (e : Event) : Prop :=
  ∃ own, t.Shown own v ∧ (e.Asks → Agrees own v .idle)

/-- the moment that `m` is, at a stage of the work -/
structure Watched (t : Tree) (own : Layout) (st : Stage) (v : Sight) (m : Machine σ) : Prop where
  of : v.Of m
  shown : t.Shown own v
  agrees : Agrees own v st

theorem Shown.safe (h : t.Shown own v) (he : ¬ e.Asks) : t.Safe v e := ⟨own, h, fun ha => absurd ha he⟩

theorem not_asks_cleaning (t : Tree) (a : PhysAddr) (len : Nat) (memory : Memory) :
    ∀ e ∈ t.cleaning a len memory, ¬ e.Asks := by
  unfold cleaning
  cases t.cleaner with
  | none => exact nofun
  | some c => exact c.forall_events a len memory (fun _ => id) fun _ _ => id

/-- a free page that is offered is nobody's yet -/
theorem Watched.take (h : t.Watched own .idle v m) (hq : IsPage q) (hf : m.isLive q = false) :
    t.Watched own (.filling q) (v.after (.allocated q 0)) (m.take q 0) := by
  obtain ⟨hof, hs, ha⟩ := h
  have hfree : q.frame ∉ v.live := by
    rw [hof.2]
    intro hin
    rw [show m.isLive q = true from hin] at hf
    cases hf
  obtain ⟨hs', hentry⟩ := hs.take hq hfree 0
  refine ⟨⟨?_, ?_⟩, hs', ?_, hq, Std.HashSet.mem_insert_self, fun p r hp => hs.ne_free hp hfree⟩
  · exact congrArg (·.fill q.frame 0) hof.1
  · exact congrArg (·.insert q.frame) hof.2
  · intro p r i hp hi _
    exact (ha hp hi id).trans (hentry p r i hp hi).symm

/-- what is written in it concerns nobody -/
theorem Watched.fill (h : t.Watched own (.filling q) v m) (hi : i < 512) (w : Word) :
    t.Watched own (.filling q) (v.after (.stored (q.add (i * 8).toUInt64) w))
      (m.store (q.add (i * 8).toUInt64) w) := by
  obtain ⟨hof, hs, ha, hq, hl, hne⟩ := h
  refine ⟨⟨?_, hof.2⟩, hs.store hq hi fun r hr => absurd rfl (hne q r hr),
    ha.store hs hq hi w fun p' r j hp' _ => ⟨id, fun e => hne p' r hp' e.1.symm⟩, hq, hl, hne⟩
  exact congrArg (·.write (q.add (i * 8).toUInt64) w) hof.1

/-- the page that was written back becomes a table, and the entry that points to it is written -/
theorem Watched.publish {k x : Nat} (h : t.Watched own (.ready q) v m) (hp : own p = some ⟨k + 1, x⟩)
    (hi : i < 512) (hbare : ∀ j, j < 512 → t.format.Bare m.splitExecute k (m.memory.entry q j)) :
    t.Watched (own.add q ⟨k, x * 512 + i⟩) (.written p i 1)
      (v.after (.stored (p.add (i * 8).toUInt64) (t.format.tableWord q)))
      (m.store (p.add (i * 8).toUInt64) (t.format.tableWord q)) := by
  obtain ⟨hof, hs, ha, hq, hl, hne, hset, hv⟩ := h
  have hadd : t.Shown (own.add q ⟨k, x * 512 + i⟩) v := hs.add hq hl hne hset hv fun j hj => by
    rw [hof.1]
    exact (hbare j hj).not_table
  have hp' : own.add q ⟨k, x * 512 + i⟩ p = some ⟨k + 1, x⟩ := (own.add_other _ (hne p _ hp)).trans hp
  have ha' : AgreesOff (own.add q ⟨k, x * 512 + i⟩) v fun _ _ => False := by
    intro c r j hc' hj _
    by_cases e : c = q
    · rw [e]
      exact hv j hj
    · rw [own.add_other _ e] at hc'
      exact ha hc' hj id
  refine ⟨⟨?_, hof.2⟩, hadd.store (hs.page hp) hi fun r hr _ => ?_,
    ha'.store hadd (hs.page hp) hi _ fun c r j _ ho => ⟨id, fun e => ho ?_⟩⟩
  · exact congrArg (·.write (p.add (i * 8).toUInt64) (t.format.tableWord q)) hof.1
  · obtain rfl := Layout.region_unique hp' hr
    rw [t.format.entryAddress_tableWord hq]
    exact ⟨k, _, rfl, own.add_self ..⟩
  · obtain ⟨rfl, rfl⟩ := e
    exact ⟨rfl, Nat.le_refl _, Nat.lt_succ_self _⟩

/-- one more entry of a run is written -/
theorem Watched.store {l x k : Nat} {split : Bool} {w : Word} (h : t.Watched own (.written p i k) v m)
    (hp : own p = some ⟨l, x⟩) (hi : i + k < 512) (hbare : t.format.Bare split l w) :
    t.Watched own (.written p i (k + 1)) (v.after (.stored (p.add ((i + k) * 8).toUInt64) w))
      (m.store (p.add ((i + k) * 8).toUInt64) w) := by
  obtain ⟨hof, hs, ha⟩ := h
  refine ⟨⟨congrArg (·.write (p.add ((i + k) * 8).toUInt64) w) hof.1, hof.2⟩,
    hs.store (hs.page hp) hi fun r hr ht => ?_,
    AgreesOff.store ha hs (hs.page hp) hi w fun p' r j _ ho => ⟨fun hin => ho ?_, fun e => ho ?_⟩⟩
  · obtain rfl := Layout.region_unique hp hr
    rw [hbare.not_table] at ht
    cases ht
  · exact ⟨hin.1, hin.2.1, by omega⟩
  · exact ⟨e.1.symm, by omega, by omega⟩

section
variable (hc : t.cleaner = some c) (hw : c.WholeWords)
include hc hw

/-- the page that was filled is written back -/
theorem Watched.show (h : t.Watched own (.filling q) v m) :
    t.Watched own (.ready q) (v.replay (t.cleaning q 4096 m.memory))
      (m.noteAll (t.cleaning q 4096 m.memory)) := by
  obtain ⟨hof, hs, ha, hq, hl, hne⟩ := h
  have hplain := t.plain_cleaning q 4096 m.memory
  obtain ⟨hmem, hlive⟩ := Sight.replay_plain_same (v := v) hplain
  have hword : ∀ i, i < 512 → (v.replay (t.cleaning q 4096 m.memory)).settled (q.add (i * 8).toUInt64) ∧
      (v.replay (t.cleaning q 4096 m.memory)).entry q i = v.memory.entry q i := by
    intro i hi
    exact Sight.replay_plain hplain (.inl (exists_covers_page hc hw hq hi m.memory))
  refine ⟨⟨hmem.trans hof.1, hlive.trans hof.2⟩, hs.replay_plain hplain, ?_, hq, ?_, hne,
    fun i hi => (hword i hi).1, fun i hi => ?_⟩
  · intro p r i hp hi _
    rw [hmem]
    exact (Sight.replay_plain hplain (.inr ⟨hs.settled hp i hi, ha hp hi id⟩)).2
  · rw [hlive]
    exact hl
  · rw [hmem]
    exact (hword i hi).2

/-- the entries that were written are written back -/
theorem Watched.finish {k : Nat} (h : t.Watched own (.written p i k) v m) :
    t.Watched own .idle (v.replay (t.cleaning (p.add (i * 8).toUInt64) (k * 8) m.memory))
      (m.noteAll (t.cleaning (p.add (i * 8).toUInt64) (k * 8) m.memory)) := by
  obtain ⟨hof, hs, ha⟩ := h
  have hplain := t.plain_cleaning (p.add (i * 8).toUInt64) (k * 8) m.memory
  obtain ⟨hmem, hlive⟩ := Sight.replay_plain_same (v := v) hplain
  refine ⟨⟨hmem.trans hof.1, hlive.trans hof.2⟩, hs.replay_plain hplain, fun p' r j hp' hj _ => ?_⟩
  rw [hmem]
  by_cases hin : p' = p ∧ i ≤ j ∧ j < i + k
  · obtain ⟨rfl, hij, hjk⟩ := hin
    exact (Sight.replay_plain hplain
      (.inl (exists_covers_entry hc hw (hs.page hp') hij hjk hj m.memory))).2
  · exact (Sight.replay_plain hplain (.inr ⟨hs.settled hp' j hj, ha hp' hj hin⟩)).2

/-- each move is safe at all of its events -/
theorem Move.watched (h : t.Move own st m own' st' n) (hv : t.Watched own st v m) :
    ∃ es, m.Logs es n ∧ Sight.Before t.Safe v es ∧ t.Watched own' st' (v.replay es) n := by
  have hs := hv.shown
  have hclean : ∀ a len, Sight.Before t.Safe v (t.cleaning a len m.memory) := fun a len =>
    hs.before_plain (t.plain_cleaning a len m.memory) fun _ e he hs' =>
      hs'.safe (t.not_asks_cleaning a len m.memory e he)
  cases h with
  | exhausted =>
    refine ⟨[.exhausted], .note m _, ⟨⟨own, hs, fun _ => hv.agrees⟩, trivial⟩, hv.of, hs.writeBack _, ?_⟩
    exact (show Agrees own v .idle from hv.agrees).writeBack _
  | @take _ q hq hf =>
    exact ⟨[.allocated q 0], .push rfl, ⟨⟨own, hs, fun _ => hv.agrees⟩, trivial⟩, hv.take hq hf⟩
  | @fill _ q i w hi =>
    exact ⟨[.stored (q.add (i * 8).toUInt64) w], .push rfl, ⟨hs.safe id, trivial⟩, hv.fill hi w⟩
  | @«show» _ q => exact ⟨_, m.logs_noteAll _, hclean q 4096, Watched.show hc hw hv⟩
  | @giveBack _ q =>
    obtain ⟨hof, _, ha, hq, hl, hne, _⟩ := hv
    refine ⟨[.freed q], .push rfl, ⟨hs.safe id, trivial⟩, ⟨hof.1, ?_⟩, hs.giveBack hq hne, ha⟩
    exact congrArg (·.erase q.frame) hof.2
  | @publish _ p q k x i hp hi _ hbare _ =>
    exact ⟨[.stored (p.add (i * 8).toUInt64) (t.format.tableWord q)], .push rfl, ⟨hs.safe id, trivial⟩,
      hv.publish hp hi hbare⟩
  | begin _ => exact ⟨[], .refl rfl, trivial, hv.of, hs, fun p r i hp hi _ => hv.agrees hp hi id⟩
  | @exchange _ p l x i k w hp hi hbare =>
    have hstored := hv.store hp hi hbare
    unfold Tree.exchange
    split
    · let child := entryAddress (m.memory.read (p.add ((i + k) * 8).toUInt64))
      have hlogs : m.Logs [.stored (p.add ((i + k) * 8).toUInt64) w, .detached t.cell child]
          ((m.store (p.add ((i + k) * 8).toUInt64) w).note (.detached t.cell child)) :=
        (Machine.Logs.push rfl).trans (.note _ _)
      exact ⟨_, hlogs, ⟨hs.safe id, hstored.shown.safe id, trivial⟩, hstored.of,
        hstored.shown.writeBack _, hstored.agrees.writeBack _⟩
    · exact ⟨[.stored (p.add ((i + k) * 8).toUInt64) w], .push rfl, ⟨hs.safe id, trivial⟩, hstored⟩
  | @finish _ p i k => exact ⟨_, m.logs_noteAll _, hclean _ _, Watched.finish hc hw hv⟩

theorem Moves.watched (h : t.Moves own st m own' st' n) (hv : t.Watched own st v m) :
    ∃ es, m.Logs es n ∧ Sight.Before t.Safe v es ∧ t.Watched own' st' (v.replay es) n := by
  induction h with
  | refl => exact ⟨[], .refl rfl, trivial, hv⟩
  | tail _ hm ih =>
    obtain ⟨es, hl, hb, hk⟩ := ih
    obtain ⟨fs, hl', hb', hn⟩ := hm.watched hc hw hk
    refine ⟨es ++ fs, hl.trans hl', Sight.before_append.mpr ⟨hb, hb'⟩, ?_⟩
    rw [Sight.replay_append]
    exact hn

end

end Tree

end NestedPaging
