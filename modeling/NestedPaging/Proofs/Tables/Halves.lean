import NestedPaging.Proofs.Unit.Emulation
import NestedPaging.Proofs.Objects.RemapTables
import NestedPaging.Proofs.Tree.Sights

/-!
# Entries in two halves

An entry is written in two stores, and read in between: by a unit that snoops caches after each store,
and by one that does not when a line is written back. `Sight.Follows` takes both views along the events
of an action, and `Sight.Holds` says that all entries of a page are in order in both. A line that holds
whole entries (`Cleaner.WholeEntries`) never separates what belongs together.

* `Sight.Follows`        an action, with something known of each moment of it;
* `WrittenBack`          each word that is stored is written back after that;
* `Holds.store_lo`, `Holds.store_hi`, `Holds.writeBack`   what keeps the entries of a page in order;
* `Sight.blank_of_clean` a page that is taken and cleaned is blank in both views.
-/

namespace NestedPaging

open PhysAddr (IsPage)

variable {σ ε : Type}

/-! ## moments -/

namespace Sight
variable {P : Sight → Event → Prop} {K : Sight → Prop} {v : Sight} {m k n : Machine σ} {es fs : List Event}
  {a q : PhysAddr} {w : Word}

/-- from `m`, which is the moment `v`, to `n` the events `es` happened, each with `P` -/
structure Follows (P : Sight → Event → Prop) (v : Sight) (m : Machine σ) (es : List Event) (n : Machine σ) :
    Prop where
  logs : m.Logs es n
  before : Before P v es
  of : (v.replay es).Of n

/-- events that leave memory alone keep what writing back keeps -/
theorem before_plain (hes : ∀ e ∈ es, e.Plain) (hK : ∀ v, ∀ e ∈ es, K v → K (v.writeBack e))
    (hP : ∀ v, ∀ e ∈ es, K v → P v e) (h : K v) : Before P v es ∧ K (v.replay es) := by
  induction es generalizing v with
  | nil => exact ⟨trivial, h⟩
  | cons e es ih =>
    have hstep := hK v e List.mem_cons_self h
    rw [← after_plain (hes e List.mem_cons_self)] at hstep
    obtain ⟨hb, hk⟩ := ih (fun e' he' => hes e' (List.mem_cons_of_mem e he'))
      (fun v e' he' => hK v e' (List.mem_cons_of_mem e he')) (fun v e' he' => hP v e' (List.mem_cons_of_mem e he'))
      hstep
    exact ⟨⟨hP v e List.mem_cons_self h, hb⟩, hk⟩

/-- what holds before each event and at the end holds wherever the events are cut in two -/
theorem Before.at_cut {P : Sight → Option Event → Prop} (h : Before (fun v e => P v (some e)) v es)
    (hend : P (v.replay es) none) {gs hs : List Event} (hes : es = gs ++ hs) : P (v.replay gs) hs.head? := by
  subst hes
  cases hs with
  | nil => exact List.append_nil gs ▸ hend
  | cons e hs => exact h.of_append

namespace Follows

theorem refl (h : v.Of m) : Follows P v m [] m := ⟨.refl rfl, trivial, h⟩

theorem trans (h : Follows P v m es k) (h' : Follows P (v.replay es) k fs n) : Follows P v m (es ++ fs) n :=
  ⟨h.logs.trans h'.logs, before_append.mpr ⟨h.before, h'.before⟩, by
    rw [replay_append]
    exact h'.of⟩

theorem store (h : v.Of m) (hP : P v (.stored a w)) : Follows P v m [.stored a w] (m.store a w) :=
  ⟨.push rfl, ⟨hP, trivial⟩, congrArg (·.write a w) h.1, h.2⟩

theorem take (h : v.Of m) (hP : P v (.allocated q w)) : Follows P v m [.allocated q w] (m.take q w) :=
  ⟨.push rfl, ⟨hP, trivial⟩, congrArg (·.fill q.frame w) h.1, congrArg (·.insert q.frame) h.2⟩

theorem giveBack (h : v.Of m) (hP : P v (.freed q)) : Follows P v m [.freed q] (m.giveBack q) :=
  ⟨.push rfl, ⟨hP, trivial⟩, h.1, congrArg (·.erase q.frame) h.2⟩

theorem noteAll (h : v.Of m) (hes : ∀ e ∈ es, e.Plain) (hb : Before P v es) :
    Follows P v m es (m.noteAll es) := by
  obtain ⟨hmem, hlive⟩ := replay_plain_same (v := v) hes
  exact ⟨m.logs_noteAll es, hb, hmem.trans h.1, hlive.trans h.2⟩

end Follows

end Sight

/-- each word that is stored is written back after that -/
def WrittenBack : List Event → Prop
  | [] => True
  | .stored a _ :: es => (∃ e ∈ es, e.covers a = true) ∧ WrittenBack es
  | _ :: es => WrittenBack es

theorem WrittenBack.append {es fs : List Event} (h : WrittenBack es) (h' : WrittenBack fs) :
    WrittenBack (es ++ fs) := by
  induction es with
  | nil => exact h'
  | cons e es ih =>
    cases e with
    | stored a w =>
      obtain ⟨⟨e, he, hc⟩, hrest⟩ := h
      exact ⟨⟨e, List.mem_append_left fs he, hc⟩, ih hrest⟩
    | _ => exact ih h

/-- what is stored first is written back after that -/
theorem WrittenBack.of_covers {es fs : List Event} (h : ∀ a w, .stored a w ∈ es → ∃ e ∈ fs, e.covers a = true)
    (h' : WrittenBack fs) : WrittenBack (es ++ fs) := by
  induction es with
  | nil => exact h'
  | cons e es ih =>
    have hrest := ih fun a w hin => h a w (List.mem_cons_of_mem e hin)
    cases e with
    | stored a w =>
      obtain ⟨e, he, hc⟩ := h a w List.mem_cons_self
      exact ⟨⟨e, List.mem_append_right es he, hc⟩, hrest⟩
    | _ => exact hrest

theorem writtenBack_of_plain {es : List Event} (h : ∀ e ∈ es, e.Plain) : WrittenBack es := by
  induction es with
  | nil => trivial
  | cons e es ih =>
    have hrest := ih fun e' he' => h e' (List.mem_cons_of_mem e he')
    cases e with
    | stored => exact (h _ List.mem_cons_self).elim
    | _ => exact hrest

/-! ## lines that hold whole entries -/

/-- the words of an entry are written back together or not at all -/
def Event.Whole (e : Event) : Prop :=
  ∀ x y : PhysAddr, 16 ∣ x.bits.toNat → y.bits.toNat = x.bits.toNat + 8 → e.covers y = e.covers x

namespace Cleaner
variable {c : Cleaner} {a : PhysAddr} {len : Nat}

/-- a line of the cache holds whole entries, as those of `conservative` and all larger ones do -/
def WholeEntries : Cleaner → Prop
  | platform => True
  | lines size => ∃ k, 4 ≤ k ∧ k < 64 ∧ size = 2 ^ k

theorem WholeEntries.wholeWords (h : c.WholeEntries) : c.WholeWords := by
  cases c with
  | platform => trivial
  | lines size =>
    obtain ⟨k, h4, hk⟩ := h
    exact ⟨k, Nat.le_of_succ_le h4, hk⟩

theorem WholeEntries.whole (h : c.WholeEntries) (ha : 16 ∣ a.bits.toNat) (hlen : 16 ∣ len) (memory : Memory) :
    ∀ e ∈ c.events a len memory, e.Whole := by
  intro e he x y hx hy
  cases c with
  | platform =>
    rw [List.mem_singleton.mp he]
    refine decide_eq_decide.mpr ?_
    omega
  | lines size =>
    obtain ⟨k, h4, hk, rfl⟩ := h
    obtain ⟨line, hline, rfl⟩ := List.mem_map.mp he
    have hsize : 2 ^ 4 ∣ 2 ^ k := Nat.pow_dvd_pow 2 h4
    have hdvd : 16 ∣ line := Nat.dvd_trans hsize ((mem_visitedLines hk a len line).mp hline).1
    refine decide_eq_decide.mpr ?_
    omega

end Cleaner

/-! ## the entries of a page -/

namespace TableEntry
variable {p q : PhysAddr} {i j : Nat} {v : Sight} {e : Event} {w : Word} {memory : Memory}

/-- the entry as a unit sees it that does not snoop caches -/
def seenWords (e : TableEntry) (v : Sight) : EntryWords := ⟨v.seen e.address, v.seen e.hiAddress⟩

theorem toNat_address (hp : IsPage p) (hi : i < 256) : (ofTable p i).address.bits.toNat = p.bits.toNat + i * 16 := by
  rw [address_eq, toNat_entry hp (by omega)]
  omega

theorem toNat_hiAddress (hp : IsPage p) (hi : i < 256) :
    (ofTable p i).hiAddress.bits.toNat = (ofTable p i).address.bits.toNat + 8 := by
  rw [hiAddress_eq, toNat_entry hp (by omega), toNat_address hp hi]
  omega

theorem dvd_address (hp : IsPage p) (hi : i < 256) : 16 ∣ (ofTable p i).address.bits.toNat := by
  have hpage : 4096 ∣ p.bits.toNat := p.isPageAligned_iff.mp hp.aligned
  rw [toNat_address hp hi]
  omega

/-- cleaning an entry writes both its words back -/
theorem exists_covers {c : Cleaner} (hw : c.WholeWords) (hp : IsPage p) (hi : i < 256) (memory : Memory) :
    (∃ e ∈ c.events (ofTable p i).address 16 memory, e.covers (ofTable p i).address = true) ∧
      ∃ e ∈ c.events (ofTable p i).address 16 memory, e.covers (ofTable p i).hiAddress = true := by
  have hdvd := dvd_address hp hi
  have hhi := toNat_hiAddress hp hi
  exact ⟨c.exists_covers hw (by omega) (by omega) (by omega) memory,
    c.exists_covers hw (by omega) (by omega) (by omega) memory⟩

/-- an event shows an entry as it is, or not at all -/
theorem seenWords_writeBack (hp : IsPage p) (hi : i < 256) (he : e.Whole) (v : Sight) :
    (ofTable p i).seenWords (v.writeBack e) = (ofTable p i).readWords v.memory ∨
      (ofTable p i).seenWords (v.writeBack e) = (ofTable p i).seenWords v := by
  have hboth := he _ _ (dvd_address hp hi) (toNat_hiAddress hp hi)
  unfold seenWords readWords Sight.writeBack
  dsimp only
  rw [hboth]
  by_cases hc : e.covers (ofTable p i).address = true
  · exact .inl (by rw [if_pos hc, if_pos hc])
  · exact .inr (by rw [if_neg hc, if_neg hc])

theorem readWords_write_other {a : PhysAddr} (hp : IsPage p) (hi : i < 256) (ha : a.frame ≠ p.frame) (w : Word)
    (memory : Memory) : (ofTable p i).readWords (memory.write a w) = (ofTable p i).readWords memory :=
  readWords_congr hp hi fun _ hb => Memory.read_write_other (fun hs => ha (hs.1.trans hb)) memory w

end TableEntry

namespace Sight
variable {v : Sight} {p q a : PhysAddr} {ok : Nat → EntryWords → Prop} {i : Nat} {w : Word} {e : Event}

/-- the entries of the page `p` are in order, in memory and as a unit sees them -/
structure Holds (v : Sight) (p : PhysAddr) (ok : Nat → EntryWords → Prop) : Prop where
  memory : ∀ i < 256, ok i ((TableEntry.ofTable p i).readWords v.memory)
  seen : ∀ i < 256, ok i ((TableEntry.ofTable p i).seenWords v)

namespace Holds

theorem writeBack (h : v.Holds p ok) (hp : IsPage p) (he : e.Whole) : (v.writeBack e).Holds p ok := by
  refine ⟨h.memory, fun i hi => ?_⟩
  rcases TableEntry.seenWords_writeBack hp hi he v with heq | heq
  · rw [heq]
    exact h.memory i hi
  · rw [heq]
    exact h.seen i hi

theorem store_lo (h : v.Holds p ok) (hp : IsPage p) (hi : i < 256)
    (hw : ok i ⟨w, v.memory.read (TableEntry.ofTable p i).hiAddress⟩) :
    (v.after (.stored (TableEntry.ofTable p i).address w)).Holds p ok := by
  refine ⟨fun j hj => ?_, h.seen⟩
  show ok j ((TableEntry.ofTable p j).readWords (v.memory.write _ w))
  rw [TableEntry.readWords_write_lo hp hi hj]
  split
  · rename_i heq
    exact heq ▸ hw
  · exact h.memory j hj

theorem store_hi (h : v.Holds p ok) (hp : IsPage p) (hi : i < 256)
    (hw : ok i ⟨v.memory.read (TableEntry.ofTable p i).address, w⟩) :
    (v.after (.stored (TableEntry.ofTable p i).hiAddress w)).Holds p ok := by
  refine ⟨fun j hj => ?_, h.seen⟩
  show ok j ((TableEntry.ofTable p j).readWords (v.memory.write _ w))
  rw [TableEntry.readWords_write_hi hp hi hj]
  split
  · rename_i heq
    exact heq ▸ hw
  · exact h.memory j hj

theorem store_other (h : v.Holds p ok) (hp : IsPage p) (ha : a.frame ≠ p.frame) (w : Word) :
    (v.after (.stored a w)).Holds p ok := by
  refine ⟨fun i hi => ?_, h.seen⟩
  show ok i ((TableEntry.ofTable p i).readWords (v.memory.write a w))
  rw [TableEntry.readWords_write_other hp hi ha]
  exact h.memory i hi

theorem take (h : v.Holds p ok) (hp : IsPage p) (hq : q.frame ≠ p.frame) (w : Word) :
    (v.after (.allocated q w)).Holds p ok := by
  refine ⟨fun i hi => ?_, h.seen⟩
  show ok i ((TableEntry.ofTable p i).readWords (v.memory.fill q.frame w))
  rw [TableEntry.readWords_congr hp hi fun a ha => (v.memory.read_fill q.frame w a).trans (if_neg (ha ▸ hq))]
  exact h.memory i hi

end Holds

/-! ## blank pages -/

/-- the page `p` is in use and written back, and holds zeros, in memory and as a unit sees it -/
structure Blank (v : Sight) (p : PhysAddr) : Prop where
  page : IsPage p
  live : p.frame ∈ v.live
  settled : v.Settled p
  zero : ∀ i < 256, (TableEntry.ofTable p i).readWords v.memory = ⟨0, 0⟩
  seen : ∀ i < 256, (TableEntry.ofTable p i).seenWords v = ⟨0, 0⟩

theorem Blank.holds (h : v.Blank p) (hok : ∀ i < 256, ok i ⟨0, 0⟩) : v.Holds p ok :=
  ⟨fun i hi => (h.zero i hi).symm ▸ hok i hi, fun i hi => (h.seen i hi).symm ▸ hok i hi⟩

theorem blank_of_clean {c : Cleaner} (hw : c.WholeWords) (hp : IsPage p) (v : Sight) (memory : Memory) :
    ((v.after (.allocated p 0)).replay (c.events p 4096 memory)).Blank p := by
  have hplain := c.plain_events p 4096 memory
  obtain ⟨_, hlive⟩ := replay_plain_same (v := v.after (.allocated p 0)) hplain
  have hword := replay_cleared hw hp v memory
  refine ⟨hp, ?_, fun i hi => (hword i hi).1, fun i hi => ?_, fun i hi => ?_⟩
  · rw [hlive]
    exact Std.HashSet.mem_insert_self
  · unfold TableEntry.readWords
    rw [TableEntry.address_eq, TableEntry.hiAddress_eq]
    exact congrArg₂ EntryWords.mk (hword _ (by omega)).2.2 (hword _ (by omega)).2.2
  · unfold TableEntry.seenWords
    rw [TableEntry.address_eq, TableEntry.hiAddress_eq]
    exact congrArg₂ EntryWords.mk (hword _ (by omega)).2.1 (hword _ (by omega)).2.1

/-- tables that are made of one page start blank -/
theorem blank_of_made {α : Type} {env : Env σ} {m n : Machine σ} {e : ε} {c : Cleaner} {f : PhysAddr → α} {t : α}
    {es : List Event} (hw : c.WholeWords) (hh : env.Honest) (h : (do
      let page ← Act.allocOr e 0
      Act.clean c page 4096
      pure (f page)) env m = .ok t n) (hv : v.Of (env.supply m).1) (hes : (env.supply m).1.Logs es n) :
    ∃ p, t = f p ∧ (v.replay es).Blank p ∧ (v.replay es).Of n := by
  obtain ⟨k, p, hs, ht, rfl⟩ := Act.eq_of_made h
  obtain ⟨hp, -⟩ := hh m p (by rw [hs])
  rw [hs] at hv hes
  have hplain := c.plain_events p 4096 (k.take p 0).memory
  have htake : Follows (fun _ _ => True) v k [.allocated p 0] (k.take p 0) := .take hv trivial
  have hclean := Follows.noteAll htake.of hplain
    (before_plain (K := fun _ => True) hplain (fun _ _ _ _ => trivial) (fun _ _ _ _ => trivial) trivial).1
  have hall := htake.trans hclean
  obtain rfl := List.append_cancel_left (hes.symm.trans hall.logs)
  exact ⟨p, ht, blank_of_clean hw hp v _, hall.of⟩

/-- page 1 is taken first, from an allocator whose pages a unit sees full of ones -/
theorem exists_made {α : Type} (c : Cleaner) (f : PhysAddr → α) (e : ε) (frames : List Nat) (client : σ) :
    ∃ (m : Machine σ) (es : List Event) (v : Sight), (do
        let page ← Act.allocOr e 0
        Act.clean c page 4096
        pure (f page)) (.offering (1 :: frames)) { client } = .ok (f (.ofFrame 1)) m ∧
      ((Env.offering (1 :: frames) : Env σ).supply { client }).1.Logs es m ∧
      v.Of ((Env.offering (1 :: frames) : Env σ).supply { client }).1 ∧ (∀ a, v.seen a = 1) ∧
      ∀ i, i ∈ m.live ↔ i = 1 := by
  have hs : (Env.offering (1 :: frames) : Env σ).supply { client } = ({ client }, some (.ofFrame 1)) :=
    Env.offering_free Std.HashSet.not_mem_empty
  obtain ⟨k, hk⟩ : ∃ k, ({ client } : Machine σ).take (.ofFrame 1) 0 = k := ⟨_, rfl⟩
  refine ⟨k.noteAll (c.events (.ofFrame 1) 4096 k.memory),
    .allocated (.ofFrame 1) 0 :: c.events (.ofFrame 1) 4096 k.memory,
    ⟨({ client } : Machine σ).memory, {}, fun _ => 1, fun _ => False⟩, ?_, ?_, ?_, fun _ => rfl, fun i => ?_⟩
  · simp only [Act.bind_apply, Act.allocOr_some hs, Act.clean_apply, hk, Act.pure_apply]
  · rw [hs]
    exact (Machine.Logs.push (by rw [← hk]; rfl)).trans (k.logs_noteAll _)
  · rw [hs]
    exact ⟨rfl, rfl⟩
  · rw [← hk]
    show i ∈ ({} : Std.HashSet Nat).insert (PhysAddr.ofFrame 1).frame ↔ i = 1
    rw [PhysAddr.frame_ofFrame (by decide), Std.HashSet.mem_insert, beq_iff_eq]
    exact ⟨fun h => (h.resolve_right Std.HashSet.not_mem_empty).symm, fun h => .inl h.symm⟩

end Sight

end NestedPaging
