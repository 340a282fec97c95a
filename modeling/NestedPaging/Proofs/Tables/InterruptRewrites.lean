import NestedPaging.Proofs.Tables.Halves

/-!
# Interrupt entries that are written again

`set` stores the high word of an entry first and the low word with the present bit last. In an entry that
is not present this shows nobody a mix. An entry that is present still is so between the two stores, with
the low word of the call before and the high word of this one (`set_tears`). Nobody is shown a mix at any
other moment, and never who sees entries only as they are written back (`torn_between_stores`).

* `InterruptTable.routed`    the entries after several calls;
* `InterruptTable.Moment`    what holds at each event of a call;
* `InterruptTable.Routes`    a call, from the entries of the calls before it to those after it.
-/

namespace NestedPaging

open PhysAddr (IsPage)

variable {σ ε : Type}

namespace InterruptTable

/-- entries are written, one after the other -/
def setAll (t : InterruptTable) : List (Nat × InterruptRoute) → Act σ ε Unit
  | [] => pure ()
  | (i, r) :: calls => do
    t.set i r
    t.setAll calls

abbrev slot (t : InterruptTable) (i : Nat) : TableEntry := TableEntry.ofTable t.base i

/-- what the entry `i` of a new table is after the calls -/
def routed (calls : List (Nat × InterruptRoute)) (i : Nat) : EntryWords :=
  calls.foldl (fun w c => if c.1 = i then c.2.words else w) ⟨0, 0⟩

/-- the entry `i` is not present, or is what one of the calls asked for -/
def Intact (calls : List (Nat × InterruptRoute)) (i : Nat) (w : EntryWords) : Prop :=
  isPresentEntry w.lo = false ∨ ∃ r, (i, r) ∈ calls ∧ w = r.words

/-- between the stores of a call that writes a present entry: its low word is still that of the call before -/
def Torn (t : InterruptTable) (calls : List (Nat × InterruptRoute)) (memory : Memory) (e : Option Event) : Prop :=
  ∃ done j r rest, calls = done ++ (j, r) :: rest ∧ isPresentEntry (routed done j).lo = true ∧
    e = some (.stored (t.slot j).address r.words.lo) ∧
    ∀ i < interruptEntries, (t.slot i).readWords memory
      = if i = j then ⟨(routed done j).lo, r.words.hi⟩ else routed done i

/-- at each moment the entries are intact as a unit sees them, and in memory unless one is torn; `e` is what
happens next -/
def Moment (t : InterruptTable) (calls : List (Nat × InterruptRoute)) (v : Sight) (e : Option Event) : Prop :=
  (∀ i < interruptEntries, Intact calls i ((t.slot i).seenWords v)) ∧
    ((∀ i < interruptEntries, Intact calls i ((t.slot i).readWords v.memory)) ∨
      t.Torn calls v.memory e)

variable {t : InterruptTable} {calls done rest : List (Nat × InterruptRoute)} {i j : Nat} {r : InterruptRoute}
  {v : Sight} {env : Env σ} {m n : Machine σ}

theorem setAll_cons {k : Machine σ} (h : (t.set j r : Act σ ε Unit) env m = .ok () k) :
    (t.setAll ((j, r) :: calls) : Act σ ε Unit) env m = t.setAll calls env k := by
  show ((t.set j r : Act σ ε Unit) >>= fun _ => t.setAll calls) env m = _
  rw [Act.bind_apply, h]

theorem routed_concat : routed (done ++ [(j, r)]) i = if i = j then r.words else routed done i := by
  unfold routed
  rw [List.foldl_append, List.foldl_cons, List.foldl_nil]
  simp only [eq_comm]

/-- an entry that was not written is blank, and any other is what a call asked for -/
theorem routed_cases (calls : List (Nat × InterruptRoute)) (i : Nat) :
    routed calls i = ⟨0, 0⟩ ∨ ∃ r, (i, r) ∈ calls ∧ routed calls i = r.words := by
  induction calls using List.reverseRecOn with
  | nil => exact .inl rfl
  | append_singleton calls c ih =>
    obtain ⟨j, r⟩ := c
    rw [routed_concat]
    split
    · rename_i heq
      exact .inr ⟨r, List.mem_append_right _ (heq ▸ List.mem_singleton_self _), rfl⟩
    · exact ih.imp_right fun ⟨r, hr, hw⟩ => ⟨r, List.mem_append_left _ hr, hw⟩

theorem intact_routed (h : calls = done ++ rest) (i : Nat) : Intact calls i (routed done i) := by
  rcases routed_cases done i with h0 | ⟨r, hr, hw⟩
  · rw [h0]
    exact .inl (by decide)
  · exact .inr ⟨r, h ▸ List.mem_append_left _ hr, hw⟩

/-- the entries after some of the calls -/
structure Routes (t : InterruptTable) (calls done : List (Nat × InterruptRoute)) (v : Sight) : Prop where
  page : IsPage t.base
  memory : ∀ i < interruptEntries, (t.slot i).readWords v.memory = routed done i
  seen : ∀ i < interruptEntries, Intact calls i ((t.slot i).seenWords v)

namespace Routes

theorem holds (h : t.Routes calls done v) (hc : calls = done ++ rest) : v.Holds t.base (Intact calls) :=
  ⟨fun i hi => h.memory i hi ▸ intact_routed hc i, h.seen⟩

theorem moment (h : t.Routes calls done v) (hc : calls = done ++ rest) (e : Option Event) : t.Moment calls v e :=
  ⟨h.seen, .inl (h.holds hc).memory⟩

section
variable (h : t.Routes calls done v) (hj : j < interruptEntries) (hi : i < interruptEntries)
include h hj hi

/-- after the first store of a call -/
theorem words_between (r : InterruptRoute) :
    (t.slot i).readWords (v.memory.write (t.slot j).hiAddress r.words.hi)
      = if i = j then ⟨(routed done j).lo, r.words.hi⟩ else routed done i := by
  rw [TableEntry.readWords_write_hi h.page hj hi, h.memory i hi]
  simp only [eq_comm (a := i)]
  split
  · rename_i heq
    rw [← h.memory j hj, heq]
    rfl
  · rfl

/-- and after the second -/
theorem words_written (r : InterruptRoute) : (t.slot i).readWords
    ((v.memory.write (t.slot j).hiAddress r.words.hi).write (t.slot j).address r.words.lo)
      = routed (done ++ [(j, r)]) i := by
  have hbetween := h.words_between hj hi r
  rw [TableEntry.readWords_write_lo h.page hj hi, hbetween, routed_concat]
  simp only [eq_comm (a := j)]
  split
  · rename_i heq
    rw [if_pos heq] at hbetween
    exact congrArg (EntryWords.mk _) (congrArg EntryWords.hi hbetween)
  · rfl

end

/-- an entry that is not present is intact between the stores -/
theorem moment_between (h : t.Routes calls done v) (hc : calls = done ++ (j, r) :: rest) (hj : j < interruptEntries) :
    t.Moment calls (v.after (.stored (t.slot j).hiAddress r.words.hi))
      (some (.stored (t.slot j).address r.words.lo)) := by
  refine ⟨h.seen, ?_⟩
  by_cases hpres : isPresentEntry (routed done j).lo = true
  · exact .inr ⟨done, j, r, rest, hc, hpres, rfl, fun i hi => h.words_between hj hi r⟩
  · refine .inl fun i hi => ?_
    show Intact calls i ((t.slot i).readWords (v.memory.write _ _))
    rw [h.words_between hj hi]
    split
    · exact .inl (Bool.not_eq_true _ ▸ hpres)
    · exact intact_routed hc i

/-- writing entries back keeps them -/
theorem replay_plain {es : List Event} (h : t.Routes calls done v) (hc : calls = done ++ rest)
    (hplain : ∀ e ∈ es, e.Plain) (hwhole : ∀ e ∈ es, e.Whole) :
    Sight.Before (fun v e => t.Moment calls v (some e)) v es ∧ t.Routes calls done (v.replay es) :=
  Sight.before_plain hplain
    (fun _ e he hk => ⟨hk.page, hk.memory, ((hk.holds hc).writeBack hk.page (hwhole e he)).seen⟩)
    (fun _ e _ hk => hk.moment hc (some e)) h

/-- a call stores the two words, and cleans them -/
theorem set (h : t.Routes calls done v) (hw : t.cleaner.WholeEntries) (hv : v.Of m)
    (hc : calls = done ++ (j, r) :: rest) (hj : j < interruptEntries) (env : Env σ) : ∃ n es fs,
      es = .stored (t.slot j).hiAddress r.words.hi :: .stored (t.slot j).address r.words.lo :: fs ∧
      (t.set j r : Act σ ε Unit) env m = .ok () n ∧ v.Follows (fun v e => t.Moment calls v (some e)) m es n ∧
      WrittenBack es ∧ t.Routes calls (done ++ [(j, r)]) (v.replay es) := by
  have hc' : calls = (done ++ [(j, r)]) ++ rest := by rw [hc, List.append_assoc]; rfl
  obtain ⟨k, hk⟩ : ∃ k, (m.store (t.slot j).hiAddress r.words.hi).store (t.slot j).address r.words.lo = k := ⟨_, rfl⟩
  have hhi : v.Follows (fun v e => t.Moment calls v (some e)) m [.stored (t.slot j).hiAddress r.words.hi] _ :=
    .store hv (h.moment hc _)
  have hlo := hhi.trans (.store hhi.of (h.moment_between hc hj))
  rw [hk] at hlo
  have hwritten : t.Routes calls (done ++ [(j, r)]) (v.replay
      ([.stored (t.slot j).hiAddress r.words.hi] ++ [.stored (t.slot j).address r.words.lo])) :=
    ⟨h.page, fun i hi => h.words_written hj hi r, h.seen⟩
  have hplain := t.cleaner.plain_events (t.slot j).address 16 k.memory
  obtain ⟨hbefore, hend⟩ := hwritten.replay_plain hc' hplain
    (hw.whole (TableEntry.dvd_address h.page hj) (Nat.dvd_refl 16) k.memory)
  obtain ⟨hcover, e, he, hcover'⟩ := TableEntry.exists_covers hw.wholeWords h.page hj k.memory
  refine ⟨_, _, _, rfl, ?_, hlo.trans (.noteAll hlo.of hplain hbefore),
    ⟨⟨e, List.mem_cons_of_mem _ he, hcover'⟩, hcover, writtenBack_of_plain hplain⟩, hend⟩
  unfold InterruptTable.set TableEntry.set TableEntry.clean
  simp only [Nat.not_le.mpr hj, if_false, Act.bind_apply, Act.store_apply, Act.clean_apply, hk]

theorem setAll (h : t.Routes calls done v) (hw : t.cleaner.WholeEntries) (hv : v.Of m) (hc : calls = done ++ rest)
    (hrest : ∀ c ∈ rest, c.1 < interruptEntries) (env : Env σ) : ∃ n es,
      (t.setAll rest : Act σ ε Unit) env m = .ok () n ∧
      v.Follows (fun v e => t.Moment calls v (some e)) m es n ∧ WrittenBack es ∧
      t.Routes calls calls (v.replay es) := by
  induction rest generalizing done v m with
  | nil =>
    rw [List.append_nil] at hc
    exact ⟨m, [], rfl, .refl hv, trivial, hc ▸ h⟩
  | cons c rest ih =>
    obtain ⟨j, r⟩ := c
    obtain ⟨k, es, _, _, hk, hf, hb, hr⟩ := h.set hw hv hc (hrest (j, r) List.mem_cons_self) env
    obtain ⟨n, fs, hn, hf', hb', hr'⟩ := ih hr hf.of (by rw [hc, List.append_assoc]; rfl)
      fun c hc => hrest c (List.mem_cons_of_mem _ hc)
    refine ⟨n, es ++ fs, (setAll_cons hk).trans hn, hf.trans hf', hb.append hb', ?_⟩
    rw [Sight.replay_append]
    exact hr'

/-- a new table has no entries -/
theorem of_blank (h : v.Blank t.base) : t.Routes calls [] v :=
  ⟨h.page, h.zero, fun i hi => .inl (by rw [h.seen i hi]; decide)⟩

end Routes

section
variable {m₀ : Machine σ} {c : Cleaner} {es : List Event} (hw : c.WholeEntries) (hh : env.Honest)
  (h : create c env m₀ = .ok t m) (hv : v.Of (env.supply m₀).1) (hes : (env.supply m₀).1.Logs es m)
include hw hh h hv hes

theorem create_routes (calls : List (Nat × InterruptRoute)) :
    t.cleaner = c ∧ t.Routes calls [] (v.replay es) ∧ (v.replay es).Of m := by
  obtain ⟨p, rfl, hblank, hof⟩ := Sight.blank_of_made (f := fun p => InterruptTable.mk p c) hw.wholeWords hh h hv hes
  exact ⟨rfl, .of_blank hblank, hof⟩

/-- whatever entries of a new table are written, and written again, none is torn as a unit sees it that does
not snoop caches; in memory one is between the two stores of a call that writes an entry that is present, and
at no other moment; and what is stored is written back -/
theorem torn_between_stores (calls : List (Nat × InterruptRoute)) (hcalls : ∀ c ∈ calls, c.1 < interruptEntries)
    (env' : Env σ) : ∃ n fs, (t.setAll calls : Act σ ε Unit) env' m = .ok () n ∧ m.Logs fs n ∧ WrittenBack fs ∧
      (∀ i < interruptEntries, (t.slot i).readWords n.memory = routed calls i) ∧
      ∀ gs hs, fs = gs ++ hs → t.Moment calls (v.replay (es ++ gs)) hs.head? := by
  obtain ⟨rfl, hstart, hof⟩ := create_routes hw hh h hv hes calls
  obtain ⟨n, fs, hn, hf, hb, hend⟩ := hstart.setAll (ε := ε) hw hof (List.nil_append calls).symm hcalls
    env'
  refine ⟨n, fs, hn, hf.logs, hb, fun i hi => ?_, fun gs hs hgs => ?_⟩
  · rw [← hf.of.1]
    exact hend.memory i hi
  · rw [Sight.replay_append]
    exact hf.before.at_cut (hend.moment (List.append_nil calls).symm none) hgs

end

/-- one entry that is written twice -/
theorem torn_between_stores_twice : ∃ (t : InterruptTable) (v : Sight) (m n : Machine Unit) (es fs : List Event),
    create .platform (.offering [1]) { client := () } = .ok t m ∧
      (t.setAll [(3, ⟨0xf8, 2, 0x41, true⟩), (3, ⟨0x310, 5, 0x30, false⟩)] : Act Unit Empty Unit) (.offering []) m
        = .ok () n ∧ m.Logs fs n ∧ ∀ gs hs, fs = gs ++ hs →
          t.Moment [(3, ⟨0xf8, 2, 0x41, true⟩), (3, ⟨0x310, 5, 0x30, false⟩)] (v.replay (es ++ gs)) hs.head? := by
  have hh : (Env.offering [1] : Env Unit).Honest := Env.honest_offering (by decide)
  obtain ⟨m, es, v, hcr, hes, hv, _⟩ := Sight.exists_made .platform (fun p => InterruptTable.mk p .platform)
    RemapError.insufficientMemory [] ()
  obtain ⟨n, fs, hn, hfs, _, _, hall⟩ := torn_between_stores (ε := Empty) (c := .platform) trivial hh hcr hv hes
    [(3, ⟨0xf8, 2, 0x41, true⟩), (3, ⟨0x310, 5, 0x30, false⟩)] (by decide) (.offering [])
  exact ⟨_, v, m, n, es, fs, hcr, hn, hfs, hall⟩

/-- the second call is halfway: the entry is present, and neither what the first asked for nor what the second
does -/
theorem set_tears : ∃ (t : InterruptTable) (v : Sight) (m n : Machine Unit) (es gs hs : List Event) (w : EntryWords),
    create .platform (.offering [1]) { client := () } = .ok t m ∧
      (t.setAll [(3, ⟨0xf8, 2, 0x41, true⟩), (3, ⟨0x310, 5, 0x30, false⟩)] : Act Unit Empty Unit) (.offering []) m
        = .ok () n ∧ m.Logs (gs ++ hs) n ∧ (v.replay es).Of m ∧
      (t.slot 3).readWords (v.replay (es ++ gs)).memory = w ∧ isPresentEntry w.lo = true ∧
      w = ⟨(⟨0xf8, 2, 0x41, true⟩ : InterruptRoute).words.lo, (⟨0x310, 5, 0x30, false⟩ : InterruptRoute).words.hi⟩ ∧
      w ≠ (⟨0xf8, 2, 0x41, true⟩ : InterruptRoute).words ∧ w ≠ (⟨0x310, 5, 0x30, false⟩ : InterruptRoute).words := by
  have hh : (Env.offering [1] : Env Unit).Honest := Env.honest_offering (by decide)
  have hw : Cleaner.platform.WholeEntries := trivial
  obtain ⟨m, es, v, hcr, hes, hv, _⟩ := Sight.exists_made .platform (fun p => InterruptTable.mk p .platform)
    RemapError.insufficientMemory [] ()
  obtain ⟨_, hstart, hof⟩ := create_routes hw hh hcr hv hes [(3, ⟨0xf8, 2, 0x41, true⟩), (3, ⟨0x310, 5, 0x30, false⟩)]
  obtain ⟨k, gs, _, _, hk, hf, _, hr⟩ := hstart.set (ε := Empty) hw hof rfl (by decide) (.offering [])
  obtain ⟨n, _, fs, rfl, hn, hf', _⟩ := hr.set (ε := Empty) hw hf.of rfl (by decide) (.offering [])
  let slot : TableEntry := slot ⟨.ofFrame 1, .platform⟩ 3
  let route : InterruptRoute := ⟨0x310, 5, 0x30, false⟩
  refine ⟨_, v, m, n, es, gs ++ [.stored slot.hiAddress route.words.hi], .stored slot.address route.words.lo :: fs, _,
    hcr, (setAll_cons hk).trans (setAll_cons hn), ?_, hof, ?_, ?_, rfl, ?_, ?_⟩
  · rw [List.append_assoc]
    exact hf.logs.trans hf'.logs
  · rw [Sight.replay_append, Sight.replay_append]
    exact hr.words_between (j := 3) (i := 3) (by decide) (by decide) route
  all_goals decide

end InterruptTable

end NestedPaging
