import NestedPaging.Proofs.Platform.Assignment
import NestedPaging.Proofs.Tables.InterruptRewrites

/-!
# What interrupt entries say

An entry packs a route into two words. Source, vector and trigger mode are read back as they were given, and of
the target its low 24 bits: the field starts at bit 40, and the word ends after bit 63 (`ofWords_words`). So the
table is a map of routes up to that (`InterruptTable.delivers`), and targets that differ further up get the same
entry (`InterruptTable.target_cut`).

* `InterruptRoute.ofWords`   the route that an entry stands for;
* `InterruptRoute.kept`      what of a route an entry has room for;
* `InterruptTable.tried`     calls one after the other, some with indices that are out of range.
-/

namespace NestedPaging

open PhysAddr (IsPage)

variable {σ ε : Type}

/-! ## one entry -/

namespace InterruptRoute

/-- does the unit check the source of the interrupt? -/
def checksSource (w : EntryWords) : Bool := w.hi.bit 18

/-- the route that a present entry stands for -/
def ofWords (w : EntryWords) : InterruptRoute where
  source := w.hi.toUInt16
  target := (w.lo >>> 40).toUInt32
  vector := (w.lo >>> 16).toUInt8
  levelTriggered := w.lo.bit 4

/-- a route whose target has at most 24 bits -/
def kept (r : InterruptRoute) : InterruptRoute := { r with target := (r.target.toNat % 2 ^ 24).toUInt32 }

variable (r s : InterruptRoute)

/-- the fields of the low word side by side, the topmost cut off at the end of the word -/
theorem toNat_lo : r.words.lo.toNat
    = 2 ^ 40 * (r.target.toNat % 2 ^ 24) + (2 ^ 16 * r.vector.toNat + (2 ^ 4 * r.levelTriggered.toNat + 1)) := by
  have htarget : (r.target.toUInt64 <<< 40).toNat = 2 ^ 40 * (r.target.toNat % 2 ^ 24) := by
    rw [UInt64.toNat_shiftLeft, UInt32.toNat_toUInt64, Nat.shiftLeft_eq]
    show r.target.toNat * 2 ^ 40 % 2 ^ 64 = _
    omega
  have hvector : (r.vector.toUInt64 <<< 16).toNat = 2 ^ 16 * r.vector.toNat := by
    have := r.vector.toNat_lt
    rw [UInt64.toNat_shiftLeft, UInt8.toNat_toUInt64, Nat.shiftLeft_eq]
    show r.vector.toNat * 2 ^ 16 % 2 ^ 64 = _
    omega
  have hlevel : (Word.flag r.levelTriggered 4).toNat = 2 ^ 4 * r.levelTriggered.toNat := by
    cases r.levelTriggered <;> rfl
  have hbool := r.levelTriggered.toNat_le
  have hbyte := r.vector.toNat_lt
  have htrigger := Nat.two_pow_add_eq_or_of_lt (i := 4) (b := 1) (by decide) r.levelTriggered.toNat
  have hmiddle := Nat.two_pow_add_eq_or_of_lt (i := 16) (b := 2 ^ 4 * r.levelTriggered.toNat + 1) (by omega)
    r.vector.toNat
  unfold words
  rw [UInt64.toNat_or, UInt64.toNat_or, UInt64.toNat_or, htarget, hvector, hlevel, Nat.or_assoc, Nat.or_assoc]
  show _ ||| (_ ||| (_ ||| 1)) = _
  rw [← htrigger, ← hmiddle, ← Nat.two_pow_add_eq_or_of_lt (by omega)]

theorem toNat_hi : r.words.hi.toNat = 2 ^ 18 + r.source.toNat := by
  have hsource := r.source.toNat_lt
  have hor := Nat.two_pow_add_eq_or_of_lt (i := 18) (b := r.source.toNat) (by omega) 1
  unfold words
  rw [UInt64.toNat_or, Word.toNat_single (by decide), UInt16.toNat_toUInt64]
  exact hor.symm

theorem isPresent_words : isPresentEntry r.words.lo = true := by
  have hone : (r.words.lo &&& presentBit).toNat = 1 := by
    rw [UInt64.toNat_and, toNat_lo]
    show _ &&& 1 = 1
    rw [Nat.and_one_is_mod]
    omega
  refine bne_iff_ne.mpr fun h => ?_
  rw [h] at hone
  cases hone

theorem checksSource_words : checksSource r.words = true := by
  have hsource := r.source.toNat_lt
  unfold checksSource Word.bit
  rw [toNat_hi, Nat.testBit_eq_decide_div_mod_eq, decide_eq_true_eq]
  omega

/-- all is read back that there is room for -/
theorem ofWords_words : ofWords r.words = r.kept := by
  have hlo := r.toNat_lo
  have hbool := r.levelTriggered.toNat_le
  have hbyte := r.vector.toNat_lt
  have hsource := r.source.toNat_lt
  have h40 : (40 : UInt64).toNat % 64 = 40 := by decide
  have h16 : (16 : UInt64).toNat % 64 = 16 := by decide
  unfold ofWords kept
  congr
  · refine UInt16.toNat_inj.mp ?_
    rw [UInt64.toNat_toUInt16, toNat_hi]
    omega
  · refine UInt32.toNat_inj.mp ?_
    rw [UInt64.toNat_toUInt32, UInt64.toNat_shiftRight, h40, Nat.shiftRight_eq_div_pow, hlo]
    show _ = (r.target.toNat % 2 ^ 24) % 2 ^ 32
    omega
  · refine UInt8.toNat_inj.mp ?_
    rw [UInt64.toNat_toUInt8, UInt64.toNat_shiftRight, h16, Nat.shiftRight_eq_div_pow, hlo]
    omega
  · unfold Word.bit
    rw [Nat.testBit_eq_decide_div_mod_eq, hlo]
    cases r.levelTriggered
    · exact decide_eq_false (by simp only [Bool.toNat_false]; omega)
    · exact decide_eq_true (by simp only [Bool.toNat_true]; omega)

/-- there is no room for more -/
theorem words_kept : r.kept.words = r.words := by
  have hkept : r.kept.target.toNat = r.target.toNat % 2 ^ 24 :=
    UInt32.toNat_ofNat_of_lt' (Nat.lt_of_lt_of_le (Nat.mod_lt _ (by decide)) (by decide))
  refine congrArg₂ EntryWords.mk (UInt64.toNat_inj.mp ?_) rfl
  refine (toNat_lo r.kept).trans (Eq.trans ?_ (toNat_lo r).symm)
  rw [hkept, Nat.mod_mod]
  rfl

/-- two routes have the same entry just if they differ in what there is no room for -/
theorem words_eq_iff : r.words = s.words ↔ r.kept = s.kept := by
  refine ⟨fun h => ?_, fun h => ?_⟩
  · rw [← ofWords_words, h, ofWords_words]
  · rw [← words_kept, h, words_kept]

end InterruptRoute

/-! ## the table -/

namespace InterruptTable

/-- calls of `set` one after the other, however they end -/
def tried (t : InterruptTable) (env : Env σ) (calls : List (Nat × InterruptRoute)) (m : Machine σ) : Machine σ :=
  calls.foldl (fun m c => (t.set c.1 c.2 : Act σ RemapError Unit).after env m) m

/-- the route of the last call for `i` -/
def last? (calls : List (Nat × InterruptRoute)) (i : Nat) : Option InterruptRoute :=
  ((calls.filter (·.1 == i)).getLast?).map Prod.snd

/-- what entry word pair `w` has to be after a last call for the route `r`, or none -/
def Says (w : EntryWords) : Option InterruptRoute → Prop
  | none => w = ⟨0, 0⟩
  | some r => isPresentEntry w.lo = true ∧ InterruptRoute.checksSource w = true ∧ InterruptRoute.ofWords w = r.kept

variable {t : InterruptTable} {calls : List (Nat × InterruptRoute)} {i j : Nat} {r : InterruptRoute} {env env' : Env σ}
  {m n m₀ : Machine σ} {c : Cleaner}

theorem last?_concat : last? (calls ++ [(j, r)]) i = if i = j then some r else last? calls i := by
  unfold last?
  rw [List.filter_append, List.filter_cons, List.filter_nil]
  by_cases hij : i = j
  · subst hij
    rw [if_pos (beq_self_eq_true _), List.getLast?_concat, if_pos rfl]
    rfl
  · have hne : ((j, r).1 == i) = false := beq_false_of_ne (Ne.symm hij)
    rw [if_neg hij, hne, if_neg Bool.false_ne_true, List.append_nil]

theorem says_routed (calls : List (Nat × InterruptRoute)) (i : Nat) : Says (routed calls i) (last? calls i) := by
  induction calls using List.reverseRecOn with
  | nil => rfl
  | append_singleton calls c ih =>
    obtain ⟨j, r⟩ := c
    rw [routed_concat, last?_concat]
    split
    · exact ⟨r.isPresent_words, r.checksSource_words, r.ofWords_words⟩
    · exact ih

/-- the entries are those of the calls so far -/
structure Delivers (t : InterruptTable) (calls : List (Nat × InterruptRoute)) (m : Machine σ) : Prop where
  page : IsPage t.base
  entries : ∀ i < interruptEntries, (t.slot i).readWords m.memory = routed calls i

theorem set_refused (hi : interruptEntries ≤ i) (r : InterruptRoute) (env : Env σ) (m : Machine σ) :
    (t.set i r : Act σ ε Unit) env m = .error .refused m := by
  unfold InterruptTable.set
  rw [if_pos hi]
  rfl

namespace Delivers

theorem set (h : t.Delivers calls m) (hj : j < interruptEntries) (r : InterruptRoute) (env : Env σ) :
    ∃ n, (t.set j r : Act σ ε Unit) env m = .ok () n ∧ t.Delivers (calls ++ [(j, r)]) n := by
  obtain ⟨n, hn, he⟩ := TableEntry.set_entered (ε := ε) (w := r.words) (m := m) h.page hj t.cleaner env
  refine ⟨n, ?_, h.page, fun i hi => ?_⟩
  · unfold InterruptTable.set
    rw [if_neg (Nat.not_le.mpr hj)]
    exact hn
  · rw [he.entries i hi, h.entries i hi, routed_concat]
    simp only [eq_comm (a := j)]

/-- a call with an index that is out of range changes nothing -/
theorem step (h : t.Delivers calls m) (c : Nat × InterruptRoute) (env : Env σ) :
    t.Delivers (calls ++ [c]) ((t.set c.1 c.2 : Act σ ε Unit).after env m) := by
  obtain ⟨j, r⟩ := c
  by_cases hj : j < interruptEntries
  · obtain ⟨n, hn, hd⟩ := h.set (ε := ε) hj r env
    rwa [Act.after_of_ok hn]
  · rw [Act.after_of_error (set_refused (Nat.le_of_not_lt hj) r env m)]
    refine ⟨h.page, fun i hi => ?_⟩
    rw [h.entries i hi, routed_concat, if_neg fun e : i = j => hj (e ▸ hi)]

theorem tried (h : t.Delivers calls m) (rest : List (Nat × InterruptRoute)) (env : Env σ) :
    t.Delivers (calls ++ rest) (t.tried env rest m) := by
  induction rest generalizing calls m with
  | nil => rwa [List.append_nil]
  | cons c rest ih =>
    have hrest := ih (h.step (ε := RemapError) c env)
    rwa [List.append_assoc] at hrest

theorem entry (h : t.Delivers calls m) (hi : i < interruptEntries) (env : Env σ) :
    (t.entry i : Act σ ε EntryWords) env m = .ok (routed calls i) m := by
  unfold InterruptTable.entry
  rw [if_neg (Nat.not_le.mpr hi)]
  exact congrArg (EStateM.Result.ok · m) (h.entries i hi)

end Delivers

/-- a new table has no entries -/
theorem create_delivers (hh : env.Honest) (h : create c env m₀ = .ok t m) : t.Delivers [] m := by
  obtain ⟨k, q, hs, rfl, rfl⟩ := Act.eq_of_made h
  obtain ⟨hq, -⟩ := hh m₀ q (by rw [hs])
  refine ⟨hq, fun i hi => congrArg₂ EntryWords.mk ?_ ?_⟩
  · exact (k.memory.read_fill q.frame 0 _).trans (if_pos (TableEntry.frame_address hq hi).symm)
  · exact (k.memory.read_fill q.frame 0 _).trans (if_pos (TableEntry.frame_hiAddress hq hi).symm)

/-- whatever calls were made on a new table, each entry says what the last call for it asked for, of the target as
much as there is room for; one more call leaves the words of all other entries as they are; and a call with an index
that is out of range is refused and changes nothing -/
theorem delivers (hh : env.Honest) (h : create c env m₀ = .ok t m) (calls : List (Nat × InterruptRoute))
    (env' : Env σ) :
    (∀ i < interruptEntries, ∃ w, (t.entry i : Act σ RemapError EntryWords) env' (t.tried env' calls m)
        = .ok w (t.tried env' calls m) ∧ Says w (last? calls i)) ∧
      (∀ j r, j < interruptEntries → ∃ n,
        (t.set j r : Act σ RemapError Unit) env' (t.tried env' calls m) = .ok () n ∧
          ∀ i < interruptEntries, i ≠ j → ∃ w, (t.entry i : Act σ RemapError EntryWords) env' n = .ok w n ∧
            (t.entry i : Act σ RemapError EntryWords) env' (t.tried env' calls m) = .ok w (t.tried env' calls m)) ∧
      (∀ i r, interruptEntries ≤ i → (t.set i r : Act σ RemapError Unit) env' (t.tried env' calls m)
        = .error .refused (t.tried env' calls m)) ∧
      ∀ r s : InterruptRoute, r.words = s.words ↔ r.kept = s.kept := by
  have hd := (create_delivers hh h).tried calls env'
  rw [List.nil_append] at hd
  refine ⟨fun i hi => ⟨_, hd.entry hi env', says_routed calls i⟩, fun j r hj => ?_,
    fun i r hi => set_refused hi r env' _, InterruptRoute.words_eq_iff⟩
  obtain ⟨n, hn, hnext⟩ := hd.set hj r env'
  refine ⟨n, hn, fun i hi hij => ⟨routed calls i, ?_, hd.entry hi env'⟩⟩
  rw [hnext.entry hi env', routed_concat, if_neg hij]

/-- an entry that is written twice, with a call in between that is out of range -/
theorem delivers_twice : ∃ (t : InterruptTable) (m n : Machine Unit) (w : EntryWords),
    create .platform (.offering [1]) { client := () } = .ok t m ∧
      n = t.tried (.offering []) [(3, ⟨0xf8, 2, 0x41, true⟩), (256, ⟨1, 1, 1, true⟩), (3, ⟨0x310, 5, 0x30, false⟩)] m ∧
      (t.entry 3 : Act Unit RemapError EntryWords) (.offering []) n = .ok w n ∧
      InterruptRoute.ofWords w = ⟨0x310, 5, 0x30, false⟩ := by
  obtain ⟨m, es, v, hcr, _⟩ := Sight.exists_made .platform (fun p => InterruptTable.mk p .platform)
    RemapError.insufficientMemory [] ()
  obtain ⟨hentries, _⟩ := delivers (Env.honest_offering (by decide)) hcr
    [(3, ⟨0xf8, 2, 0x41, true⟩), (256, ⟨1, 1, 1, true⟩), (3, ⟨0x310, 5, 0x30, false⟩)] (.offering [])
  obtain ⟨w, hw, hsays⟩ := hentries 3 (by decide)
  exact ⟨_, m, _, w, hcr, rfl, hw, hsays.2.2⟩

/-- an interrupt for processor 0x1000000 is routed to processor 0, as one for that processor is -/
theorem target_cut : ∃ (t : InterruptTable) (m n : Machine Unit) (r s : InterruptRoute) (w : EntryWords),
    create .platform (.offering [1]) { client := () } = .ok t m ∧ n = t.tried (.offering []) [(3, r), (4, s)] m ∧
      r = ⟨0x310, 0x1000000, 0x30, false⟩ ∧ s = ⟨0x310, 0, 0x30, false⟩ ∧ r ≠ s ∧
      (t.entry 3 : Act Unit RemapError EntryWords) (.offering []) n = .ok w n ∧
      (t.entry 4 : Act Unit RemapError EntryWords) (.offering []) n = .ok w n ∧ InterruptRoute.ofWords w = s := by
  obtain ⟨m, es, v, hcr, _⟩ := Sight.exists_made .platform (fun p => InterruptTable.mk p .platform)
    RemapError.insufficientMemory [] ()
  let r : InterruptRoute := ⟨0x310, 0x1000000, 0x30, false⟩
  let s : InterruptRoute := ⟨0x310, 0, 0x30, false⟩
  have hd := (create_delivers (Env.honest_offering (by decide)) hcr).tried [(3, r), (4, s)] (.offering [])
  have hthird : routed [(3, r), (4, s)] 3 = s.words := (InterruptRoute.words_eq_iff r s).mpr (by decide)
  have h3 := hd.entry (ε := RemapError) (i := 3) (by decide) (.offering [])
  have h4 := hd.entry (ε := RemapError) (i := 4) (by decide) (.offering [])
  rw [List.nil_append] at h3 h4
  rw [hthird] at h3
  exact ⟨_, m, _, r, s, s.words, hcr, rfl, rfl, rfl, by decide, h3, h4, s.ofWords_words⟩

end InterruptTable

end NestedPaging
