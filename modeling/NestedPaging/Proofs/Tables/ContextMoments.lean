import NestedPaging.Proofs.Platform.Assignment
import NestedPaging.Proofs.Tables.Halves

/-!
# Context entries at every moment

A present context entry is made absent and cleaned before its halves are written anew, and a table is
cleaned before an entry of the root names it. So whoever reads the tables, after any single store or as
they are written back, finds each root entry zero or naming a table that is in use and was written back,
and each context entry not present or as one attachment of its requester wrote it (`untorn`). Allocations
may fail, and others may be at work on the same tables while a page is asked for, and be faster. A call
that gets the page it needs leaves what it was asked to write.

* `ContextTables.Guarded`   what holds of the tables at each moment;
* `Guarded.store_inside`, `Guarded.take`, `Guarded.publish`   which stores and pages keep it;
* `ContextTables.Guards`    an action that keeps it at each event, and writes back what it stores;
* `Guarded.run`             so does every run of calls.
-/

namespace NestedPaging

open PhysAddr (IsPage)

variable {σ ε : Type}

namespace ContextTables

/-- a call that writes a context entry -/
inductive Call where
  | attach (r : RequesterId) (a : Attachment)
  | detach (r : RequesterId)
  deriving DecidableEq

def perform (t : ContextTables) : Call → Act σ RemapError Unit
  | .attach r a => t.attach r a
  | .detach r => t.detach r

def Call.requester : Call → RequesterId
  | .attach r _ | .detach r => r

/-- what the call writes -/
def Call.words : Call → EntryWords
  | .attach _ a => a.words
  | .detach _ => ⟨0, 0⟩

/-- a page is asked for as the table of a bus that has none -/
def asks (t : ContextTables) (memory : Memory) : Call → Bool
  | .attach r _ => (t.table? memory r.bus).isNone
  | .detach _ => false

/-- runs of calls, with the calls that others make while a page is asked for -/
inductive Runs (t : ContextTables) : List Call → Machine σ → Machine σ → Prop
  | refl (m : Machine σ) : Runs t [] m m
  | trans {cs ds : List Call} {m k n : Machine σ} : Runs t cs m k → Runs t ds k n → Runs t (cs ++ ds) m n
  | client (m : Machine σ) (client : σ) : Runs t [] m { m with client }
  /-- a call, however it ends -/
  | call {env : Env σ} {cs : List Call} (c : Call) (m : Machine σ) : env.Honest →
      (t.asks m.memory c = true → Runs t cs m (env.supply m).1) → (t.asks m.memory c = false → cs = []) →
      Runs t (c :: cs) m ((t.perform c).after env m)

/-- who reads the entries as `words` finds root entries that are zero or name the table of their bus, which is in
use and was written back as a whole, and context entries that are not present or what an attachment asked for -/
structure Intact (t : ContextTables) (calls : List Call) (v : Sight) (words : TableEntry → EntryWords) : Prop where
  root : ∀ bus < 256, words (.ofTable t.root bus) = ⟨0, 0⟩ ∨
    ∃ p, IsPage p ∧ words (.ofTable t.root bus) = ⟨p.bits ||| presentBit, 0⟩ ∧
      t.table? v.memory bus = some p ∧ p.frame ∈ v.live ∧ v.Settled p
  entry : ∀ r p, t.table? v.memory (RequesterId.bus r) = some p →
    isPresentEntry (words (.ofTable p r.devfn)).lo = true →
      ∃ a, .attach r a ∈ calls ∧ words (.ofTable p r.devfn) = a.words

/-- an entry of the table of `bus` that is not present, or what an attachment asked for -/
def Asked (calls : List Call) (bus devfn : Nat) (w : EntryWords) : Prop :=
  isPresentEntry w.lo = true → ∃ r a, .attach r a ∈ calls ∧ r.bus = bus ∧ r.devfn = devfn ∧ w = a.words

/-- tables are in use and written back, and hold what was asked for; in the root a unit sees what there is, or
nothing yet -/
structure Guarded (t : ContextTables) (calls : List Call) (v : Sight) : Prop where
  sound : t.Sound v.memory
  live : t.root.frame ∈ v.live
  high : ∀ bus < 256, v.memory.read (TableEntry.ofTable t.root bus).hiAddress = 0
  shown : ∀ bus < 256, (TableEntry.ofTable t.root bus).seenWords v = ⟨0, 0⟩ ∨
    (TableEntry.ofTable t.root bus).seenWords v = (TableEntry.ofTable t.root bus).readWords v.memory
  table : ∀ bus < 256, ∀ p, t.table? v.memory bus = some p →
    p.frame ∈ v.live ∧ v.Settled p ∧ v.Holds p (Asked calls bus)

variable {t : ContextTables} {calls : List Call} {v : Sight} {p q a : PhysAddr} {bus devfn i : Nat} {w : Word}
  {r : RequesterId} {e : Event} {es fs : List Event} {env : Env σ} {m k n : Machine σ} {memory : Memory}

theorem asked_of_absent {lo hi : Word} (h : isPresentEntry lo = false) : Asked calls bus devfn ⟨lo, hi⟩ :=
  fun hpres => absurd (h.symm.trans hpres) Bool.false_ne_true

theorem asked_zero (hi : Word) : Asked calls bus devfn ⟨0, hi⟩ :=
  asked_of_absent (by decide)

namespace Guarded

section
variable (h : t.Guarded calls v)
include h

/-- a root entry is zero or names its table -/
theorem rootWords (hb : bus < 256) : (TableEntry.ofTable t.root bus).readWords v.memory = ⟨0, 0⟩ ∨
    ∃ p, IsPage p ∧ (TableEntry.ofTable t.root bus).readWords v.memory = ⟨p.bits ||| presentBit, 0⟩ ∧
      t.table? v.memory bus = some p := by
  unfold TableEntry.readWords
  rw [h.high bus hb]
  rcases h.sound.entry bus hb with h0 | ⟨p, hp, hword⟩
  · exact .inl (by rw [h0])
  · exact .inr ⟨p, hp, by rw [hword], table?_page hp hword⟩

theorem intact_of {words : TableEntry → EntryWords}
    (hroot : ∀ bus < 256, words (.ofTable t.root bus) = ⟨0, 0⟩ ∨
      words (.ofTable t.root bus) = (TableEntry.ofTable t.root bus).readWords v.memory)
    (hentry : ∀ bus < 256, ∀ p, t.table? v.memory bus = some p → ∀ i < 256, Asked calls bus i (words (.ofTable p i))) :
    t.Intact calls v words := by
  refine ⟨fun bus hb => ?_, fun r p ht hpres => ?_⟩
  · rcases hroot bus hb with h0 | hsame
    · exact .inl h0
    · rw [hsame]
      refine (h.rootWords hb).imp_right fun ⟨p, hp, hword, ht⟩ => ?_
      obtain ⟨hlive, hsettled, _⟩ := h.table bus hb p ht
      exact ⟨p, hp, hword, ht, hlive, hsettled⟩
  · obtain ⟨s, b, hb, hbus, hdev, hwords⟩ := hentry r.bus r.bus_lt p ht r.devfn r.devfn_lt hpres
    exact ⟨b, RequesterId.ext_bus hbus hdev ▸ hb, hwords⟩

/-- so it is for those who snoop caches and for those who do not -/
theorem intact : t.Intact calls v (·.readWords v.memory) ∧ t.Intact calls v (·.seenWords v) :=
  ⟨h.intact_of (fun _ _ => .inr rfl) fun bus hb p ht => (h.table bus hb p ht).2.2.memory,
    h.intact_of h.shown fun bus hb p ht => (h.table bus hb p ht).2.2.seen⟩

/-- the pages of the tables are in use -/
theorem mem_live : ∀ i ∈ t.frames v.memory, i ∈ v.live := by
  rintro i ⟨p, hp, rfl⟩
  rcases mem_pages.mp hp with ⟨bus, hb, ht⟩ | rfl
  · exact (h.table bus hb p ht).1
  · exact h.live

/-! ## stores and pages -/

theorem writeBack (he : e.Whole) : t.Guarded calls (v.writeBack e) := by
  refine ⟨h.sound, h.live, h.high, fun bus hb => ?_, fun bus hb p ht => ?_⟩
  · rcases TableEntry.seenWords_writeBack h.sound.root hb he v with hsame | hsame
    · exact .inr hsame
    · rw [hsame]
      exact h.shown bus hb
  · obtain ⟨hlive, hsettled, hhold⟩ := h.table bus hb p ht
    exact ⟨hlive, fun i hi => .inr (hsettled i hi), hhold.writeBack (h.sound.isPage hb ht) he⟩

theorem replay_plain (hplain : ∀ e ∈ es, e.Plain) (hwhole : ∀ e ∈ es, e.Whole) :
    Sight.Before (fun v _ => t.Guarded calls v) v es ∧ t.Guarded calls (v.replay es) :=
  Sight.before_plain hplain (fun _ e he hk => hk.writeBack (hwhole e he)) (fun _ _ _ hk => hk) h

/-- where the root is as it was, its entries are -/
theorem of_root (v' : Sight) (hm : ∀ a : PhysAddr, a.frame = t.root.frame → v'.memory.read a = v.memory.read a)
    (hs : v'.seen = v.seen) (hl : t.root.frame ∈ v'.live)
    (ht : ∀ bus < 256, ∀ p, t.table? v.memory bus = some p →
      p.frame ∈ v'.live ∧ v'.Settled p ∧ v'.Holds p (Asked calls bus)) :
    t.Guarded calls v' ∧ ∀ bus < 256, t.table? v'.memory bus = t.table? v.memory bus := by
  have htable : ∀ bus < 256, t.table? v'.memory bus = t.table? v.memory bus := fun bus hb =>
    table?_congr h.sound.root hb hm
  refine ⟨⟨(h.sound.of_root hm).1, hl, fun bus hb => ?_, fun bus hb => ?_, fun bus hb p hp => ?_⟩, htable⟩
  · rw [hm _ (TableEntry.frame_hiAddress h.sound.root hb)]
    exact h.high bus hb
  · unfold TableEntry.seenWords
    rw [hs, TableEntry.readWords_congr h.sound.root hb hm]
    exact h.shown bus hb
  · exact ht bus hb p (htable bus hb ▸ hp)

/-- a store in a table that leaves its entries in order -/
theorem store_inside (hb : bus < 256) (ht : t.table? v.memory bus = some p) (ha : a.frame = p.frame)
    (hhold : (v.after (.stored a w)).Holds p (Asked calls bus)) : t.Guarded calls (v.after (.stored a w)) ∧
      ∀ b < 256, t.table? (v.after (.stored a w)).memory b = t.table? v.memory b := by
  have hp := h.sound.isPage hb ht
  refine h.of_root _ (fun b hroot => Memory.read_write_other (fun hs => ?_) v.memory w) rfl h.live
    fun b hb' p' ht' => ?_
  · have heq := hp.eq_of_frame h.sound.root (ha.symm.trans (hs.1.trans hroot))
    exact h.sound.apart bus hb (heq ▸ ht)
  · obtain ⟨hlive, hsettled, hold⟩ := h.table b hb' p' ht'
    refine ⟨hlive, hsettled, ?_⟩
    by_cases heq : p = p'
    · subst heq
      obtain rfl := h.sound.once bus hb b hb' p ht ht'
      exact hhold
    · have hp' := h.sound.isPage hb' ht'
      exact hold.store_other hp' (fun e => heq (hp.eq_of_frame hp' (ha.symm.trans e))) w

theorem take (hq : q.frame ∉ v.live) : t.Guarded calls (v.after (.allocated q w)) := by
  have hne : ∀ {p : PhysAddr}, p.frame ∈ v.live → q.frame ≠ p.frame := fun hp e => hq (e ▸ hp)
  refine (h.of_root (v.after (.allocated q w)) (fun a ha => ?_) rfl (Std.HashSet.mem_insert.mpr (.inr h.live))
    fun b hb p ht => ?_).1
  · exact (v.memory.read_fill q.frame w a).trans (if_neg fun e => hne h.live (e.trans ha))
  · obtain ⟨hlive, hsettled, hold⟩ := h.table b hb p ht
    have hp := h.sound.isPage hb ht
    refine ⟨Std.HashSet.mem_insert.mpr (.inr hlive), fun i hi => ⟨?_, hsettled i hi⟩, hold.take hp (hne hlive) w⟩
    rw [frame_entry hp hi]
    exact (hne hlive).symm

theorem giveBack (hq : q.frame ∉ t.frames v.memory) : t.Guarded calls (v.after (.freed q)) := by
  have hlive : ∀ i ∈ t.frames v.memory, i ∈ v.live.erase q.frame := fun i hi =>
    Std.HashSet.mem_erase.mpr ⟨beq_eq_false_iff_ne.mpr fun e => hq (e ▸ hi), h.mem_live i hi⟩
  refine (h.of_root (v.after (.freed q)) (fun _ _ => rfl) rfl (hlive _ root_mem) fun b hb p ht => ?_).1
  obtain ⟨_, hsettled, hold⟩ := h.table b hb p ht
  exact ⟨hlive _ (table_mem hb ht), hsettled, hold.memory, hold.seen⟩

/-- a blank page becomes the table of a bus that has none -/
theorem publish (hb : bus < 256) (hq : v.Blank q) (hfree : q.frame ∉ t.frames v.memory)
    (h0 : v.memory.read (TableEntry.ofTable t.root bus).address = 0) :
    t.Guarded calls (v.after (.stored (TableEntry.ofTable t.root bus).address (q.bits ||| presentBit))) ∧
      t.table? (v.after (.stored (TableEntry.ofTable t.root bus).address (q.bits ||| presentBit))).memory bus
        = some q := by
  have hr := h.sound.root
  have hframe : (TableEntry.ofTable t.root bus).address.frame = t.root.frame := TableEntry.frame_address hr hb
  have hword : ∀ b < 256, (TableEntry.ofTable t.root b).readWords
      (v.memory.write (TableEntry.ofTable t.root bus).address (q.bits ||| presentBit))
        = if bus = b then ⟨q.bits ||| presentBit, 0⟩ else (TableEntry.ofTable t.root b).readWords v.memory := by
    intro b hb'
    rw [TableEntry.readWords_write_lo hr hb hb', h.high b hb']
  obtain ⟨hsound, _, hnew⟩ := h.sound.extend hq.page hfree hb (table?_blank h0) fun b hb' => by
    have hlo := congrArg EntryWords.lo (hword b hb')
    rwa [apply_ite EntryWords.lo] at hlo
  refine ⟨⟨hsound, h.live, fun b hb' => ?_, fun b hb' => ?_, fun b hb' p ht => ?_⟩, hnew⟩
  · have hhi := congrArg EntryWords.hi (hword b hb')
    rw [apply_ite EntryWords.hi] at hhi
    refine hhi.trans ?_
    split
    · rfl
    · exact h.high b hb'
  · show _ ∨ _ = (TableEntry.ofTable t.root b).readWords (v.memory.write _ _)
    rw [hword b hb']
    split
    · rename_i heq
      subst heq
      left
      rcases h.shown bus hb with hz | hsame
      · exact hz
      · exact hsame.trans (congrArg₂ EntryWords.mk h0 (h.high bus hb))
    · exact h.shown b hb'
  · by_cases heq : bus = b
    · subst heq
      obtain rfl := Option.some.inj (hnew.symm.trans ht)
      have hne : (TableEntry.ofTable t.root bus).address.frame ≠ q.frame := fun e =>
        hfree (e ▸ hframe ▸ root_mem)
      exact ⟨hq.live, hq.settled, (hq.holds fun i _ => asked_zero 0).store_other hq.page hne _⟩
    · have hold : t.table? v.memory b = some p := by
        unfold table? at ht ⊢
        have hlo := congrArg EntryWords.lo (hword b hb')
        rw [if_neg heq] at hlo
        change (v.memory.write _ _).read _ = v.memory.read _ at hlo
        rwa [show (v.after (.stored (TableEntry.ofTable t.root bus).address (q.bits ||| presentBit))).memory.read
          (TableEntry.ofTable t.root b).address = _ from hlo] at ht
      obtain ⟨hlive, hsettled, hhold⟩ := h.table b hb' p hold
      have hp := h.sound.isPage hb' hold
      refine ⟨hlive, hsettled, hhold.store_other hp (fun e => ?_) _⟩
      exact h.sound.apart b hb' (hold.trans (congrArg some (hp.eq_of_frame hr (e.symm.trans hframe))))

end

end Guarded

/-! ## actions -/

/-- an action that keeps the tables guarded at each event, and writes back what it stores -/
structure Guards (t : ContextTables) (calls : List Call) (v : Sight) (m : Machine σ) (es : List Event) (n : Machine σ) :
    Prop where
  follows : v.Follows (fun v _ => t.Guarded calls v) m es n
  written : WrittenBack es
  guarded : t.Guarded calls (v.replay es)

namespace Guards

theorem trans (h : t.Guards calls v m es k) (h' : t.Guards calls (v.replay es) k fs n) :
    t.Guards calls v m (es ++ fs) n :=
  ⟨h.follows.trans h'.follows, h.written.append h'.written, by
    rw [Sight.replay_append]
    exact h'.guarded⟩

theorem noteAll (h : t.Guarded calls v) (hv : v.Of m) (hplain : ∀ e ∈ es, e.Plain) (hwhole : ∀ e ∈ es, e.Whole) :
    t.Guards calls v m es (m.noteAll es) := by
  obtain ⟨hbefore, hend⟩ := h.replay_plain hplain hwhole
  exact ⟨.noteAll hv hplain hbefore, writtenBack_of_plain hplain, hend⟩

/-- halves of an entry are stored, and then it is cleaned -/
theorem clean (hw : t.cleaner.WholeEntries) (hp : IsPage p) (hi : i < 256)
    (hf : v.Follows (fun v _ => t.Guarded calls v) m es k) (hg : t.Guarded calls (v.replay es))
    (hes : ∀ a w, .stored a w ∈ es → a = (TableEntry.ofTable p i).address ∨ a = (TableEntry.ofTable p i).hiAddress) :
    t.Guards calls v m (es ++ t.cleaner.events (TableEntry.ofTable p i).address 16 k.memory)
      (k.noteAll (t.cleaner.events (TableEntry.ofTable p i).address 16 k.memory)) := by
  have hplain := t.cleaner.plain_events (TableEntry.ofTable p i).address 16 k.memory
  have hcleaned := noteAll hg hf.of hplain
    (hw.whole (TableEntry.dvd_address hp hi) (Nat.dvd_refl 16) k.memory)
  obtain ⟨hlo, hhi⟩ := TableEntry.exists_covers hw.wholeWords hp hi k.memory
  refine ⟨hf.trans hcleaned.follows, .of_covers (fun a w hin => ?_) hcleaned.written, ?_⟩
  · rcases hes a w hin with rfl | rfl
    · exact hlo
    · exact hhi
  · rw [Sight.replay_append]
    exact hcleaned.guarded

/-- both halves are stored, one after the other, and then cleaned -/
theorem halves {b : PhysAddr} {x y : Word} (hw : t.cleaner.WholeEntries) (hp : IsPage p) (hi : i < 256) (hv : v.Of m)
    (h : t.Guarded calls v) (h' : t.Guarded calls (v.after (.stored a x)))
    (h'' : t.Guarded calls ((v.after (.stored a x)).after (.stored b y)))
    (ha : a = (TableEntry.ofTable p i).address ∧ b = (TableEntry.ofTable p i).hiAddress ∨
      b = (TableEntry.ofTable p i).address ∧ a = (TableEntry.ofTable p i).hiAddress)
    (hk : (m.store a x).store b y = k) :
    ∃ es, t.Guards calls v m es (k.noteAll (t.cleaner.events (TableEntry.ofTable p i).address 16 k.memory)) := by
  have hf : v.Follows (fun v _ => t.Guarded calls v) m [.stored a x] (m.store a x) := .store hv h
  have hf' : v.Follows (fun v _ => t.Guarded calls v) m ([.stored a x] ++ [.stored b y]) k :=
    hk ▸ hf.trans (.store hf.of h')
  refine ⟨_, clean hw hp hi hf' h'' fun c w hin => ?_⟩
  simp only [List.mem_append, List.mem_singleton, Event.stored.injEq] at hin
  rcases hin with ⟨rfl, _⟩ | ⟨rfl, _⟩
  · exact ha.imp And.left And.right
  · exact (ha.imp And.right And.left).symm

end Guards

/-! ## entries -/

namespace Guarded

section
variable (h : t.Guarded calls v) (hw : t.cleaner.WholeEntries) (hv : v.Of m) (hb : bus < 256)
  (ht : t.table? v.memory bus = some p) (hi : i < 256)
include h hb ht hi

theorem store_lo (hask : Asked calls bus i ⟨w, v.memory.read (TableEntry.ofTable p i).hiAddress⟩) :
    t.Guarded calls (v.after (.stored (TableEntry.ofTable p i).address w)) ∧
      t.table? (v.after (.stored (TableEntry.ofTable p i).address w)).memory bus = some p := by
  have hp := h.sound.isPage hb ht
  obtain ⟨hg, hsame⟩ := h.store_inside hb ht (TableEntry.frame_address hp hi)
    ((h.table bus hb p ht).2.2.store_lo hp hi hask)
  exact ⟨hg, (hsame bus hb).trans ht⟩

theorem store_hi (hask : Asked calls bus i ⟨v.memory.read (TableEntry.ofTable p i).address, w⟩) :
    t.Guarded calls (v.after (.stored (TableEntry.ofTable p i).hiAddress w)) ∧
      t.table? (v.after (.stored (TableEntry.ofTable p i).hiAddress w)).memory bus = some p := by
  have hp := h.sound.isPage hb ht
  obtain ⟨hg, hsame⟩ := h.store_inside hb ht (TableEntry.frame_hiAddress hp hi)
    ((h.table bus hb p ht).2.2.store_hi hp hi hask)
  exact ⟨hg, (hsame bus hb).trans ht⟩

include hw hv

/-- an entry that is not present is written, its low half last -/
theorem set {x : EntryWords} (hx : Asked calls bus i x)
    (h0 : isPresentEntry (v.memory.read (TableEntry.ofTable p i).address) = false) (env : Env σ) :
    ∃ n es, ((TableEntry.ofTable p i).set x t.cleaner : Act σ ε Unit) env m = .ok () n ∧ t.Guards calls v m es n := by
  have hp := h.sound.isPage hb ht
  obtain ⟨k, hk⟩ : ∃ k, (m.store (TableEntry.ofTable p i).hiAddress x.hi).store (TableEntry.ofTable p i).address x.lo
      = k := ⟨_, rfl⟩
  obtain ⟨hg, ht'⟩ := h.store_hi hb ht hi (w := x.hi) (asked_of_absent h0)
  have hhi : (v.after (.stored (TableEntry.ofTable p i).hiAddress x.hi)).memory.read (TableEntry.ofTable p i).hiAddress
      = x.hi := Memory.read_write_same ⟨rfl, rfl⟩ _ _
  obtain ⟨hg', _⟩ := hg.store_lo hb ht' hi (w := x.lo) (hhi.symm ▸ hx)
  obtain ⟨es, hes⟩ := Guards.halves hw hp hi hv h hg hg' (.inr ⟨rfl, rfl⟩) hk
  refine ⟨_, es, ?_, hes⟩
  unfold TableEntry.set TableEntry.clean
  simp only [Act.bind_apply, Act.store_apply, Act.clean_apply, hk]

/-- an entry is made absent, its low half first -/
theorem clear (env : Env σ) :
    ∃ n es, ((TableEntry.ofTable p i).clear t.cleaner : Act σ ε Unit) env m = .ok () n ∧ t.Guards calls v m es n := by
  have hp := h.sound.isPage hb ht
  obtain ⟨k, hk⟩ : ∃ k, (m.store (TableEntry.ofTable p i).address 0).store (TableEntry.ofTable p i).hiAddress 0
      = k := ⟨_, rfl⟩
  obtain ⟨hg, ht'⟩ := h.store_lo hb ht hi (asked_zero _)
  have hlo : (v.after (.stored (TableEntry.ofTable p i).address 0)).memory.read (TableEntry.ofTable p i).address = 0 :=
    Memory.read_write_same ⟨rfl, rfl⟩ _ _
  obtain ⟨hg', _⟩ := hg.store_hi hb ht' hi (w := 0) (hlo.symm ▸ asked_zero 0)
  obtain ⟨es, hes⟩ := Guards.halves hw hp hi hv h hg hg' (.inl ⟨rfl, rfl⟩) hk
  refine ⟨_, es, ?_, hes⟩
  unfold TableEntry.clear TableEntry.clean
  simp only [Act.bind_apply, Act.store_apply, Act.clean_apply, hk]

/-- an entry is written over any other, which is made absent and cleaned first -/
theorem replace {x : EntryWords} (hx : Asked calls bus i x) (env : Env σ) :
    ∃ n es, ((TableEntry.ofTable p i).replace x t.cleaner : Act σ ε Unit) env m = .ok () n ∧
      t.Guards calls v m es n := by
  have hp := h.sound.isPage hb ht
  unfold TableEntry.replace
  rw [Act.bind_apply, Act.load_apply, ← hv.1]
  simp only
  by_cases hpres : isPresentEntry (v.memory.read (TableEntry.ofTable p i).address) = true
  · obtain ⟨k, hk⟩ : ∃ k, m.store (TableEntry.ofTable p i).address 0 = k := ⟨_, rfl⟩
    obtain ⟨hg, ht'⟩ := h.store_lo hb ht hi (asked_zero _)
    have hf := Sight.Follows.store (P := fun v _ => t.Guarded calls v) (a := (TableEntry.ofTable p i).address) (w := 0)
      hv h
    rw [hk] at hf
    have hcleaned := Guards.clean hw hp hi hf hg fun a w hin => .inl (by
      simp only [List.mem_singleton, Event.stored.injEq] at hin
      exact hin.1)
    -- the entry is absent, wherever it is read
    have hmem : (v.replay ([.stored (TableEntry.ofTable p i).address 0] ++
        t.cleaner.events (TableEntry.ofTable p i).address 16 k.memory)).memory
          = (v.after (.stored (TableEntry.ofTable p i).address 0)).memory := by
      rw [Sight.replay_append]
      exact (Sight.replay_plain_same (t.cleaner.plain_events _ _ _)).1
    have h0 : isPresentEntry ((v.after (.stored (TableEntry.ofTable p i).address 0)).memory.read
        (TableEntry.ofTable p i).address) = false := by
      rw [show (v.after (.stored (TableEntry.ofTable p i).address 0)).memory.read (TableEntry.ofTable p i).address = 0
        from Memory.read_write_same ⟨rfl, rfl⟩ _ _]
      decide
    rw [← hmem] at ht' h0
    obtain ⟨n, es, hn, hset⟩ := hcleaned.guarded.set (ε := ε) hw hcleaned.follows.of hb ht' hi hx h0 env
    refine ⟨n, _, ?_, hcleaned.trans hset⟩
    rw [if_pos hpres]
    unfold TableEntry.clean
    simp only [Act.bind_apply, Act.store_apply, Act.clean_apply, hk, hn]
  · rw [if_neg hpres]
    exact h.set hw hv hb ht hi hx (Bool.not_eq_true _ ▸ hpres) env

end

/-! ## tables -/

section
variable (h : t.Guarded calls v) (hw : t.cleaner.WholeEntries) (hv : v.Of m) (hb : bus < 256)
include h hw hv hb

omit hb in
/-- a page that is taken and cleaned is blank, and none of the tables -/
theorem make (hq : IsPage q) (hfree : q.frame ∉ v.live) (env : Env σ) : ∃ k es,
    (Act.clean t.cleaner q 4096 : Act σ ε Unit) env (m.take q 0) = .ok () k ∧ t.Guards calls v m es k ∧
      (v.replay es).Blank q ∧ q.frame ∉ t.frames (v.replay es).memory := by
  have hplain := t.cleaner.plain_events q 4096 (m.take q 0).memory
  have hpage : 4096 ∣ q.bits.toNat := q.isPageAligned_iff.mp hq.aligned
  have htake := Sight.Follows.take (P := fun v _ => t.Guarded calls v) (w := 0) (q := q) hv h
  have hclean := Guards.noteAll (h.take (w := 0) hfree) htake.of hplain
    (hw.whole (Nat.dvd_trans (by decide) hpage) (by decide) (m.take q 0).memory)
  refine ⟨_, _, Act.clean_apply t.cleaner q 4096 env (m.take q 0), ⟨htake.trans hclean.follows, hclean.written,
    hclean.guarded⟩, Sight.blank_of_clean hw.wholeWords hq v _, fun hin => ?_⟩
  -- the root is as it was, and so are the pages of the tables
  have hroot : ∀ a : PhysAddr, a.frame = t.root.frame →
      (v.replay ([.allocated q 0] ++ t.cleaner.events q 4096 (m.take q 0).memory)).memory.read a = v.memory.read a := by
    intro a ha
    rw [Sight.replay_append, (Sight.replay_plain_same hplain).1]
    refine (v.memory.read_fill q.frame 0 a).trans (if_neg fun e => hfree ?_)
    rw [e, ha]
    exact h.live
  rw [(h.sound.of_root hroot).2] at hin
  exact hfree (h.mem_live _ hin)

/-- a page is offered as the table of a bus, and goes back if others were faster -/
theorem offer (hq : IsPage q) (hfree : q.frame ∉ v.live) (env : Env σ) : ∃ table n es,
    t.offer bus q env (m.take q 0) = .ok table n ∧ t.Guards calls v m es n ∧ t.table? n.memory bus = some table := by
  obtain ⟨k, es, hclean, hmade, hblank, hout⟩ := h.make (ε := RemapError) hw hv hq hfree env
  have hg := hmade.guarded
  obtain ⟨hmem, _⟩ := hmade.follows.of
  unfold ContextTables.offer
  rw [Act.bind_apply, hclean]
  simp only [Act.bind_apply, TableEntry.publishLo_apply]
  by_cases h0 : k.memory.read (TableEntry.ofTable t.root bus).address = 0
  · obtain ⟨hpub, hnew⟩ := hg.publish hb hblank hout (hmem ▸ h0)
    have hstore := Sight.Follows.store (P := fun v _ => t.Guarded calls v)
      (a := (TableEntry.ofTable t.root bus).address) (w := q.bits ||| presentBit) hmade.follows.of hg
    have hend := Guards.clean hw h.sound.root hb hstore hpub fun a w hin => .inl (by
      simp only [List.mem_singleton, Event.stored.injEq] at hin
      exact hin.1)
    simp only [h0, if_true, Act.pure_apply]
    refine ⟨q, _, _, rfl, hmade.trans hend, ?_⟩
    change t.table? ((v.replay es).memory.write _ _) bus = _ at hnew
    rw [hmem] at hnew
    exact hnew
  · obtain ⟨p, hp, hword⟩ := (hg.sound.entry bus hb).resolve_left (hmem ▸ h0)
    rw [hmem] at hword
    simp only [h0, if_false]
    refine ⟨_, k.giveBack q, _, rfl, hmade.trans ⟨.giveBack hmade.follows.of hg, trivial, hg.giveBack hout⟩, ?_⟩
    rw [hword, pageOf_present hp]
    exact table?_page hp hword

/-- the table of a bus, for which others may have to wait -/
theorem tableFor (hh : env.Honest)
    (hrun : t.table? m.memory bus = none → ∃ es, t.Guards calls v m es (env.supply m).1) :
    ∃ n es, t.Guards calls v m es n ∧
      ((t.table? m.memory bus = none ∧ (env.supply m).2 = none ∧ ∃ e, t.tableFor bus env m = .error e n) ∨
        ∃ table, t.tableFor bus env m = .ok table n ∧ t.table? n.memory bus = some table) := by
  cases ht : t.table? m.memory bus with
  | some table => exact ⟨m, [], ⟨.refl hv, trivial, h⟩, .inr ⟨table, tableFor_some ht, ht⟩⟩
  | none =>
    obtain ⟨es, hothers⟩ := hrun ht
    rw [tableFor_none ht, Act.bind_apply]
    cases hs : env.supply m with
    | mk j offer =>
      rw [hs] at hothers
      cases offer with
      | none =>
        rw [Act.allocOr_none hs]
        have hnote : t.Guards calls (v.replay es) j [.exhausted] (j.noteAll [.exhausted]) :=
          .noteAll hothers.guarded hothers.follows.of (by simp [Event.Plain]) (by simp [Event.Whole, Event.covers])
        exact ⟨_, _, hothers.trans hnote, .inl ⟨rfl, rfl, _, rfl⟩⟩
      | some q =>
        obtain ⟨hq, hf⟩ := hh m q (by rw [hs])
        rw [hs] at hf
        rw [Act.allocOr_some hs]
        have hfree : q.frame ∉ (v.replay es).live := by
          rw [hothers.follows.of.2]
          exact fun hin => Machine.ne_of_isLive hf hin rfl
        obtain ⟨table, n, fs, hoffer, hguards, hn⟩ := hothers.guarded.offer hw hothers.follows.of hb hq hfree env
        exact ⟨n, _, hothers.trans hguards, .inr ⟨table, hoffer, hn⟩⟩

end

/-! ## runs -/

section
variable (h : t.Guarded calls v) (hw : t.cleaner.WholeEntries) (hv : v.Of m)
include h hw hv

/-- an entry is attached unless a page was needed and not offered -/
theorem attach (hh : env.Honest) {a : Attachment} (ha : .attach r a ∈ calls)
    (hrun : t.table? m.memory r.bus = none → ∃ es, t.Guards calls v m es (env.supply m).1) :
    (∃ es, t.Guards calls v m es ((t.attach r a).after env m)) ∧
      (t.table? m.memory r.bus = none ∧ (env.supply m).2 = none ∨
        ∃ n, t.attach r a env m = .ok () n ∧ t.entries n.memory r = a.words) := by
  obtain ⟨k, es, hguards, ⟨hnone, hno, e, hrun⟩ | ⟨table, hrun, htable⟩⟩ := h.tableFor hw hv r.bus_lt hh hrun
  · refine ⟨⟨es, ?_⟩, .inl ⟨hnone, hno⟩⟩
    rw [Act.after_of_error (attach_error hrun)]
    exact hguards
  · obtain ⟨hmem, hlive⟩ := hguards.follows.of
    have hg := hguards.guarded
    obtain ⟨n, fs, hn, hreplace⟩ := hg.replace (ε := RemapError) hw hguards.follows.of r.bus_lt (hmem ▸ htable)
      r.devfn_lt (x := a.words) (fun _ => ⟨r, a, ha, rfl, rfl, rfl⟩) env
    obtain ⟨n', hn', hentered⟩ := TableEntry.replace_entered (ε := RemapError) (w := a.words) (m := k)
      ((hmem ▸ hg.sound).isPage r.bus_lt htable) r.devfn_lt t.cleaner env
    obtain rfl : n = n' := (EStateM.Result.ok.inj (hn.symm.trans hn')).2
    have hok : t.attach r a env m = .ok () n := (attach_entry hrun).trans hn
    have hassigns := (hmem ▸ hg.sound).assigns (hlive ▸ hmem ▸ hg.mem_live) htable hentered
    exact ⟨⟨_, (Act.after_of_ok hok).symm ▸ hguards.trans hreplace⟩, .inr ⟨n, hok, by
      rw [hassigns.entries, Function.update_self]⟩⟩

theorem detach (r : RequesterId) (env : Env σ) :
    (∃ es, t.Guards calls v m es ((t.detach r : Act σ RemapError Unit).after env m)) ∧
      ∃ n, (t.detach r : Act σ RemapError Unit) env m = .ok () n ∧ t.entries n.memory r = ⟨0, 0⟩ := by
  obtain ⟨hmem, hlive⟩ := hv
  obtain ⟨n, hn, hassigns⟩ := (hmem ▸ h.sound).detach (ε := RemapError) (r := r) (hlive ▸ hmem ▸ h.mem_live) env
  refine ⟨?_, n, hn, by rw [hassigns.entries, Function.update_self]⟩
  cases ht : t.table? m.memory r.bus with
  | none =>
    rw [Act.after_of_ok (detach_none ht)]
    exact ⟨[], .refl ⟨hmem, hlive⟩, trivial, h⟩
  | some table =>
    obtain ⟨n, es, hn, hclear⟩ := h.clear (ε := RemapError) hw ⟨hmem, hlive⟩ r.bus_lt (hmem ▸ ht) r.devfn_lt env
    exact ⟨es, (Act.after_of_ok ((detach_some ht).trans hn)).symm ▸ hclear⟩

/-- a call leaves what it was asked to write, unless a page was needed and not offered -/
theorem perform {c : Call} (hh : env.Honest) (hc : ∀ r a, c = .attach r a → c ∈ calls)
    (hrun : t.asks m.memory c = true → ∃ es, t.Guards calls v m es (env.supply m).1) :
    (∃ es, t.Guards calls v m es ((t.perform c).after env m)) ∧
      (t.asks m.memory c = true ∧ (env.supply m).2 = none ∨
        ∃ n, t.perform c env m = .ok () n ∧ t.entries n.memory c.requester = c.words) := by
  cases c with
  | attach r a =>
    have hasks : t.asks m.memory (.attach r a) = true ↔ t.table? m.memory r.bus = none := Option.isNone_iff_eq_none
    obtain ⟨hguards, hend⟩ := h.attach hw hv hh (hc r a rfl) fun hnone => hrun (hasks.mpr hnone)
    exact ⟨hguards, hend.imp_left fun ⟨hnone, hno⟩ => ⟨hasks.mpr hnone, hno⟩⟩
  | detach r =>
    obtain ⟨hguards, hend⟩ := h.detach hw hv r env
    exact ⟨hguards, .inr hend⟩

end

theorem run {cs : List Call} (hw : t.cleaner.WholeEntries) (hr : t.Runs cs m n)
    (hcs : ∀ r a, .attach r a ∈ cs → .attach r a ∈ calls) :
    ∀ v : Sight, v.Of m → t.Guarded calls v → ∃ es, t.Guards calls v m es n := by
  -- what others do while a page is asked for is a run of its own
  induction hr with
  | refl m =>
    intro v hv h
    exact ⟨[], .refl hv, trivial, h⟩
  | client m client =>
    intro v hv h
    exact ⟨[], ⟨.refl rfl, trivial, hv⟩, trivial, h⟩
  | trans _ _ ih ih' =>
    intro v hv h
    obtain ⟨es, hes⟩ := ih (fun r a hin => hcs r a (List.mem_append_left _ hin)) v hv h
    obtain ⟨fs, hfs⟩ := ih' (fun r a hin => hcs r a (List.mem_append_right _ hin)) _ hes.follows.of hes.guarded
    exact ⟨es ++ fs, hes.trans hfs⟩
  | call c m hh _ _ ih =>
    intro v hv h
    refine (h.perform hw hv hh (fun r a hc => ?_) fun hasks => ?_).1
    · subst hc
      exact hcs r a List.mem_cons_self
    · exact ih hasks (fun r a hin => hcs r a (List.mem_cons_of_mem _ hin)) v hv h

/-- new tables have no entries -/
theorem of_blank (h : v.Blank t.root) : t.Guarded calls v := by
  have h0 : ∀ bus < 256, v.memory.read (TableEntry.ofTable t.root bus).address = 0 := fun bus hb =>
    congrArg EntryWords.lo (h.zero bus hb)
  refine ⟨(blank h.page h0).1, h.live, fun bus hb => congrArg EntryWords.hi (h.zero bus hb),
    fun bus hb => .inl (h.seen bus hb), fun bus hb p ht => ?_⟩
  rw [table?_blank (h0 bus hb)] at ht
  cases ht

end Guarded

section
variable {m₀ : Machine σ} {c : Cleaner} {cs : List Call} (hw : c.WholeEntries) (hh : env.Honest)
  (h : create c env m₀ = .ok t m) (hv : v.Of (env.supply m₀).1) (hes : (env.supply m₀).1.Logs es m)
include hw hh h hv hes

theorem create_guarded (calls : List Call) :
    t.cleaner = c ∧ t.Guarded calls (v.replay es) ∧ (v.replay es).Of m := by
  obtain ⟨p, rfl, hblank, hof⟩ := Sight.blank_of_made (f := fun p => ContextTables.mk p c) hw.wholeWords hh h hv hes
  exact ⟨rfl, .of_blank hblank, hof⟩

/-- in every run of attachments and detachments on new tables, whoever reads the tables, as they are after any
store or as they were written back, finds them intact; what is stored is written back; and a call after that
leaves what it was asked to write, unless it needs a page that is not offered -/
theorem untorn (hr : t.Runs cs m n) (hfs : m.Logs fs n) : WrittenBack fs ∧
    (∀ gs hs, fs = gs ++ hs → t.Intact cs (v.replay (es ++ gs)) (·.readWords (v.replay (es ++ gs)).memory) ∧
      t.Intact cs (v.replay (es ++ gs)) (·.seenWords (v.replay (es ++ gs)))) ∧
    ∀ (c' : Call) (ds : List Call) (env' : Env σ), env'.Honest →
      (t.asks n.memory c' = true → t.Runs ds n (env'.supply n).1) →
      t.asks n.memory c' = true ∧ (env'.supply n).2 = none ∨
        ∃ k, t.perform c' env' n = .ok () k ∧ t.entries k.memory c'.requester = c'.words := by
  obtain ⟨rfl, hstart, hof⟩ := create_guarded hw hh h hv hes cs
  obtain ⟨fs', hguards⟩ := Guarded.run hw hr (fun _ _ => id) _ hof hstart
  obtain rfl := List.append_cancel_left (hfs.symm.trans hguards.follows.logs)
  refine ⟨hguards.written, fun gs hs hgs => ?_, fun c' ds env' hh' hothers => ?_⟩
  · rw [Sight.replay_append]
    have hcut := hguards.follows.before.at_cut (P := fun v _ => t.Guarded cs v) hguards.guarded hgs
    exact hcut.intact
  · obtain ⟨_, hstart', _⟩ := create_guarded hw hh h hv hes (cs ++ c' :: ds)
    obtain ⟨_, hbefore⟩ := Guarded.run hw hr (fun _ _ => List.mem_append_left _) _ hof hstart'
    refine (hbefore.guarded.perform hw hbefore.follows.of hh' (fun _ _ _ => ?_) fun hasks => ?_).2
    · exact List.mem_append_right cs List.mem_cons_self
    · exact Guarded.run hw (hothers hasks) (fun _ _ hin => List.mem_append_right cs (List.mem_cons_of_mem c' hin)) _
        hbefore.follows.of hbefore.guarded

end

/-- a device is attached, and attached again, while units see ones in all the pages that are handed out -/
theorem untorn_reattached : ∃ (t : ContextTables) (calls : List Call) (v : Sight) (m n : Machine Unit)
    (es fs : List Event), calls = [.attach 0x310 ⟨.ofFrame 5, 4, 7⟩, .attach 0x310 ⟨.ofFrame 6, 3, 8⟩] ∧
      create .platform (.offering [1, 2]) { client := () } = .ok t m ∧ (∀ a, v.seen a = 1) ∧ t.Runs calls m n ∧
      t.entries n.memory 0x310 = (⟨.ofFrame 6, 3, 8⟩ : Attachment).words ∧ m.Logs fs n ∧ WrittenBack fs ∧
      ∀ gs hs, fs = gs ++ hs → t.Intact calls (v.replay (es ++ gs)) (·.readWords (v.replay (es ++ gs)).memory) ∧
        t.Intact calls (v.replay (es ++ gs)) (·.seenWords (v.replay (es ++ gs))) := by
  have hh : (Env.offering [1, 2] : Env Unit).Honest := Env.honest_offering (by decide)
  have hw : Cleaner.platform.WholeEntries := trivial
  let t : ContextTables := ⟨.ofFrame 1, .platform⟩
  let first : Attachment := ⟨.ofFrame 5, 4, 7⟩
  let again : Attachment := ⟨.ofFrame 6, 3, 8⟩
  obtain ⟨m, es, v, hcr, hes, hv, hseen, hlive⟩ := Sight.exists_made .platform (fun p => ContextTables.mk p .platform)
    RemapError.insufficientMemory [2] ()
  obtain ⟨_, hg, hof⟩ := create_guarded hw hh hcr hv hes [.attach 0x310 first, .attach 0x310 again]
  have hcall : ∀ {a : Attachment} {m n : Machine Unit}, t.perform (.attach 0x310 a) (.offering [1, 2]) m = .ok () n →
      t.Runs [.attach 0x310 a] m n := fun {a m n} hrun => by
    have hcall := Runs.call (t := t) (.attach 0x310 a) m hh (fun _ => .refl m) fun _ => rfl
    rwa [Act.after_of_ok hrun] at hcall
  -- page 2 becomes the table of bus 3
  have hroom : ((Env.offering [1, 2] : Env Unit).supply m).2 ≠ none := by
    rw [Env.offering_used ((hlive 1).mpr rfl), Env.offering_free fun hin => absurd ((hlive 2).mp hin) (by decide)]
    exact Option.some_ne_none _
  obtain ⟨_, _, hends⟩ := untorn hw hh hcr hv hes (.refl m) (.refl rfl)
  obtain ⟨k, hk, hfirst⟩ := (hends (.attach 0x310 first) [] (.offering [1, 2]) hh fun _ => .refl m).resolve_left
    fun hno => hroom hno.2
  have htable : t.asks k.memory (.attach 0x310 again) ≠ true := fun hasks => by
    have hentry : t.entries k.memory 0x310 = first.words := hfirst
    rw [entries_of_none (Option.isNone_iff_eq_none.mp hasks)] at hentry
    exact absurd hentry (by decide)
  obtain ⟨es₁, hes₁⟩ := Guarded.run hw (hcall hk)
    (fun _ _ hin => List.mem_append_left [.attach 0x310 again] hin) _ hof hg
  obtain ⟨_, _, hends'⟩ := untorn hw hh hcr hv hes (hcall hk) hes₁.follows.logs
  obtain ⟨n, hn, hagain⟩ := (hends' (.attach 0x310 again) [] (.offering [1, 2]) hh fun _ => .refl k).resolve_left
    fun hno => htable hno.1
  have hr := (hcall hk).trans (hcall hn)
  obtain ⟨fs, hfs⟩ := Guarded.run hw hr (fun _ _ => id) _ hof hg
  obtain ⟨hback, hall, _⟩ := untorn hw hh hcr hv hes hr hfs.follows.logs
  exact ⟨t, _, v, m, n, es, fs, rfl, hcr, hseen, hr, hagain, hfs.follows.logs, hback, hall⟩

end ContextTables

end NestedPaging
