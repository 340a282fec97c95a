import Mathlib.Logic.Function.Basic
import NestedPaging.Proofs.Platform.Units

/-!
# Assigning devices

`ContextTables.entries` is what the context tables say about each requester. An attachment or a detachment
changes that for one requester, writes what it changed back to memory, and only then is the unit made to
drop what it cached.

* `Machine.Quiet`              no unit acts on anything;
* `ContextTables.Assigns`      what `attach` and `detach` do;
* `Platform.Running.configure` what `configure` does, or why it does nothing;
* `Platform.configure_ends`    so it is after any other calls.
-/

namespace NestedPaging

open PhysAddr (IsPage)
open Machine (Beside Deed Deeds)

variable {σ ε : Type}

/-! ## steps that no unit takes part in -/

namespace Machine.Quiet

theorem store (m : Machine σ) (a : PhysAddr) (w : Word) : m.Quiet (m.store a w) := .push rfl rfl rfl rfl

theorem clean (m : Machine σ) (c : Cleaner) (a : PhysAddr) (len : Nat) (M : Memory) :
    m.Quiet (m.noteAll (c.events a len M)) :=
  ⟨rfl, rfl, _, m.logs_noteAll _, c.forall_events a len M (fun _ => rfl) fun _ _ => rfl⟩

end Machine.Quiet

/-! ## entries that are written -/

/-- from `m` to `n` entry `i` of `table` became `w`, and then it was written back -/
structure Machine.Entered (table : PhysAddr) (i : Nat) (w : EntryWords) (c : Cleaner) (m n : Machine σ) :
    Prop where
  elsewhere : ∀ a : PhysAddr, a.frame ≠ table.frame → n.memory.read a = m.memory.read a
  entries : ∀ j < 256, (TableEntry.ofTable table j).readWords n.memory
    = if i = j then w else (TableEntry.ofTable table j).readWords m.memory
  live : n.live = m.live
  quiet : m.Quiet n
  cleaned : ∃ k, m.Quiet k ∧ n = k.noteAll (c.events (TableEntry.ofTable table i).address 16 n.memory)

namespace TableEntry
variable {table : PhysAddr} {i : Nat} {w : EntryWords} {m : Machine σ}

/-- the words of the entry are stored, and then cleaned -/
theorem entered (c : Cleaner) {k : Machine σ} {M : Memory} (hk : m.Quiet k) (hl : k.live = m.live)
    (hkm : k.memory = M) (hM : ∀ a : PhysAddr, a.frame ≠ table.frame → M.read a = m.memory.read a)
    (he : ∀ j < 256, (ofTable table j).readWords M = if i = j then w else (ofTable table j).readWords m.memory) :
    m.Entered table i w c (k.noteAll (c.events (ofTable table i).address 16 k.memory)) := by
  subst hkm
  exact ⟨hM, he, hl, hk.trans (.clean k c _ _ _), k, hk, rfl⟩

section
variable (hp : IsPage table) (hi : i < 256) (c : Cleaner) (env : Env σ)
include hp hi

theorem set_entered : ∃ n, ((ofTable table i).set w c : Act σ ε Unit) env m = .ok () n ∧
    m.Entered table i w c n := by
  have hlo := frame_address hp hi
  have hhi := frame_hiAddress hp hi
  obtain ⟨k, hk⟩ : ∃ k, (m.store (ofTable table i).hiAddress w.hi).store (ofTable table i).address w.lo = k :=
    ⟨_, rfl⟩
  refine ⟨k.noteAll (c.events (ofTable table i).address 16 k.memory), ?_, ?_⟩
  · unfold set TableEntry.clean
    simp only [Act.bind_apply, Act.store_apply, Act.clean_apply, hk]
  · refine entered c (hk ▸ (Machine.Quiet.store m _ _).trans (.store _ _ _)) (hk ▸ rfl)
      (M := (m.memory.write (ofTable table i).hiAddress w.hi).write (ofTable table i).address w.lo) (hk ▸ rfl)
      (fun a ha => ?_) fun j hj => ?_
    · rw [Memory.read_write_other fun hs => ha (hs.1.symm.trans hlo),
        Memory.read_write_other fun hs => ha (hs.1.symm.trans hhi)]
    · rw [readWords_write_lo hp hi hj, readWords_write_hi hp hi hj]
      split
      · rename_i he
        subst he
        have hhi : ((ofTable table i).readWords (m.memory.write (ofTable table i).hiAddress w.hi)).hi = w.hi := by
          rw [readWords_write_hi hp hi hi, if_pos rfl]
        exact congrArg (EntryWords.mk w.lo) hhi
      · rfl

/-- a present entry is made absent first -/
theorem replace_entered : ∃ n, ((ofTable table i).replace w c : Act σ ε Unit) env m = .ok () n ∧
    m.Entered table i w c n := by
  have hlo := frame_address hp hi
  unfold replace
  rw [Act.bind_apply, Act.load_apply]
  simp only
  split
  · obtain ⟨k, hk⟩ : ∃ k, (m.store (ofTable table i).address 0).noteAll (c.events (ofTable table i).address 16
        (m.store (ofTable table i).address 0).memory) = k := ⟨_, rfl⟩
    have hquiet : m.Quiet k := hk ▸ (Machine.Quiet.store m _ _).trans (.clean _ c _ _ _)
    obtain ⟨n, hn, he⟩ := set_entered (ε := ε) (w := w) (m := k) hp hi c env
    refine ⟨n, ?_, fun a ha => ?_, fun j hj => ?_, ?_, hquiet.trans he.quiet, ?_⟩
    · unfold TableEntry.clean
      simp only [Act.bind_apply, Act.store_apply, Act.clean_apply, hk, hn]
    · rw [he.elsewhere a ha, ← hk]
      exact Memory.read_write_other (fun hs => ha (hs.1.symm.trans hlo)) _ _
    · rw [he.entries j hj]
      split
      · rfl
      · rename_i hne
        rw [← hk]
        show (ofTable table j).readWords (m.memory.write (ofTable table i).address 0) = _
        rw [readWords_write_lo hp hi hj, if_neg hne]
    · rw [he.live, ← hk]
      rfl
    · obtain ⟨j, hj, hn⟩ := he.cleaned
      exact ⟨j, hquiet.trans hj, hn⟩
  · exact set_entered hp hi c env

theorem clear_entered : ∃ n, ((ofTable table i).clear c : Act σ ε Unit) env m = .ok () n ∧
    m.Entered table i ⟨0, 0⟩ c n := by
  have hlo := frame_address hp hi
  have hhi := frame_hiAddress hp hi
  obtain ⟨k, hk⟩ : ∃ k, (m.store (ofTable table i).address 0).store (ofTable table i).hiAddress 0 = k :=
    ⟨_, rfl⟩
  refine ⟨k.noteAll (c.events (ofTable table i).address 16 k.memory), ?_, ?_⟩
  · unfold clear TableEntry.clean
    simp only [Act.bind_apply, Act.store_apply, Act.clean_apply, hk]
  · refine entered c (hk ▸ (Machine.Quiet.store m _ _).trans (.store _ _ _)) (hk ▸ rfl)
      (M := (m.memory.write (ofTable table i).address 0).write (ofTable table i).hiAddress 0) (hk ▸ rfl)
      (fun a ha => ?_) fun j hj => ?_
    · rw [Memory.read_write_other fun hs => ha (hs.1.symm.trans hhi),
        Memory.read_write_other fun hs => ha (hs.1.symm.trans hlo)]
    · rw [readWords_write_hi hp hi hj, readWords_write_lo hp hi hj]
      split
      · rename_i he
        subst he
        have hlo : ((ofTable table i).readWords (m.memory.write (ofTable table i).address 0)).lo = 0 := by
          rw [readWords_write_lo hp hi hi, if_pos rfl]
        exact congrArg (EntryWords.mk · 0) hlo
      · rfl

end

end TableEntry

/-! ## what the tables say -/

theorem RequesterId.ext_bus {r s : RequesterId} (hb : r.bus = s.bus) (hd : r.devfn = s.devfn) : r = s := by
  refine UInt16.toNat_inj.mp ?_
  unfold RequesterId.bus at hb
  unfold RequesterId.devfn at hd
  omega

namespace ContextTables
variable {t : ContextTables} {M : Memory} {m n : Machine σ} {r : RequesterId} {w : EntryWords} {env : Env σ}
  {table : PhysAddr}

/-- the entries of all requesters; those on a bus without a table are zero -/
def entries (t : ContextTables) (M : Memory) (r : RequesterId) : EntryWords := (t.entry? M r).getD ⟨0, 0⟩

theorem entries_of_table (h : t.table? M r.bus = some table) :
    t.entries M r = (TableEntry.ofTable table r.devfn).readWords M := by
  unfold entries entry?
  rw [h]
  rfl

theorem entries_of_none (h : t.table? M r.bus = none) : t.entries M r = ⟨0, 0⟩ := by
  unfold entries entry?
  rw [h]
  rfl

/-- from `m` to `n` the entry of `r` became `w`, and then it was written back; pages that were in use stay
apart from the tables, and no page is taken but one for a table -/
structure Assigns (t : ContextTables) (r : RequesterId) (w : EntryWords) (m n : Machine σ) : Prop where
  sound : t.Sound n.memory
  live : ∀ i ∈ t.frames n.memory, i ∈ n.live
  others : ∀ i ∈ m.live, i ∈ n.live ∧ (i ∈ t.frames n.memory ↔ i ∈ t.frames m.memory)
  taken : ∀ i ∈ n.live, i ∉ m.live → i ∈ t.frames n.memory ∧ ∀ j ∈ n.live, j ∉ m.live → j = i
  entries : t.entries n.memory = Function.update (t.entries m.memory) r w
  quiet : m.Quiet n
  cleaned : ∀ table, t.table? n.memory r.bus = some table → ∃ k, m.Quiet k ∧
    n = k.noteAll (t.cleaner.events (TableEntry.ofTable table r.devfn).address 16 n.memory)

/-- the root is as it was when an entry of a table is written -/
theorem Sound.root_entered (h : t.Sound m.memory) (ht : t.table? m.memory r.bus = some table)
    (he : m.Entered table r.devfn w t.cleaner n) {a : PhysAddr} (ha : a.frame = t.root.frame) :
    n.memory.read a = m.memory.read a :=
  he.elsewhere a fun e => h.apart r.bus r.bus_lt
    (ht.trans (congrArg some ((h.isPage r.bus_lt ht).eq_of_frame h.root (e.symm.trans ha))))

/-- an entry of a table is written -/
theorem Sound.assigns (h : t.Sound m.memory) (hl : ∀ i ∈ t.frames m.memory, i ∈ m.live)
    (ht : t.table? m.memory r.bus = some table) (he : m.Entered table r.devfn w t.cleaner n) :
    t.Assigns r w m n := by
  have hpage := h.isPage r.bus_lt ht
  have hroot : ∀ a : PhysAddr, a.frame = t.root.frame → n.memory.read a = m.memory.read a := fun _ =>
    h.root_entered ht he
  obtain ⟨hsound, hframes⟩ := h.of_root hroot
  have htable : ∀ b < 256, t.table? n.memory b = t.table? m.memory b := fun b hb => table?_congr h.root hb hroot
  refine ⟨hsound, ?_, fun i hi => ⟨he.live ▸ hi, by rw [hframes]⟩, fun i hi hin => absurd (he.live ▸ hi) hin,
    funext fun s => ?_, he.quiet, fun table' ht' => ?_⟩
  · rw [hframes, he.live]
    exact hl
  · cases hs : t.table? m.memory s.bus with
    | none =>
      have hne : s ≠ r := by
        rintro rfl
        rw [ht] at hs
        cases hs
      rw [Function.update_of_ne hne, entries_of_none hs, entries_of_none ((htable _ s.bus_lt).trans hs)]
    | some table' =>
      rw [entries_of_table ((htable _ s.bus_lt).trans hs)]
      by_cases hb : s.bus = r.bus
      · obtain rfl : table' = table := by
          rw [hb, ht] at hs
          exact (Option.some.inj hs).symm
        rw [he.entries s.devfn s.devfn_lt]
        by_cases hd : r.devfn = s.devfn
        · rw [if_pos hd, RequesterId.ext_bus hb hd.symm, Function.update_self]
        · rw [if_neg hd, Function.update_of_ne fun e => hd (by rw [e]), entries_of_table hs]
      · rw [Function.update_of_ne fun e => hb (by rw [e]), entries_of_table hs]
        refine TableEntry.readWords_congr (h.isPage s.bus_lt hs) s.devfn_lt fun a ha => he.elsewhere a fun e => hb ?_
        obtain rfl : table' = table := (h.isPage s.bus_lt hs).eq_of_frame hpage (ha.symm.trans e)
        exact h.once _ s.bus_lt _ r.bus_lt _ hs ht
  · obtain rfl : table = table' := by
      rw [htable _ r.bus_lt, ht] at ht'
      exact Option.some.inj ht'
    exact he.cleaned

/-- from `m` to `n` the bus of `r` got `table` for its table, if it had none -/
structure Widens (t : ContextTables) (r : RequesterId) (table : PhysAddr) (m n : Machine σ) : Prop where
  sound : t.Sound n.memory
  live : ∀ i ∈ t.frames n.memory, i ∈ n.live
  others : ∀ i ∈ m.live, i ∈ n.live ∧ (i ∈ t.frames n.memory ↔ i ∈ t.frames m.memory)
  taken : ∀ i ∈ n.live, i ∉ m.live → i ∈ t.frames n.memory ∧ ∀ j ∈ n.live, j ∉ m.live → j = i
  entries : t.entries n.memory = t.entries m.memory
  quiet : m.Quiet n
  table : t.table? n.memory r.bus = some table

theorem Widens.assigns {k : Machine σ} (h : t.Widens r table m k) (h' : t.Assigns r w k n) (hlive : n.live = k.live) :
    t.Assigns r w m n := by
  refine ⟨h'.sound, h'.live, fun i hi => ?_, fun i hi hin => ?_, h.entries ▸ h'.entries, h.quiet.trans h'.quiet,
    fun p hp => ?_⟩
  · obtain ⟨hk, hin⟩ := h.others i hi
    exact ⟨(h'.others i hk).1, (h'.others i hk).2.trans hin⟩
  · rw [hlive] at hi ⊢
    obtain ⟨ht, hone⟩ := h.taken i hi hin
    exact ⟨(h'.others i hi).2.mpr ht, hone⟩
  · obtain ⟨j, hj, hn⟩ := h'.cleaned p hp
    exact ⟨j, h.quiet.trans hj, hn⟩

/-- a blank table says nothing new -/
theorem Sound.entries_extend {M M' : Memory} {p : PhysAddr} (h : t.Sound M) (hp : IsPage p)
    (hfree : p.frame ∉ t.frames M) (h0 : t.table? M r.bus = none) (hnew : t.table? M' r.bus = some p)
    (hold : ∀ b < 256, b ≠ r.bus → t.table? M' b = t.table? M b)
    (hM : ∀ a : PhysAddr, a.frame ≠ t.root.frame → M'.read a = if a.frame = p.frame then 0 else M.read a) :
    t.entries M' = t.entries M := by
  refine funext fun s => ?_
  by_cases hb : s.bus = r.bus
  · rw [entries_of_none (M := M) (hb ▸ h0), entries_of_table (M := M') (hb ▸ hnew)]
    have hzero : ∀ a : PhysAddr, a.frame = p.frame → M'.read a = 0 := fun a hf => by
      rw [hM a fun e => hfree (hf ▸ e ▸ root_mem), if_pos hf]
    unfold TableEntry.readWords
    rw [hzero _ (TableEntry.frame_address hp s.devfn_lt), hzero _ (TableEntry.frame_hiAddress hp s.devfn_lt)]
  · cases hs : t.table? M s.bus with
    | none => rw [entries_of_none hs, entries_of_none ((hold _ s.bus_lt hb).trans hs)]
    | some q =>
      have hq := h.isPage s.bus_lt hs
      rw [entries_of_table hs, entries_of_table ((hold _ s.bus_lt hb).trans hs)]
      refine TableEntry.readWords_congr hq s.devfn_lt fun a hf => ?_
      have hroot : a.frame ≠ t.root.frame := fun e =>
        h.apart _ s.bus_lt (hs.trans (congrArg some (hq.eq_of_frame h.root (hf.symm.trans e))))
      have hother : a.frame ≠ p.frame := fun e => by
        rw [← e, hf] at hfree
        exact hfree (table_mem s.bus_lt hs)
      rw [hM a hroot, if_neg hother]

/-- from `m` to `n` the free page `p` became the table of `bus`, and is blank -/
structure Opened (t : ContextTables) (bus : Nat) (p : PhysAddr) (m n : Machine σ) : Prop where
  sound : t.Sound n.memory
  deeds : Deeds (Beside ∅) (t.frames m.memory) m (t.frames n.memory) n
  frames : t.frames n.memory = insert p.frame (t.frames m.memory)
  live : ∀ i, i ∈ n.live ↔ i = p.frame ∨ i ∈ m.live
  entries : t.entries n.memory = t.entries m.memory
  table : t.table? n.memory bus = some p
  tables : ∀ b < 256, b ≠ bus → t.table? n.memory b = t.table? m.memory b
  quiet : m.Quiet n

section
variable (h : t.Sound m.memory) (hl : ∀ i ∈ t.frames m.memory, i ∈ m.live)
include h hl

/-- a page that is offered for a bus without a table becomes its table -/
theorem Sound.opened {p : PhysAddr} (hp : IsPage p) (hf : m.isLive p = false)
    (h0 : t.table? m.memory r.bus = none) (env : Env σ) :
    ∃ n, t.offer r.bus p env (m.take p 0) = .ok p n ∧ t.Opened r.bus p m n := by
  have hfree : p.frame ∉ t.frames m.memory := fun hin => Machine.ne_of_isLive hf (hl _ hin) rfl
  have hblank : m.memory.read (TableEntry.ofTable t.root r.bus).address = 0 := by
    refine (h.entry r.bus r.bus_lt).resolve_right fun ⟨q, hq, hword⟩ => ?_
    rw [table?_page hq hword] at h0
    cases h0
  obtain ⟨k, hk⟩ : ∃ k, (m.take p 0).noteAll (t.cleaner.events p 4096 (m.take p 0).memory) = k := ⟨_, rfl⟩
  obtain ⟨n, hn, hmade, hsound, hframes, hnew⟩ := offer_blank env h r.bus_lt hp hfree hblank hk
  have hroot := TableEntry.frame_address h.root r.bus_lt
  -- off the root, memory is that of the machine that took the page
  have hread : ∀ a : PhysAddr, ¬ Memory.SameWord (TableEntry.ofTable t.root r.bus).address a →
      n.memory.read a = if a.frame = p.frame then 0 else m.memory.read a := fun a hne => by
    rw [hmade, ← hk]
    refine (Memory.read_write_other hne _ _).trans ((m.memory.read_fill p.frame 0 a).trans ?_)
    simp only [eq_comm]
  have hold : ∀ b < 256, b ≠ r.bus → t.table? n.memory b = t.table? m.memory b := fun b hb hne => by
    have hother : (TableEntry.ofTable t.root b).address.frame ≠ p.frame := fun e =>
      hfree (e ▸ TableEntry.frame_address h.root hb ▸ root_mem)
    unfold table?
    rw [hread _ fun hs => hne ((TableEntry.sameWord_address h.root r.bus_lt hb).mp hs).symm, if_neg hother]
  refine ⟨n, hn, hsound, ?_, hframes, fun i => ?_, h.entries_extend hp hfree h0 hnew hold
    (fun a ha => hread a fun hs => ha (hs.1.symm.trans hroot)), hnew, hold, ?_⟩
  · have htake : Deeds (Beside ∅) (t.frames m.memory) m (insert p.frame (t.frames m.memory)) k := by
      rw [← hk]
      exact (Deed.take hp hf).deeds.trans (Deed.noteAll _ (t.cleaner.plain_events _ _ _)).deeds
    rw [hframes, hmade]
    refine htake.trans ((Deed.store (.inr ?_)).deeds.trans (Deed.noteAll _ (t.cleaner.plain_events _ _ _)).deeds)
    rw [hroot]
    exact root_mem
  · rw [hmade, ← hk]
    exact Machine.mem_live_take (w := 0)
  · have htaken : m.Quiet (m.take p 0) := .push rfl rfl rfl rfl
    rw [hmade, ← hk]
    exact (htaken.trans (.clean _ t.cleaner _ _ _)).trans ((Machine.Quiet.store _ _ _).trans (.clean _ t.cleaner _ _ _))

/-- a blank page becomes the table of a bus that had none -/
theorem Sound.widens_offer {p : PhysAddr} {k : Machine σ} (ha : env.Alone) (hh : env.Honest)
    (h0 : t.table? m.memory r.bus = none) (hs : env.supply m = (k, some p)) :
    ∃ n, t.tableFor r.bus env m = .ok p n ∧ t.Widens r p m n := by
  obtain ⟨client, hclient⟩ := ha m
  obtain rfl : k = { m with client } := by rw [← hclient, hs]
  obtain ⟨hp, hf⟩ := hh m p (by rw [hs])
  rw [hs] at hf
  obtain ⟨n, hn, ho⟩ := Sound.opened (m := { m with client }) h hl hp hf h0 env
  have hfresh : p.frame ∉ m.live := fun hin => Machine.ne_of_isLive hf hin rfl
  refine ⟨n, ?_, ho.sound, ?_, fun i hi => ⟨(ho.live i).mpr (.inr hi), fun hin => ?_, fun hin => ?_⟩,
    fun i hi hin => ?_, ho.entries, ⟨ho.quiet.devices, ho.quiet.rings, ho.quiet.logs⟩, ho.table⟩
  · rw [tableFor_none h0, Act.bind_apply, Act.allocOr_some hs]
    exact hn
  · rw [ho.frames]
    exact fun i hi => (ho.live i).mpr (hi.imp_right (hl i))
  · rw [ho.frames] at hin
    refine hin.resolve_left ?_
    rintro rfl
    exact hfresh hi
  · rw [ho.frames]
    exact .inr hin
  · have hnew : ∀ i ∈ n.live, i ∉ m.live → i = p.frame := fun i hi hin =>
      ((ho.live i).mp hi).resolve_right hin
    rw [ho.frames, hnew i hi hin]
    exact ⟨.inl rfl, hnew⟩

omit h hl in
/-- nothing happens when a page is needed and there is none -/
theorem attach_exhausted (ha : env.Alone) (h0 : t.table? m.memory r.bus = none) (hs : (env.supply m).2 = none) (a : Attachment) :
    ∃ n, t.attach r a env m = .error (.failed .insufficientMemory) n ∧ m.Quiet n ∧ n.memory = m.memory ∧
      n.live = m.live := by
  obtain ⟨client, hclient⟩ := ha m
  have hsupply : env.supply m = ({ m with client }, none) := Prod.ext hclient hs
  refine ⟨({ m with client } : Machine σ).note .exhausted, ?_, .push rfl rfl rfl rfl, rfl, rfl⟩
  refine attach_error ?_
  rw [tableFor_none h0, Act.bind_apply, Act.allocOr_none hsupply]

/-- the entry of the requester is replaced, in a new table if need be -/
theorem Sound.attach (ha : env.Alone) (hh : env.Honest) (hroom : t.table? m.memory r.bus = none → (env.supply m).2 ≠ none) (a : Attachment) : ∃ n,
    t.attach r a env m = .ok () n ∧ t.Assigns r a.words m n := by
  obtain ⟨table, k, hk, hw⟩ : ∃ table k, t.tableFor r.bus env m = .ok table k ∧ t.Widens r table m k := by
    cases h0 : t.table? m.memory r.bus with
    | some table =>
      exact ⟨table, m, tableFor_some h0, h, hl, fun i hi => ⟨hi, .rfl⟩, fun i hi hin => absurd hi hin, rfl,
        .refl m, h0⟩
    | none =>
      obtain ⟨p, hp⟩ := Option.ne_none_iff_exists'.mp (hroom h0)
      obtain ⟨n, hn, hw⟩ := h.widens_offer hl ha hh h0 (Prod.ext rfl hp)
      exact ⟨p, n, hn, hw⟩
  obtain ⟨n, hn, he⟩ := TableEntry.replace_entered (ε := RemapError) (w := a.words) (m := k)
    (hw.sound.isPage r.bus_lt hw.table) r.devfn_lt t.cleaner env
  exact ⟨n, (attach_entry hk).trans hn, hw.assigns (hw.sound.assigns hw.live hw.table he) he.live⟩

/-- the entry of the requester is cleared, if it can have one -/
theorem Sound.detach (env : Env σ) : ∃ n, (t.detach r : Act σ ε Unit) env m = .ok () n ∧ t.Assigns r ⟨0, 0⟩ m n := by
  cases ht : t.table? m.memory r.bus with
  | none =>
    refine ⟨m, detach_none ht, h, hl, fun i hi => ⟨hi, .rfl⟩, fun i hi hin => absurd hi hin, ?_, .refl m, fun p hp => ?_⟩
    · rw [← entries_of_none ht, Function.update_eq_self]
    · rw [ht] at hp
      cases hp
  | some table =>
    obtain ⟨n, hn, he⟩ := TableEntry.clear_entered (ε := ε) (m := m) (h.isPage r.bus_lt ht) r.devfn_lt t.cleaner env
    exact ⟨n, (detach_some ht).trans hn, h.assigns hl ht he⟩

end

end ContextTables

/-! ## assignments -/

namespace Platform
variable {caps : Nat → Capabilities} {p : Platform} {N : Nat} {m n : Machine σ} {env : Env σ} {base : Word} {a : Attachment} {rid : Nat}
  {enable : Bool}

/-- why `configure` refuses, where `offer` is the page that it could get -/
def refusal? (p : Platform) (M : Memory) (offer : Option PhysAddr) (base : Word) (a : Attachment) (rid : Nat)
    (enable : Bool) : Option RemapError :=
  match p.unit? base with
  | none => some (.unitNotFound base)
  | some u =>
    if 0x10000 ≤ rid then some (.invalidRequester rid)
    else if enable && !u.supportsLevels a.levels then some (.unsupportedAddressWidth a.levels)
    else if enable && (p.contexts.table? M (RequesterId.bus rid.toUInt16)).isNone && offer.isNone then
      some .insufficientMemory
    else none

/-- what the entry of a requester holds after `configure` -/
def assigned (a : Attachment) (enable : Bool) : EntryWords :=
  if enable then ⟨a.root.bits ||| 1, (a.levels.toUInt64 - (2 : Word)) ||| (a.domain.toUInt64 <<< 8)⟩ else ⟨0, 0⟩

/-- how `configure` ends: with an error and nothing done, or with the entry of the requester changed, cleaned,
and then dropped from the caches of the unit -/
inductive Configures (p : Platform) (caps : Nat → Capabilities) (env : Env σ) (base : Word) (a : Attachment) (rid : Nat) (enable : Bool)
    (m : Machine σ) : EStateM.Result (Stop RemapError) (Machine σ) Unit → Prop
  | refused {e : RemapError} {n : Machine σ} :
      p.refusal? m.memory (env.supply m).2 base a rid enable = some e →
      p.contexts.entries n.memory = p.contexts.entries m.memory → n.devices = m.devices →
      Configures p caps env base a rid enable m (.error (.failed e) n)
  | done {u : Remapper} {cell : Nat} {rs : List Request} {k n : Machine σ} :
      p.refusal? m.memory (env.supply m).2 base a rid enable = none →
      p.unit? base = some u → u.registers = .device cell →
      p.contexts.Assigns rid.toUInt16 (assigned a enable) m k → k.Driven u cell rs n →
      p.contexts.entries n.memory
        = Function.update (p.contexts.entries m.memory) rid.toUInt16 (assigned a enable) →
      (u.Reaches (caps cell) → rs.filterMap Request.invalidation?
        = [⟨Descriptor.contextKind, Scope.global.code, 0⟩, ⟨Descriptor.iotlbKind, Scope.global.code, 0⟩]) →
      Configures p caps env base a rid enable m (.ok () n)

theorem unit?_mem {u : Remapper} (h : p.unit? base = some u) : u ∈ p.units := List.mem_of_find?_eq_some h

/-- what `configure` does before it drives a unit -/
def enter (p : Platform) (a : Attachment) (rid : Nat) (enable : Bool) : Act σ RemapError Unit :=
  if enable then p.contexts.attach rid.toUInt16 a else p.contexts.detach rid.toUInt16

/-- `configure` refuses at once, or changes an entry and makes the unit drop what it cached. There may be no page
for the change -/
theorem configure_cases (p : Platform) (base : Word) (a : Attachment) (rid : Nat) (enable : Bool) (env : Env σ)
    (m : Machine σ) :
    (∃ e, (∀ M offer, p.refusal? M offer base a rid enable = some e) ∧
        p.configure base a rid enable env m = .error (.failed e) m) ∨
      ∃ u, p.unit? base = some u ∧
        (∀ M (offer : Option PhysAddr), p.refusal? M offer base a rid enable =
          if enable && (p.contexts.table? M (RequesterId.bus rid.toUInt16)).isNone && offer.isNone then
            some .insufficientMemory
          else none) ∧
        p.configure base a rid enable env m = (p.enter a rid enable >>= fun _ => u.invalidateContexts) env m := by
  unfold configure enter refusal?
  cases p.unit? base with
  | none => exact .inl ⟨.unitNotFound base, fun _ _ => rfl, rfl⟩
  | some u =>
    by_cases hrid : 0x10000 ≤ rid
    · refine .inl ⟨.invalidRequester rid, fun _ _ => if_pos hrid, ?_⟩
      simp only [hrid, if_true]
      rfl
    · simp only [hrid, if_false]
      cases enable with
      | false => exact .inr ⟨u, rfl, fun _ _ => rfl, rfl⟩
      | true =>
        simp only [if_true, Bool.true_and]
        cases u.supportsLevels a.levels with
        | false => exact .inl ⟨.unsupportedAddressWidth a.levels, fun _ _ => rfl, rfl⟩
        | true => exact .inr ⟨u, rfl, fun _ _ => rfl, rfl⟩

/-- all units were brought up, and they are apart -/
structure Served (p : Platform) (caps : Nat → Capabilities) (N : Nat) (m : Machine σ) : Prop where
  separate : p.units.Pairwise Remapper.Separate
  units : ∀ u ∈ p.units, ∃ cell, (caps cell).Disjoint ∧ u.Ready cell (caps cell) N m

theorem Running.served (h : p.Running caps N m) : p.Served caps N m := ⟨h.separate, h.units⟩

namespace Served

theorem quiet (h : p.Served caps N m) (hq : m.Quiet n) : p.Served caps N n := by
  refine ⟨h.separate, fun u hu => ?_⟩
  obtain ⟨cell, hc, hr⟩ := h.units u hu
  exact ⟨cell, hc, hr.untouched ⟨by rw [hq.devices], fun q _ => congrArg (·.get q.cell) hq.rings⟩⟩

theorem driven {u : Remapper} {cell : Nat} {rs : List Request} (h : p.Served caps N m) (hu : u ∈ p.units)
    (hr : u.Ready cell (caps cell) N n) (hc : (caps cell).Disjoint) (hd : m.Driven u cell rs n) : p.Served caps N n := by
  refine ⟨h.separate, fun v hv => ?_⟩
  by_cases hvu : v = u
  · exact ⟨cell, hc, hvu ▸ hr⟩
  · obtain ⟨i, hd', hv'⟩ := h.units v hv
    have : Std.Symm Remapper.Separate := ⟨fun _ _ => Remapper.Separate.symm⟩
    have hs : v.Separate u := h.separate.forall hv hu hvu
    exact ⟨i, hd', hv'.untouched (hs.untouched hv'.registers hr.registers hd)⟩

end Served

/-- quiet steps that leave the tables alone keep a platform running -/
theorem Running.of_quiet (h : p.Running caps N m) (hq : m.Quiet n) (hm : n.memory = m.memory) (hl : n.live = m.live) :
    p.Running caps N n := by
  obtain ⟨hlaid, -⟩ := h.toLaid.of_tables (n := n) (fun _ _ => by rw [hm]) fun i hi => hl ▸ hi
  exact ⟨hlaid, (h.served.quiet hq).units⟩

/-- so does an assignment -/
theorem Running.assigns {r : RequesterId} {w : EntryWords} (h : p.Running caps N m) (ha : p.contexts.Assigns r w m n) :
    p.Running caps N n := by
  refine ⟨⟨ha.sound, ha.live, fun u hu i hi => ?_, h.separate⟩, (h.served.quiet ha.quiet).units⟩
  obtain ⟨hl, hout⟩ := h.queues u hu i hi
  exact ⟨(ha.others i hl).1, fun hin => hout ((ha.others i hl).2.mp hin)⟩

/-- and so does driving one of its units -/
theorem Running.driven {u : Remapper} {cell : Nat} {rs : List Request} (h : p.Running caps N m)
    (hu : u ∈ p.units) (hr : u.Ready cell (caps cell) N n) (hc : (caps cell).Disjoint) (hd : m.Driven u cell rs n) :
    p.Running caps N n :=
  ⟨(h.toLaid.driven hu hd).1, (h.served.driven hu hr hc hd).units⟩

section
variable (h : p.Running caps N m) (ha : env.Alone) (hh : env.Honest)
include h ha hh

variable (a rid enable) in
/-- the entry of the requester is changed, if there is a page for its table -/
theorem Running.enter (hroom : (enable && (p.contexts.table? m.memory (RequesterId.bus rid.toUInt16)).isNone
      && (env.supply m).2.isNone) = false) :
    ∃ k, p.enter a rid enable env m = .ok () k ∧ p.contexts.Assigns rid.toUInt16 (assigned a enable) m k := by
  cases enable with
  | true =>
    refine h.sound.attach h.live ha hh (fun h0 hs => ?_) a
    rw [h0, hs] at hroom
    cases hroom
  | false => exact h.sound.detach h.live env

/-- `configure` ends as it should, and the platform runs on -/
theorem Running.configure (h2 : 2 ≤ env.patience) (hN : N ≤ env.patience) :
    p.Configures caps env base a rid enable m (p.configure base a rid enable env m) ∧
      p.Running caps N ((p.configure base a rid enable).after env m) := by
  rcases p.configure_cases base a rid enable env m with ⟨e, he, hrun⟩ | ⟨u, hu, hrefusal, hrun⟩
  · rw [Act.after_of_error hrun, hrun]
    exact ⟨.refused (he _ _) rfl rfl, h⟩
  cases hroom : enable && (p.contexts.table? m.memory (RequesterId.bus rid.toUInt16)).isNone
      && (env.supply m).2.isNone with
  | true =>
    obtain ⟨h₁, hs⟩ := Bool.and_eq_true_iff.mp hroom
    obtain ⟨rfl, h0⟩ := Bool.and_eq_true_iff.mp h₁
    obtain ⟨n, hn, hq, hm, hl⟩ := ContextTables.attach_exhausted ha (Option.isNone_iff_eq_none.mp h0)
      (Option.isNone_iff_eq_none.mp hs) a
    have henter : p.enter a rid true env m = .error (.failed .insufficientMemory) n := hn
    rw [Act.bind_apply, henter] at hrun
    rw [Act.after_of_error hrun, hrun]
    exact ⟨.refused ((hrefusal _ _).trans (if_pos hroom)) (by rw [hm]) hq.devices, h.of_quiet hq hm hl⟩
  | false =>
    obtain ⟨k, hk, hassigns⟩ := h.enter a rid enable ha hh hroom
    have hrunning := h.assigns hassigns
    obtain ⟨cell, hc, hready⟩ := hrunning.units u (unit?_mem hu)
    obtain ⟨n, rs, hn, hd, hreadyn, hheard⟩ := hready.invalidate h2 .global 0 hN
    obtain ⟨hlaid, hsame⟩ := hrunning.toLaid.driven (unit?_mem hu) hd
    have hentries : p.contexts.entries n.memory = p.contexts.entries k.memory :=
      funext fun s => congrArg (Option.getD · _) (hrunning.sound.entry?_congr hsame s)
    rw [Act.bind_apply, hk] at hrun
    have hrun : p.configure base a rid enable env m = .ok () n := hrun.trans hn
    rw [Act.after_of_ok hrun, hrun]
    refine ⟨.done ((hrefusal _ _).trans (if_neg (by rw [hroom]; exact Bool.false_ne_true))) hu hready.registers
      hassigns hd ?_ fun hreach => ?_, hrunning.driven (unit?_mem hu) hreadyn hc hd⟩
    · rw [hentries]
      exact hassigns.entries
    · rw [hheard hreach, Remapper.heard_of_disjoint u hc]
      rfl

end

/-- from `m` to `n` there were only calls of `configure`, each with what other processors and the allocator
did meanwhile -/
inductive Configured (p : Platform) (N : Nat) : Machine σ → Machine σ → Prop
  | refl (m : Machine σ) : Configured p N m m
  | call {m k : Machine σ} (env : Env σ) (base : Word) (a : Attachment) (rid : Nat) (enable : Bool) :
      Configured p N m k → env.Alone → env.Honest → 2 ≤ env.patience → N ≤ env.patience →
      Configured p N m ((p.configure base a rid enable).after env k)

theorem Configured.running (h : p.Configured N m n) (hr : p.Running caps N m) : p.Running caps N n := by
  induction h with
  | refl => exact hr
  | call env base a rid enable _ ha hh h2 hN ih => exact (ih.configure ha hh h2 hN).2

/-- a platform was brought up over new units, and `configure` was called any number of times: the next call
ends as it should, whatever it asks for -/
theorem configure_ends {config : RemapConfig} {cleaner : Cleaner} {sites : List UnitSite} {env₀ : Env σ}
    {m₀ m₁ : Machine σ} (ha₀ : env₀.Alone) (hh₀ : env₀.Honest) (h2₀ : 2 ≤ env₀.patience) (hN₀ : N ≤ env₀.patience)
    (hnew : ∀ s ∈ sites, s.IsNew caps N m₀) (hdistinct : (sites.map UnitSite.registers).Nodup)
    (hup : bringUp config cleaner sites env₀ m₀ = .ok p m₁) (hrun : p.Configured N m₁ m)
    (ha : env.Alone) (hh : env.Honest) (h2 : 2 ≤ env.patience) (hN : N ≤ env.patience)
    (base : Word) (a : Attachment) (rid : Nat) (enable : Bool) :
    p.units.map Remapper.site = sites ∧
      p.Configures caps env base a rid enable m (p.configure base a rid enable env m) := by
  obtain ⟨hrunning, hunits⟩ := running_bringUp ha₀ hh₀ h2₀ hN₀ hnew hdistinct hup
  exact ⟨hunits, ((hrun.running hrunning).configure ha hh h2 hN).1⟩

section
variable {u : Remapper} (hu : p.unit? base = some u) (hrid : rid < 0x10000) (hl : u.supportsLevels a.levels = true)
include hu hrid hl

/-- a requester can be attached if its unit walks such tables and there is a page -/
theorem refusal?_eq_none (M : Memory) (offer : PhysAddr) : p.refusal? M (some offer) base a rid enable = none := by
  unfold refusal?
  rw [hu]
  simp only [Nat.not_le.mpr hrid, if_false, hl, Bool.not_true, Bool.and_false, Option.isNone_some,
    Bool.false_eq_true]

theorem configure_enter (env : Env σ) (m : Machine σ) : p.configure base a rid enable env m
    = (p.enter a rid enable >>= fun _ => u.invalidateContexts) env m := by
  rcases p.configure_cases base a rid enable env m with ⟨e, he, -⟩ | ⟨v, hv, -, hrun⟩
  · exact absurd ((he m.memory (some ⟨0⟩)).symm.trans (refusal?_eq_none hu hrid hl m.memory ⟨0⟩)) nofun
  · obtain rfl := Option.some.inj (hu.symm.trans hv)
    exact hrun

end

/-! ## a platform with one unit -/

theorem unitPair_isNew {c : Capabilities} (hc : c.Disjoint) (base : Word) (N : Nat) :
    ∀ s ∈ [(⟨base, .device 0⟩ : UnitSite)], s.IsNew (fun _ => c) N (Remapper.unitPair c) := by
  intro s hs
  rw [List.mem_singleton.mp hs]
  exact ⟨0, rfl, hc, Remapper.unitPair_new hc.apart N 0 (by decide)⟩

theorem unitPair_few (c : Capabilities) : (Remapper.unitPair c).Few 0 :=
  ⟨[], Nat.le_refl 0, fun _ hi => absurd hi Std.HashSet.not_mem_empty⟩

theorem unit?_singleton {u : Remapper} (h : p.units = [u]) : p.unit? u.base = some u := by
  unfold unit?
  rw [h]
  simp

/-- a device behind a unit without a queue is attached, which takes a table for its bus -/
theorem configure_ends_attached : ∃ (p : Platform) (m n : Machine Unit) (rs : List Request),
    bringUp ⟨false, false, none⟩ .platform [⟨0xfed90000, .device 0⟩] fourPages (Remapper.unitPair {}) = .ok p m ∧
      p.configure 0xfed90000 ⟨⟨0x12345000⟩, 4, 7⟩ 0x310 true fourPages m = .ok () n ∧
      p.contexts.entries n.memory 0x310 = ⟨0x12345001, 0x702⟩ ∧
      (n.devices.get 0).unit.acted.toList = (m.devices.get 0).unit.acted.toList ++ rs ∧
      rs.filterMap Request.invalidation? = [⟨Descriptor.contextKind, 1, 0⟩, ⟨Descriptor.iotlbKind, 1, 0⟩] := by
  have hc := Remapper.disjoint_default
  have hr : ({} : Capabilities).Reported := ⟨by decide, by decide⟩
  have hnew := Remapper.unitPair_new hc.apart 0 0 (by decide)
  obtain ⟨p, m, u, hup, hunits, hu, hfew⟩ := exists_bringUp ⟨false, false, none⟩ 0xfed90000 (unitPair_few {}) hnew
    (by decide) (by decide) fun u k hu _ => hu.settles hr fun i hi => by
      rw [hc.faults _ (by decide)] at hi
      cases hi
  obtain ⟨hsites, hends⟩ := configure_ends
    fourPages_alone fourPages_honest (Nat.le_refl 2) (Nat.zero_le 2) (unitPair_isNew hc 0xfed90000 0)
    (List.nodup_singleton _) hup (.refl m) fourPages_alone fourPages_honest
    (Nat.le_refl 2) (Nat.zero_le 2) 0xfed90000 ⟨⟨0x12345000⟩, 4, 7⟩ 0x310 true
  obtain ⟨q, hs⟩ := fourPages_room hfew
  have hunit : p.unit? 0xfed90000 = some u := hu.base ▸ unit?_singleton hunits
  have hlevels : u.supportsLevels 4 = true := hu.supportsLevels.trans (by decide)
  have hnone : p.refusal? m.memory (fourPages.supply m).2 0xfed90000 ⟨⟨0x12345000⟩, 4, 7⟩ 0x310 true = none := by
    rw [hs]
    exact refusal?_eq_none hunit (by decide) hlevels _ _
  obtain ⟨res, hres⟩ : ∃ res, p.configure 0xfed90000 ⟨⟨0x12345000⟩, 4, 7⟩ 0x310 true fourPages m = res := ⟨_, rfl⟩
  rw [hres] at hends
  cases hends with
  | refused he => exact absurd (hnone.symm.trans he) nofun
  | @done v cell rs k n _ hv hvr hassigns hd hentries hheard =>
    obtain rfl : u = v := Option.some.inj (hunit.symm.trans hv)
    obtain rfl : cell = 0 := by
      rw [hu.registers] at hvr
      exact (RegisterFile.device.inj hvr).symm
    refine ⟨p, m, n, rs, hup, hres, ?_, ?_, hheard fun _ => ?_⟩
    · rw [hentries]
      exact Function.update_self ..
    · rw [hd.acted, hassigns.quiet.devices]
    · exact hr

/-- IOTLB registers beyond what the extended capability register can say -/
def far : Capabilities := { iotlbOffset := 0x4000 }

theorem far_disjoint : far.Disjoint := ⟨by decide, by decide, Remapper.faults_of_above (by decide)⟩

/-- a unit without a queue takes the capability register for its IOTLB command register then -/
theorem far_iotlbOffset {u : Remapper} (hu : u.extended = far.extendedWord) : u.iotlbOffset = Register.capability := by
  unfold Remapper.iotlbOffset
  rw [hu]
  decide

/-- which reads as done -/
theorem far_settles {u : Remapper} {cell : Nat} (hu : u.Startable cell far N m) :
    ∀ offset ∈ u.commandOffsets, (m.devices.get cell).unit.Settles offset := by
  intro offset ho
  unfold Emulated.Settles
  rw [hu.caps]
  rcases List.mem_cons.mp ho with rfl | ho
  · rw [if_neg (by decide), far_disjoint.faults _ (by decide)]
    exact .inl rfl
  · rw [List.mem_singleton.mp ho, far_iotlbOffset hu.extended, if_pos rfl]
    decide

/-- such a unit comes up and its devices are attached, but it never acts on an IOTLB invalidation -/
theorem far_misses_iotlb : far.Disjoint ∧ ∃ (p : Platform) (m n : Machine Unit),
    bringUp ⟨false, false, none⟩ .platform [⟨0xfed90000, .device 0⟩] fourPages (Remapper.unitPair far) = .ok p m ∧
      p.configure 0xfed90000 ⟨⟨0x12345000⟩, 4, 7⟩ 0x310 true fourPages m = .ok () n ∧
      p.contexts.entries n.memory 0x310 = ⟨0x12345001, 0x702⟩ ∧
      n.invalidations 0 = m.invalidations 0 ++ [⟨Descriptor.contextKind, 1, 0⟩] := by
  have hnew := Remapper.unitPair_new far_disjoint.apart 0 0 (by decide)
  have hnone : far.faultSlot? Register.capability = none := far_disjoint.faults _ (by decide)
  obtain ⟨p, m, u, hup, hunits, hu, hfew⟩ := exists_bringUp ⟨false, false, none⟩ 0xfed90000 (unitPair_few far) hnew
    (by decide) (by decide) fun u k hk _ => far_settles hk
  obtain ⟨hrunning, -⟩ := running_bringUp fourPages_alone fourPages_honest (Nat.le_refl 2) (Nat.zero_le 2)
    (unitPair_isNew far_disjoint 0xfed90000 0) (List.nodup_singleton _) hup
  obtain ⟨q, hs⟩ := fourPages_room hfew
  have hunit : p.unit? 0xfed90000 = some u := hu.base ▸ unit?_singleton hunits
  have hlevels : u.supportsLevels 4 = true := hu.supportsLevels.trans (by decide)
  obtain ⟨k, hk, hassigns⟩ := hrunning.enter ⟨⟨0x12345000⟩, 4, 7⟩ 0x310 true fourPages_alone fourPages_honest (by
    rw [hs, Option.isNone_some, Bool.and_false])
  have hrunning := hrunning.assigns hassigns
  obtain ⟨cell, -, hready⟩ := hrunning.units u (unit?_mem hunit)
  obtain rfl : cell = 0 := by
    have := hready.registers
    rw [hu.registers] at this
    exact (RegisterFile.device.inj this).symm
  have hqueue : u.queue = none := hu.queue_eq_none
  have hpatience : 2 ≤ (fourPages : Env Unit).patience := Nat.le_refl 2
  obtain ⟨n, rs, rs', hn, hd, -, hrs, -, hrs'⟩ := hready.invalidate_commanded hpatience .global 0 hqueue
  rw [if_pos (far_disjoint.faults _ (by decide))] at hrs
  obtain ⟨hlaid, hsame⟩ := hrunning.toLaid.driven (unit?_mem hunit) hd
  refine ⟨far_disjoint, p, m, n, hup, ?_, ?_, ?_⟩
  · rw [configure_enter hunit (by decide) hlevels, Act.bind_apply, hk]
    exact hn
  · unfold ContextTables.entries
    rw [hrunning.sound.entry?_congr hsame]
    show p.contexts.entries k.memory 0x310 = _
    rw [hassigns.entries]
    exact Function.update_self ..
  · rw [hd.invalidations, hrs, hrs' (far_iotlbOffset hu.extended) hnone]
    unfold Machine.invalidations
    rw [hassigns.quiet.devices]
    rfl

end Platform

end NestedPaging
