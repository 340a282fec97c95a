import NestedPaging.Proofs.Tables.ContextMoments
import NestedPaging.Proofs.Tree.Unmapping

/-!
# Context tables remember

Attachments and detachments come in any order. One that asks for a page may not get it, and others may call
meanwhile, for the same bus even, and be faster. Whatever happened, the tables say of each requester what
the last successful call for it wrote (`ContextTables.faithful`). They hold the root and a page for each bus that
a device was attached on, and dropping them gives each of these pages back once.

* `ContextTables.Past`        calls that succeeded one after the other, and those that failed in between;
* `ContextTables.recalled`    what the last call for a requester wrote;
* `ContextTables.Remembers`   the tables hold that, and the pages for it;
* `Remembers.perform`         so they do after one more call, with what others did during it;
* `ContextTables.Faithful`    all that can be seen of tables that remember.
-/

namespace NestedPaging

open PhysAddr (IsPage)
open Machine (Beside Deed Deeds)

variable {σ ε : Type}

/-! ## pages of others, once more -/

namespace Machine
variable {R R' : Machine σ → Machine σ → Prop} {F F' : Set Nat} {m n : Machine σ} {i : Nat}

theorem Deeds.mono (h : Deeds R F m F' n) (hR : ∀ {m n}, R m n → R' m n) : Deeds R' F m F' n := by
  induction h with
  | refl => exact .refl
  | tail _ hd ih =>
    refine ih.tail ?_
    cases hd with
    | take hq hf => exact .take hq hf
    | store ha => exact .store ha
    | giveBack hq => exact .giveBack hq
    | aside hm hl he hr => exact .aside hm hl he (hR hr)

/-- a page of somebody else was one before, whatever was taken and given back -/
theorem Deed.of_elsewhere (h : Deed R F m F' n) (hi : Elsewhere F' n i) : Elsewhere F m i := by
  obtain ⟨hl, hF⟩ := hi
  cases h with
  | take => exact ⟨(mem_live_take.mp hl).resolve_left fun e => hF (.inl e), fun hin => hF (.inr hin)⟩
  | store => exact ⟨hl, hF⟩
  | giveBack =>
    obtain ⟨hne, hl⟩ := mem_live_giveBack.mp hl
    exact ⟨hl, fun hin => hF ⟨hin, hne⟩⟩
  | aside _ hl' _ _ => exact ⟨hl' ▸ hl, hF⟩

theorem Deeds.elsewhere_iff (h : Deeds R F m F' n) : Elsewhere F' n i ↔ Elsewhere F m i := by
  refine ⟨fun hi => ?_, fun hi => (h.elsewhere hi).1⟩
  induction h with
  | refl => exact hi
  | tail _ hd ih => exact ih (hd.of_elsewhere hi)

/-- who held nothing holds what is in use now and was not -/
theorem Deeds.mem_live_iff (h : Deeds R ∅ m F n) : i ∈ n.live ↔ i ∈ m.live ∨ i ∈ F := by
  by_cases hF : i ∈ F
  · exact iff_of_true (h.live nofun i hF) (.inr hF)
  · have hiff := h.elsewhere_iff (i := i)
    simp only [Elsewhere, hF, not_false_eq_true, and_true, Set.mem_empty_iff_false] at hiff
    exact hiff.trans (or_iff_left hF).symm

end Machine

namespace ContextTables

/-! ## calls that succeeded -/

/-- is the call an attachment on `bus`? -/
def Call.opens (bus : Nat) : Call → Bool
  | .attach r _ => r.bus == bus
  | .detach _ => false

/-- what the last of the calls for `r` wrote -/
def recalled (cs : List Call) (r : RequesterId) : EntryWords :=
  match (cs.filter (·.requester == r)).getLast? with
  | some c => c.words
  | none => ⟨0, 0⟩

/-- the calls that succeeded, oldest first. While a page is asked for others may call, and their calls are over
first -/
inductive Past (t : ContextTables) : List Call → Machine σ → Machine σ → Prop
  | refl (m : Machine σ) : Past t [] m m
  | trans {cs ds : List Call} {m k n : Machine σ} : Past t cs m k → Past t ds k n → Past t (cs ++ ds) m n
  | client (m : Machine σ) (client : σ) : Past t [] m { m with client }
  | done {env : Env σ} {cs : List Call} {c : Call} {m n : Machine σ} : env.Honest →
      (t.asks m.memory c = true → Past t cs m (env.supply m).1) → (t.asks m.memory c = false → cs = []) →
      t.perform c env m = .ok () n → Past t (cs ++ [c]) m n
  | failed {env : Env σ} {cs : List Call} {c : Call} {m n : Machine σ} {e : Stop RemapError} : env.Honest →
      (t.asks m.memory c = true → Past t cs m (env.supply m).1) → (t.asks m.memory c = false → cs = []) →
      t.perform c env m = .error e n → Past t cs m n

variable {t : ContextTables} {cs ds : List Call} {c : Call} {m j k n : Machine σ} {env : Env σ} {r : RequesterId}
  {a : Attachment} {w : EntryWords} {table p q : PhysAddr} {bus : Nat}

theorem recalled_concat (cs : List Call) (c : Call) :
    recalled (cs ++ [c]) = Function.update (recalled cs) c.requester c.words := by
  funext r
  unfold recalled
  rw [List.filter_append, List.filter_cons, List.filter_nil]
  by_cases hr : c.requester = r
  · subst hr
    rw [Function.update_self, if_pos (beq_self_eq_true _), List.getLast?_concat]
  · rw [Function.update_of_ne (Ne.symm hr), if_neg (by simpa using hr), List.append_nil]

/-! ## one call -/

/-- from `m` to `n` the bus has or gets `table` for its table, and nothing is said anew -/
structure Provides (t : ContextTables) (bus : Nat) (table : PhysAddr) (m n : Machine σ) : Prop where
  sound : t.Sound n.memory
  deeds : Deeds (Beside ∅) (t.frames m.memory) m (t.frames n.memory) n
  entries : t.entries n.memory = t.entries m.memory
  table : t.table? n.memory bus = some table
  tables : ∀ b < 256, b ≠ bus → t.table? n.memory b = t.table? m.memory b

/-- from `m` to `n` the entry of `r`, in the table of its bus, became `w` -/
structure Writes (t : ContextTables) (r : RequesterId) (w : EntryWords) (m n : Machine σ) : Prop where
  sound : t.Sound n.memory
  deeds : Deeds (Beside ∅) (t.frames m.memory) m (t.frames n.memory) n
  entries : t.entries n.memory = Function.update (t.entries m.memory) r w
  tables : ∀ b < 256, t.table? n.memory b = t.table? m.memory b

section
variable (h : t.Sound m.memory) (hl : ∀ i ∈ t.frames m.memory, i ∈ m.live)
include h hl

/-- a page that is offered for a bus that others gave a table meanwhile goes back -/
theorem Sound.beaten (hb : bus < 256) (hq : IsPage q) (hf : m.isLive q = false) (ht : t.table? m.memory bus = some p)
    (env : Env σ) : ∃ n, t.offer bus q env (m.take q 0) = .ok p n ∧ t.Provides bus p m n := by
  obtain ⟨k, hk⟩ : ∃ k, (m.take q 0).noteAll (t.cleaner.events q 4096 (m.take q 0).memory) = k := ⟨_, rfl⟩
  have hfree : q.frame ∉ t.frames m.memory := fun hin => Machine.ne_of_isLive hf (hl _ hin) rfl
  -- the page is none of the tables, which are as they were
  have hsame : ∀ a : PhysAddr, a.frame ∈ t.frames m.memory → k.memory.read a = m.memory.read a := fun a ha => by
    rw [← hk]
    refine (m.memory.read_fill q.frame 0 a).trans (if_neg fun e => hfree ?_)
    rwa [e]
  have hroot : ∀ a : PhysAddr, a.frame = t.root.frame → k.memory.read a = m.memory.read a := fun a ha =>
    hsame a (ha ▸ root_mem)
  have htable : ∀ b < 256, t.table? k.memory b = t.table? m.memory b := fun b hb => table?_congr h.root hb hroot
  obtain ⟨hsound, hframes⟩ := h.of_root hroot
  have hne : m.memory.read (TableEntry.ofTable t.root bus).address ≠ 0 := fun h0 => by
    rw [table?_blank h0] at ht
    cases ht
  obtain ⟨p', hp', hword⟩ := (h.entry bus hb).resolve_left hne
  obtain rfl : p = p' := Option.some.inj (ht.symm.trans (table?_page hp' hword))
  have hread := hroot _ (TableEntry.frame_address h.root hb)
  refine ⟨k.giveBack q, ?_, hsound, ?_, funext fun s => ?_, (htable bus hb).trans ht, fun b hb _ => htable b hb⟩
  · unfold offer
    rw [Act.bind_apply, Act.clean_apply, hk]
    simp only [Act.bind_apply, TableEntry.publishLo_apply, hread, hne, if_false]
    rw [hword, pageOf_present hp']
    rfl
  · have htake : Deeds (Beside ∅) (t.frames m.memory) m (insert q.frame (t.frames m.memory)) k := by
      rw [← hk]
      exact (Deed.take hq hf).deeds.trans (Deed.noteAll _ (t.cleaner.plain_events _ _ _)).deeds
    have hgive := htake.tail (.giveBack (.inl rfl))
    rw [Set.insert_sdiff_self_of_notMem hfree] at hgive
    show Deeds _ _ _ (t.frames k.memory) _
    rwa [hframes]
  · exact congrArg (Option.getD · _) (h.entry?_congr hsame s)

/-- whether or not others were faster, the bus has a table once a page was offered -/
theorem Sound.provides_offer (hq : IsPage q) (hf : m.isLive q = false) (env : Env σ) :
    ∃ table n, t.offer r.bus q env (m.take q 0) = .ok table n ∧ t.Provides r.bus table m n := by
  cases ht : t.table? m.memory r.bus with
  | none =>
    obtain ⟨n, hn, ho⟩ := h.opened hl hq hf ht env
    exact ⟨q, n, hn, ho.sound, ho.deeds, ho.entries, ho.table, ho.tables⟩
  | some p =>
    obtain ⟨n, hn, hp⟩ := h.beaten hl r.bus_lt hq hf ht env
    exact ⟨p, n, hn, hp⟩

/-- an entry is written in a table that there is -/
theorem Sound.writes (ht : t.table? m.memory r.bus = some table) (hi : m.Inside table n)
    (he : m.Entered table r.devfn w t.cleaner n) : t.Writes r w m n := by
  have hroot : ∀ a : PhysAddr, a.frame = t.root.frame → n.memory.read a = m.memory.read a := fun _ =>
    h.root_entered ht he
  obtain ⟨hsound, hframes⟩ := h.of_root hroot
  refine ⟨hsound, ?_, (h.assigns hl ht he).entries, fun b hb => table?_congr h.root hb hroot⟩
  rw [hframes]
  exact hi.deeds (table_mem r.bus_lt ht)

omit hl

theorem Sound.provides_refl (ht : t.table? m.memory bus = some table) : t.Provides bus table m m :=
  ⟨h, .refl, rfl, ht, fun _ _ _ => rfl⟩

end

/-- an attachment writes the entry of its requester once there is a table -/
theorem Provides.attach (h : t.Provides r.bus table j k) (hl : ∀ i ∈ t.frames k.memory, i ∈ k.live)
    (hk : t.tableFor r.bus env m = .ok table k) (a : Attachment) :
    ∃ n, t.attach r a env m = .ok () n ∧ t.Writes r a.words k n := by
  have hpage := h.sound.isPage r.bus_lt h.table
  obtain ⟨n, hn, he⟩ := TableEntry.replace_entered (ε := RemapError) (w := a.words) (m := k) hpage r.devfn_lt
    t.cleaner env
  have hi : k.Inside table (((TableEntry.ofTable table r.devfn).replace a.words t.cleaner :
      Act σ RemapError Unit).after env k) := TableEntry.inside_replace hpage r.devfn_lt _ _ k
  rw [Act.after_of_ok hn] at hi
  exact ⟨n, (attach_entry hk).trans hn, h.sound.writes hl h.table hi he⟩

/-- a detachment clears the entry of its requester, if it can have one -/
theorem Sound.clears (h : t.Sound m.memory) (hl : ∀ i ∈ t.frames m.memory, i ∈ m.live) (r : RequesterId) (env : Env σ) :
    ∃ n, (t.detach r : Act σ ε Unit) env m = .ok () n ∧ t.Writes r ⟨0, 0⟩ m n := by
  cases ht : t.table? m.memory r.bus with
  | none =>
    refine ⟨m, detach_none ht, h, .refl, ?_, fun _ _ => rfl⟩
    rw [← entries_of_none ht, Function.update_eq_self]
  | some table =>
    have hpage := h.isPage r.bus_lt ht
    obtain ⟨n, hn, he⟩ := TableEntry.clear_entered (ε := ε) (m := m) hpage r.devfn_lt t.cleaner env
    have hi : m.Inside table (((TableEntry.ofTable table r.devfn).clear t.cleaner : Act σ ε Unit).after env m) :=
      TableEntry.inside_clear hpage r.devfn_lt _ m
    rw [Act.after_of_ok hn] at hi
    exact ⟨n, (detach_some ht).trans hn, h.writes hl ht hi he⟩

/-- and never asks for a page -/
theorem frugal_detach (r : RequesterId) : (t.detach r : Act σ ε Unit).Frugal env := by
  refine .bind (.view _) fun found => ?_
  cases found with
  | none => exact .pure ()
  | some table => exact .bind (.store _ _) fun _ => .bind (.store _ _) fun _ => .clean _ _ _

/-! ## what the tables remember -/

/-- since `k`, when they held nothing, the tables took a page for each bus that a device was attached on, and
they say what the last calls wrote -/
structure Remembers (t : ContextTables) (k : Machine σ) (cs : List Call) (m : Machine σ) : Prop where
  sound : t.Sound m.memory
  deeds : Deeds (fun _ _ => True) ∅ k (t.frames m.memory) m
  entries : t.entries m.memory = recalled cs
  tables : ∀ bus < 256, (t.table? m.memory bus).isSome = cs.any (·.opens bus)

namespace Remembers
variable (h : t.Remembers k cs m)
include h

theorem live : ∀ i ∈ t.frames m.memory, i ∈ m.live := h.deeds.live nofun

theorem client (client : σ) : t.Remembers k cs { m with client } :=
  ⟨h.sound, h.deeds.trans (.aside rfl rfl ⟨[], .refl rfl, nofun⟩ trivial), h.entries, h.tables⟩

theorem note (e : Event) (he : e.Plain) : t.Remembers k cs (m.note e) := by
  refine ⟨h.sound, h.deeds.trans (.aside rfl rfl ⟨_, .note m e, fun f hf => ?_⟩ trivial), h.entries, h.tables⟩
  rwa [List.mem_singleton.mp hf]

theorem attached (hp : t.Provides r.bus table m j) (hw : t.Writes r a.words j n) :
    t.Remembers k (cs ++ [.attach r a]) n := by
  refine ⟨hw.sound, (h.deeds.trans (hp.deeds.mono fun _ => trivial)).trans (hw.deeds.mono fun _ => trivial), ?_,
    fun bus hb => ?_⟩
  · rw [hw.entries, hp.entries, h.entries, recalled_concat]
    rfl
  · rw [hw.tables bus hb, List.any_append, List.any_cons, List.any_nil, Bool.or_false]
    show _ = (_ || r.bus == bus)
    by_cases hbus : bus = r.bus
    · subst hbus
      rw [hp.table, beq_self_eq_true, Bool.or_true]
      rfl
    · rw [hp.tables bus hb hbus, h.tables bus hb, beq_false_of_ne (Ne.symm hbus), Bool.or_false]

theorem detached (hw : t.Writes r ⟨0, 0⟩ m n) : t.Remembers k (cs ++ [.detach r]) n := by
  refine ⟨hw.sound, h.deeds.trans (hw.deeds.mono fun _ => trivial), ?_, fun bus hb => ?_⟩
  · rw [hw.entries, h.entries, recalled_concat]
    rfl
  · rw [hw.tables bus hb, h.tables bus hb, List.any_append, List.any_cons, List.any_nil, Bool.or_false]
    exact (Bool.or_false _).symm

/-- a call succeeds, unless it needs a page and gets none. What others did while the page was asked for came
first -/
theorem perform (hh : env.Honest) (hothers : t.asks m.memory c = true → t.Remembers k ds (env.supply m).1)
    (hnone : t.asks m.memory c = false → ds = cs) :
    (∃ n, t.perform c env m = .ok () n ∧ t.Remembers k (ds ++ [c]) n) ∨
      t.asks m.memory c = true ∧ (env.supply m).2 = none ∧
        t.perform c env m = .error (.failed .insufficientMemory) ((env.supply m).1.note .exhausted) := by
  cases c with
  | detach r =>
    obtain rfl := hnone rfl
    obtain ⟨n, hn, hw⟩ := h.sound.clears (ε := RemapError) h.live r env
    exact .inl ⟨n, hn, h.detached hw⟩
  | attach r a =>
    cases ht : t.table? m.memory r.bus with
    | some table =>
      obtain rfl := hnone (Option.isNone_eq_false_iff.mpr (Option.isSome_iff_exists.mpr ⟨table, ht⟩))
      have hp := h.sound.provides_refl ht
      obtain ⟨n, hn, hw⟩ := hp.attach h.live (tableFor_some ht) a
      exact .inl ⟨n, hn, h.attached hp hw⟩
    | none =>
      have hasks : t.asks m.memory (.attach r a) = true := Option.isNone_iff_eq_none.mpr ht
      have hr := hothers hasks
      cases hs : env.supply m with
      | mk j offer =>
        rw [hs] at hr
        cases offer with
        | none =>
          refine .inr ⟨hasks, rfl, ?_⟩
          refine attach_error ?_
          rw [tableFor_none ht, Act.bind_apply, Act.allocOr_none hs]
        | some q =>
          obtain ⟨hq, hf⟩ := hh m q (by rw [hs])
          rw [hs] at hf
          obtain ⟨table, l, hl, hp⟩ := hr.sound.provides_offer hr.live hq hf env
          have hk : t.tableFor r.bus env m = .ok table l := by
            rw [tableFor_none ht, Act.bind_apply, Act.allocOr_some hs]
            exact hl
          obtain ⟨n, hn, hw⟩ := hp.attach (hp.deeds.live hr.live) hk a
          exact .inl ⟨n, hn, hr.attached hp hw⟩

end Remembers

/-- so it is after any calls -/
theorem Past.remembers (hp : t.Past cs m n) : ∀ ds, t.Remembers k ds m → t.Remembers k (ds ++ cs) n := by
  -- what others do while a page is asked for are calls of their own
  induction hp with
  | refl m => exact fun ds h => (List.append_nil ds).symm ▸ h
  | trans _ _ ih ih' => exact fun ds h => List.append_assoc .. ▸ ih' _ (ih ds h)
  | client m client => exact fun ds h => (List.append_nil ds).symm ▸ h.client client
  | done hh _ hnone hok ih =>
    intro ds h
    rcases h.perform hh (fun hasks => ih hasks ds h) (fun hasks => by rw [hnone hasks, List.append_nil]) with
      ⟨n, hn, hr⟩ | ⟨_, _, hfail⟩
    · obtain rfl := (EStateM.Result.ok.inj (hok.symm.trans hn)).2
      rwa [List.append_assoc] at hr
    · exact absurd (hok.symm.trans hfail) nofun
  | failed hh _ hnone herr ih =>
    intro ds h
    rcases h.perform hh (fun hasks => ih hasks ds h) (fun hasks => by rw [hnone hasks, List.append_nil]) with
      ⟨n, hn, hr⟩ | ⟨hasks, _, hfail⟩
    · exact absurd (herr.symm.trans hn) nofun
    · obtain rfl := (EStateM.Result.error.inj (herr.symm.trans hfail)).2
      exact (ih hasks ds h).note .exhausted trivial

/-- new tables remember nothing -/
theorem create_remembers {cleaner : Cleaner} (hh : env.Honest) (h : create cleaner env m = .ok t n) :
    t.Remembers (env.supply m).1 [] n := by
  obtain ⟨k, q, hs, rfl, rfl⟩ := Act.eq_of_made h
  obtain ⟨hq, hf⟩ := hh m q (by rw [hs])
  rw [hs] at hf ⊢
  obtain ⟨hdeeds, hsound, hframes, _⟩ := ContextTables.made hq hf cleaner
  have hsound : ContextTables.Sound ⟨q, cleaner⟩ _ := hsound
  have hnone : ∀ bus < 256, ContextTables.table? ⟨q, cleaner⟩
      ((k.take q 0).noteAll (cleaner.events q 4096 (k.take q 0).memory)).memory bus = none := fun bus hb => by
    refine Option.eq_none_iff_forall_ne_some.mpr fun p hp => hsound.apart bus hb (hp.trans (congrArg some ?_))
    refine (hsound.isPage hb hp).eq_of_frame hq ?_
    exact Set.mem_singleton_iff.mp (hframes ▸ table_mem hb hp)
  refine ⟨hsound, ?_, funext fun r => entries_of_none (hnone _ r.bus_lt), fun bus hb => ?_⟩
  · rw [show ContextTables.frames _ _ = {q.frame} from hframes]
    exact hdeeds.mono fun _ => trivial
  · rw [hnone bus hb]
    rfl

/-- what can be seen of tables that held no page at `k` yet, after the calls `cs` that succeeded -/
structure Faithful (t : ContextTables) (k : Machine σ) (cs : List Call) (m : Machine σ) : Prop where
  /-- a requester has an entry once one on its bus was attached: what the last call for it wrote -/
  entry : ∀ r, t.entry? m.memory r = if cs.any (·.opens r.bus) then some (recalled cs r) else none
  /-- a call fails only if it is an attachment that needs a page and gets none, and then it writes nothing -/
  ends : ∀ {env : Env σ} {ds : List Call} (c : Call), env.Honest →
    (t.asks m.memory c = true → t.Past ds m (env.supply m).1) →
      (∃ n, t.perform c env m = .ok () n) ∨ (∃ r a, c = .attach r a) ∧ (env.supply m).2 = none ∧
        ∃ n, t.perform c env m = .error (.failed .insufficientMemory) n ∧ n.memory = (env.supply m).1.memory
  /-- a detachment asks for no page -/
  frugal : ∀ (env : Env σ) r, ∃ n, t.perform (.detach r) env m = .ok () n ∧ m.Drew 0 n
  /-- the pages are the root and one for each bus that a requester was attached on -/
  pages : (t.pages m.memory).length = ((List.range 256).countP fun bus => cs.any (·.opens bus)) + 1
  once : ((t.pages m.memory).map Addr.frame).Nodup
  /-- no others were taken and kept, and these were not in use before -/
  live : ∀ i, i ∈ m.live ↔ i ∈ k.live ∨ ∃ p ∈ t.pages m.memory, p.frame = i
  fresh : ∀ p ∈ t.pages m.memory, p.frame ∉ k.live
  /-- dropping the tables gives each of the pages back; by then each page was given back as often as it was taken,
  and never more often -/
  drop : ∀ env : Env σ, ∃ n es, (t.drop : Act σ RemapError Unit) env m = .ok () n ∧
    Machine.Freed (t.pages m.memory) m n ∧ (∀ i, i ∈ n.live ↔ i ∈ k.live) ∧ k.Logs es n ∧
    (∀ i, takes i es = returns i es) ∧
    ∀ gs hs, es = gs ++ hs → ∀ i, returns i gs ≤ takes i gs ∧ takes i gs ≤ returns i gs + 1

namespace Remembers
variable (h : t.Remembers k cs m)
include h

theorem entry (r : RequesterId) :
    t.entry? m.memory r = if cs.any (·.opens r.bus) then some (recalled cs r) else none := by
  have hsome : (t.entry? m.memory r).isSome = cs.any (·.opens r.bus) := by
    unfold entry?
    rw [Option.isSome_map, h.tables _ r.bus_lt]
  rw [← hsome, ← h.entries]
  unfold ContextTables.entries
  cases t.entry? m.memory r with
  | none => rfl
  | some w => rfl

theorem length_pages : (t.pages m.memory).length = ((List.range 256).countP fun bus => cs.any (·.opens bus)) + 1 := by
  unfold pages
  rw [List.length_append, List.length_filterMap_eq_countP]
  refine congrArg (· + 1) (List.countP_congr fun bus hb => ?_)
  rw [h.tables bus (List.mem_range.mp hb)]

theorem drop (env : Env σ) : ∃ n, (t.drop : Act σ ε Unit) env m = .ok () n ∧ Machine.Freed (t.pages m.memory) m n ∧
    Deeds (fun _ _ => True) ∅ k ∅ n := by
  refine ⟨m.giveBackAll (t.pages m.memory), ?_, Machine.freed_giveBackAll _ _, ?_⟩
  · unfold ContextTables.drop
    rw [Act.bind_apply, Act.view_apply]
    exact Tree.forM_freePage env _ m
  · have hgive := h.deeds.trans (.giveBackAll m h.sound.nodup fun p hp => ⟨p, hp, rfl⟩)
    rwa [show t.frames m.memory \ {i | ∃ p ∈ t.pages m.memory, p.frame = i} = ∅ from Set.sdiff_self] at hgive

theorem visible : t.Faithful k cs m where
  entry := h.entry
  ends {env ds} c hh hothers := by
    have hpast : ∃ es, (t.asks m.memory c = true → t.Remembers k es (env.supply m).1) ∧
        (t.asks m.memory c = false → es = cs) := by
      cases hasks : t.asks m.memory c with
      | true => exact ⟨cs ++ ds, fun _ => (hothers hasks).remembers cs h, nofun⟩
      | false => exact ⟨cs, nofun, fun _ => rfl⟩
    obtain ⟨es, hasked, hnot⟩ := hpast
    rcases h.perform hh hasked hnot with ⟨n, hn, _⟩ | ⟨hasks, hno, hfail⟩
    · exact .inl ⟨n, hn⟩
    · cases c with
      | attach r a => exact .inr ⟨⟨r, a, rfl⟩, hno, _, hfail, rfl⟩
      | detach r => cases hasks
  frugal env r := by
    obtain ⟨n, hn, _⟩ := h.sound.clears (ε := RemapError) h.live r env
    have hdrew : m.Drew 0 ((t.detach r : Act σ RemapError Unit).after env m) := frugal_detach r m
    exact ⟨n, hn, Act.after_of_ok hn ▸ hdrew⟩
  pages := h.length_pages
  once := h.sound.nodup
  live _ := h.deeds.mem_live_iff
  fresh p hp hk := by
    have hout := (h.deeds.elsewhere_iff (i := p.frame)).mpr ⟨hk, Set.notMem_empty _⟩
    exact hout.2 ⟨p, hp, rfl⟩
  drop env := by
    obtain ⟨n, hn, hfreed, hdeeds⟩ := h.drop (ε := RemapError) env
    obtain ⟨es, hes, hledger, hcuts⟩ := hdeeds.ledger nofun
    refine ⟨n, es, hn, hfreed, fun i => hdeeds.mem_live_iff.trans (or_iff_left (Set.notMem_empty i)), hes,
      fun i => Nat.add_left_cancel (hledger i), fun gs hs hcut i => ?_⟩
    obtain ⟨G, hG⟩ := hcuts gs hs hcut
    exact hG.bounds i

end Remembers

/-- in every run of attachments and detachments on new tables, with pages that are not offered and others who are
faster, the tables are a map from the requesters to what was last asked for -/
theorem faithful {cleaner : Cleaner} (hh : env.Honest) (h : create cleaner env m = .ok t k) (hp : t.Past cs k n) :
    t.Faithful (env.supply m).1 cs n := by
  have hend := hp.remembers [] (create_remembers hh h)
  rw [List.nil_append] at hend
  exact hend.visible

/-- an allocator with more pages than the tables hold offers one, if nobody else uses them -/
theorem Remembers.offered (h : t.Remembers k cs m) (hk : ∀ i, i ∉ k.live) (frames : List Nat) (hn : frames.Nodup)
    (hlen : (t.pages m.memory).length < frames.length) : ((Env.offering frames).supply m).2 ≠ none := by
  intro hnone
  have hused : frames ⊆ (t.pages m.memory).map Addr.frame := fun i hi => by
    have hin := List.find?_eq_none.mp (Option.map_eq_none_iff.mp hnone) i hi
    rw [Bool.not_eq_true, Bool.not_eq_false'] at hin
    exact List.mem_map.mpr ((h.deeds.mem_live_iff.mp hin).resolve_left (hk i))
  have hle := (hn.subperm hused).length_le
  rw [List.length_map] at hle
  exact Nat.not_lt.mpr hle hlen

/-- while a device is attached another one on its bus is, and is faster -/
def racing (t : ContextTables) (r : RequesterId) (a : Attachment) (frames : List Nat) : Env σ where
  supply m := (Env.offering frames).supply ((t.attach r a).after (.offering frames) m)
  rank _ := 0
  patience := 0

/-- both are attached then, and the second page goes back -/
theorem faithful_raced : ∃ (t : ContextTables) (m n : Machine Unit) (cs : List Call),
    cs = [.attach 0x311 ⟨.ofFrame 6, 3, 8⟩, .attach 0x310 ⟨.ofFrame 5, 4, 7⟩, .detach 0x311] ∧
      create .platform (.offering [1, 2, 3]) { client := () } = .ok t m ∧ t.Past cs m n ∧
      t.entry? n.memory 0x310 = some ⟨0x5001, 0x702⟩ ∧ t.entry? n.memory 0x311 = some ⟨0, 0⟩ ∧
      t.entry? n.memory 0x410 = none ∧ (t.pages n.memory).length = 2 := by
  have hh : (Env.offering [1, 2, 3] : Env Unit).Honest := Env.honest_offering (by decide)
  let t : ContextTables := ⟨.ofFrame 1, .platform⟩
  let a : Attachment := ⟨.ofFrame 5, 4, 7⟩
  let b : Attachment := ⟨.ofFrame 6, 3, 8⟩
  obtain ⟨m, es, v, hcr, _⟩ := Sight.exists_made .platform (fun p => ContextTables.mk p .platform)
    RemapError.insufficientMemory [2, 3] ()
  have hr : t.Remembers _ [] m := create_remembers hh hcr
  have hk : ∀ i, i ∉ ((Env.offering [1, 2, 3] : Env Unit).supply { client := () }).1.live := fun i =>
    Std.HashSet.not_mem_empty
  have hasks : t.asks m.memory (.attach 0x310 a) = true := by
    have htable : (t.table? m.memory (RequesterId.bus 0x310)).isSome = false := hr.tables _ (RequesterId.bus_lt _)
    exact Option.isSome_eq_false_iff.mp htable
  -- the first to ask gets page 2, and meanwhile nobody calls
  obtain ⟨n₁, hn₁, hr₁⟩ := (hr.perform (c := .attach 0x311 b) hh (fun _ => hr) fun _ => rfl).resolve_right fun hno =>
    hr.offered hk [1, 2, 3] (by decide) (by rw [hr.length_pages]; decide +kernel) hno.2.1
  have hp₁ : t.Past [.attach 0x311 b] m n₁ := .done hh (fun _ => .refl m) (fun _ => rfl) hn₁
  have hrace : (t.racing 0x311 b [1, 2, 3] : Env Unit).supply m = (Env.offering [1, 2, 3]).supply n₁ :=
    congrArg (Env.offering [1, 2, 3]).supply (Act.after_of_ok hn₁)
  have hthen : ((t.racing 0x311 b [1, 2, 3] : Env Unit).supply m).1 = n₁ := congrArg Prod.fst hrace
  have hhr : (t.racing 0x311 b [1, 2, 3] : Env Unit).Honest := fun m => hh _
  obtain ⟨n₂, hn₂, hr₂⟩ := (hr.perform (c := .attach 0x310 a) hhr (fun _ => hthen ▸ hr₁) fun hnot =>
      absurd (hnot.symm.trans hasks) nofun).resolve_right fun hno =>
    hr₁.offered hk [1, 2, 3] (by decide) (by rw [hr₁.length_pages]; decide +kernel)
      ((congrArg Prod.snd hrace).symm.trans hno.2.1)
  have hp₂ : t.Past [.attach 0x311 b, .attach 0x310 a] m n₂ :=
    .done hhr (fun _ => hthen ▸ hp₁) (fun hnot => absurd (hnot.symm.trans hasks) nofun) hn₂
  obtain ⟨n₃, hn₃, _⟩ := (faithful hh hcr hp₂).frugal (.offering []) 0x311
  have hp₃ := hp₂.trans (.done (c := .detach 0x311) (Env.honest_offering (by decide))
    (fun hasks => absurd hasks Bool.false_ne_true) (fun _ => rfl) hn₃)
  have hf := faithful hh hcr hp₃
  refine ⟨t, m, n₃, _, rfl, hcr, hp₃, ?_, ?_, ?_, ?_⟩
  · rw [hf.entry]
    decide
  · rw [hf.entry]
    decide
  · rw [hf.entry]
    decide
  · rw [hf.pages]
    decide +kernel

end ContextTables

end NestedPaging
