import NestedPaging.Proofs.Platform.Assignment
import NestedPaging.Proofs.Platform.PagesSpent

/-!
# What a platform holds

A platform holds the pages of its units' queues, of its context tables and of its interrupt table
(`Platform.pages`), and gives them back when it is dropped. `Platform.Holds p m k` says that these are what was
taken from `m` to `k`, where `m` is a machine without the platform.

* `Holds.addUnit`, `Holds.addUnits`   a unit that cannot be added leaves the platform as it was;
* `Stays.upholds`                     so does whatever is asked of a unit;
* `Holds.call`                        a call takes one table at most, for the bus that it is about;
* `SecondStage.bringUp_balances`      bring-up, calls and drop together.
-/

namespace NestedPaging

open PhysAddr (IsPage)
open Machine (Bears Spent)

variable {σ ε α : Type}

/-! ## pages of a platform -/

namespace ContextTables
variable {t : ContextTables} {M M' : Memory}

/-- the tables of the buses that have one -/
def tables (t : ContextTables) (M : Memory) : List PhysAddr := (List.range 256).filterMap (t.table? M)

theorem tables_congr (h : ∀ b < 256, t.table? M' b = t.table? M b) : t.tables M' = t.tables M :=
  List.filterMap_congr fun b hb => h b (List.mem_range.mp hb)

theorem tables_eq_nil_iff : t.tables M = [] ↔ ∀ b < 256, t.table? M b = none :=
  List.filterMap_eq_nil_iff.trans ⟨fun h b hb => h b (List.mem_range.mpr hb), fun h b hb => h b (List.mem_range.mp hb)⟩

/-- a bus has one table at most -/
theorem length_tables_le {bs : List Nat} (h : ∀ b < 256, (t.table? M b).isSome → b ∈ bs) :
    (t.tables M).length ≤ bs.dedup.length := by
  have hsub : (List.range 256).filter (fun b => (t.table? M b).isSome) ⊆ bs.dedup := fun b hb => by
    obtain ⟨hin, hsome⟩ := List.mem_filter.mp hb
    exact List.mem_dedup.mpr (h b (List.mem_range.mp hin) hsome)
  unfold tables
  rw [List.length_filterMap_eq_countP, List.countP_eq_length_filter]
  exact (List.subperm_of_subset (List.nodup_range.filter _) hsub).length_le

theorem pages_eq (t : ContextTables) (M : Memory) : t.pages M = t.tables M ++ [t.root] := rfl

/-- a bus gets a table -/
theorem Sound.pages_perm {b : Nat} {q : PhysAddr} (h : t.Sound M) (h' : t.Sound M') (hb : b < 256)
    (h0 : t.table? M b = none) (hq : t.table? M' b = some q) (hfree : q.frame ∉ t.frames M)
    (hold : ∀ c < 256, c ≠ b → t.table? M' c = t.table? M c) : (t.pages M').Perm (q :: t.pages M) := by
  have hnodup : (q :: t.pages M).Nodup := List.nodup_cons.mpr ⟨fun hin => hfree ⟨q, hin, rfl⟩, h.nodup.of_map _⟩
  refine (List.perm_ext_iff_of_nodup (h'.nodup.of_map _) hnodup).mpr fun p => ?_
  rw [List.mem_cons, mem_pages, mem_pages]
  constructor
  · rintro (⟨c, hc, hp⟩ | rfl)
    · by_cases hcb : c = b
      · subst hcb
        exact .inl (Option.some.inj (hp.symm.trans hq))
      · exact .inr (.inl ⟨c, hc, (hold c hc hcb).symm.trans hp⟩)
    · exact .inr (.inr rfl)
  · rintro (rfl | ⟨c, hc, hp⟩ | rfl)
    · exact .inl ⟨b, hb, hq⟩
    · refine .inl ⟨c, hc, (hold c hc ?_).trans hp⟩
      rintro rfl
      rw [h0] at hp
      cases hp
    · exact .inr rfl

/-- the entry of a bus without a table is zero -/
theorem Sound.read_eq_zero {b : Nat} (h : t.Sound M) (hb : b < 256) (h0 : t.table? M b = none) :
    M.read (TableEntry.ofTable t.root b).address = 0 := by
  refine (h.entry b hb).resolve_right fun ⟨q, hq, hword⟩ => ?_
  rw [table?_page hq hword] at h0
  cases h0

/-- the page that became the table of a bus was taken, and nothing was given back -/
theorem Sound.spends_offer {m n : Machine σ} {env : Env σ} {b : Nat} {q : PhysAddr} (h : t.Sound m.memory)
    (hl : ∀ i ∈ t.frames m.memory, i ∈ m.live) (hb : b < 256) (hq : IsPage q) (hf : m.isLive q = false)
    (h0 : t.table? m.memory b = none) (hrun : t.offer b q env (m.take q 0) = .ok q n) : m.Spent [q] n := by
  obtain ⟨k, hk⟩ : ∃ k, (m.take q 0).noteAll (t.cleaner.events q 4096 (m.take q 0).memory) = k := ⟨_, rfl⟩
  obtain ⟨n', hn, hmade, -⟩ := offer_blank env h hb hq (fun hin => Machine.ne_of_isLive hf (hl _ hin) rfl)
    (h.read_eq_zero hb h0) hk
  obtain rfl : n = n' := by
    rw [hrun] at hn
    injection hn
  have hkept : m.Spent [q] k := hk ▸ (Spent.take hf 0).trans (.noteAll _ (t.cleaner.plain_events _ _ _))
  rw [hmade]
  exact (hkept.trans (.store k _ _)).trans (.noteAll _ (t.cleaner.plain_events _ _ _))

/-- tables whose root was taken hold nothing as long as what is in use stays as it is -/
theorem blank_of_took {root : PhysAddr} {m k n : Machine σ} (h : m.Took root k) (hn : k.Leaves n)
    (cleaner : Cleaner) : (ContextTables.mk root cleaner).Sound n.memory ∧
      (ContextTables.mk root cleaner).tables n.memory = [] := by
  have hzero : ∀ b < 256, n.memory.read (TableEntry.ofTable root b).address = 0 := fun b hb => by
    have hframe := TableEntry.frame_address h.page hb
    rw [hn.memory _ (hframe ▸ (h.live _).mpr (.inl rfl)), h.memory, if_pos hframe]
  exact ⟨(blank (t := ⟨root, cleaner⟩) h.page hzero).1,
    tables_eq_nil_iff.mpr fun b hb => table?_blank (hzero b hb)⟩

end ContextTables

namespace Platform
variable {p : Platform} {m k n : Machine σ} {env : Env σ} {u : Remapper}

/-- the pages that the platform gives back when it is dropped, in this order -/
def pages (p : Platform) (M : Memory) : List PhysAddr :=
  p.units.filterMap Remapper.page? ++ (p.contexts.pages M ++ [p.interruptTable.base])

theorem drop_units (us : List Remapper) (env : Env σ) (m : Machine σ) :
    (us.forM Remapper.drop : Act σ ε Unit) env m = .ok () (m.giveBackAll (us.filterMap Remapper.page?)) := by
  induction us generalizing m with
  | nil => rfl
  | cons u us ih =>
    unfold Remapper.page?
    cases hq : u.queue with
    | none =>
      rw [List.filterMap_cons_none (by rw [hq]; rfl)]
      refine Act.forM_cons_ok (k := m) ?_ (ih m)
      unfold Remapper.drop
      rw [hq]
      rfl
    | some q =>
      rw [List.filterMap_cons_some (b := q.base) (by rw [hq]; rfl), Machine.giveBackAll_cons]
      refine Act.forM_cons_ok (k := m.giveBack q.base) ?_ (ih (m.giveBack q.base))
      unfold Remapper.drop
      rw [hq]
      rfl

theorem drop_apply (p : Platform) (env : Env σ) (m : Machine σ) :
    (p.drop : Act σ ε Unit) env m = .ok () (m.giveBackAll (p.pages m.memory)) := by
  have hcontexts : ∀ j : Machine σ, (p.contexts.drop : Act σ ε Unit) env j
      = .ok () (j.giveBackAll (p.contexts.pages j.memory)) := fun j => by
    unfold ContextTables.drop
    rw [Act.bind_apply, Act.view_apply]
    exact Tree.forM_freePage env _ j
  unfold drop pages
  rw [Act.bind_apply, drop_units]
  simp only
  rw [Act.bind_apply, hcontexts, (m.giveBackAll_same _).1, Machine.giveBackAll_append, Machine.giveBackAll_append]
  rfl

/-- where no bus had a table, the tables are what is new -/
theorem pages_perm (p : Platform) {M M' : Memory} (h : p.contexts.tables M = []) :
    (p.pages M').Perm (p.pages M ++ p.contexts.tables M') := by
  unfold pages
  rw [ContextTables.pages_eq, ContextTables.pages_eq, h, List.nil_append, List.append_assoc, List.append_assoc]
  exact List.perm_append_comm.append_left _

/-- what was taken from `m` to `k` are the pages of `p`, all of them in order; registers lie elsewhere -/
structure Holds (p : Platform) (m k : Machine σ) : Prop where
  spent : m.Spent (p.pages k.memory) k
  sound : p.contexts.Sound k.memory
  interrupts : IsPage p.interruptTable.base
  units : ∀ u ∈ p.units, u.Sound k
  windows : ∀ u ∈ p.units, ∀ i ∈ u.registers.window, i ∈ m.live

/-- and the buses have the tables in `n` that they have in `k` -/
structure Stays (p : Platform) (m k n : Machine σ) : Prop extends p.Holds m n where
  tables : ∀ b < 256, p.contexts.table? n.memory b = p.contexts.table? k.memory b

namespace Holds

theorem stays (h : p.Holds m k) : p.Stays m k k := ⟨h, fun _ _ => rfl⟩

/-- all pages are given back, each once -/
theorem drop (h : p.Holds m k) (env : Env σ) : ∃ n, (p.drop : Act σ ε Unit) env k = .ok () n ∧
    m.Restored (p.pages k.memory) n := ⟨_, p.drop_apply env k, h.spent.restored⟩

theorem mem_pages_root (p : Platform) (M : Memory) : p.contexts.root ∈ p.pages M :=
  List.mem_append_right _ (List.mem_append_left _ (List.mem_append_right _ (List.mem_singleton.mpr rfl)))

/-- the root was free before -/
theorem root_fresh (h : p.Holds m k) : p.contexts.root.frame ∉ m.live := h.spent.fresh _ (mem_pages_root p k.memory)

theorem frames_nodup (h : p.Holds m k) : ((p.units.filterMap Remapper.page?).map Addr.frame ++
    ((p.contexts.pages k.memory).map Addr.frame ++ [p.interruptTable.base.frame])).Nodup := by
  have hn := h.spent.nodup
  unfold pages at hn
  rwa [List.map_append, List.map_append] at hn

/-- no queue lies in it -/
theorem root_ne_queue (h : p.Holds m k) (hu : u ∈ p.units) {q : InvalidationQueue} (hq : u.queue = some q) :
    q.base.frame ≠ p.contexts.root.frame := by
  obtain ⟨-, -, hdisjoint⟩ := List.nodup_append'.mp h.frames_nodup
  have hpage : q.base ∈ p.units.filterMap Remapper.page? :=
    List.mem_filterMap.mpr ⟨u, hu, by rw [Remapper.page?, hq]; rfl⟩
  refine fun e => hdisjoint (List.mem_map_of_mem hpage) (List.mem_append_left _ ?_)
  rw [e]
  exact List.mem_map_of_mem (ContextTables.mem_pages.mpr (.inr rfl))

/-- units with queues have different pages for them -/
theorem queues_apart (h : p.Holds m k) : p.units.Pairwise fun u v => ∀ i ∈ v.frames, i ∉ u.frames := by
  obtain ⟨hqueues, -, -⟩ := List.nodup_append'.mp h.frames_nodup
  refine (List.pairwise_filterMap.mp (List.pairwise_map.mp hqueues)).imp fun hne => ?_
  rintro i ⟨q', hq', rfl⟩ ⟨q, hq, hframe⟩
  exact hne q.base (by rw [Remapper.page?, hq]; rfl) q'.base (by rw [Remapper.page?, hq']; rfl) hframe

/-- nor are interrupts routed by it -/
theorem root_ne_interrupts (h : p.Holds m k) : p.interruptTable.base.frame ≠ p.contexts.root.frame := by
  obtain ⟨-, hrest, -⟩ := List.nodup_append'.mp h.frames_nodup
  obtain ⟨-, -, hdisjoint⟩ := List.nodup_append'.mp hrest
  refine fun e => hdisjoint (a := p.contexts.root.frame) ?_ ?_
  · exact List.mem_map_of_mem (ContextTables.mem_pages.mpr (.inr rfl))
  · rw [List.mem_singleton, e]

/-- nor is it the table of a bus -/
theorem root_ne_table (h : p.Holds m k) {b : Nat} (hb : b < 256) {q : PhysAddr}
    (hq : p.contexts.table? k.memory b = some q) : q.frame ≠ p.contexts.root.frame := fun e =>
  h.sound.apart b hb (hq.trans (congrArg some ((h.sound.isPage hb hq).eq_of_frame h.sound.root e)))

end Holds

/-! ## steps that take no page -/

namespace Stays

/-- no page changes hands, and the root stays as it is -/
theorem of_root {j : Machine σ} (h : p.Stays m k n) (hs : n.Spent [] j)
    (hroot : ∀ a : PhysAddr, a.frame = p.contexts.root.frame → j.memory.read a = n.memory.read a)
    (hu : ∀ u : Remapper, u.Sound n → u.Sound j) : p.Stays m k j := by
  have htables : ∀ b < 256, p.contexts.table? j.memory b = p.contexts.table? n.memory b := fun b hb =>
    ContextTables.table?_congr h.sound.root hb hroot
  have hpages : p.pages j.memory = p.pages n.memory := by
    unfold pages
    rw [ContextTables.pages_eq, ContextTables.pages_eq, ContextTables.tables_congr htables]
  refine ⟨⟨?_, (h.sound.of_root hroot).1, h.interrupts, fun u hin => hu u (h.units u hin), h.windows⟩,
    fun b hb => (htables b hb).trans (h.tables b hb)⟩
  rw [hpages, ← List.append_nil (p.pages n.memory)]
  exact h.spent.trans hs

/-- an address that is written to lies elsewhere -/
theorem store {a : PhysAddr} (h : p.Stays m k n) (ha : a.frame ≠ p.contexts.root.frame) (w : Word) :
    p.Stays m k (n.store a w) :=
  h.of_root (.store n a w) (fun _ hb => Memory.read_write_other (fun hs => ha (hs.1.trans hb)) n.memory w)
    fun _ hu => hu.of_rings rfl

/-- whatever is asked of a unit, its platform holds what it held -/
theorem upholds (hu : u ∈ p.units) : u.Upholds (p.Stays m k) where
  sound h := h.units u hu
  accessed h ha := h.of_root (.accessed ha) (fun _ _ => by rw [ha.memory]) fun _ hv => hv.of_rings ha.rings
  noted h he := h.of_root (.noteAll _ he) (fun _ _ => rfl) fun _ hv => hv.of_rings rfl
  register h ha := h.store (fun e => h.root_fresh (e ▸ h.windows u hu _ ha)) _
  slot h hq ha := h.store (fun e => h.root_ne_queue hu hq (ha ▸ e)) _
  ring h _ hf := h.of_root (.idle rfl ⟨[], .refl rfl, nofun⟩) (fun _ _ => rfl) fun _ hv => hv.moved hf

theorem forM_units {us : List Remapper} {f : Remapper → Act σ ε Unit} (hin : ∀ u ∈ us, u ∈ p.units)
    (hf : ∀ u ∈ p.units, (f u).Keeps (Bears (p.Stays m k)) env) : (us.forM f).Keeps (Bears (p.Stays m k)) env := by
  induction us with
  | nil => exact Remapper.Upholds.refl
  | cons u us ih =>
    rw [List.forall_mem_cons] at hin
    exact Remapper.Upholds.bind (hf u hin.1) fun _ => ih hin.2

theorem startUnits : p.startUnits.Keeps (Bears (p.Stays m k)) env :=
  forM_units (fun _ => id) fun _ hu => (upholds hu).start _ _ _

theorem invalidateDomain (domain : UInt16) : (p.invalidateDomain domain).Keeps (Bears (p.Stays m k)) env :=
  forM_units (fun _ => id) fun _ hu => (upholds hu).invalidate _ _

theorem handleFaults : (p.handleFaults : Act σ ε Nat).Keeps (Bears (p.Stays m k)) env := by
  have hfold : ∀ us : List Remapper, (∀ u ∈ us, u ∈ p.units) → ∀ drained,
      (us.foldlM (fun n u => do pure (n + (← u.handleFaults))) drained : Act σ ε Nat).Keeps
        (Bears (p.Stays m k)) env := by
    intro us hin
    induction us with
    | nil => exact fun _ => Remapper.Upholds.refl
    | cons u us ih =>
      rw [List.forall_mem_cons] at hin
      intro drained
      rw [List.foldlM_cons]
      exact Remapper.Upholds.bind (Remapper.Upholds.bind (upholds hin.1).handleFaults fun _ =>
        Remapper.Upholds.refl) fun _ => ih hin.2 _
  exact hfold p.units (fun _ => id) 0

/-- an entry is written, in a table that is not the root -/
theorem entered {table : PhysAddr} {i : Nat} {w : EntryWords} {c : Cleaner} {x : Act σ ε Unit} (h : p.Stays m k n)
    (hx : x.Keeps (Spent []) env) (hrun : ∃ j, x env n = .ok () j ∧ n.Entered table i w c j)
    (hne : table.frame ≠ p.contexts.root.frame) : p.Stays m k (x.after env n) := by
  obtain ⟨j, hj, he⟩ := hrun
  have hs := hx n
  rw [Act.after_of_ok hj] at hs ⊢
  exact h.of_root hs (fun a ha => he.elsewhere a fun e => hne (e.symm.trans ha)) fun _ hu => hu.of_rings he.quiet.rings

theorem routeInterrupt (i : Nat) (r : InterruptRoute) : (p.routeInterrupt i r).Keeps (Bears (p.Stays m k)) env := by
  unfold Platform.routeInterrupt
  split
  · refine Remapper.Upholds.bind (fun j h => ?_) fun _ => forM_units (fun _ => id) fun _ hu =>
      (upholds hu).invalidateInterrupts true
    unfold InterruptTable.set
    by_cases hi : interruptEntries ≤ i
    · rw [if_pos hi]
      exact h
    · rw [if_neg hi]
      exact h.entered (TableEntry.spends_set _ _ _)
        (TableEntry.set_entered h.interrupts (Nat.lt_of_not_le hi) p.interruptTable.cleaner env) h.root_ne_interrupts
  · exact Remapper.Upholds.refl

end Stays

/-! ## assignments and other calls -/

namespace Holds

section
variable (h : p.Holds m k) (ha : env.Alone) (hh : env.Honest)
include h

theorem tables_live : ∀ i ∈ p.contexts.frames k.memory, i ∈ k.live := by
  rintro i ⟨q, hq, rfl⟩
  exact (h.spent.live _).mpr (.inl (List.mem_map_of_mem (List.mem_append_right _ (List.mem_append_left _ hq))))

include ha hh

/-- the table of a bus is there, or a page is taken for it, or there is none -/
theorem tableFor (r : RequesterId) : ∃ n, p.Holds m n ∧
    (∀ b < 256, b ≠ r.bus → p.contexts.table? n.memory b = p.contexts.table? k.memory b) ∧
    ((∃ e, p.contexts.tableFor r.bus env k = .error e n) ∨
      ∃ table, p.contexts.tableFor r.bus env k = .ok table n ∧ p.contexts.table? n.memory r.bus = some table) := by
  cases ht : p.contexts.table? k.memory r.bus with
  | some table => exact ⟨k, h, fun _ _ _ => rfl, .inr ⟨table, ContextTables.tableFor_some ht, ht⟩⟩
  | none =>
    rw [ContextTables.tableFor_none ht, Act.bind_apply]
    obtain ⟨client, hclient⟩ := ha k
    cases hs : env.supply k with
    | mk j offer =>
      obtain rfl : j = { k with client } := by rw [← hclient, hs]
      cases offer with
      | none =>
        rw [Act.allocOr_none hs]
        have hstays : p.Stays m k (({ k with client } : Machine σ).note .exhausted) :=
          h.stays.of_root ((Spent.client k client).trans (.note _ trivial)) (fun _ _ => rfl) fun _ hu => hu.of_rings rfl
        exact ⟨_, hstays.toHolds, fun b hb _ => hstays.tables b hb, .inl ⟨_, rfl⟩⟩
      | some q =>
        obtain ⟨hq, hfree⟩ := hh k q (by rw [hs])
        rw [hs] at hfree
        rw [Act.allocOr_some hs]
        have hfresh : q.frame ∉ p.contexts.frames k.memory := fun hin =>
          Machine.ne_of_isLive hfree (h.tables_live _ hin) rfl
        obtain ⟨n, hn, ho⟩ := ContextTables.Sound.opened (m := { k with client }) h.sound h.tables_live hq hfree ht env
        have hspent : k.Spent [q] n := (Spent.client k client).trans
          (ContextTables.Sound.spends_offer (m := { k with client }) h.sound h.tables_live r.bus_lt hq hfree ht hn)
        have hperm : (p.pages k.memory ++ [q]).Perm (p.pages n.memory) := by
          have hcontexts := h.sound.pages_perm ho.sound r.bus_lt ht ho.table hfresh ho.tables
          have hmiddle : (q :: p.pages k.memory).Perm (p.units.filterMap Remapper.page? ++
            (q :: p.contexts.pages k.memory ++ [p.interruptTable.base])) := List.perm_middle.symm
          exact ((List.perm_append_singleton q _).trans hmiddle).trans ((hcontexts.symm.append_right _).append_left _)
        refine ⟨n, ⟨(h.spent.trans hspent).perm hperm, ho.sound, h.interrupts, fun u hu => ?_, h.windows⟩, ho.tables,
          .inr ⟨q, hn, ho.table⟩⟩
        exact (h.units u hu).of_rings ho.quiet.rings

/-- what is done to the tables when a requester is attached or blocked -/
theorem enter (a : Attachment) (rid : Nat) (enable : Bool) : p.Holds m ((p.enter a rid enable).after env k) ∧
    ∀ b < 256, p.contexts.table? ((p.enter a rid enable).after env k).memory b = p.contexts.table? k.memory b ∨
      enable = true ∧ b = RequesterId.bus rid.toUInt16 := by
  have hbus := RequesterId.bus_lt rid.toUInt16
  unfold Platform.enter
  split
  · obtain ⟨n, hn, htables, hres⟩ := h.tableFor ha hh rid.toUInt16
    have hstays : ∀ j, p.Stays m n j → p.Holds m j ∧ ∀ b < 256,
        p.contexts.table? j.memory b = p.contexts.table? k.memory b ∨ enable = true ∧ b = RequesterId.bus rid.toUInt16 :=
      fun j hj => ⟨hj.toHolds, fun b hb => or_iff_not_imp_right.mpr fun hne => (hj.tables b hb).trans
        (htables b hb fun e => hne ⟨‹_›, e⟩)⟩
    rcases hres with ⟨e, hrun⟩ | ⟨table, hrun, ht⟩
    · rw [Act.after_of_error (ContextTables.attach_error hrun)]
      exact hstays n hn.stays
    · unfold Act.after
      rw [ContextTables.attach_entry hrun]
      exact hstays _ (hn.stays.entered (TableEntry.spends_replace _ _ _) (TableEntry.replace_entered
        (hn.sound.isPage hbus ht) (RequesterId.devfn_lt _) p.contexts.cleaner env) (hn.root_ne_table hbus ht))
  · cases ht : p.contexts.table? k.memory (RequesterId.bus rid.toUInt16) with
    | none =>
      rw [Act.after_of_ok (ContextTables.detach_none ht)]
      exact ⟨h, fun _ _ => .inl rfl⟩
    | some table =>
      unfold Act.after
      rw [ContextTables.detach_some ht]
      have hstays := h.stays.entered (TableEntry.spends_clear _ _) (TableEntry.clear_entered (ε := RemapError)
        (h.sound.isPage hbus ht) (RequesterId.devfn_lt rid.toUInt16) p.contexts.cleaner env) (h.root_ne_table hbus ht)
      exact ⟨hstays.toHolds, fun b hb => .inl (hstays.tables b hb)⟩

/-- a table is taken for the bus of a requester that is attached, if it is the first there -/
theorem configure (base : Word) (a : Attachment) (rid : Nat) (enable : Bool) :
    p.Holds m ((p.configure base a rid enable).after env k) ∧ ∀ b < 256,
      p.contexts.table? ((p.configure base a rid enable).after env k).memory b = p.contexts.table? k.memory b ∨
        enable = true ∧ b = RequesterId.bus rid.toUInt16 := by
  rcases p.configure_cases base a rid enable env k with ⟨e, -, hrun⟩ | ⟨u, hu, -, hrun⟩
  · rw [Act.after_of_error hrun]
    exact ⟨h, fun _ _ => .inl rfl⟩
  · have hafter : (p.configure base a rid enable).after env k
        = (p.enter a rid enable >>= fun _ => u.invalidateContexts).after env k := by
      unfold Act.after
      rw [hrun]
    have henter := h.enter ha hh a rid enable
    rw [hafter, Act.after_bind]
    cases hr : p.enter a rid enable env k with
    | error e n =>
      rw [Act.after_of_error hr] at henter
      exact henter
    | ok _ n =>
      rw [Act.after_of_ok hr] at henter
      have hstays : p.Stays m n (u.invalidateContexts.after env n) :=
        (Stays.upholds (unit?_mem hu)).invalidate .global 0 n henter.1.stays
      refine ⟨hstays.toHolds, fun b hb => ?_⟩
      rw [hstays.tables b hb]
      exact henter.2 b hb

end

end Holds

end Platform

/-- what a platform can be asked for -/
inductive PlatformCall where
  /-- start every unit once more -/
  | start
  | configure (base : Word) (a : Attachment) (rid : Nat) (enable : Bool)
  | routeInterrupt (i : Nat) (r : InterruptRoute)
  | invalidateDomain (domain : UInt16)
  | handleFaults

namespace PlatformCall

def perform (p : Platform) : PlatformCall → Act σ RemapError Unit
  | start => p.startUnits
  | configure base a rid enable => p.configure base a rid enable
  | routeInterrupt i r => p.routeInterrupt i r
  | invalidateDomain domain => p.invalidateDomain domain
  | handleFaults => (fun _ => ()) <$> p.handleFaults

/-- the bus on which a device is attached -/
def bus? : PlatformCall → Option Nat
  | configure _ _ rid true => some (RequesterId.bus rid.toUInt16)
  | _ => none

end PlatformCall

namespace Platform
variable {p p' : Platform} {m k n : Machine σ} {env : Env σ} {cs : List PlatformCall}

/-- from `m` to `n` there were the calls `cs`, each with its own allocator, however they ended -/
inductive Called (p : Platform) (m : Machine σ) : List PlatformCall → Machine σ → Prop
  | refl : Called p m [] m
  | call {cs : List PlatformCall} {k : Machine σ} (env : Env σ) (c : PlatformCall) : Called p m cs k →
      env.Alone → env.Honest → Called p m (cs ++ [c]) ((c.perform p).after env k)

namespace Holds

/-- a call takes one table at most, for the bus that it attaches a device on -/
theorem call (h : p.Holds m k) (ha : env.Alone) (hh : env.Honest) (c : PlatformCall) :
    p.Holds m ((c.perform p).after env k) ∧ ∀ b < 256,
      p.contexts.table? ((c.perform p).after env k).memory b = p.contexts.table? k.memory b ∨ c.bus? = some b := by
  have hstays : ∀ {n}, p.Stays m k n → p.Holds m n ∧ ∀ b < 256,
      p.contexts.table? n.memory b = p.contexts.table? k.memory b ∨ c.bus? = some b := fun hn =>
    ⟨hn.toHolds, fun b hb => .inl (hn.tables b hb)⟩
  cases c with
  | start => exact hstays (Stays.startUnits k h.stays)
  | configure base a rid enable =>
    obtain ⟨hholds, htables⟩ := h.configure ha hh base a rid enable
    refine ⟨hholds, fun b hb => (htables b hb).imp_right ?_⟩
    rintro ⟨rfl, rfl⟩
    rfl
  | routeInterrupt i r => exact hstays (Stays.routeInterrupt i r k h.stays)
  | invalidateDomain domain => exact hstays (Stays.invalidateDomain domain k h.stays)
  | handleFaults =>
    unfold PlatformCall.perform
    rw [Act.after_map]
    exact hstays (Stays.handleFaults k h.stays)

/-- so after any calls there is a table for each bus that was attached to, and for no other -/
theorem calls (h : p.Holds m k) (hc : p.Called k cs n) : p.Holds m n ∧ ∀ b < 256,
    p.contexts.table? n.memory b = p.contexts.table? k.memory b ∨ b ∈ cs.filterMap PlatformCall.bus? := by
  induction hc with
  | refl => exact ⟨h, fun _ _ => .inl rfl⟩
  | call env c _ ha hh ih =>
    obtain ⟨hholds, htables⟩ := ih
    obtain ⟨hcall, htable⟩ := hholds.call ha hh c
    refine ⟨hcall, fun b hb => ?_⟩
    rw [List.filterMap_append, List.mem_append]
    rcases htable b hb with hsame | hbus
    · rw [hsame]
      exact (htables b hb).imp_right .inl
    · exact .inr (.inr (List.mem_filterMap.mpr ⟨c, List.mem_singleton.mpr rfl, hbus⟩))

end Holds

/-! ## bring-up -/

section
variable (ha : env.Alone) (hh : env.Honest)
include ha hh

/-- the shared tables take two pages, and none if one of them cannot be had -/
theorem create_spends (config : RemapConfig) (cleaner : Cleaner) (m : Machine σ) :
    (∃ e n ps, create config cleaner env m = .error e n ∧ m.Restored ps n) ∨
      ∃ p n, create config cleaner env m = .ok p n ∧ p.Holds m n ∧ p.units = [] ∧ p.contexts.tables n.memory = [] := by
  rcases Act.made_spends ha hh RemapError.insufficientMemory cleaner (ContextTables.mk · cleaner) m with
    ⟨n, hn, hs, -⟩ | ⟨root, k, hk, hs, htook⟩
  · have hn : ContextTables.create cleaner env m = .error (.failed .insufficientMemory) n := hn
    have hrun : create config cleaner env m = .error (.failed .insufficientMemory) n := by
      unfold create
      rw [Act.bind_apply, hn]
    exact .inl ⟨_, n, [], hrun, hs.restored⟩
  have hk : ContextTables.create cleaner env m = .ok ⟨root, cleaner⟩ k := hk
  -- the root stays blank, whether there is another page or not
  have hblank : ∀ n : Machine σ, k.Leaves n → (ContextTables.mk root cleaner).Sound n.memory ∧
      (ContextTables.mk root cleaner).tables n.memory = [] := fun n hn => ContextTables.blank_of_took htook hn cleaner
  unfold create
  rw [Act.bind_apply, hk]
  simp only
  rw [Act.bind_apply]
  rcases Act.made_spends ha hh RemapError.insufficientMemory cleaner (InterruptTable.mk · cleaner) k with
    ⟨n, hn, hs', hleaves⟩ | ⟨base, n, hn, hs', htook'⟩
  · have hn : InterruptTable.create cleaner env k = .error (.failed .insufficientMemory) n := hn
    have hpages : (ContextTables.mk root cleaner).pages n.memory = [root] := by
      rw [ContextTables.pages_eq, (hblank n hleaves).2]
      rfl
    have hdrop : ((ContextTables.mk root cleaner).drop : Act σ RemapError Unit) env n = .ok () (n.giveBackAll [root]) := by
      unfold ContextTables.drop
      rw [Act.bind_apply, Act.view_apply]
      simp only
      rw [hpages]
      exact Tree.forM_freePage env _ n
    refine .inl ⟨.failed .insufficientMemory, n.giveBackAll [root], [root], ?_, (hs.trans hs').restored⟩
    rw [Act.orElseRun_of_error hn hdrop]
  · have hn : InterruptTable.create cleaner env k = .ok ⟨base, cleaner⟩ n := hn
    obtain ⟨hsound, htables⟩ := hblank n htook'.leaves
    refine .inr ⟨⟨config, cleaner, ⟨root, cleaner⟩, ⟨base, cleaner⟩, [], false⟩, n, by rw [Act.orElseRun_of_ok hn]; rfl,
      ⟨?_, hsound, htook'.page, fun u hu => absurd hu List.not_mem_nil, fun u hu => absurd hu List.not_mem_nil⟩,
      rfl, htables⟩
    unfold pages
    rw [ContextTables.pages_eq, htables]
    exact hs.trans hs'

omit ha hh in
/-- a unit that is added brings the page of its queue -/
theorem pages_added (p : Platform) (u : Remapper) {M M' : Memory}
    (h : ∀ b < 256, p.contexts.table? M' b = p.contexts.table? M b) :
    (p.pages M ++ u.page?.toList).Perm (pages { p with units := p.units ++ [u] } M') := by
  have hunit : [u].filterMap Remapper.page? = u.page?.toList := by
    cases hu : u.page? <;> simp [hu]
  unfold pages
  rw [ContextTables.pages_eq, ContextTables.pages_eq, ContextTables.tables_congr h, List.filterMap_append,
    hunit, List.append_assoc, List.append_assoc (p.units.filterMap Remapper.page?)]
  exact List.perm_append_comm.append_left _

/-- a unit that cannot be added leaves the platform as it was -/
theorem Holds.addUnit {registers : RegisterFile} (h : p.Holds m k) (hw : ∀ i ∈ registers.window, i ∈ m.live)
    (base : Word) :
    (∃ e n, p.addUnit base registers env k = .error e n ∧ p.Holds m n) ∨
      ∃ u n, p.addUnit base registers env k = .ok { p with units := p.units ++ [u] } n ∧ u.site = ⟨base, registers⟩ ∧
        Holds { p with units := p.units ++ [u] } m n ∧ p.contexts.tables n.memory = p.contexts.tables k.memory := by
  have hroot : ∀ {n : Machine σ}, k.Leaves n → ∀ a : PhysAddr, a.frame = p.contexts.root.frame →
      n.memory.read a = k.memory.read a := fun hn a hf =>
    hn.memory a (hf ▸ h.tables_live _ ContextTables.root_mem)
  unfold Platform.addUnit
  by_cases hfull : maxUnits ≤ p.units.length
  · rw [if_pos hfull]
    exact .inl ⟨_, k, rfl, h⟩
  rw [if_neg hfull]
  rcases Remapper.create_spends ha hh base registers p.config.queued p.cleaner k with
    ⟨e, n, hn, hs, hleaves⟩ | ⟨u, n, hn, hsite, hs, hleaves, hsound⟩
  · refine .inl ⟨e, n, ?_, (h.stays.of_root hs (hroot hleaves) hleaves.units).toHolds⟩
    show (Remapper.create base registers p.config.queued p.cleaner >>= _) env k = _
    rw [Act.bind_apply, hn]
  · obtain ⟨line, hline⟩ : ∃ line, "Remapping unit " ++ hex base.toNat ++ " uses "
      ++ (if u.isQueued then "queued" else "register") ++ " invalidation" = line := ⟨_, rfl⟩
    have hnoted : k.Spent u.page?.toList (n.note (.logged .debug line)) := by
      rw [← List.append_nil u.page?.toList]
      exact hs.trans (.note n trivial)
    have hn' : k.Leaves (n.note (.logged .debug line)) := ⟨hleaves.memory, fun v hv => hleaves.units v hv⟩
    have htables : ∀ b < 256, p.contexts.table? (n.note (.logged .debug line)).memory b
        = p.contexts.table? k.memory b := fun b hb => ContextTables.table?_congr h.sound.root hb (hroot hn')
    refine .inr ⟨u, n.note (.logged .debug line), ?_, hsite, ⟨(h.spent.trans hnoted).perm (p.pages_added u htables),
      (h.sound.of_root (hroot hn')).1, h.interrupts, fun v hv => ?_, fun v hv => ?_⟩, ContextTables.tables_congr htables⟩
    · show (Remapper.create base registers p.config.queued p.cleaner >>= _) env k = _
      rw [Act.bind_apply, hn, ← hline]
      rfl
    · rcases List.mem_append.mp hv with hv | hv
      · exact hn'.units v (h.units v hv)
      · rw [List.mem_singleton.mp hv]
        exact hsound.of_rings rfl
    · rcases List.mem_append.mp hv with hv | hv
      · exact h.windows v hv
      · rw [List.mem_singleton.mp hv]
        have hregisters : u.registers = registers := congrArg UnitSite.registers hsite
        rw [hregisters]
        exact hw

/-- units are added one after the other; if one cannot be added, all that was taken is given back -/
theorem Holds.addUnits {sites : List UnitSite} (h : p.Holds m k)
    (hw : ∀ s ∈ sites, ∀ i ∈ s.registers.window, i ∈ m.live) :
    (∃ e n ps, SecondStage.addUnits p sites env k = .error e n ∧ m.Restored ps n) ∨
      ∃ p' n, SecondStage.addUnits p sites env k = .ok p' n ∧ p'.Holds m n ∧
        p'.units.map Remapper.site = p.units.map Remapper.site ++ sites ∧
        p'.contexts.tables n.memory = p.contexts.tables k.memory := by
  induction sites generalizing p k with
  | nil => exact .inr ⟨p, k, rfl, h, (List.append_nil _).symm, rfl⟩
  | cons s sites ih =>
    rw [List.forall_mem_cons] at hw
    unfold SecondStage.addUnits
    rw [Act.bind_apply]
    rcases h.addUnit ha hh hw.1 s.base with ⟨e, n, hn, hholds⟩ | ⟨u, j, hj, hsite, hholds, htables⟩
    · obtain ⟨j, hj, hrestored⟩ := hholds.drop (ε := RemapError) env
      exact .inl ⟨e, j, _, by rw [Act.orElseRun_of_error hn hj], hrestored⟩
    · rw [Act.orElseRun_of_ok hj]
      have hunits : (p.units ++ [u]).map Remapper.site ++ sites = p.units.map Remapper.site ++ s :: sites := by
        rw [List.map_append, List.map_singleton, List.append_assoc, hsite]
        rfl
      rw [← hunits]
      rcases ih hholds hw.2 with hfail | ⟨p', n, hn, hholds', hsites, htables'⟩
      · exact .inl hfail
      · exact .inr ⟨p', n, hn, hholds', hsites, htables'.trans htables⟩

end

end Platform

namespace SecondStage
variable {env : Env σ} {m n : Machine σ} {config : BootConfig} {cleaner : Cleaner} {sites : List UnitSite}

/-- a unit that uses its queue has a page for it -/
theorem length_queues (us : List Remapper) : (us.filterMap Remapper.page?).length = us.countP (·.isQueued) := by
  rw [List.length_filterMap_eq_countP]
  refine List.countP_congr fun u _ => ?_
  unfold Remapper.page? Remapper.isQueued
  rw [Option.isSome_map]

theorem bringUp_holds (ha : env.Alone) (hh : env.Honest) (config : BootConfig) (cleaner : Cleaner)
    (hw : ∀ s ∈ sites, ∀ i ∈ s.registers.window, i ∈ m.live) :
    (∃ e n ps, bringUp config cleaner sites env m = .error e n ∧ m.Restored ps n) ∨
      ∃ s n, bringUp config cleaner sites env m = .ok s n ∧ s.platform.units.map Remapper.site = sites ∧
        s.platform.Holds m n ∧ s.platform.contexts.tables n.memory = [] := by
  obtain ⟨m', hm'⟩ : ∃ m', { m with splitExecute := config.splitExecute } = m' := ⟨_, rfl⟩
  have hrestored : ∀ {ps n}, m'.Restored ps n → m.Restored ps n := by
    rw [← hm']
    exact fun h => ⟨h.nodup, h.live, h.logs⟩
  have hspent : ∀ {ps n}, m'.Spent ps n → m.Spent ps n := by
    rw [← hm']
    exact fun h => ⟨h.nodup, h.fresh, h.live, h.logs⟩
  have hw' : ∀ s ∈ sites, ∀ i ∈ s.registers.window, i ∈ m'.live := by
    rw [← hm']
    exact hw
  unfold bringUp
  rw [Act.bind_apply, Act.change_apply]
  simp only
  rw [hm', Act.bind_apply]
  unfold Act.mapError
  rcases Platform.create_spends ha hh config.remap cleaner m' with
    ⟨e, n, ps, hn, hr⟩ | ⟨p₀, k, hk, hholds, hunits, htables⟩
  · simp only [Act.bind_apply, hn]
    exact .inl ⟨_, n, ps, rfl, hrestored hr⟩
  rcases hholds.addUnits ha hh hw' with ⟨e, n, ps, hn, hr⟩ | ⟨p, j, hj, hholds', hsites, htables'⟩
  · simp only [Act.bind_apply, hk, hn]
    exact .inl ⟨_, n, ps, rfl, hrestored hr⟩
  obtain ⟨q, hq⟩ : ∃ q, p.decideRemapping = q := ⟨_, rfl⟩
  have hdecided : q.Holds m' j := hq ▸ ⟨hholds'.spent, hholds'.sound, hholds'.interrupts, hholds'.units, hholds'.windows⟩
  have hstart : q.Stays m' j (q.startUnits.after env j) := Platform.Stays.startUnits j hdecided.stays
  simp only [Act.bind_apply, hk, hj, hq]
  cases hrun : q.startUnits env j with
  | error e n =>
    rw [Act.after_of_error hrun] at hstart
    obtain ⟨l, hl, hr⟩ := hstart.toHolds.drop (ε := RemapError) env
    rw [Act.orElseRun_of_error hrun hl]
    exact .inl ⟨_, l, _, rfl, hrestored hr⟩
  | ok _ n =>
    rw [Act.after_of_ok hrun] at hstart
    rw [Act.orElseRun_of_ok hrun]
    have hlogged : q.Stays m' j (n.note (.logged .info (reportLine config q))) :=
      hstart.of_root (.note n trivial) (fun _ _ => rfl) fun _ hu => hu.of_rings rfl
    refine .inr ⟨⟨config, cleaner, q⟩, _, rfl, ?_, ⟨hspent hlogged.spent, hlogged.sound, hlogged.interrupts,
      hlogged.units, fun u hu i hi => ?_⟩, ?_⟩
    · rw [hunits] at hsites
      exact hq ▸ hsites
    · have := hlogged.windows u hu i hi
      rwa [← hm'] at this
    · show q.contexts.tables _ = []
      rw [ContextTables.tables_congr hlogged.tables, ← htables, ← htables', ← hq]
      rfl

/-- bring-up, any calls, and the drop. A bring-up that fails gives back all that it took, each page once. One
that succeeds took two pages, and one for each unit that uses its queue; later calls add a table for each bus that
a device is attached on; and all of them are given back, each once, when the platform is dropped -/
theorem bringUp_balances (ha : env.Alone) (hh : env.Honest) (config : BootConfig) (cleaner : Cleaner)
    (hw : ∀ s ∈ sites, ∀ i ∈ s.registers.window, i ∈ m.live) :
    (∃ e n ps, bringUp config cleaner sites env m = .error e n ∧ m.Restored ps n) ∨
      ∃ s n ps, bringUp config cleaner sites env m = .ok s n ∧ s.platform.units.map Remapper.site = sites ∧
        m.Spent ps n ∧ ps.length = 2 + s.platform.units.countP (·.isQueued) ∧
        ∀ cs k, s.platform.Called n cs k →
          m.Spent (ps ++ s.platform.contexts.tables k.memory) k ∧
          (s.platform.contexts.tables k.memory).length ≤ (cs.filterMap PlatformCall.bus?).dedup.length ∧
          ∀ env' : Env σ, ∃ j, (s.drop : Act σ RemapError Unit) env' k = .ok () j ∧
            m.Restored (ps ++ s.platform.contexts.tables k.memory) j := by
  rcases bringUp_holds ha hh config cleaner hw with hfail | ⟨s, n, hn, hsites, hholds, htables⟩
  · exact .inl hfail
  refine .inr ⟨s, n, s.platform.pages n.memory, hn, hsites, hholds.spent, ?_, fun cs k hcalls => ?_⟩
  · unfold Platform.pages
    rw [ContextTables.pages_eq, htables, List.length_append, length_queues]
    exact Nat.add_comm _ 2
  obtain ⟨hk, htable⟩ := hholds.calls hcalls
  have hperm : (s.platform.pages k.memory).Perm
    (s.platform.pages n.memory ++ s.platform.contexts.tables k.memory) := s.platform.pages_perm htables
  refine ⟨hk.spent.perm hperm, ContextTables.length_tables_le fun b hb hsome => ?_, fun env' => ?_⟩
  · refine (htable b hb).resolve_left fun hsame => ?_
    rw [hsame, ContextTables.tables_eq_nil_iff.mp htables b hb] at hsome
    exact Bool.false_ne_true hsome
  · obtain ⟨j, hj, hr⟩ := hk.drop (ε := RemapError) env'
    exact ⟨j, hj, hr.perm hperm⟩

/-- a platform that comes up does so as a second stage too -/
theorem bringUp_of_platform {p : Platform} (h : Platform.bringUp config.remap cleaner sites env
      { m with splitExecute := config.splitExecute } = .ok p n) :
    bringUp config cleaner sites env m = .ok ⟨config, cleaner, p⟩ (n.note (.logged .info (reportLine config p))) := by
  obtain ⟨p₀, k, p₁, j, hp₀, hp₁, hn, rfl⟩ := Platform.bringUp_steps h
  unfold bringUp
  rw [Act.bind_apply, Act.change_apply]
  simp only
  rw [Act.bind_apply]
  unfold Act.mapError
  simp only [Act.bind_apply, hp₀, hp₁, Act.orElseRun_of_ok hn]
  rfl

/-- a platform with one unit, which uses its queue, holds three pages, and one more once a device is attached -/
theorem bringUp_balances_unit : ∃ (s : SecondStage) (n k j : Machine Unit) (ps qs : List PhysAddr),
    bringUp {} .platform [⟨0xfed90000, .device 0⟩] Platform.fourPages (Remapper.unitPair {}) = .ok s n ∧
      (Remapper.unitPair {}).Spent ps n ∧ ps.length = 3 ∧
      (s.platform.configure 0xfed90000 ⟨⟨0x12345000⟩, 4, 7⟩ 0x310 true).after Platform.fourPages n = k ∧
      (Remapper.unitPair {}).Spent (ps ++ qs) k ∧ qs.length ≤ 1 ∧
      (s.drop : Act Unit RemapError Unit) Platform.fourPages k = .ok () j ∧ (Remapper.unitPair {}).Restored (ps ++ qs) j := by
  have hc := Remapper.disjoint_default
  have hnew := Remapper.unitPair_new hc.apart 0 0 (by decide)
  obtain ⟨p, m, u, hup, hunits, hu, -⟩ := Platform.exists_bringUp (m := { Remapper.unitPair {} with splitExecute := false })
    (BootConfig.remap {}) 0xfed90000 (Platform.unitPair_few {}) hnew (Nat.zero_le 2) (by decide)
    fun u k hu _ => hu.settles ⟨by decide, by decide⟩ fun i hi => by
      rw [hc.faults _ (by decide)] at hi
      cases hi
  have hrun : bringUp {} .platform [⟨0xfed90000, .device 0⟩] Platform.fourPages (Remapper.unitPair {})
      = .ok ⟨{}, .platform, p⟩ _ := bringUp_of_platform hup
  have hw : ∀ s ∈ [(⟨0xfed90000, .device 0⟩ : UnitSite)], ∀ i ∈ s.registers.window, i ∈ (Remapper.unitPair {}).live := by
    intro s hs i hi
    rw [List.mem_singleton.mp hs] at hi
    cases hi
  rcases bringUp_balances Platform.fourPages_alone Platform.fourPages_honest {} .platform hw with
    ⟨e, n, ps, hn, -⟩ | ⟨s, n, ps, hn, -, hs, hlen, hcalls⟩
  · rw [hrun] at hn
    cases hn
  have hplatform : s.platform = p := by
    rw [hrun] at hn
    injection hn with e
    rw [← e]
  have hqueued : u.isQueued = true := hu.isQueued
  rw [hplatform, hunits, List.countP_singleton, if_pos hqueued] at hlen
  obtain ⟨hspent, hone, hdrop⟩ := hcalls _ _ (.call Platform.fourPages (.configure 0xfed90000 ⟨⟨0x12345000⟩, 4, 7⟩ 0x310 true)
    .refl Platform.fourPages_alone Platform.fourPages_honest)
  obtain ⟨j, hj, hr⟩ := hdrop Platform.fourPages
  exact ⟨s, n, _, j, ps, _, hn, hs, hlen, rfl, hspent, hone, hj, hr⟩

end SecondStage

end NestedPaging
