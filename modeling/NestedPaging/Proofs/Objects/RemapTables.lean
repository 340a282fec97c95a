import NestedPaging.Proofs.Objects.MidOperation

/-!
# Tables of the remapping hardware at work among others

Every operation on context tables or on an interrupt table leaves all objects in order, however it
ends (`Goes`).

* `Machine.Inside p m n`   from `m` to `n` only the page `p` was written to; so does every write of an
                           entry (`TableEntry.inside_replace` and its like);
* `ContextTables.Sound.extend`   a free page becomes the table of a bus that had none;
* `Attaching S w m t n`    an operation under way since `m` of context tables that hold their own pages;
* `Attaching.tableFor`     so it is after others ran while a page was asked for.
-/

namespace NestedPaging

open PhysAddr (IsPage)
open Machine (Deed Deeds)

variable {σ ε α : Type}

/-! ## writes inside a page -/

/-- from `m` to `n` only the page `p` was written to -/
structure Machine.Inside (p : PhysAddr) (m n : Machine σ) : Prop where
  deeds : ∀ {C : Set CellRef} {F : Set Nat}, p.frame ∈ F → Deeds (Machine.Beside C) F m F n
  elsewhere : ∀ a : PhysAddr, a.frame ≠ p.frame → n.memory.read a = m.memory.read a

namespace Machine.Inside
variable {p a : PhysAddr} {m k n : Machine σ} {env : Env σ}

theorem refl (m : Machine σ) : m.Inside p m := ⟨fun _ => .refl, fun _ _ => rfl⟩

theorem trans (h : m.Inside p k) (h' : k.Inside p n) : m.Inside p n :=
  ⟨fun hp => (h.deeds hp).trans (h'.deeds hp), fun a ha => (h'.elsewhere a ha).trans (h.elsewhere a ha)⟩

theorem store (ha : a.frame = p.frame) (w : Word) : (Act.store a w : Act σ ε Unit).Keeps (Inside p) env := by
  refine fun m => ⟨fun hp => (Deed.store (ha ▸ hp)).deeds, fun b hb => ?_⟩
  exact Memory.read_write_other (fun hs => hb (hs.1.symm.trans ha)) m.memory w

theorem noteAll (m : Machine σ) {es : List Event} (he : ∀ e ∈ es, e.Plain) : m.Inside p (m.noteAll es) :=
  ⟨fun _ => (Deed.noteAll m he).deeds, fun _ _ => rfl⟩

theorem clean (c : Cleaner) (a : PhysAddr) (len : Nat) :
    (Act.clean c a len : Act σ ε Unit).Keeps (Inside p) env := by
  intro m
  rw [Act.after_of_ok (Act.clean_apply c a len env m)]
  exact noteAll m (c.plain_events a len m.memory)

theorem bind {x : Act σ ε α} {β : Type} {f : α → Act σ ε β} (hx : x.Keeps (Inside p) env)
    (hf : ∀ a, (f a).Keeps (Inside p) env) : (x >>= f).Keeps (Inside p) env :=
  Act.Keeps.bind (R := Inside p) (fun _ _ _ => trans) hx hf

end Machine.Inside

open Machine (Inside)

namespace TableEntry
variable {p : PhysAddr} {i : Nat} {env : Env σ}

section
variable (hp : IsPage p) (hi : i < 256) (w : EntryWords) (c : Cleaner)
include hp hi

theorem inside_set : ((ofTable p i).set w c : Act σ ε Unit).Keeps (Inside p) env :=
  Inside.bind (Inside.store (frame_hiAddress hp hi) w.hi) fun _ =>
    Inside.bind (Inside.store (frame_address hp hi) w.lo) fun _ => Inside.clean c _ 16

theorem inside_replace : ((ofTable p i).replace w c : Act σ ε Unit).Keeps (Inside p) env := by
  refine Inside.bind (fun m => .refl m) fun old => ?_
  split
  · exact Inside.bind (Inside.store (frame_address hp hi) 0) fun _ =>
      Inside.bind (Inside.clean c _ 16) fun _ => inside_set hp hi w c
  · exact inside_set hp hi w c

omit w in
theorem inside_clear : ((ofTable p i).clear c : Act σ ε Unit).Keeps (Inside p) env :=
  Inside.bind (Inside.store (frame_address hp hi) 0) fun _ =>
    Inside.bind (Inside.store (frame_hiAddress hp hi) 0) fun _ => Inside.clean c _ 16

end

/-- the low word is stored and made visible if it was zero -/
theorem publishLo_apply (e : TableEntry) (lo : Word) (c : Cleaner) (env : Env σ) (m : Machine σ) :
    (e.publishLo lo c : Act σ ε Word) env m = .ok (m.memory.read e.address)
      (if m.memory.read e.address = 0 then
        (m.store e.address lo).noteAll (c.events e.address 16 (m.store e.address lo).memory) else m) := by
  unfold publishLo
  rw [Act.bind_apply, Act.publish_apply]
  simp only
  split
  · unfold TableEntry.clean
    rw [Act.bind_apply, Act.clean_apply]
    rfl
  · rfl

end TableEntry

/-! ## pages that are asked for -/

namespace Act
variable {env : Env σ} {m k : Machine σ} {q : PhysAddr}

theorem allocOr_none (h : env.supply m = (k, none)) (e : ε) (fill : Word) :
    allocOr e fill env m = .error (.failed e) (k.note .exhausted) := by
  simp only [allocOr, allocPage, bind_apply, h, fail_apply]

theorem allocOr_some (h : env.supply m = (k, some q)) (e : ε) (fill : Word) :
    allocOr e fill env m = .ok q (k.take q fill) := by
  simp only [allocOr, allocPage, bind_apply, h, pure_apply]

/-- a page is taken and cleaned by those who make tables of it -/
theorem eq_of_made {n : Machine σ} {e : ε} {c : Cleaner} {f : PhysAddr → α} {t : α} (h : (do
      let page ← allocOr e 0
      clean c page 4096
      pure (f page)) env m = .ok t n) : ∃ k p, env.supply m = (k, some p) ∧ t = f p ∧
      n = (k.take p 0).noteAll (c.events p 4096 (k.take p 0).memory) := by
  obtain ⟨k, offer, hs⟩ : ∃ k offer, env.supply m = (k, offer) := ⟨_, _, rfl⟩
  cases offer with
  | none =>
    rw [bind_apply, allocOr_none hs] at h
    cases h
  | some p =>
    simp only [bind_apply, allocOr_some hs, clean_apply, pure_apply] at h
    injection h with ht hn
    exact ⟨k, p, hs, ht.symm, hn.symm⟩

end Act

namespace ContextTables
variable {t : ContextTables} {env : Env σ} {m : Machine σ} {bus : Nat} {table : PhysAddr}

/-- offer a page as the table of a bus -/
def offer (t : ContextTables) (bus : Nat) (page : PhysAddr) : Act σ RemapError PhysAddr := do
  Act.clean t.cleaner page 4096
  let found ← (TableEntry.ofTable t.root bus).publishLo (page.bits ||| presentBit) t.cleaner
  if found = 0 then pure page
  else
    Act.freePage page
    pure (pageOf found)

theorem tableFor_some (h : t.table? m.memory bus = some table) :
    t.tableFor bus env m = .ok table m := by
  unfold tableFor
  rw [Act.bind_apply, Act.view_apply]
  simp only [h, Act.pure_apply]

theorem tableFor_none (h : t.table? m.memory bus = none) :
    t.tableFor bus env m = (Act.allocOr .insufficientMemory 0 >>= t.offer bus) env m := by
  unfold tableFor
  rw [Act.bind_apply, Act.view_apply]
  simp only [h]
  rfl

variable {r : RequesterId} {a : Attachment} {k : Machine σ}

theorem attach_error {e : Stop RemapError} (h : t.tableFor r.bus env m = .error e k) :
    t.attach r a env m = .error e k := by
  unfold attach
  rw [Act.bind_apply, h]

theorem attach_entry (h : t.tableFor r.bus env m = .ok table k) :
    t.attach r a env m = (TableEntry.ofTable table r.devfn).replace a.words t.cleaner env k := by
  unfold attach
  rw [Act.bind_apply, h]

theorem detach_none (h : t.table? m.memory r.bus = none) : (t.detach r : Act σ ε Unit) env m = .ok () m := by
  unfold detach
  rw [Act.bind_apply, Act.view_apply]
  simp only [h]
  rfl

theorem detach_some (h : t.table? m.memory r.bus = some table) :
    (t.detach r : Act σ ε Unit) env m = (TableEntry.ofTable table r.devfn).clear t.cleaner env m := by
  unfold detach
  rw [Act.bind_apply, Act.view_apply]
  simp only [h]

end ContextTables

/-- a free page becomes the table of a bus that had none -/
theorem ContextTables.Sound.extend {t : ContextTables} {M M' : Memory} {q : PhysAddr} {bus : Nat}
    (h : t.Sound M) (hq : IsPage q) (hfree : q.frame ∉ t.frames M) (hbus : bus < 256)
    (h0 : t.table? M bus = none)
    (hM : ∀ b < 256, M'.read (TableEntry.ofTable t.root b).address
      = if bus = b then q.bits ||| presentBit else M.read (TableEntry.ofTable t.root b).address) :
    t.Sound M' ∧ t.frames M' = insert q.frame (t.frames M) ∧ t.table? M' bus = some q := by
  have hnew : t.table? M' bus = some q := table?_page hq ((hM bus hbus).trans (if_pos rfl))
  have hold : ∀ b < 256, bus ≠ b → t.table? M' b = t.table? M b := by
    intro b hb hne
    unfold table?
    rw [hM b hb, if_neg hne]
  have hout : ∀ b < 256, t.table? M b ≠ some q := fun b hb hin => hfree (table_mem hb hin)
  refine ⟨⟨h.root, fun b hb => ?_, fun b hb b' hb' p hp hp' => ?_, fun b hb hin => ?_⟩, ?_, hnew⟩
  · rw [hM b hb]
    split
    · exact .inr ⟨q, hq, rfl⟩
    · exact h.entry b hb
  · by_cases hne : bus = b
    · subst hne
      obtain rfl := Option.some.inj (hnew.symm.trans hp)
      by_contra hne'
      rw [hold b' hb' hne'] at hp'
      exact hout b' hb' hp'
    · by_cases hne' : bus = b'
      · subst hne'
        obtain rfl := Option.some.inj (hnew.symm.trans hp')
        rw [hold b hb hne] at hp
        exact absurd hp (hout b hb)
      · rw [hold b hb hne] at hp
        rw [hold b' hb' hne'] at hp'
        exact h.once b hb b' hb' p hp hp'
  · by_cases hne : bus = b
    · subst hne
      obtain rfl := Option.some.inj (hnew.symm.trans hin)
      exact hfree root_mem
    · rw [hold b hb hne] at hin
      exact h.apart b hb hin
  · ext i
    constructor
    · rintro ⟨p, hp, rfl⟩
      rcases mem_pages.mp hp with ⟨b, hb, hin⟩ | rfl
      · by_cases hne : bus = b
        · subst hne
          exact .inl (congrArg Addr.frame (Option.some.inj (hin.symm.trans hnew)))
        · rw [hold b hb hne] at hin
          exact .inr (table_mem hb hin)
      · exact .inr root_mem
    · rintro (rfl | ⟨p, hp, rfl⟩)
      · exact table_mem hbus hnew
      · rcases mem_pages.mp hp with ⟨b, hb, hin⟩ | rfl
        · refine table_mem hb ((hold b hb ?_).trans hin)
          rintro rfl
          rw [h0] at hin
          cases hin
        · exact root_mem

/-- a page that is taken and cleaned is none of the tables, so their root stays as it is -/
theorem ContextTables.read_root_take {t : ContextTables} {q : PhysAddr} {j : Machine σ}
    (hfree : q.frame ∉ t.frames j.memory) (es : List Event) {a : PhysAddr} (ha : a.frame = t.root.frame) :
    ((j.take q 0).noteAll es).memory.read a = j.memory.read a := by
  refine (j.memory.read_fill q.frame 0 a).trans (if_neg fun e => hfree ?_)
  rw [e, ha]
  exact root_mem

/-- a page that is offered for a bus without a table becomes its table -/
theorem ContextTables.offer_blank {t : ContextTables} {q : PhysAddr} {bus : Nat} {j k : Machine σ} (env : Env σ)
    (h : t.Sound j.memory) (hb : bus < 256) (hq : IsPage q) (hfree : q.frame ∉ t.frames j.memory)
    (h0 : j.memory.read (TableEntry.ofTable t.root bus).address = 0)
    (hk : (j.take q 0).noteAll (t.cleaner.events q 4096 (j.take q 0).memory) = k) :
    ∃ n, t.offer bus q env (j.take q 0) = .ok q n ∧
      n = (k.store (TableEntry.ofTable t.root bus).address (q.bits ||| presentBit)).noteAll
        (t.cleaner.events (TableEntry.ofTable t.root bus).address 16
          (k.store (TableEntry.ofTable t.root bus).address (q.bits ||| presentBit)).memory) ∧
      t.Sound n.memory ∧ t.frames n.memory = insert q.frame (t.frames j.memory) ∧
      t.table? n.memory bus = some q := by
  obtain ⟨e, he⟩ : ∃ e, TableEntry.ofTable t.root bus = e := ⟨_, rfl⟩
  have hroot : ∀ a : PhysAddr, a.frame = t.root.frame → k.memory.read a = j.memory.read a := fun a ha =>
    hk ▸ read_root_take hfree _ ha
  have hread : k.memory.read e.address = 0 := by
    rw [hroot _ (he ▸ TableEntry.frame_address h.root hb), ← he]
    exact h0
  have hclean := Act.clean_apply (ε := RemapError) t.cleaner q 4096 env (j.take q 0)
  rw [hk] at hclean
  have hword : ∀ b < 256, (k.store e.address (q.bits ||| presentBit)).memory.read
      (TableEntry.ofTable t.root b).address
        = if bus = b then q.bits ||| presentBit else j.memory.read (TableEntry.ofTable t.root b).address := by
    intro b hb'
    by_cases hbus : bus = b
    · rw [if_pos hbus, ← hbus, he]
      exact Memory.read_write_same ⟨rfl, rfl⟩ _ _
    · rw [if_neg hbus, ← hroot _ (TableEntry.frame_address h.root hb')]
      refine Memory.read_write_other (fun hs => hbus ?_) _ _
      rw [← he] at hs
      exact (TableEntry.sameWord_address h.root hb hb').mp hs
  refine ⟨_, ?_, rfl, ?_⟩
  · unfold offer
    rw [Act.bind_apply, hclean, he]
    simp only [Act.bind_apply, TableEntry.publishLo_apply, hread, if_true, Act.pure_apply]
  · rw [he]
    exact h.extend hq hfree hb (table?_blank h0) hword

variable [Registry σ]

namespace Underway
variable {S : Terms} {w : Turn σ} {m k n : Machine σ} {F : Set Nat} {p : PhysAddr}

theorem inside (h : Underway S w m F k) (hi : k.Inside p n) (hp : p.frame ∈ F) : Underway S w m F n :=
  h.deeds (hi.deeds hp)

theorem noteAll (h : Underway S w m F n) {es : List Event} (he : ∀ e ∈ es, e.Plain) :
    Underway S w m F (n.noteAll es) := h.deed (.noteAll n he)

end Underway

section
variable {S : Terms} {env : Env σ} {m : Machine σ}

/-! ## context tables -/

/-- an operation under way since `m` of context tables that hold their own pages only -/
structure Attaching (S : Terms) (w : Turn σ) (m : Machine σ) (t : ContextTables) (n : Machine σ) : Prop where
  underway : Underway S w m (t.frames n.memory) n
  sound : t.Sound n.memory

namespace Attaching
variable {w : Turn σ} {t : ContextTables} {k n : Machine σ} {p : PhysAddr} {bus : Nat} {r : RequesterId}
  {a : Attachment}

/-- an entry of a table is written -/
theorem inside (h : Attaching S w m t k) (hi : k.Inside p n) (hb : bus < 256)
    (hp : t.table? k.memory bus = some p) : Attaching S w m t n := by
  have hne : p.frame ≠ t.root.frame := fun e => h.sound.apart bus hb
    (hp.trans (congrArg some ((h.sound.isPage hb hp).eq_of_frame h.sound.root e)))
  obtain ⟨hsound, hframes⟩ := h.sound.of_root fun a ha =>
    hi.elsewhere a fun e => hne (e.symm.trans ha)
  refine ⟨?_, hsound⟩
  rw [hframes]
  exact h.underway.inside hi (ContextTables.table_mem hb hp)

/-- a free page that was taken becomes the table of the bus, or goes back if others were faster -/
theorem offer (env : Env σ) {q : PhysAddr} {j : Machine σ} (h : Attaching S w m t j) (hb : bus < 256)
    (hq : IsPage q) (hf : j.isLive q = false) : ∃ table n, t.offer bus q env (j.take q 0) = .ok table n ∧
      Attaching S w m t n ∧ t.table? n.memory bus = some table := by
  obtain ⟨k, hk⟩ : ∃ k, (j.take q 0).noteAll (t.cleaner.events q 4096 (j.take q 0).memory) = k := ⟨_, rfl⟩
  obtain ⟨e, he⟩ : ∃ e, TableEntry.ofTable t.root bus = e := ⟨_, rfl⟩
  have hframe : e.address.frame = t.root.frame := by
    rw [← he]
    exact TableEntry.frame_address h.sound.root hb
  have hfree : q.frame ∉ t.frames j.memory := fun hin =>
    Machine.ne_of_isLive hf (h.underway.amid.live _ hin) rfl
  have hu : Underway S w m (insert q.frame (t.frames j.memory)) k := by
    rw [← hk]
    exact (h.underway.deed (.take hq hf)).noteAll (t.cleaner.plain_events _ _ _)
  have hroot : ∀ a : PhysAddr, a.frame = t.root.frame → k.memory.read a = j.memory.read a := fun a ha =>
    hk ▸ ContextTables.read_root_take hfree _ ha
  have hread := hroot _ hframe
  have hclean := Act.clean_apply (ε := RemapError) t.cleaner q 4096 env (j.take q 0)
  rw [hk] at hclean
  by_cases h0 : j.memory.read e.address = 0
  · obtain ⟨n, hn, hmade, hsound, hframes, hnew⟩ := ContextTables.offer_blank env h.sound hb hq hfree (he ▸ h0) hk
    have hstore := hu.deed (.store (a := e.address) (w := q.bits ||| presentBit)
      (.inr (hframe ▸ ContextTables.root_mem)))
    rw [← hframes] at hstore
    refine ⟨q, n, hn, ⟨?_, hsound⟩, hnew⟩
    rw [hmade, he] at hstore ⊢
    exact hstore.noteAll (t.cleaner.plain_events _ _ _)
  · unfold ContextTables.offer
    rw [Act.bind_apply, hclean, he]
    obtain ⟨p, hp, hword⟩ := (h.sound.entry bus hb).resolve_left (he ▸ h0)
    obtain ⟨hsound, hframes⟩ := h.sound.of_root hroot
    have hgive := hu.deed (.giveBack (.inl rfl))
    rw [Set.insert_sdiff_self_of_notMem hfree, ← hframes] at hgive
    simp only [Act.bind_apply, TableEntry.publishLo_apply, hread, h0, if_false]
    refine ⟨_, k.giveBack q, rfl, ⟨hgive, hsound⟩, ?_⟩
    rw [he] at hword
    rw [hword, ContextTables.pageOf_present hp]
    exact ContextTables.table?_page hp ((congrArg _ (congrArg _ he)).trans (hread.trans hword))

/-- the table of a bus, for which others may have to wait -/
theorem tableFor (h : (Operation.attach t r a).Called S env m) (hb : bus < 256) :
    ∃ n, Attaching S ((Operation.attach t r a).turn env) m t n ∧
      ((∃ e, t.tableFor bus env m = .error e n) ∨
        ∃ table, t.tableFor bus env m = .ok table n ∧ t.table? n.memory bus = some table) := by
  have hsound : t.Sound m.memory := h.order.sound _ h.mem
  have hstart : Underway S ((Operation.attach t r a).turn env) m (t.frames m.memory) m := h.start
  cases ht : t.table? m.memory bus with
  | some table =>
    exact ⟨m, ⟨hstart, hsound⟩, .inr ⟨table, ContextTables.tableFor_some ht, ht⟩⟩
  | none =>
    obtain ⟨hu, hres, _⟩ := h.yield hstart hsound
    rw [ContextTables.tableFor_none ht, Act.bind_apply]
    cases hs : env.supply m with
    | mk j offer =>
      have hj : (Operation.attach t r a).others env m = j := congrArg Prod.fst hs
      rw [hj] at hu hres
      have hat : Attaching S ((Operation.attach t r a).turn env) m t j := ⟨hu, hres.sound⟩
      cases offer with
      | none =>
        rw [Act.allocOr_none hs]
        exact ⟨j.note .exhausted, ⟨hat.underway.deed (.note j trivial), hat.sound⟩, .inl ⟨_, rfl⟩⟩
      | some q =>
        obtain ⟨hq, hf⟩ := h.honest m q (by rw [hs])
        rw [hs] at hf
        rw [Act.allocOr_some hs]
        obtain ⟨table, n, hrun, hat', hn⟩ := hat.offer env hb hq hf
        exact ⟨n, hat', .inr ⟨table, hrun, hn⟩⟩

end Attaching

theorem goes_attach {t : ContextTables} {r : RequesterId} {a : Attachment}
    (h : (Operation.attach t r a).Called S env m) :
    Goes S (some ((Operation.attach t r a).turn env)) m ((Operation.attach t r a).after env m) := by
  have hend : ∀ {n}, Attaching S ((Operation.attach t r a).turn env) m t n →
      Goes S (some ((Operation.attach t r a).turn env)) m n := fun hn =>
    h.finish hn.underway hn.sound fun _ => Object.grows_of_none rfl
  show Goes S _ m ((t.attach r a).after env m)
  obtain ⟨n, hn, ⟨e, hrun⟩ | ⟨table, hrun, htable⟩⟩ := Attaching.tableFor h r.bus_lt
  · rw [Act.after_of_error (ContextTables.attach_error hrun)]
    exact hend hn
  · unfold Act.after
    rw [ContextTables.attach_entry hrun]
    exact hend (hn.inside (TableEntry.inside_replace (hn.sound.isPage r.bus_lt htable) r.devfn_lt _ _ n)
      r.bus_lt htable)

theorem goes_detach {t : ContextTables} {r : RequesterId} (h : (Operation.detach t r).Called S env m) :
    Goes S (some ((Operation.detach t r).turn env)) m ((Operation.detach t r).after env m) := by
  have hstart : Attaching S ((Operation.detach t r).turn env) m t m :=
    ⟨h.start, h.order.sound _ h.mem⟩
  have hend : ∀ {n}, Attaching S ((Operation.detach t r).turn env) m t n →
      Goes S (some ((Operation.detach t r).turn env)) m n := fun hn =>
    h.finish hn.underway hn.sound fun _ => Object.grows_of_none rfl
  show Goes S _ m ((t.detach r : Act σ RemapError Unit).after env m)
  cases ht : t.table? m.memory r.bus with
  | none =>
    rw [Act.after_of_ok (ContextTables.detach_none ht)]
    exact hend hstart
  | some table =>
    unfold Act.after
    rw [ContextTables.detach_some ht]
    exact hend (hstart.inside (TableEntry.inside_clear (hstart.sound.isPage r.bus_lt ht) r.devfn_lt _ m)
      r.bus_lt ht)

/-! ## interrupt tables -/

theorem goes_route {t : InterruptTable} {i : Nat} {r : InterruptRoute}
    (h : (Operation.route t i r).Called S env m) :
    Goes S (some ((Operation.route t i r).turn env)) m ((Operation.route t i r).after env m) := by
  have hp : IsPage t.base := h.order.sound _ h.mem
  have hstart : Underway S ((Operation.route t i r).turn env) m {t.base.frame} m := h.start
  have hinside : m.Inside t.base ((t.set i r : Act σ RemapError Unit).after env m) := by
    unfold InterruptTable.set
    by_cases hi : interruptEntries ≤ i
    · rw [if_pos hi]
      exact .refl m
    · rw [if_neg hi]
      exact TableEntry.inside_set hp (Nat.lt_of_not_le hi) _ _ m
  exact h.finish (hstart.inside hinside rfl) hp fun _ => Object.grows_of_none rfl

theorem goes_entry {t : InterruptTable} {i : Nat} (h : (Operation.entry t i).Called S env m) :
    Goes S (some ((Operation.entry t i).turn env)) m ((Operation.entry t i).after env m) := by
  have he : (t.entry i : Act σ RemapError EntryWords).after env m = m := by
    unfold InterruptTable.entry
    by_cases hi : interruptEntries ≤ i
    · rw [if_pos hi]
      rfl
    · rw [if_neg hi]
      rfl
  show Goes S _ m ((t.entry i : Act σ RemapError EntryWords).after env m)
  rw [he]
  exact .refl h.order

end

end NestedPaging
