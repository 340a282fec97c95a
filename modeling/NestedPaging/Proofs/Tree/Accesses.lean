import NestedPaging.Proofs.Machine.Cleaning
import NestedPaging.Proofs.Tree.TakenTables

/-!
# An operation, one access after the other

Between two points at which a processor holds nothing back, an operation on a tree takes a page,
fills it, makes it visible and publishes it or gives it back; or it overwrites a run of entries and
makes them visible.

* `Tree.Stage`      how far the processor is with that;
* `Tree.Move`       one access to memory or to the allocator, from stage to stage;
* `Tree.Moves`      any number of them;
* `Move.owns`       each move keeps `Tree.OwnsAt`, which says who owns the pages at a stage;
* `offerTable_moves`, `write_moves`   the two kinds of work, as moves.
-/

namespace NestedPaging

open PhysAddr (IsPage)

variable {σ ε : Type}

namespace Tree

/-- how far a processor is with its work on a tree -/
inductive Stage where
  | idle
  /-- it took a page and writes to it -/
  | filling (page : PhysAddr)
  /-- its page was made visible, and is nobody's -/
  | ready (page : PhysAddr)
  /-- it wrote `count` entries of `table` from `first` up, which are not made visible yet -/
  | written (table : PhysAddr) (first count : Nat)

/-- one access of a processor at work on a tree -/
inductive Move (t : Tree) :
    Layout → Stage → Machine σ → Layout → Stage → Machine σ → Prop
  /-- there is no page -/
  | exhausted {own : Layout} {m : Machine σ} : Move t own .idle m own .idle (m.note .exhausted)
  | take {own : Layout} {m : Machine σ} {q : PhysAddr} : IsPage q → m.isLive q = false →
      Move t own .idle m own (.filling q) (m.take q 0)
  | fill {own : Layout} {m : Machine σ} {q : PhysAddr} {i : Nat} {w : Word} : i < 512 →
      Move t own (.filling q) m own (.filling q) (m.store (q.add (i * 8).toUInt64) w)
  | show {own : Layout} {m : Machine σ} {q : PhysAddr} :
      Move t own (.filling q) m own (.ready q) (m.noteAll (t.cleaning q 4096 m.memory))
  | giveBack {own : Layout} {m : Machine σ} {q : PhysAddr} :
      Move t own (.ready q) m own .idle (m.giveBack q)
  /-- an entry that is no table gets the page, which maps what the entry mapped -/
  | publish {own : Layout} {m : Machine σ} {p q : PhysAddr} {k x i : Nat} :
      own p = some ⟨k + 1, x⟩ → i < 512 →
      t.format.isTable (m.memory.entry p i) (k + 1) = false →
      (∀ j, j < 512 → t.format.Bare m.splitExecute k (m.memory.entry q j)) →
      (∀ a : GuestAddr, a.block (k + 1) = x * 512 + i →
        (t.format.leafOf k (m.memory.entry q (tableIndex a k))).map (Leaf.translation a)
          = (t.format.leafOf (k + 1) (m.memory.entry p i)).map (Leaf.translation a)) →
      Move t own (.ready q) m (own.add q ⟨k, x * 512 + i⟩) (.written p i 1)
        (m.store (p.add (i * 8).toUInt64) (t.format.tableWord q))
  | begin {own : Layout} {m : Machine σ} {p : PhysAddr} {r : Region} {i : Nat} : own p = some r →
      Move t own .idle m own (.written p i 0) m
  | exchange {own : Layout} {m : Machine σ} {p : PhysAddr} {l x i n : Nat} {w : Word} :
      own p = some ⟨l, x⟩ → i + n < 512 → t.format.Bare m.splitExecute l w →
      Move t own (.written p i n) m own (.written p i (n + 1)) (t.exchange ⟨p, i + n, l⟩ w m)
  | finish {own : Layout} {m : Machine σ} {p : PhysAddr} {i n : Nat} :
      Move t own (.written p i n) m own .idle
        (m.noteAll (t.cleaning (p.add (i * 8).toUInt64) (n * 8) m.memory))

/-- any number of moves -/
inductive Moves (t : Tree) (own : Layout) (st : Stage) (m : Machine σ) :
    Layout → Stage → Machine σ → Prop
  | refl : Moves t own st m own st m
  | tail {own' own'' : Layout} {st' st'' : Stage} {k n : Machine σ} :
      Moves t own st m own' st' k → t.Move own' st' k own'' st'' n → Moves t own st m own'' st'' n

variable {t : Tree} {others : Nat → Prop} {own own' own'' : Layout} {st st' st'' : Stage}
  {m k n : Machine σ} {p q : PhysAddr} {T T' : Tables} {i l x : Nat}
  {ws : List Word}

theorem Move.moves (h : t.Move own st m own' st' n) : t.Moves own st m own' st' n := .tail .refl h

theorem Moves.trans (h : t.Moves own st m own' st' k) (h' : t.Moves own' st' k own'' st'' n) :
    t.Moves own st m own'' st'' n := by
  induction h' with
  | refl => exact h
  | tail _ hm ih => exact .tail ih hm

/-! ## who owns the pages -/

/-- the tree owns its pages; a page that was taken is nobody's yet -/
def OwnsAt (t : Tree) (others : Nat → Prop) (own : Layout) (T : Tables) : Stage → Prop
  | .filling q | .ready q =>
    IsPage q ∧ ¬ others q.frame ∧ t.Owns (fun n => others n ∨ n = q.frame) own T
  | _ => t.Owns others own T

namespace Owns

/-- a page that was taken counts among those of others -/
theorem take_page (h : t.Owns others own (t.tables m)) (hq : IsPage q) (hf : m.isLive q = false) :
    t.OwnsAt others own (t.tables (m.take q 0)) (.filling q) := by
  have hfree : ¬ (t.tables m).inUse q.frame := fun hin =>
    Bool.false_ne_true (hf.symm.trans (show m.isLive q = true from hin))
  have hout : ¬ others q.frame := fun ho => hfree ((h.inUse _).mpr (.inl ho))
  have hentry : ∀ {p r i}, own p = some r → i < 512 →
      (m.take q 0).memory.entry p i = m.memory.entry p i := fun hp hi =>
    (entry_fill m.memory 0 hq (h.isPage hp) hi).trans
      (if_neg fun e => h.ne_of_free hp hf e.symm)
  refine ⟨hq, hout, ?_⟩
  -- the entries first, then the pages in use
  have hsame : t.Owns others own { t.tables m with memory := (m.take q 0).memory } :=
    h.same ⟨hentry, fun _ => Iff.rfl, rfl, rfl, rfl⟩
  refine hsame.relabel rfl rfl rfl rfl (fun n => ?_) fun p r hp ho => ?_
  · show n ∈ m.live.insert q.frame ↔ _
    rw [Std.HashSet.mem_insert, beq_iff_eq, eq_comm (a := q.frame), show n ∈ m.live ↔ _ from h.inUse n]
    tauto
  · rcases ho with ho | e
    · exact h.apart hp ho
    · exact hfree (e ▸ h.inUse_page hp)

theorem relabel_free (h : t.Owns (fun n => others n ∨ n = q.frame) own T) (hq : ¬ others q.frame)
    (hm : T'.memory = T.memory) (hs : T'.split = T.split) (hr : T'.retired = T.retired)
    (hd : T'.released = T.released) (hu : ∀ n, T'.inUse n ↔ T.inUse n ∧ n ≠ q.frame) :
    t.Owns others own T' := by
  refine h.relabel hm hs hr hd (fun n => ?_) fun p r hp ho => h.apart hp (.inl ho)
  rw [hu, h.inUse]
  constructor
  · rintro ⟨(ho | rfl) | ho, hne⟩
    · exact .inl ho
    · exact absurd rfl hne
    · exact .inr ho
  · rintro (ho | ⟨p, r, hp, rfl⟩)
    · exact ⟨.inl (.inl ho), fun e => hq (e ▸ ho)⟩
    · exact ⟨.inr ⟨p, r, hp, rfl⟩, fun e => h.apart hp (.inr e)⟩

theorem ne_taken (h : t.Owns (fun n => others n ∨ n = q.frame) own T) {r : Region}
    (hp : own p = some r) : p ≠ q := by
  rintro rfl
  exact h.apart hp (.inr rfl)

/-- a page that was taken becomes a table -/
theorem publish_page {k : Nat} (ho : t.Owns (fun n => others n ∨ n = q.frame) own (t.tables m))
    (hq : IsPage q) (hout : ¬ others q.frame) (hp : own p = some ⟨k + 1, x⟩) (hi : i < 512)
    (hold : t.format.isTable (m.memory.entry p i) (k + 1) = false)
    (hbare : ∀ j, j < 512 → t.format.Bare m.splitExecute k (m.memory.entry q j))
    (hmaps : ∀ a : GuestAddr, a.block (k + 1) = x * 512 + i →
      (t.format.leafOf k (m.memory.entry q (tableIndex a k))).map (Leaf.translation a)
        = (t.format.leafOf (k + 1) (m.memory.entry p i)).map (Leaf.translation a)) :
    (own.add q ⟨k, x * 512 + i⟩).Extends own ∧
      t.Owns others (own.add q ⟨k, x * 512 + i⟩)
        (t.tables (m.store (p.add (i * 8).toUInt64) (t.format.tableWord q))) := by
  -- without the page, the tree owns what it owned before
  have hfree : t.Owns others own { t.tables m with
      inUse := fun n => (t.tables m).inUse n ∧ n ≠ q.frame } :=
    ho.relabel_free hout rfl rfl rfl rfl fun n => Iff.rfl
  have hread : ∀ {p' j}, IsPage p' → j < 512 →
      (m.store (p.add (i * 8).toUInt64) (t.format.tableWord q)).memory.entry p' j
        = if p = p' ∧ i = j then t.format.tableWord q else m.memory.entry p' j :=
    fun hp' hj => entry_write m.memory _ (ho.isPage hp) hp' hi hj
  have hfresh : ∀ {j}, j < 512 →
      (m.store (p.add (i * 8).toUInt64) (t.format.tableWord q)).memory.entry q j
        = m.memory.entry q j := fun hj =>
    (hread hq hj).trans (if_neg fun e => ho.ne_taken hp e.1)
  have hat : Attached t own p q k x i
      { t.tables m with inUse := fun n => (t.tables m).inUse n ∧ n ≠ q.frame }
      (t.tables (m.store (p.add (i * 8).toUInt64) (t.format.tableWord q))) := {
    place := hp
    index := hi
    old := hold
    page := hq
    free := fun hin => hin.2 rfl
    off := fun p' r j hp' hj hs =>
      (hread (ho.isPage hp') hj).trans (if_neg fun e => hs ⟨e.1.symm, e.2.symm⟩)
    here := (hread (ho.isPage hp) hi).trans (if_pos ⟨rfl, rfl⟩)
    fresh := fun j hj => (congrArg (t.format.Bare m.splitExecute k) (hfresh hj)).mpr (hbare j hj)
    inUse := fun j => by
      have hin : j = q.frame → (t.tables m).inUse j := fun e => (ho.inUse j).mpr (.inl (.inr e))
      show (t.tables m).inUse j ↔ ((t.tables m).inUse j ∧ j ≠ q.frame) ∨ j = q.frame
      tauto
    split := rfl
    retired := rfl
    released := rfl
    maps := fun a ha => (congrArg (fun w => (t.format.leafOf k w).map (Leaf.translation a))
      (hfresh (tableIndex_lt a k))).trans (hmaps a ha) }
  exact ⟨Layout.extends_add _ (own_fresh hfree hat), owns_attached hfree hat⟩

end Owns

/-- each move keeps the tree owning its pages, and at most attaches a table -/
theorem Move.owns (h : t.Move own st m own' st' n) (ho : t.OwnsAt others own (t.tables m) st) :
    own'.Extends own ∧ t.OwnsAt others own' (t.tables n) st' := by
  cases h with
  | exhausted => exact ⟨.refl own, ho⟩
  | take hq hf => exact ⟨.refl own, Owns.take_page ho hq hf⟩
  | @fill _ q i w hi =>
    obtain ⟨hq, hout, ho⟩ := ho
    refine ⟨.refl own, hq, hout, ho.same ⟨fun {p r j} hp hj => ?_, fun _ => Iff.rfl, rfl, rfl, rfl⟩⟩
    refine (entry_write m.memory w hq (ho.isPage hp) hi hj).trans (if_neg fun e => ?_)
    exact ho.ne_taken hp e.1.symm
  | «show» => exact ⟨.refl own, ho⟩
  | @giveBack _ q =>
    obtain ⟨_, hout, ho⟩ := ho
    refine ⟨.refl own, ho.relabel_free hout rfl rfl rfl rfl fun n => ?_⟩
    show n ∈ m.live.erase q.frame ↔ n ∈ m.live ∧ _
    rw [Std.HashSet.mem_erase, beq_eq_false_iff_ne, and_comm, ne_comm]
  | @publish _ p q k x i hp hi hold hbare hmaps =>
    obtain ⟨hq, hout, ho⟩ := ho
    exact ho.publish_page hq hout hp hi hold hbare hmaps
  | begin _ => exact ⟨.refl own, ho⟩
  | @exchange _ p l x i n w hp hi hw =>
    refine ⟨.refl own, ?_⟩
    show t.Owns others own _
    rw [tables_exchange]
    exact Owns.owns_replace ho hp hi hw
  | finish => exact ⟨.refl own, ho⟩

theorem Moves.owns (h : t.Moves own st m own' st' n) (ho : t.OwnsAt others own (t.tables m) st) :
    own'.Extends own ∧ t.OwnsAt others own' (t.tables n) st' := by
  induction h with
  | refl => exact ⟨.refl own, ho⟩
  | tail _ hm ih =>
    obtain ⟨hx, ho⟩ := ih
    obtain ⟨hx', ho'⟩ := hm.owns ho
    exact ⟨hx'.trans hx, ho'⟩

/-- from `m` to `n` at most pages, the trace and the list of detached tables change -/
structure Local (t : Tree) (m n : Machine σ) : Prop where
  split : n.splitExecute = m.splitExecute
  client : n.client = m.client
  spaces : n.spaces = m.spaces
  rings : n.rings = m.rings
  next : n.trees.next = m.trees.next
  trees : ∀ i, i ≠ t.cell → n.trees.get i = m.trees.get i
  walkers : (t.state n).walkers = (t.state m).walkers

theorem Local.of_trees (hs : n.splitExecute = m.splitExecute) (hc : n.client = m.client)
    (hp : n.spaces = m.spaces) (hr : n.rings = m.rings) (ht : n.trees = m.trees) : t.Local m n :=
  ⟨hs, hc, hp, hr, congrArg Cells.next ht, fun i _ => congrArg (·.get i) ht,
    congrArg (fun trees => (trees.get t.cell).walkers) ht⟩

theorem Local.trans (h : t.Local m k) (h' : t.Local k n) : t.Local m n :=
  ⟨h'.split.trans h.split, h'.client.trans h.client, h'.spaces.trans h.spaces, h'.rings.trans h.rings,
    h'.next.trans h.next, fun i hi => (h'.trees i hi).trans (h.trees i hi),
    h'.walkers.trans h.walkers⟩

theorem local_retire (t : Tree) (r : TableRef) (m : Machine σ) :
    t.Local m (t.changeState (fun s => { s with retired := s.retired.push r })
      (m.note (.detached t.cell r.table))) := by
  refine ⟨rfl, rfl, rfl, rfl, rfl, fun i hi => ?_, ?_⟩
  · exact (Cells.get_modify ..).trans (if_neg (Ne.symm hi))
  · unfold state changeState
    rw [Cells.get_modify, if_pos rfl]
    rfl

theorem local_exchange (t : Tree) (s : Slot) (w : Word) (m : Machine σ) :
    t.Local m (t.exchange s w m) := by
  have hstore : t.Local m (m.store s.address w) := .of_trees rfl rfl rfl rfl rfl
  unfold Tree.exchange
  split
  · exact hstore.trans (t.local_retire _ _)
  · exact hstore

theorem Move.local (h : t.Move own st m own' st' n) : t.Local m n := by
  cases h with
  | @exchange _ p l x i k w => exact t.local_exchange ⟨p, i + k, l⟩ w m
  | _ => exact .of_trees rfl rfl rfl rfl rfl

theorem Moves.local (h : t.Moves own st m own' st' n) : t.Local m n := by
  induction h with
  | refl => exact .of_trees rfl rfl rfl rfl rfl
  | tail _ hm ih => exact ih.trans hm.local

/-! ## the two kinds of work -/

/-- entries are written to a page that nobody else sees -/
theorem initTable_moves (own : Layout) (env : Env σ) (hq : i + ws.length ≤ 512) (m : Machine σ) :
    ∃ n, (initTable ⟨q, i, l⟩ ws : Act σ ε Unit) env m = .ok () n ∧
      t.Moves own (.filling q) m own (.filling q) n := by
  induction ws generalizing i m with
  | nil => exact ⟨m, rfl, .refl⟩
  | cons w ws ih =>
    rw [List.length_cons] at hq
    have hi : i < 512 := by omega
    obtain ⟨n, hrun, hn⟩ := ih (i := i + 1) (by omega) (m.store (Slot.address ⟨q, i, l⟩) w)
    refine ⟨n, ?_, (Move.fill hi).moves.trans hn⟩
    rw [initTable, Act.bind_apply, Act.store_apply]
    exact hrun

/-- a page offered for an entry is attached there, or given back if somebody was faster -/
theorem offerTable_moves {env : Env σ} {s : Slot} {old : Word} (entries : Bool → List Word)
    (hs : env.supply m = (n, some q)) (h : t.Owns others own (t.tables n)) (hq : IsPage q)
    (hf : n.isLive q = false) (hp : own s.table = some ⟨l + 1, x⟩) (hi : s.index < 512)
    (hold : t.format.isTable old (l + 1) = false)
    (hl : MapsLike t.format n.splitExecute l (x * 512 + s.index) old (entries n.splitExecute))
    (hlen : (entries n.splitExecute).length ≤ 512) :
    ∃ own' n', t.offerTable s old entries env m = .ok () n' ∧
      t.Moves own .idle n own' .idle n' := by
  obtain ⟨k₁, hinit, hfill⟩ := initTable_moves (ε := TableError) (t := t) (q := q)
    (l := s.level - 1) own env (by rw [Nat.zero_add]; exact hlen) (n.take q 0)
  obtain ⟨k₂, hk₂⟩ : ∃ k₂, k₂ = k₁.noteAll (t.cleaning q 4096 k₁.memory) := ⟨_, rfl⟩
  have hclean : (t.clean q 4096 : Act σ TableError Unit) env k₁ = .ok () k₂ := by
    rw [t.clean_apply, hk₂]
  -- the entries of the page are those asked for
  have hprep : Prepared own q (entries n.splitExecute) (t.tables n) (t.tables k₂) := by
    obtain ⟨k, hrun, _, hprep⟩ := prepare (ε := TableError) h hq hf hlen (s.level - 1) env
    rw [Act.bind_apply, hinit] at hrun
    obtain rfl : k₂ = k := by
      injection hclean.symm.trans hrun
    exact hprep
  have hfilled : t.Moves own .idle n own (.ready q) k₂ := by
    rw [hk₂]
    exact ((Move.take hq hf).moves.trans hfill).trans Move.show.moves
  have hrun : t.offerTable s old entries env m = t.publishTable s old q env k₂ := by
    have hsplit : (n.take q 0).splitExecute = n.splitExecute := rfl
    simp only [offerTable, Act.bind_apply, Act.allocOr, Act.allocPage, hs, Act.pure_apply,
      Act.view_apply, hsplit, hinit, hclean]
  rw [hrun]
  by_cases hwin : k₂.memory.read s.address = old
  · have hentry : k₂.memory.entry s.table s.index = old := hwin
    refine ⟨own.add q ⟨l, x * 512 + s.index⟩, _, ?_, (hfilled.trans (Move.publish hp hi ?_
      (fun j hj => ?_) fun a ha => ?_).moves).trans Move.finish.moves⟩
    · simp only [publishTable, Act.bind_apply, Act.publish_apply, hwin, if_true]
      exact t.clean_apply s.address 8 env _
    · rw [hentry]
      exact hold
    · rw [show k₂.memory.entry q j = _ from hprep.fresh j hj,
        show k₂.splitExecute = n.splitExecute from hprep.split]
      exact hl.bare j hj
    · rw [show k₂.memory.entry q _ = _ from hprep.fresh _ (tableIndex_lt a l), hentry]
      exact hl.maps a ha
  · refine ⟨own, k₂.giveBack q, ?_, hfilled.trans Move.giveBack.moves⟩
    simp only [publishTable, Act.bind_apply, Act.publish_apply, hwin, if_false]
    rfl

theorem overwrite_moves (env : Env σ) {c : Nat} (hp : own p = some ⟨l, x⟩)
    (hi : i + c + ws.length ≤ 512) (m : Machine σ)
    (hws : ∀ w ∈ ws, t.format.Bare m.splitExecute l w) :
    ∃ n, (t.overwrite ⟨p, i + c, l⟩ ws : Act σ ε Unit) env m = .ok () n ∧
      t.Moves own (.written p i c) m own (.written p i (c + ws.length)) n := by
  induction ws generalizing c m with
  | nil => exact ⟨m, rfl, .refl⟩
  | cons w ws ih =>
    rw [List.length_cons] at hi
    have hsplit : (t.exchange ⟨p, i + c, l⟩ w m).splitExecute = m.splitExecute :=
      congrArg Tables.split (t.tables_exchange ⟨p, i + c, l⟩ w m)
    obtain ⟨n, hrun, hn⟩ := ih (c := c + 1) (by omega) (t.exchange ⟨p, i + c, l⟩ w m) fun v hv => by
      rw [hsplit]
      exact hws v (List.mem_cons_of_mem w hv)
    refine ⟨n, (overwrite_cons ..).trans hrun, ?_⟩
    rw [List.length_cons, Nat.add_comm ws.length 1, ← Nat.add_assoc]
    exact (Move.exchange hp (by omega) (hws w List.mem_cons_self)).moves.trans hn

/-- a run of entries is overwritten and made visible -/
theorem write_moves (own : Layout) {p : Mapping} (s : Slot) (level count : Nat) {α : Type} (v : α) (env : Env σ)
    (m : Machine σ) (hp : own s.table = some ⟨s.level, x⟩) (hi : s.index + count ≤ 512)
    (hws : ∀ w ∈ p.entries t.format m.splitExecute level count,
      t.format.Bare m.splitExecute s.level w) :
    ∃ n, (do let split ← Act.view (·.splitExecute)
             t.overwrite s (p.entries t.format split level count)
             t.clean s.address (count * 8)
             pure v : Act σ ε α) env m = .ok v n ∧ t.Moves own .idle m own .idle n := by
  have hlen := p.length_entries t.format m.splitExecute level count
  obtain ⟨k, hrun, hk⟩ := overwrite_moves (ε := ε) (t := t) (i := s.index) (c := 0) env hp
    (by rw [hlen]; exact hi) m hws
  rw [hlen, Nat.zero_add] at hk
  refine ⟨_, ?_, ((Move.begin hp).moves.trans hk).trans Move.finish.moves⟩
  simp only [Act.bind_apply, Act.view_apply, show (t.overwrite s _ : Act σ ε Unit) env m = _ from hrun,
    t.clean_apply, Act.pure_apply]
  rfl

/-! ## creation -/

/-- the root is taken and made visible, and the tree gets a cell of its own -/
theorem create_eq {f : Format} {cleaner : Option Cleaner} {env : Env σ}
    (h : create f cleaner env m = .ok t n) :
    ∃ k, env.supply m = (k, some t.root) ∧ t.cleaner = cleaner ∧ t.cell = k.trees.next ∧
      n = { (k.take t.root 0).noteAll (t.cleaning t.root 4096 (k.take t.root 0).memory) with
        trees := (k.trees.fresh {}).2 } := by
  obtain ⟨k, j, hs, _, hc, hj, hcell, rfl⟩ := create_cleans h
  rw [t.clean_apply] at hj
  injection hj with _ hj
  subst hj
  exact ⟨k, hs, hc, hcell, rfl⟩

end Tree

end NestedPaging
